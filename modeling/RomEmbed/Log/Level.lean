import RomEmbed.Text.Basic

/-!
Log levels. A threshold is a level up to which records pass, or `none` where none does.
-/

namespace RomEmbed.Log

/-- From the gravest to the most detailed. -/
inductive Level where
  | error
  | warn
  | info
  | debug
  | trace
deriving DecidableEq

namespace Level

def detail : Level → Nat
  | error => 0
  | warn => 1
  | info => 2
  | debug => 3
  | trace => 4

def label : Level → String
  | error => "ERROR"
  | warn => "WARN"
  | info => "INFO"
  | debug => "DEBUG"
  | trace => "TRACE"

def all : List Level := [error, warn, info, debug, trace]

end Level

/-- The most detailed level that passes. -/
abbrev Threshold := Option Level

namespace Threshold

def admits (t : Threshold) (l : Level) : Bool :=
  match t with
  | none => false
  | some most => l.detail ≤ most.detail

theorem admits_mono {a b l : Level} (hab : a.detail ≤ b.detail)
    (h : admits (some a) l = true) : admits (some b) l = true := by
  simp only [admits, decide_eq_true_eq] at h ⊢
  omega

def label : Threshold → String
  | none => "OFF"
  | some l => l.label

/-- Reads the name of a threshold, in any case of its ASCII letters. -/
def parse? (t : Text) : Option Threshold :=
  (none :: Level.all.map some).find? fun l => (label l).toList == t.map Char.toUpper

end Threshold

/-- Something that happened, told to whoever listens to the target. -/
structure Record where
  level : Level
  target : Text
  message : Text
deriving DecidableEq

/-- The record as it is shown, without the end of the line. -/
def Record.line (r : Record) : Text := r.level.label.toList ++ ": ".toList ++ r.message

/-- The records that pass a threshold. -/
def upTo (t : Threshold) (rs : List Record) : List Record := rs.filter (t.admits ·.level)

/-- The most detailed threshold lets everything through. -/
theorem upTo_trace (rs : List Record) : upTo (some .trace) rs = rs := by
  refine List.filter_eq_self.mpr fun r _ => ?_
  cases r.level <;> rfl

/-- What a listener writes down of the records that it is told, one after the other. -/
structure Journal where
  threshold : Threshold
  entries : List Record := []

/-- A record that does not pass the threshold is not written down. -/
def Journal.tell (j : Journal) (r : Record) : Journal :=
  if j.threshold.admits r.level then { j with entries := j.entries ++ [r] } else j

end RomEmbed.Log
