import RomEmbed.Log.Level
import RomEmbed.Log.Pattern

/-!
Log settings: a list of directives separated by commas, then perhaps a slash and a
pattern. A directive sets the threshold of all targets or of those that begin with its
target; for a record the longest such beginning decides. What cannot be read is
complained about and left out, also a pattern.
-/

namespace RomEmbed.Log

/-- The threshold of the targets that begin with `target`, or of all. -/
structure Directive where
  target : Option Text
  threshold : Threshold
deriving DecidableEq

namespace Directive

def covers (d : Directive) (target : Text) : Bool :=
  match d.target with
  | none => true
  | some start => start.isPrefixOf target

/-- How much of a target the directive names. -/
def length (d : Directive) : Nat :=
  match d.target with
  | none => 0
  | some start => start.length

/-- What cannot be read is returned as it is to be quoted. -/
def parse (piece : Text) : Except Text Directive :=
  match piece.splitOn '=' with
  | [name] =>
    match Threshold.parse? name with
    | some t => .ok ⟨none, t⟩
    | none => .ok ⟨some name, some .trace⟩
  | [name, level] =>
    let level := Text.trim level
    if level = [] then .ok ⟨some name, some .trace⟩
    else match Threshold.parse? level with
      | some t => .ok ⟨some name, t⟩
      | none => .error level
  | _ => .error piece

end Directive

/-- Directives for distinct targets. A later directive takes the place of an earlier one
for the same target. -/
def put (ds : List Directive) (d : Directive) : List Directive :=
  if ds.any (·.target == d.target) then
    ds.map fun e => if e.target == d.target then d else e
  else ds ++ [d]

/-- Every message passes where there is no pattern. -/
def everything : Text → Bool := fun _ => true

/-- What a setting lets through. -/
structure Filter where
  directives : List Directive := []
  passes : Text → Bool := everything

namespace Filter

/-- The directive that decides for a target: the longest that covers it, and the later of
two that are equally long. -/
def decisive (f : Filter) (target : Text) : Option Directive :=
  (f.directives.filter (·.covers target)).foldl
    (fun best d =>
      match best with
      | none => some d
      | some b => if b.length ≤ d.length then some d else some b)
    none

def threshold (f : Filter) (target : Text) : Threshold :=
  match f.decisive target with
  | none => none
  | some d => d.threshold

def admits (f : Filter) (r : Record) : Bool :=
  Threshold.admits (f.threshold r.target) r.level && f.passes r.message

/-- Without directives, errors of all targets pass. -/
def ofDirectives (ds : List Directive) (passes : Text → Bool) : Filter :=
  ⟨if ds = [] then [⟨none, some .error⟩] else ds, passes⟩

end Filter

/-- A filter and the complaints about the setting it was read from. -/
structure Setting where
  filter : Filter
  complaints : List Text

namespace Setting

def warning (of : Text) : Text := "warning: ".toList ++ of ++ ", ignoring it".toList

def complaint (quoted remark : Text) : Text :=
  warning ("invalid logging spec '".toList ++ quoted ++ ['\''] ++ remark)

/-- The pieces between the commas, trimmed; blank ones say nothing. -/
def pieces (t : Text) : List Text := ((t.splitOn ',').map Text.trim).filter (· ≠ [])

/-- The messages that pass a pattern, and a complaint if it cannot be read. -/
def readPattern (engine : Engine) (pattern : Text) : (Text → Bool) × List Text :=
  match engine.compile pattern with
  | .ok passes => (passes, [])
  | .error reason => (everything, [warning ("invalid regex filter - ".toList ++ reason)])

def ofPieces (ps : List Text) (pattern : (Text → Bool) × List Text) : Setting :=
  let read := ps.map Directive.parse
  let directives := read.filterMap fun
    | .ok d => some d
    | .error _ => none
  let quoted := read.filterMap fun
    | .ok _ => none
    | .error q => some q
  ⟨.ofDirectives (directives.foldl put []) pattern.1,
    quoted.map (complaint · []) ++ pattern.2⟩

def parse (engine : Engine) (t : Text) : Setting :=
  match t.splitOn '/' with
  | [list] => ofPieces (pieces list) (everything, [])
  | [list, pattern] => ofPieces (pieces list) (readPattern engine pattern)
  | _ => ⟨.ofDirectives [] everything, [complaint t " (too many '/'s)".toList]⟩

/-- Where nothing is set, warnings of all targets pass. -/
def ofVariable (engine : Engine) : Option Text → Setting
  | none => parse engine "warn".toList
  | some t => parse engine t

end Setting

end RomEmbed.Log
