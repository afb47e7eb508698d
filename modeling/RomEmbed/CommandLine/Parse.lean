import RomEmbed.CommandLine.Report

/-!
Reading the command line: a scan of the arguments from left to right that either goes on
or ends in a report. The latest positional argument is checked only when something else
asks for it: the next positional argument, help, version, or the end.
-/

namespace RomEmbed.CommandLine

/-- What a valid command line asks for. -/
structure Request where
  rom : Bytes
  name : Text
deriving DecidableEq

/-- The positional arguments so far. -/
inductive Seen where
  | none
  | rom (rom : Bytes)
  | both (rom name : Bytes)
deriving DecidableEq

structure State where
  /-- Whether `--` has come, after which every argument is positional. -/
  escaped : Bool := false
  seen : Seen := .none
deriving DecidableEq

/-- What an argument is by its form. -/
inductive Form where
  | escape
  | long (name : Bytes) (value : Option Bytes)
  | short (cluster : Bytes)
  | positional

def equals : UInt8 := 0x3D

/-- The name of a long option ends at the first equals sign. -/
def Form.ofLong (text : Bytes) : Form :=
  .long (text.takeWhile (· ≠ equals))
    (match text.dropWhile (· ≠ equals) with
      | [] => Option.none
      | _ :: value => some value)

def Form.of : Bytes → Form
  | [] => .positional
  | a :: r =>
    if a ≠ dash then .positional
    else match r with
      | [] => .positional
      | b :: s =>
        if b ≠ dash then .short r
        else if s = [] then .escape
        else .ofLong s

def flag? (name : Bytes) : Option Flag :=
  if name = Utf8.encode Flag.help.name then some .help
  else if name = Utf8.encode Flag.version.name then some .version
  else none

/-- Checks the latest positional argument. -/
def Seen.check : Seen → Except Report Unit
  | none => .ok ()
  | rom r => if r = [] then .error .emptyRom else .ok ()
  | both _ n => if Utf8.decode? n = Option.none then .error .nameNotUtf8 else .ok ()

def Seen.isBoth : Seen → Bool
  | both _ _ => true
  | _ => false

/-- Takes one more positional argument. -/
def Seen.take (arg : Bytes) : Seen → Except Report Seen
  | none => .ok (.rom arg)
  | rom r => do
    (Seen.rom r).check
    return .both r arg
  | both _ _ => .error (.surplus arg)

/-- A flag stops the scan once the latest positional argument is found valid. -/
def stop (seen : Seen) (flag : Flag) : Except Report State := do
  seen.check
  .error (.shown flag)

def long (seen : Seen) (name : Bytes) (value : Option Bytes) : Except Report State :=
  match flag? name, value with
  | some flag, none => stop seen flag
  | some flag, some value => .error (.flagValue flag value seen.isBoth)
  | none, _ => .error (.unknownLong name)

/-- Only the first character of a cluster counts; without one the cluster is told whole. -/
def short (seen : Seen) (cluster : Bytes) : Except Report State :=
  match Utf8.scan cluster with
  | some 'h' :: _ => stop seen .help
  | some 'V' :: _ => stop seen .version
  | some c :: _ => .error (.unknownShort [c])
  | _ => .error (.unknownShort (Utf8.lossy cluster))

def step (s : State) (arg : Bytes) : Except Report State :=
  if s.escaped then return { s with seen := ← s.seen.take arg }
  else match Form.of arg with
    | .escape => .ok { s with escaped := true }
    | .long name value => long s.seen name value
    | .short cluster => short s.seen cluster
    | .positional => return { s with seen := ← s.seen.take arg }

def run (s : State) : List Bytes → Except Report State
  | [] => .ok s
  | arg :: r => do run (← step s arg) r

@[simp] theorem run_nil (s : State) : run s [] = .ok s := rfl

@[simp] theorem run_cons (s : State) (arg : Bytes) (r : List Bytes) :
    run s (arg :: r) = step s arg >>= (run · r) := rfl

theorem run_append (s : State) (as bs : List Bytes) :
    run s (as ++ bs) = run s as >>= (run · bs) := by
  induction as generalizing s with
  | nil => rfl
  | cons a r ih =>
    simp only [List.cons_append, run_cons]
    cases step s a with
    | error e => rfl
    | ok t => exact ih t

/-- The end of the arguments: a request if both positional ones are there and valid. -/
def finish (s : State) : Except Report Request :=
  match s.seen with
  | .none => .error (.missing true)
  | .rom r => do
    (Seen.rom r).check
    .error (.missing false)
  | .both r n =>
    match Utf8.decode? n with
    | some name => .ok ⟨r, name⟩
    | none => .error .nameNotUtf8

def parse (args : List Bytes) : Except Report Request := do
  finish (← run {} args)

end RomEmbed.CommandLine
