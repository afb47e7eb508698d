import RomEmbed.IoError

/-!
Paths as the system reads them: names between slashes, with `.` and `..` and a slash at
the end told apart, since each asks for something else at the last step.
-/

namespace RomEmbed.Files

/-- A name in a directory. -/
abbrev Name := Bytes

/-- One step of a path. -/
inductive Part where
  | here
  | up
  | name (n : Name)
  /-- A slash at the end: what came before has to be a directory. -/
  | slash
deriving DecidableEq

def slashOctet : UInt8 := 0x2F
def dotOctet : UInt8 := 0x2E

namespace Part

def ofName (n : Name) : Part :=
  if n = [dotOctet] then here
  else if n = [dotOctet, dotOctet] then up
  else name n

end Part

/-- The names between the slashes. Several slashes in a row count as one. -/
def names (raw : Bytes) : List Name := (raw.splitOn slashOctet).filter (· ≠ [])

structure Path where
  absolute : Bool
  parts : List Part
deriving DecidableEq

namespace Path

def parse (raw : Bytes) : Path where
  absolute := raw.head? = some slashOctet
  parts := (names raw).map Part.ofName ++
    (if raw.getLast? = some slashOctet then [.slash] else [])

/-- The longest name that a directory holds. -/
def maxName : Nat := 255

/-- A path is shorter than this. -/
def maxPath : Nat := 4096

/-- No call is made with a NUL in a path. -/
def refuseNul (raw : Bytes) : Except IoError Unit :=
  if 0 ∈ raw then
    .error (.custom .invalidInput "file name contained an unexpected NUL byte".toList)
  else .ok ()

/-- The path a call is made with. -/
def read (raw : Bytes) : Except IoError Path := do
  refuseNul raw
  if raw = [] then .error (.os .noEntry)
  else if raw.length ≥ maxPath then .error (.os .nameTooLong)
  else .ok (parse raw)

end Path

end RomEmbed.Files
