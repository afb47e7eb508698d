import RomEmbed.Rom
import RomEmbed.Text.Utf8
import RomEmbed.Output.ArrayLiteral

/-!
The text of a generated class: a fixed frame around a name and an array literal, both
put in as they stand. The class keeps the array in `memory`; reading indexes it and
writing only logs the attempt. `decode?` takes the frame apart again; `array?` only looks
for the assignment to `memory`, as a reader of the class might.
-/

namespace RomEmbed

/-- The two texts that vary from class to class. -/
structure ClassText where
  name : Text
  literal : Text
deriving DecidableEq

namespace ClassText

/-- The class that embeds an image. -/
def embedding (name : Text) (rom : Rom) : ClassText := ⟨name, ArrayLiteral.render rom.bytes⟩

/-- What stands before the name. -/
def opening : Text := "\nclass ".toList

/-- What stands between the name and the literal. -/
def assignment : Text :=
  " \x7b\n    constructor() \x7b\n        this.memory = ".toList

/-- What stands after the literal. -/
def accessors : Text :=
  [";",
    "    \x7d",
    "",
    "    read(addr) \x7b",
    "        return this.memory[addr];",
    "    \x7d",
    "",
    "    write(addr, value) \x7b",
    "        console.log(\"Attempted to write \" + value.toString(16) + \" to ROM at \" + addr.toString(16));",
    "    \x7d",
    "\x7d"].flatMap fun line => line.toList ++ ['\n']

def render (c : ClassText) : Text :=
  opening ++ (c.name ++ (assignment ++ (c.literal ++ accessors)))

/-- The octets of the file that embeds an image. -/
def bytes (name : Text) (rom : Rom) : Bytes := Utf8.encode (embedding name rom).render

/-- Cuts a text before its last opening bracket. -/
def cutAtBracket? (t : Text) : Option (Text × Text) :=
  match t.reverse.dropWhile (· ≠ '[') with
  | [] => none
  | _ :: front => some (front.reverse, '[' :: (t.reverse.takeWhile (· ≠ '[')).reverse)

/-- The name and the image of a generated class. -/
def decode? (t : Text) : Option (Text × Rom) := do
  let t ← opening.isPrefixOf? t
  let t ← accessors.isSuffixOf? t
  let (front, literal) ← cutAtBracket? t
  let name ← assignment.isSuffixOf? front
  let bytes ← ArrayLiteral.decode? literal
  return (name, ⟨bytes⟩)

/-- What follows the first occurrence of a mark. -/
def after? (mark : Text) : Text → Option Text
  | [] => mark.isPrefixOf? []
  | c :: r =>
    match mark.isPrefixOf? (c :: r) with
    | some rest => some rest
    | none => after? mark r

/-- What tells where the array begins. -/
def marker : Text := "this.memory = ".toList

/-- The text from the first marker to the next semicolon. -/
def array? (t : Text) : Option Text := do
  let rest ← after? marker t
  if ';' ∈ rest then some (rest.takeWhile (· ≠ ';')) else none

end ClassText

end RomEmbed
