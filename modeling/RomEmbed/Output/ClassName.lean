import RomEmbed.Text.Utf8

/-!
Names of generated classes. Any text is accepted as a name and goes into the class as it
stands; a name that is not plain only earns a warning. The file of a class is the name
with the extension appended, so that dots and slashes in it keep their meaning.
-/

namespace RomEmbed.ClassName

/-- Letters here are those of ASCII. -/
def isLead (c : Char) : Bool := c.isAlpha || c == '_' || c == '$'

def isInner (c : Char) : Bool := c.isAlphanum || c == '_' || c == '$'

/-- A letter, underscore or dollar sign, then such characters and digits. -/
def isPlain : Text → Bool
  | [] => false
  | c :: r => isLead c && r.all isInner

def extension : Text := ".js".toList

/-- The path of the class's file, relative to the working directory. -/
def file (name : Text) : Bytes := Utf8.encode (name ++ extension)

end RomEmbed.ClassName
