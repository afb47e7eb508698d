import RomEmbed.Text.Terminal
import RomEmbed.CommandLine.Similarity

/-!
What the command line ends in when it is not a request: help, the version, or an error.
Each has an exit code, a stream and a message. The message is a text of its own and is
also printed; the two leave control sequences of the arguments out in different ways.
-/

namespace RomEmbed.CommandLine

def dash : UInt8 := 0x2D

inductive Flag where
  | help
  | version
deriving DecidableEq

def Flag.name : Flag → Text
  | help => "help".toList
  | version => "version".toList

inductive Report where
  /-- Help or version was asked for. -/
  | shown (flag : Flag)
  /-- A flag was given a value; `complete` if both positional arguments came before. -/
  | flagValue (flag : Flag) (value : Bytes) (complete : Bool)
  /-- A long option, named without its dashes. -/
  | unknownLong (name : Bytes)
  /-- A cluster of short options, of which only `shown` is told. -/
  | unknownShort (shown : Text)
  /-- A third positional argument. -/
  | surplus (argument : Bytes)
  | emptyRom
  | nameNotUtf8
  /-- The name is missing, and perhaps the ROM too. -/
  | missing (rom : Bool)
deriving DecidableEq

namespace Report

/-- The broad kind of a report, by which callers tell reports apart. -/
inductive Kind where
  | help
  | version
  | tooManyValues
  | unknownArgument
  | invalidValue
  | invalidUtf8
  | missingArgument
deriving DecidableEq

def kind : Report → Kind
  | shown .help => .help
  | shown .version => .version
  | flagValue _ _ _ => .tooManyValues
  | unknownLong _ | unknownShort _ | surplus _ => .unknownArgument
  | emptyRom => .invalidValue
  | nameNotUtf8 => .invalidUtf8
  | missing _ => .missingArgument

def usage : Text := "Usage: romgen <ROM> <OUTPUT_NAME>".toList

def usageWith (flag : Flag) (complete : Bool) : Text :=
  "Usage: romgen --".toList ++ flag.name ++
    (if complete then " <ROM|OUTPUT_NAME>" else " <ROM> <OUTPUT_NAME>").toList

/-- The end of every error's message. -/
def pointer : Text := "\n\nFor more information, try '--help'.\n".toList

def helpText : Text :=
  ["Embeds a binary ROM image into a generated JavaScript class",
    "",
    "Usage: romgen <ROM> <OUTPUT_NAME>",
    "",
    "Arguments:",
    "  <ROM>          Path to the ROM image to embed",
    "  <OUTPUT_NAME>  Name of the generated class, also used as the output file stem",
    "",
    "Options:",
    "  -h, --help     Print help",
    "  -V, --version  Print version"].flatMap fun line => line.toList ++ ['\n']

def versionText : Text := "romgen 0.1.0\n".toList

/-- Similarity above which a flag is suggested. -/
def likeness : Float := 0.7

/-- The flag most like an unknown name, if any is like it at all. -/
def suggestion? (name : Text) : Option Flag :=
  let help := Similarity.jaro name Flag.help.name
  let version := Similarity.jaro name Flag.version.name
  if version > likeness ∧ (version ≥ help ∨ ¬ help > likeness) then some .version
  else if help > likeness then some .help
  else none

def unexpected (shown : Text) : Text :=
  "error: unexpected argument '".toList ++ shown ++ "' found\n\n".toList

/-- How to have an argument with dashes taken as a value. -/
def escapeTip (shown : Text) : Text :=
  "  tip: to pass '".toList ++ shown ++ "' as a value, use '-- ".toList ++ shown ++
    "'\n\n".toList

def longForm (name : Bytes) : Bytes := dash :: dash :: name

/-- What to do about an unknown long option that is told as `shown`. -/
def longTip (name : Bytes) (shown : Text) : Text :=
  match suggestion? (Utf8.lossy name) with
  | some flag =>
    "  tip: a similar argument exists: '--".toList ++ flag.name ++ "'\n\n".toList ++
      usageWith flag false
  | none => escapeTip shown ++ usage

/-- The message, with `told` for how the text of an argument is told. Octets that are no
text are replaced before. -/
def messageWith (told : Text → Text) : Report → Text
  | shown .help => helpText
  | shown .version => versionText
  | flagValue flag value complete =>
    "error: unexpected value '".toList ++ told (Utf8.lossy value) ++ "' for '--".toList ++
      flag.name ++ "' found; no more were expected\n\n".toList ++
      usageWith flag complete ++ pointer
  | unknownLong name =>
    let shown := told (Utf8.lossy (longForm name))
    unexpected shown ++ longTip name shown ++ pointer
  | unknownShort cluster =>
    let shown := told ('-' :: cluster)
    unexpected shown ++ escapeTip shown ++ usage ++ pointer
  | surplus argument =>
    unexpected (told (Utf8.lossy argument)) ++ usage ++ pointer
  | emptyRom =>
    "error: a value is required for '<ROM>' but none was supplied".toList ++ pointer
  | nameNotUtf8 =>
    "error: invalid UTF-8 was detected in one or more arguments\n\n".toList ++ usage ++ pointer
  | missing rom =>
    "error: the following required arguments were not provided:\n".toList ++
      (if rom then "  <ROM>\n".toList else []) ++ "  <OUTPUT_NAME>\n\n".toList ++
      usage ++ pointer

/-- The message as a text, without control sequences. -/
def message (r : Report) : Text := r.messageWith Terminal.plain

/-- The message as it is printed. -/
def printed (r : Report) : Text := r.messageWith Terminal.streamed

/-- Only what was asked for counts as success. -/
def isError : Report → Bool
  | shown _ => false
  | _ => true

def exitCode (r : Report) : Nat := if r.isError then 2 else 0

end Report

end RomEmbed.CommandLine
