import RomEmbed.Text.Basic

/-!
Errors of input and output: what the operating system reports by number, and what is
reported without one. Each has a kind and a text.
-/

namespace RomEmbed

/-- The broad kind of an error, by which callers tell errors apart. -/
inductive IoError.Kind where
  | notFound
  | permissionDenied
  | alreadyExists
  | invalidInput
  | invalidData
  | timedOut
  | writeZero
  | interrupted
  | unexpectedEof
  | outOfMemory
  | brokenPipe
  | storageFull
  | isADirectory
  | notADirectory
  | directoryNotEmpty
  | readOnlyFilesystem
  | filesystemLoop
  | invalidFilename
  | inputOutput
  | tooManyOpenFiles
  | resourceBusy
  | crossesDevices
  | other
deriving DecidableEq, Inhabited

/-- The text of an error that is known by its kind alone. -/
def IoError.Kind.text : IoError.Kind → String
  | notFound => "entity not found"
  | permissionDenied => "permission denied"
  | alreadyExists => "entity already exists"
  | invalidInput => "invalid input parameter"
  | invalidData => "invalid data"
  | timedOut => "timed out"
  | writeZero => "write zero"
  | interrupted => "operation interrupted"
  | unexpectedEof => "unexpected end of file"
  | outOfMemory => "out of memory"
  | brokenPipe => "broken pipe"
  | storageFull => "no storage space"
  | isADirectory => "is a directory"
  | notADirectory => "not a directory"
  | directoryNotEmpty => "directory not empty"
  | readOnlyFilesystem => "read-only filesystem or storage medium"
  | filesystemLoop => "filesystem loop or indirection limit (e.g. symlink loop)"
  | invalidFilename => "invalid filename"
  | inputOutput => "input/output error"
  | tooManyOpenFiles => "too many open files"
  | resourceBusy => "resource busy"
  | crossesDevices => "cross-device link or rename"
  | other => "other error"

/-- The errors that a system call reports. -/
inductive OsError where
  | notPermitted
  | noEntry
  | interrupted
  | inputOutput
  | accessDenied
  | busy
  | entryExists
  | crossDevice
  | notADirectory
  | isADirectory
  | invalidArgument
  | tooManyOpenFiles
  | noSpace
  | readOnly
  | brokenPipe
  | nameTooLong
  | notEmpty
  | linkLoop
deriving DecidableEq

namespace OsError

def number : OsError → Nat
  | notPermitted => 1
  | noEntry => 2
  | interrupted => 4
  | inputOutput => 5
  | accessDenied => 13
  | busy => 16
  | entryExists => 17
  | crossDevice => 18
  | notADirectory => 20
  | isADirectory => 21
  | invalidArgument => 22
  | tooManyOpenFiles => 24
  | noSpace => 28
  | readOnly => 30
  | brokenPipe => 32
  | nameTooLong => 36
  | notEmpty => 39
  | linkLoop => 40

def all : List OsError :=
  [notPermitted, noEntry, interrupted, inputOutput, accessDenied, busy, entryExists,
    crossDevice, notADirectory, isADirectory, invalidArgument, tooManyOpenFiles, noSpace,
    readOnly, brokenPipe, nameTooLong, notEmpty, linkLoop]

def ofNumber? (n : Nat) : Option OsError := all.find? (·.number == n)

theorem ofNumber?_number (e : OsError) : ofNumber? e.number = some e := by
  cases e <;> rfl

def kind : OsError → IoError.Kind
  | notPermitted => .permissionDenied
  | noEntry => .notFound
  | interrupted => .interrupted
  | inputOutput => .inputOutput
  | accessDenied => .permissionDenied
  | busy => .resourceBusy
  | entryExists => .alreadyExists
  | crossDevice => .crossesDevices
  | notADirectory => .notADirectory
  | isADirectory => .isADirectory
  | invalidArgument => .invalidInput
  | tooManyOpenFiles => .tooManyOpenFiles
  | noSpace => .storageFull
  | readOnly => .readOnlyFilesystem
  | brokenPipe => .brokenPipe
  | nameTooLong => .invalidFilename
  | notEmpty => .directoryNotEmpty
  | linkLoop => .filesystemLoop

def description : OsError → String
  | notPermitted => "Operation not permitted"
  | noEntry => "No such file or directory"
  | interrupted => "Interrupted system call"
  | inputOutput => "Input/output error"
  | accessDenied => "Permission denied"
  | busy => "Device or resource busy"
  | entryExists => "File exists"
  | crossDevice => "Invalid cross-device link"
  | notADirectory => "Not a directory"
  | isADirectory => "Is a directory"
  | invalidArgument => "Invalid argument"
  | tooManyOpenFiles => "Too many open files"
  | noSpace => "No space left on device"
  | readOnly => "Read-only file system"
  | brokenPipe => "Broken pipe"
  | nameTooLong => "File name too long"
  | notEmpty => "Directory not empty"
  | linkLoop => "Too many levels of symbolic links"

end OsError

/-- An error reported by the system, one with a text of its own, or one known by its
kind alone. -/
inductive IoError where
  | os (code : OsError)
  | custom (kind : IoError.Kind) (text : Text)
  | plain (kind : IoError.Kind)
deriving DecidableEq

namespace IoError

instance : Inhabited IoError := ⟨.plain .other⟩

def kind : IoError → Kind
  | os code => code.kind
  | custom kind _ => kind
  | plain kind => kind

def number? : IoError → Option Nat
  | os code => some code.number
  | _ => none

def text : IoError → Text
  | os code =>
    code.description.toList ++ " (os error ".toList ++ Text.ofNat code.number ++ [')']
  | custom _ text => text
  | plain kind => kind.text.toList

end IoError

end RomEmbed
