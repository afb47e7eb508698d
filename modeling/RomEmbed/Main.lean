import RomEmbed.Program

/-!
The command: the same steps as `Program.run`, on the files of the machine, and with plain
patterns only.
-/

namespace RomEmbed.Command

/-- The number of a system error; some calls report it negated. -/
def systemNumber (n : UInt32) : Nat :=
  if n.toNat < 0x80000000 then n.toNat else 0x100000000 - n.toNat

/-- What the system reports, as far as its numbers are known. -/
def systemError (e : IO.Error) : IoError :=
  let number : Option UInt32 := match e with
    | .alreadyExists _ n _ | .otherError n _ | .resourceBusy n _ | .resourceVanished n _
    | .unsupportedOperation n _ | .hardwareFault n _ | .unsatisfiedConstraints n _
    | .illegalOperation n _ | .protocolError n _ | .timeExpired n _
    | .interrupted _ n _ | .noFileOrDirectory _ n _ | .invalidArgument _ n _
    | .permissionDenied _ n _ | .resourceExhausted _ n _ | .inappropriateType _ n _
    | .noSuchThing _ n _ => some n
    | _ => none
  match number.bind fun n => OsError.ofNumber? (systemNumber n) with
  | some code => .os code
  | none => .custom .other (toString e).toList

/-- The result of an action, or what the system reports. -/
def attempt (act : IO α) : IO (Except IoError α) := do
  try return .ok (← act)
  catch e => return .error (systemError e)

def readAll (path : String) : IO ByteArray := do
  let file ← IO.FS.Handle.mk path .read
  file.readBinToEnd

/-- The flush shows an error that would be lost when the file is closed. -/
def writeAll (path : String) (bytes : ByteArray) : IO Unit := do
  let file ← IO.FS.Handle.mk path .write
  file.write bytes
  file.flush

def embedFile (request : CommandLine.Request) : IO Embedding.Outcome := do
  let path := String.ofList (Utf8.lossy request.rom)
  match ← attempt (readAll path) with
  | .error e => return Embedding.failedToLoad (.unreadable request.rom e)
  | .ok bytes =>
    let rom : Rom := ⟨bytes.toList⟩
    let text := ClassText.bytes request.name rom
    let file := String.ofList (request.name ++ ClassName.extension)
    let done ← attempt (writeAll file (ByteArray.mk text.toArray))
    return Embedding.afterWriting request.rom request.name rom done

end RomEmbed.Command

open RomEmbed in
/-- Runs on the arguments of the process. -/
def main (args : List String) : IO UInt32 := do
  let printed ← match CommandLine.parse (args.map fun a => Utf8.encode a.toList) with
    | .error report => pure (Program.ofReport report)
    | .ok request =>
      let setting := Log.Setting.ofVariable .plain ((← IO.getEnv "RUST_LOG").map String.toList)
      pure (Program.ofOutcome setting (← Command.embedFile request))
  IO.print (String.ofList printed.output)
  IO.eprint (String.ofList printed.errors)
  return UInt32.ofNat printed.exitCode
