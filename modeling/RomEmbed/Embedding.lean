import RomEmbed.Log.Level
import RomEmbed.Output.ClassName
import RomEmbed.Output.ClassText
import RomEmbed.Files.Open

/-!
Embedding a ROM: the image is read whole, its class is written to the file named after
the class, and what happens is recorded. The image is read before the file is opened, so
the two may be one file.
-/

namespace RomEmbed

/-- Why no class was written, with the path of the file that failed. -/
inductive EmbedError where
  | unreadable (rom : Bytes) (cause : IoError)
  | unwritable (output : Bytes) (cause : IoError)
deriving DecidableEq

namespace EmbedError

def path : EmbedError → Bytes
  | unreadable rom _ => rom
  | unwritable output _ => output

def cause : EmbedError → IoError
  | unreadable _ cause => cause
  | unwritable _ cause => cause

def message (e : EmbedError) : Text :=
  let act := match e with
    | unreadable _ _ => "Failed to read ROM '"
    | unwritable _ _ => "Failed to write '"
  act.toList ++ Utf8.lossy e.path ++ "': ".toList ++ e.cause.text

end EmbedError

open Files (Tree)

/-- The image in a file. -/
def Rom.load (t : Tree) (path : Bytes) : Except EmbedError Rom :=
  match t.read path with
  | .ok bytes => .ok ⟨bytes⟩
  | .error e => .error (.unreadable path e)

namespace Embedding

/-- Where records of the embedding and of the loading go. -/
def target : Text := "romgen".toList
def loadTarget : Text := "romgen::rom::loader".toList

def loaded (path : Bytes) (rom : Rom) : Log.Record :=
  ⟨.debug, loadTarget,
    "Loaded ".toList ++ Text.ofNat rom.size ++ " bytes from ".toList ++ Utf8.lossy path⟩

def notPlain (name : Text) : Log.Record :=
  ⟨.warn, target,
    '\'' :: (name ++ "' is not a plain identifier, the generated class will not parse".toList)⟩

def wrote (name : Text) (rom : Rom) : Log.Record :=
  ⟨.info, target,
    "Wrote ".toList ++ Text.ofNat rom.size ++ " bytes of ROM as class ".toList ++ name ++
      " to ".toList ++ Utf8.lossy (ClassName.file name)⟩

/-- How an embedding ended, and the records it made. -/
structure Outcome where
  /-- The path of the file written. -/
  result : Except EmbedError Bytes
  records : List Log.Record

/-- The outcome where the image could not be read. -/
def failedToLoad (e : EmbedError) : Outcome := ⟨.error e, []⟩

/-- The outcome where it was read, by what came of the writing. -/
def afterWriting (path : Bytes) (name : Text) (rom : Rom) (done : Except IoError Unit) :
    Outcome :=
  let before := loaded path rom :: if ClassName.isPlain name then [] else [notPlain name]
  match done with
  | .error e => ⟨.error (.unwritable (ClassName.file name) e), before⟩
  | .ok () => ⟨.ok (ClassName.file name), before ++ [wrote name rom]⟩

/-- The octets that the writer before the file holds. -/
def bufferSize : Nat := 8192

end Embedding

/-- Embeds the image at `path` into a class, in the file named after the class. -/
def embed (t : Tree) (path : Bytes) (name : Text) : Tree × Embedding.Outcome :=
  match Rom.load t path with
  | .error e => (t, Embedding.failedToLoad e)
  | .ok rom =>
    let (t, done) := t.overwrite (ClassName.file name) fun sink =>
      sink.writeBuffered Embedding.bufferSize (ClassText.bytes name rom)
    (t, Embedding.afterWriting path name rom done)

/-! ### With a listener -/

/-- Loads an image, and tells of it. -/
def Rom.loadTelling (j : Log.Journal) (t : Tree) (path : Bytes) :
    Except EmbedError Rom × Log.Journal :=
  match Rom.load t path with
  | .error e => (.error e, j)
  | .ok rom => (.ok rom, j.tell (Embedding.loaded path rom))

/-- Embeds an image, and tells of each step when it is done. -/
def embedTelling (j : Log.Journal) (t : Tree) (path : Bytes) (name : Text) :
    Tree × Except EmbedError Bytes × Log.Journal :=
  match Rom.loadTelling j t path with
  | (.error e, j) => (t, .error e, j)
  | (.ok rom, j) =>
    let j := if ClassName.isPlain name then j else j.tell (Embedding.notPlain name)
    let file := ClassName.file name
    let (t, done) := t.overwrite file fun sink =>
      sink.writeBuffered Embedding.bufferSize (ClassText.bytes name rom)
    match done with
    | .error e => (t, .error (.unwritable file e), j)
    | .ok () => (t, .ok file, j.tell (Embedding.wrote name rom))

end RomEmbed
