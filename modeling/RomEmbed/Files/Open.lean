import RomEmbed.Files.Lookup
import RomEmbed.Output.Sink

/-!
Reading a file whole, and replacing its content by what is written to it. A file that is
opened for writing is made if it is missing and emptied if it is there.
-/

namespace RomEmbed.Files

/-- A file opened for writing. -/
inductive Opened where
  | file (id : FileId)
  | device (device : Device)
deriving DecidableEq

/-- Regular files take everything at once, and a full device nothing at all. -/
def Opened.sink : Opened → Sink
  | .device .full => { limit := some 0, failure := .os .noSpace }
  | _ => {}

namespace Tree

/-- What a path leads to, links followed. -/
def find (t : Tree) (raw : Bytes) : Except IoError Place := do
  (t.lookup .find (← Path.read raw)).mapError .os

def read (t : Tree) (raw : Bytes) : Except IoError Bytes := do
  match ← t.find raw with
  | .entry _ (.file id) => .ok (t.content id)
  | .entry _ (.device .null) => .ok []
  | .entry _ (.device .full) => .error (.plain .outOfMemory)
  | .vacant _ => .error (.os .noEntry)
  | _ => .error (.os .isADirectory)

/-- What a file to be written is: one that is there, or a place for a new one. -/
def target (t : Tree) (raw : Bytes) : Except IoError Place := do
  (t.lookup .create (← Path.read raw)).mapError .os

def openEmpty (t : Tree) (raw : Bytes) : Except IoError (Opened × Tree) := do
  match ← t.target raw with
  | .entry _ (.file id) => .ok (.file id, t.setContent id [])
  | .entry _ (.device d) => .ok (.device d, t)
  | .vacant place => .ok (.file t.contents.length, t.addFile place [])
  | _ => .error (.os .isADirectory)

/-- What was stored in the sink of an opened file is its content. -/
def store (t : Tree) (opened : Opened) (data : Bytes) : Tree :=
  match opened with
  | .file id => t.setContent id data
  | .device _ => t

/-- Opens a file for writing, writes to its sink, and closes it. -/
def overwrite (t : Tree) (raw : Bytes) (write : Sink → Sink × Except IoError Unit) :
    Tree × Except IoError Unit :=
  match t.openEmpty raw with
  | .error e => (t, .error e)
  | .ok (opened, t) =>
    let (sink, done) := write opened.sink
    (t.store opened sink.stored.toList, done)

def writeFile (t : Tree) (raw data : Bytes) : Tree × Except IoError Unit :=
  t.overwrite raw (·.writeAll data)

end Tree

end RomEmbed.Files
