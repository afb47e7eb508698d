import RomEmbed.Files.Moving
import RomEmbed.Files.Open

/-!
Making directories and links, removing and renaming.
-/

namespace RomEmbed.Files.Tree

/-- A place for a new entry: the last part has to be a name that is not taken. -/
def newPlace (t : Tree) (raw : Bytes) (asDir : Bool) : Except IoError Location := do
  match ← (t.lookupLast (← Path.read raw)).mapError .os with
  | ⟨dir, .name n slash⟩ =>
    match ← (t.child? dir n).mapError .os with
    | some _ => .error (.os .entryExists)
    | none =>
      if slash && !asDir then .error (.os .noEntry) else .ok (dir ++ [n])
  | _ => .error (.os .entryExists)

def makeDir (t : Tree) (raw : Bytes) : Except IoError Tree := do
  return t.addDir (← t.newPlace raw true)

/-- Makes the first of the directories, and the following, which lead to it, as needed. -/
def makeDirFrom (t : Tree) : List Bytes → Tree × Except IoError Unit
  | [] => (t, .ok ())
  | raw :: outer =>
    match t.makeDir raw with
    | .ok t => (t, .ok ())
    | .error e =>
      if e.kind ≠ .notFound then (t, if t.isDir raw then .ok () else .error e)
      else
        match makeDirFrom t outer with
        | (t, .error e) => (t, .error e)
        | (t, .ok ()) =>
          match t.makeDir raw with
          | .ok t => (t, .ok ())
          | .error e => (t, if t.isDir raw then .ok () else .error e)

/-- The paths that lead to a path, the nearest first. Dots are left out except in front. -/
def ancestors (raw : Bytes) : List Bytes :=
  let absolute : Bool := raw.head? = some slashOctet
  let isHere (n : Name) : Bool := n == [dotOctet]
  let ns := match names raw with
    | [] => []
    | n :: r => (if absolute && isHere n then [] else [n]) ++ r.filter (!isHere ·)
  let joined (ns : List Name) : Bytes :=
    (if absolute then [slashOctet] else []) ++ [slashOctet].intercalate ns
  ((List.range ns.length).reverse.map fun k => joined (ns.take k)).filter (· ≠ [])

/-- Makes a directory and those that lead to it. It may be there already. -/
def makeDirs (t : Tree) (raw : Bytes) : Tree × Except IoError Unit :=
  if raw = [] then (t, .ok ()) else t.makeDirFrom (raw :: ancestors raw)

/-- Makes a symbolic link at `raw` with the given target. -/
def makeLink (t : Tree) (raw target : Bytes) : Except IoError Tree := do
  Path.refuseNul target
  Path.refuseNul raw
  let _ ← Path.read target
  return t.addLink (← t.newPlace raw false) target

/-- Gives a file or a symbolic link a second name. -/
def makeName (t : Tree) (raw existing : Bytes) : Except IoError Tree := do
  Path.refuseNul existing
  Path.refuseNul raw
  let (old, entry) ← (t.lookupEntry (← Path.read existing)).mapError .os
  let new ← t.newPlace raw false
  if !sameVolume old new then .error (.os .crossDevice)
  else if entry = .dir then .error (.os .notPermitted)
  else return t.addName old new

/-- Removes an empty directory, which a path has to end with the name of. -/
def removeDir (t : Tree) (p : Path) : Except OsError Tree := do
  match ← t.lookupLast p with
  | ⟨_, .here⟩ => .error .invalidArgument
  | ⟨_, .up⟩ => .error .notEmpty
  | ⟨_, .root⟩ => .error .busy
  | ⟨dir, .name n _⟩ =>
    match ← t.child? dir n with
    | none => .error .noEntry
    | some .dir =>
      if t.isEmptyDir (dir ++ [n]) then t.removeAll (dir ++ [n]) else .error .notEmpty
    | some _ => .error .notADirectory

/-- Removes an entry, a directory with all below it. A directory is emptied before its path
is looked up once more to remove it; that the path leads nowhere by then is no error. -/
def remove (t : Tree) (raw : Bytes) : Tree × Except IoError Unit :=
  let found := do
    let p ← Path.read raw
    return (p, ← (t.lookupEntry p).mapError .os)
  match found with
  | .error e => (t, .error e)
  | .ok (p, place, .dir) =>
    match t.clear place with
    | .error e => (t, .error (.os e))
    | .ok t =>
      match t.removeDir p with
      | .ok t => (t, .ok ())
      | .error .noEntry => (t, .ok ())
      | .error e => (t, .error (.os e))
  | .ok (_, place, _) =>
    match t.removeAll place with
    | .ok t => (t, .ok ())
    | .error e => (t, .error (.os e))

/-- Whether two entries are one file or one link. -/
def sameFile : Entry → Entry → Bool
  | .file a, .file b => a == b
  | .link a _, .link b _ => a == b
  | _, _ => false

/-- A directory takes the place of directories only, and other entries that of others. -/
def fits (moved present : Entry) : Except OsError Unit :=
  if moved = .dir ∧ present ≠ .dir then .error .notADirectory
  else if moved ≠ .dir ∧ present = .dir then .error .isADirectory
  else .ok ()

/-- Puts what stands at `old` to `new`, in place of what may stand there. The directory of
the devices stays where it is. -/
def replace (t : Tree) (old new : Location) (moved : Entry) (present : Option Entry) :
    Except OsError Tree := do
  if old = new ∨ present.any (sameFile moved) then return t
  present.forM (fits moved)
  if old = devices ∨ new = devices then .error .busy
  else if present = some .dir ∧ !t.isEmptyDir new then .error .notEmpty
  else
    let t ← t.removeAll new
    if h : t.Movable old new then return t.move old new h else .error .busy

/-- Both paths are followed to their last steps before anything else is judged. -/
def rename (t : Tree) (raw dest : Bytes) : Except IoError Tree := do
  Path.refuseNul raw
  Path.refuseNul dest
  let source ← (t.lookupLast (← Path.read raw)).mapError .os
  let into ← (t.lookupLast (← Path.read dest)).mapError .os
  if !sameVolume source.dir into.dir then .error (.os .crossDevice)
  else match source.step, into.step with
    | .name n slash, .name n' slash' =>
      let old := source.dir ++ [n]
      let new := into.dir ++ [n']
      match ← (t.child? source.dir n).mapError .os with
      | none => .error (.os .noEntry)
      | some moved =>
        let present ← (t.child? into.dir n').mapError .os
        if moved ≠ .dir ∧ (slash ∨ slash') then .error (.os .notADirectory)
        else if within old into.dir then .error (.os .invalidArgument)
        else if within new source.dir then .error (.os .notEmpty)
        else (t.replace old new moved present).mapError .os
    | _, _ => .error (.os .busy)

end RomEmbed.Files.Tree
