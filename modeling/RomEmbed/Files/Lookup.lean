import RomEmbed.Files.Tree

/-!
Looking a path up. Each name leads from a directory to an entry; a symbolic link is
replaced by the path it holds, at most forty times in one lookup; `..` leads to the
directory above. Every part but the last has to lead to a directory.
-/

namespace RomEmbed.Files

/-- Where a lookup ends. -/
inductive Place where
  | dir (place : Location)
  | entry (place : Location) (entry : Entry)
  /-- Nothing stands here yet, in a directory that exists. -/
  | vacant (place : Location)
deriving DecidableEq

/-- Whether the lookup is for an existing entry or for a file to be made if it is missing.
A file cannot be made at a path that ends in a slash. -/
inductive Purpose where
  | find
  | create
deriving DecidableEq

namespace Tree

/-- The most symbolic links that one lookup follows. -/
def maxLinks : Nat := 40

/-- What stands under a name in a directory. -/
def child? (t : Tree) (dir : Location) (n : Name) : Except OsError (Option Entry) :=
  if n.length > Path.maxName then .error .nameTooLong else .ok (t.get? (dir ++ [n]))

/-- Goes through the parts from a directory on. At a symbolic link `follow` goes on, with
the directory of the link, its target, and the parts that are left. -/
def walkWith (t : Tree) (purpose : Purpose)
    (follow : Location → Bytes → List Part → Except OsError Place) :
    Location → List Part → Except OsError Place
  | dir, [] => .ok (.dir dir)
  | dir, .here :: r => walkWith t purpose follow dir r
  | dir, .slash :: r => walkWith t purpose follow dir r
  | dir, .up :: r => walkWith t purpose follow dir.dropLast r
  | dir, .name n :: r =>
    if purpose = .create ∧ r = [.slash] then .error .isADirectory
    else
      match t.child? dir n with
      | .error e => .error e
      | .ok none => if r = [] then .ok (.vacant (dir ++ [n])) else .error .noEntry
      | .ok (some .dir) => walkWith t purpose follow (dir ++ [n]) r
      | .ok (some (.link _ target)) => follow dir target r
      | .ok (some e) => if r = [] then .ok (.entry (dir ++ [n]) e) else .error .notADirectory

/-- Where a path begins. -/
def start (dir : Location) (p : Path) : Location := if p.absolute then [] else dir

/-- Goes through the parts, following as many links as the first argument says. -/
def walk (t : Tree) (purpose : Purpose) :
    Nat → Location → List Part → Except OsError Place
  | 0 => t.walkWith purpose fun _ _ _ => .error .linkLoop
  | links + 1 => t.walkWith purpose fun dir target r =>
      let p := Path.parse target
      walk t purpose links (start dir p) (p.parts ++ r)

/-- Where a path leads, all links followed. -/
def lookup (t : Tree) (purpose : Purpose) (p : Path) : Except OsError Place :=
  t.walk purpose maxLinks (start t.cwd p) p.parts

/-- The last step of a path. -/
inductive Step where
  | name (n : Name) (slash : Bool)
  | here
  | up
  | root
deriving DecidableEq

/-- The last step of a path, and the directory from which it is taken. -/
structure Last where
  dir : Location
  step : Step
deriving DecidableEq

/-- Walks to the directory of the last part. -/
def lookupLast (t : Tree) (p : Path) : Except OsError Last :=
  let (parts, slash) :=
    if p.parts.getLast? = some .slash then (p.parts.dropLast, true) else (p.parts, false)
  match t.walk .find maxLinks (start t.cwd p) (parts.dropLast ++ [.here]) with
  | .error e => .error e
  | .ok (.dir dir) =>
    .ok ⟨dir, match parts.getLast? with
      | none => .root
      | some (.name n) => .name n slash
      | some .up => .up
      | some _ => .here⟩
  | .ok _ => .error .notADirectory

/-- The entry a path names, a link at its end not followed unless a slash comes after. -/
def lookupEntry (t : Tree) (p : Path) : Except OsError (Location × Entry) :=
  match t.lookupLast p with
  | .error e => .error e
  | .ok ⟨dir, .name n false⟩ =>
    match t.child? dir n with
    | .error e => .error e
    | .ok none => .error .noEntry
    | .ok (some e) => .ok (dir ++ [n], e)
  | .ok _ =>
    match t.lookup .find p with
    | .error e => .error e
    | .ok (.dir place) => .ok (place, .dir)
    | .ok (.entry place e) => .ok (place, e)
    | .ok (.vacant _) => .error .noEntry

/-- Whether a path leads to a directory. -/
def isDir (t : Tree) (raw : Bytes) : Bool :=
  match Path.read raw with
  | .error _ => false
  | .ok p =>
    match t.lookup .find p with
    | .ok (.dir _) => true
    | _ => false

end Tree

end RomEmbed.Files
