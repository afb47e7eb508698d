import RomEmbed.Files.Tree

/-!
What lies below the working directory, in the order of the octets of the paths.
-/

namespace RomEmbed.Files

inductive Shown where
  | file (size : Nat)
  | dir
  | link (target : Bytes)
  | device
deriving DecidableEq

namespace Tree

def shown (t : Tree) : Entry → Shown
  | .file id => .file (t.content id).length
  | .dir => .dir
  | .link _ target => .link target
  | .device _ => .device

/-- The entries below the working directory with their paths from there. -/
def listing (t : Tree) : List (Bytes × Shown) :=
  let below := t.entries.filter fun s => within t.cwd s.place && s.place ≠ t.cwd
  let pairs := below.map fun s =>
    ([slashOctet].intercalate (s.place.drop t.cwd.length), t.shown s.entry)
  pairs.mergeSort fun a b => a.1 ≤ b.1

end Tree

end RomEmbed.Files
