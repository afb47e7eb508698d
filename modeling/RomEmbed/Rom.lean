import RomEmbed.Text.Basic

/-!
A ROM image: the octets of a file, whatever they mean.
-/

namespace RomEmbed

structure Rom where
  bytes : Bytes := []
deriving DecidableEq, Inhabited

namespace Rom

def size (rom : Rom) : Nat := rom.bytes.length

def isEmpty (rom : Rom) : Bool := rom.bytes.isEmpty

theorem isEmpty_iff {rom : Rom} : rom.isEmpty = true ↔ rom.size = 0 := by
  simp [isEmpty, size]

end Rom

end RomEmbed
