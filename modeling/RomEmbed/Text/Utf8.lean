import RomEmbed.Text.Basic

/-!
UTF-8 over lists of octets.

`encode` writes a text. `scan` cuts any octets into characters and ill-formed parts, in
one pass; an ill-formed part is as long as the beginning of some character can be, so
that the octet which breaks it off is read afresh. `decode?` reads octets without such
parts, and `lossy` shows each of them as one replacement character.
-/

namespace RomEmbed.Utf8

/-- The one to four octets of a character. -/
def encodeChar (c : Char) : Bytes :=
  let n := c.toNat
  if n < 0x80 then [UInt8.ofNat n]
  else if n < 0x800 then [UInt8.ofNat (0xC0 + n / 64), UInt8.ofNat (0x80 + n % 64)]
  else if n < 0x10000 then
    [UInt8.ofNat (0xE0 + n / 4096), UInt8.ofNat (0x80 + n / 64 % 64),
      UInt8.ofNat (0x80 + n % 64)]
  else
    [UInt8.ofNat (0xF0 + n / 262144), UInt8.ofNat (0x80 + n / 4096 % 64),
      UInt8.ofNat (0x80 + n / 64 % 64), UInt8.ofNat (0x80 + n % 64)]

theorem encodeChar_ne_nil (c : Char) : encodeChar c ≠ [] := by
  unfold encodeChar
  dsimp only
  repeat' split
  all_goals exact List.cons_ne_nil _ _

def encode (t : Text) : Bytes := t.flatMap encodeChar

@[simp] theorem encode_nil : encode [] = [] := rfl

@[simp] theorem encode_cons (c : Char) (t : Text) :
    encode (c :: t) = encodeChar c ++ encode t := by simp [encode]

theorem encode_append (s t : Text) : encode (s ++ t) = encode s ++ encode t := by
  simp [encode]

/-- A character whose first octets are read: its leading bits, how many octets it still
needs, and the bounds of the next one. -/
structure Pending where
  bits : Nat
  need : Nat
  low : Nat
  high : Nat
deriving DecidableEq

/-- What an octet from `80` on begins. The bounds of the second octet keep out overlong
forms, surrogates and values above `10FFFF`. -/
def lead? (n : Nat) : Option Pending :=
  if n < 0xC2 then none
  else if n < 0xE0 then some ⟨n - 0xC0, 1, 0x80, 0xBF⟩
  else if n = 0xE0 then some ⟨0, 2, 0xA0, 0xBF⟩
  else if n = 0xED then some ⟨0xD, 2, 0x80, 0x9F⟩
  else if n < 0xF0 then some ⟨n - 0xE0, 2, 0x80, 0xBF⟩
  else if n = 0xF0 then some ⟨0, 3, 0x90, 0xBF⟩
  else if n < 0xF4 then some ⟨n - 0xF0, 3, 0x80, 0xBF⟩
  else if n = 0xF4 then some ⟨4, 3, 0x80, 0x8F⟩
  else none

/-- The pieces read so far, latest first, and the character that is under way. An
ill-formed part is the piece `none`. -/
structure State where
  pieces : List (Option Char)
  pending : Option Pending

def init : State := ⟨[], none⟩

/-- Reads an octet with no character under way. -/
def start (pieces : List (Option Char)) (b : UInt8) : State :=
  if b.toNat < 0x80 then ⟨some (Char.ofNat b.toNat) :: pieces, none⟩
  else match lead? b.toNat with
    | some p => ⟨pieces, some p⟩
    | none => ⟨none :: pieces, none⟩

def step (s : State) (b : UInt8) : State :=
  match s.pending with
  | none => start s.pieces b
  | some p =>
    if p.low ≤ b.toNat ∧ b.toNat ≤ p.high then
      let bits := p.bits * 64 + (b.toNat - 0x80)
      if p.need = 1 then ⟨some (Char.ofNat bits) :: s.pieces, none⟩
      else ⟨s.pieces, some ⟨bits, p.need - 1, 0x80, 0xBF⟩⟩
    else start (none :: s.pieces) b

def run (s : State) (bs : Bytes) : State := bs.foldl step s

@[simp] theorem run_nil (s : State) : run s [] = s := rfl

@[simp] theorem run_cons (s : State) (b : UInt8) (bs : Bytes) :
    run s (b :: bs) = run (step s b) bs := rfl

theorem run_append (s : State) (as bs : Bytes) : run s (as ++ bs) = run (run s as) bs := by
  simp [run, List.foldl_append]

/-- All pieces in order; a character left under way is an ill-formed part. -/
def finish (s : State) : List (Option Char) :=
  match s.pending with
  | none => s.pieces.reverse
  | some _ => (none :: s.pieces).reverse

/-- The characters and the ill-formed parts of the octets. -/
def scan (bs : Bytes) : List (Option Char) := finish (run init bs)

/-- The text with one replacement character for each ill-formed part. -/
def lossy (bs : Bytes) : Text := (scan bs).map (·.getD '\uFFFD')

/-- The text, if no part is ill-formed. -/
def decode? (bs : Bytes) : Option Text :=
  if none ∈ scan bs then none else some (lossy bs)

end RomEmbed.Utf8
