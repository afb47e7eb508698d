import RomEmbed.Text.Basic

/-!
Array literals of octets, such as `[0x0, 0xff, 0x10]`: one hexadecimal token per octet,
lower-case and without leading zeros, with a comma and a space between two of them.
`decode?` reads such literals and no others.
-/

namespace RomEmbed.ArrayLiteral

/-- The token of an octet: one digit below sixteen, else two. -/
def token (b : UInt8) : Text :=
  let n := b.toNat
  if n < 16 then ['0', 'x', Nat.digitChar n]
  else ['0', 'x', Nat.digitChar (n / 16), Nat.digitChar (n % 16)]

/-- The tokens after the first, each behind its separator. -/
def more (bs : Bytes) : Text := bs.flatMap fun b => ',' :: ' ' :: token b

@[simp] theorem more_nil : more [] = [] := rfl

@[simp] theorem more_cons (b : UInt8) (bs : Bytes) :
    more (b :: bs) = ',' :: ' ' :: (token b ++ more bs) := by simp [more]

def render : Bytes → Text
  | [] => ['[', ']']
  | b :: bs => '[' :: (token b ++ more bs ++ [']'])

/-- The value of a lower-case hexadecimal digit. -/
def digit? (c : Char) : Option Nat :=
  if '0' ≤ c ∧ c ≤ '9' then some (c.toNat - '0'.toNat)
  else if 'a' ≤ c ∧ c ≤ 'f' then some (c.toNat - 'a'.toNat + 10)
  else none

/-- Reads the tokens up to the closing bracket, each behind its separator. -/
def readMore? : Text → Option Bytes
  | [']'] => some []
  | ',' :: ' ' :: '0' :: 'x' :: c :: d :: r =>
    match digit? c, digit? d with
    | some h, some l =>
      if h = 0 then none else (readMore? r).map (UInt8.ofNat (16 * h + l) :: ·)
    | some n, none => (readMore? (d :: r)).map (UInt8.ofNat n :: ·)
    | none, _ => none
  | _ => none

/-- The octets of a literal. -/
def decode? : Text → Option Bytes
  | ['[', ']'] => some []
  | '[' :: r => readMore? (',' :: ' ' :: r)
  | _ => none

end RomEmbed.ArrayLiteral
