import Mathlib.Tactic.Common
import Mathlib.Data.Set.Function
import RomEmbed.Proofs.Output.Literal

/-!
The grammar of array literals: brackets around nothing, or around tokens with a comma and a
space between two of them. A token is `0x` and a zero alone, or one or two digits of which the
first is not zero.

The literals that are written are the texts of this grammar, no more and no fewer, and their
tokens are those of the octets. Only the last character of a literal closes it, so a literal
does not go on where another one ends.
-/

namespace RomEmbed.ArrayLiteral

/-! ### Texts of the grammar -/

/-- The digits in the order of their values. -/
def digits : Text := "0123456789abcdef".toList

/-- What digits stand for, the first counting most. -/
def valueOf (ds : Text) : Nat := ds.foldl (fun n d => 16 * n + digits.idxOf d) 0

/-- The value of a token, which is that of the digits after `0x`. -/
def value (k : Text) : Nat := valueOf (k.drop 2)

inductive IsToken : Text → Prop
  | zero : IsToken ['0', 'x', '0']
  | one {d : Char} : d ∈ digits → d ≠ '0' → IsToken ['0', 'x', d]
  | two {d e : Char} : d ∈ digits → d ≠ '0' → e ∈ digits → IsToken ['0', 'x', d, e]

/-- What comes after the first token: tokens behind separators, and the closing bracket. -/
inductive Closing : Text → List Text → Prop
  | close : Closing [']'] []
  | more {k t : Text} {ks : List Text} :
      IsToken k → Closing t ks → Closing (',' :: ' ' :: (k ++ t)) (k :: ks)

/-- A text is a literal of the given tokens. -/
inductive Canonical : Text → List Text → Prop
  | empty : Canonical ['[', ']'] []
  | tokens {k t : Text} {ks : List Text} :
      IsToken k → Closing t ks → Canonical ('[' :: (k ++ t)) (k :: ks)

/-! ### Tokens are those of octets -/

lemma digits_eq : digits = (List.range 16).map Nat.digitChar := by decide

lemma idxOf_digitChar : ∀ n < 16, digits.idxOf (Nat.digitChar n) = n := by decide

lemma digitChar_eq_zero_iff : ∀ n < 16, Nat.digitChar n = '0' ↔ n = 0 := by decide

lemma mem_digits {d : Char} : d ∈ digits ↔ ∃ n < 16, Nat.digitChar n = d := by
  simp [digits_eq]

lemma isToken_token (b : UInt8) : IsToken (token b) := by
  rcases octet_cases b with ⟨n, hn, rfl⟩ | ⟨h, l, h0, hh, hl, rfl⟩
  · rw [token_one hn]
    by_cases h0 : n = 0
    · subst h0
      exact .zero
    · exact .one (mem_digits.mpr ⟨n, hn, rfl⟩) (h0 ∘ (digitChar_eq_zero_iff n hn).mp)
  · rw [token_two h0 hh hl]
    exact .two (mem_digits.mpr ⟨h, hh, rfl⟩) (h0 ∘ (digitChar_eq_zero_iff h hh).mp)
      (mem_digits.mpr ⟨l, hl, rfl⟩)

lemma value_token (b : UInt8) : value (token b) = b.toNat := by
  rcases octet_cases b with ⟨n, hn, rfl⟩ | ⟨h, l, h0, hh, hl, rfl⟩
  · rw [token_one hn, UInt8.toNat_ofNat_of_lt' (show n < 256 by omega)]
    simp [value, valueOf, idxOf_digitChar n hn]
  · rw [token_two h0 hh hl, UInt8.toNat_ofNat_of_lt' (show 16 * h + l < 256 by omega)]
    simp [value, valueOf, idxOf_digitChar h hh, idxOf_digitChar l hl]

lemma isToken_iff {k : Text} : IsToken k ↔ ∃ b, k = token b := by
  constructor
  · rintro (_ | ⟨hd, -⟩ | ⟨hd, hd0, he⟩)
    · exact ⟨0, rfl⟩
    · obtain ⟨n, hn, rfl⟩ := mem_digits.mp hd
      exact ⟨_, (token_one hn).symm⟩
    · obtain ⟨h, hh, rfl⟩ := mem_digits.mp hd
      obtain ⟨l, hl, rfl⟩ := mem_digits.mp he
      have h0 : h ≠ 0 := hd0 ∘ (digitChar_eq_zero_iff h hh).mpr
      exact ⟨_, (token_two h0 hh hl).symm⟩
  · rintro ⟨b, rfl⟩
    exact isToken_token b

/-! ### Literals are those that are written -/

lemma closing_iff {t : Text} {ks : List Text} :
    Closing t ks ↔ ∃ bs : Bytes, ks = bs.map token ∧ t = more bs ++ [']'] := by
  constructor
  · intro h
    induction h with
    | close => exact ⟨[], rfl, rfl⟩
    | more hk _ ih =>
      obtain ⟨b, rfl⟩ := isToken_iff.mp hk
      obtain ⟨bs, rfl, rfl⟩ := ih
      exact ⟨b :: bs, rfl, by simp⟩
  · rintro ⟨bs, rfl, rfl⟩
    induction bs with
    | nil => exact .close
    | cons b bs ih => simpa using Closing.more (isToken_token b) ih

lemma canonical_iff {t : Text} {ks : List Text} :
    Canonical t ks ↔ ∃ bs : Bytes, ks = bs.map token ∧ t = render bs := by
  constructor
  · rintro (_ | ⟨hk, hclosing⟩)
    · exact ⟨[], rfl, rfl⟩
    · obtain ⟨b, rfl⟩ := isToken_iff.mp hk
      obtain ⟨bs, rfl, rfl⟩ := closing_iff.mp hclosing
      exact ⟨b :: bs, rfl, by simp [render]⟩
  · rintro ⟨bs, rfl, rfl⟩
    cases bs with
    | nil => exact .empty
    | cons b bs =>
      simpa [render] using Canonical.tokens (isToken_token b) (closing_iff.mpr ⟨bs, rfl, rfl⟩)

lemma canonical_render (bs : Bytes) : Canonical (render bs) (bs.map token) :=
  canonical_iff.mpr ⟨bs, rfl, rfl⟩

lemma value_tokens (bs : Bytes) : (bs.map token).map value = bs.map UInt8.toNat := by
  rw [List.map_map]
  exact List.map_congr_left fun b _ => value_token b

lemma render_injective : Function.Injective render := by
  intro bs cs h
  have hd := decode?_render bs
  rw [h, decode?_render] at hd
  exact (Option.some.inj hd).symm

/-! ### No literal goes on where another ends -/

lemma render_eq_of_prefix {bs cs : Bytes} (h : render bs <+: render cs) :
    render bs = render cs := by
  obtain ⟨t, ht, -⟩ := exists_render_eq_append bs
  obtain ⟨u, hu, hno⟩ := exists_render_eq_append cs
  rw [ht, hu] at h ⊢
  rcases List.prefix_concat_iff.mp h with heq | hpre
  · exact heq
  · exact absurd (hpre.subset (by simp)) hno

/-- **Writing and reading are inverse on exactly the literals of the grammar.** -/
theorem render_grammar :
    (∀ bs, Canonical (render bs) (bs.map token) ∧
      (bs.map token).map value = bs.map UInt8.toNat ∧ decode? (render bs) = some bs) ∧
    (∀ t ks, Canonical t ks → ∃ bs, decode? t = some bs ∧
      ks.map value = bs.map UInt8.toNat ∧ render bs = t) ∧
    Set.BijOn render Set.univ {t | ∃ ks, Canonical t ks} ∧
    (∀ t ks u ls, Canonical t ks → Canonical u ls → t <+: u → t = u) := by
  refine ⟨fun bs => ⟨canonical_render bs, value_tokens bs, decode?_render bs⟩, ?_, ?_, ?_⟩
  · intro t ks h
    obtain ⟨bs, rfl, rfl⟩ := canonical_iff.mp h
    exact ⟨bs, decode?_render bs, value_tokens bs, rfl⟩
  · refine ⟨fun bs _ => ⟨_, canonical_render bs⟩, render_injective.injOn, ?_⟩
    rintro t ⟨ks, h⟩
    obtain ⟨bs, -, rfl⟩ := canonical_iff.mp h
    exact ⟨bs, trivial, rfl⟩
  · intro t ks u ls ht hu hpre
    obtain ⟨bs, -, rfl⟩ := canonical_iff.mp ht
    obtain ⟨cs, -, rfl⟩ := canonical_iff.mp hu
    exact render_eq_of_prefix hpre

end RomEmbed.ArrayLiteral
