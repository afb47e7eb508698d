import Mathlib.Tactic.Common
import RomEmbed.Output.ClassText

/-!
How much is written. A token takes three characters or four, and each but the first comes
with a separator of two, so a literal is longer than the octets in it, and a class longer
than its image.
-/

namespace RomEmbed

/-! ### Literals -/

namespace ArrayLiteral

/-- An octet that takes two digits. -/
def isLong (b : UInt8) : Bool := 16 ≤ b.toNat

lemma length_token (b : UInt8) : (token b).length = if isLong b then 4 else 3 := by
  unfold token isLong
  by_cases h : b.toNat < 16
  · have h' : ¬16 ≤ b.toNat := by omega
    simp [h, h']
  · have h' : 16 ≤ b.toNat := by omega
    simp [h, h']

lemma length_more (bs : Bytes) : (more bs).length = 5 * bs.length + bs.countP isLong := by
  induction bs with
  | nil => rfl
  | cons b bs ih =>
    simp only [more_cons, List.length_cons, List.length_append, length_token, List.countP_cons,
      ih]
    split <;> omega

/-- Nothing is between the first token and the bracket, so the brackets make up for the
separator that is missing. -/
theorem length_render {bs : Bytes} (h : bs ≠ []) :
    (render bs).length = 5 * bs.length + bs.countP isLong := by
  obtain ⟨b, r, rfl⟩ := List.exists_cons_of_ne_nil h
  have hmore := length_more (b :: r)
  simp only [more_cons, List.length_cons, List.length_append] at hmore
  simp only [render, List.length_cons, List.length_append, List.length_nil]
  omega

/-- A token is at most four characters wide and a separator two, and the brackets are two. -/
lemma length_render_le (bs : Bytes) : (render bs).length ≤ 2 + bs.length * (4 + 2) := by
  by_cases h : bs = []
  · subst h
    decide
  · have hlong : bs.countP isLong ≤ bs.length := List.countP_le_length
    rw [length_render h]
    omega

lemma length_lt_length_render (bs : Bytes) : bs.length < (render bs).length := by
  by_cases h : bs = []
  · subst h
    decide
  · have hpos := List.length_pos_iff.mpr h
    rw [length_render h]
    omega

end ArrayLiteral

/-! ### Classes -/

lemma Utf8.length_encode_of_ascii {t : Text} (h : t.all (·.toNat < 128) = true) :
    (encode t).length = t.length := by
  induction t with
  | nil => rfl
  | cons c r ih =>
    simp only [List.all_cons, Bool.and_eq_true, decide_eq_true_eq] at h
    obtain ⟨hc, hr⟩ := h
    have hone : (encodeChar c).length = 1 := by simp [encodeChar, hc]
    rw [encode_cons, List.length_append, hone, ih hr, List.length_cons, Nat.add_comm]

lemma Utf8.length_le_length_encode (t : Text) : t.length ≤ (encode t).length := by
  induction t with
  | nil => exact Nat.le_refl 0
  | cons c r ih =>
    have hc := List.length_pos_iff.mpr (encodeChar_ne_nil c)
    rw [encode_cons, List.length_append, List.length_cons]
    omega

/-- **A class takes more octets than its image.** -/
theorem ClassText.size_lt_length_bytes (name : Text) (rom : Rom) :
    rom.size < (bytes name rom).length := by
  have hliteral := ArrayLiteral.length_lt_length_render rom.bytes
  have hencode := Utf8.length_le_length_encode (embedding name rom).render
  have hrender : (ArrayLiteral.render rom.bytes).length ≤ (embedding name rom).render.length := by
    simp only [render, embedding, List.length_append]
    omega
  calc rom.size < (ArrayLiteral.render rom.bytes).length := hliteral
    _ ≤ (embedding name rom).render.length := hrender
    _ ≤ (bytes name rom).length := hencode

end RomEmbed
