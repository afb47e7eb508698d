import Mathlib.Tactic.Common
import RomEmbed.Text.Utf8

/-!
Reading back what `encode` writes. The scan of an encoded text gives its characters one by
one: an octet below `80` is a character by itself; of the others the first tells how many
are to follow, and the bounds it sets for the second hold because a character is neither a
surrogate nor above `10FFFF`, and its form is not overlong.
-/

namespace RomEmbed.Utf8

lemma toNat_octet {n : Nat} (h : n < 256) : (UInt8.ofNat n).toNat = n :=
  UInt8.toNat_ofNat_of_lt' h

/-! ### One step at a time -/

lemma step_ascii (ps : List (Option Char)) {n : Nat} (h : n < 0x80) :
    step ⟨ps, none⟩ (UInt8.ofNat n) = ⟨some (Char.ofNat n) :: ps, none⟩ := by
  simp only [step, start]
  rw [toNat_octet (by omega), if_pos h]

lemma step_lead (ps : List (Option Char)) {n : Nat} {p : Pending} (hn : 0x80 ≤ n)
    (h256 : n < 256) (h : lead? n = some p) :
    step ⟨ps, none⟩ (UInt8.ofNat n) = ⟨ps, some p⟩ := by
  simp only [step, start]
  rw [toNat_octet h256, if_neg (by omega), h]

/-- An octet within the bounds that is not the last one. -/
lemma step_inner (ps : List (Option Char)) {bits need low high v : Nat} (hv : v < 64)
    (hl : low ≤ 0x80 + v) (hh : 0x80 + v ≤ high) (hneed : need ≠ 1) :
    step ⟨ps, some ⟨bits, need, low, high⟩⟩ (UInt8.ofNat (0x80 + v)) =
      ⟨ps, some ⟨bits * 64 + v, need - 1, 0x80, 0xBF⟩⟩ := by
  simp only [step]
  rw [toNat_octet (by omega), if_pos ⟨hl, hh⟩, if_neg hneed, Nat.add_sub_cancel_left]

lemma step_last (ps : List (Option Char)) {bits low high v : Nat} (hv : v < 64)
    (hl : low ≤ 0x80 + v) (hh : 0x80 + v ≤ high) :
    step ⟨ps, some ⟨bits, 1, low, high⟩⟩ (UInt8.ofNat (0x80 + v)) =
      ⟨some (Char.ofNat (bits * 64 + v)) :: ps, none⟩ := by
  simp only [step]
  rw [toNat_octet (by omega), if_pos ⟨hl, hh⟩, if_pos trivial, Nat.add_sub_cancel_left]

/-! ### What the first octet announces -/

lemma lead_two {h : Nat} (hl : 2 ≤ h) (hh : h < 0x20) :
    lead? (0xC0 + h) = some ⟨h, 1, 0x80, 0xBF⟩ := by
  unfold lead?
  rw [if_neg (by omega), if_pos (by omega), Nat.add_sub_cancel_left]

/-- The second of three octets is within the bounds if the value is neither overlong nor a
surrogate. -/
lemma lead_three {h v : Nat} (hh : h < 0x10) (hv : v < 64) (hlong : h = 0 → 0x20 ≤ v)
    (hsurrogate : h = 0xD → v < 0x20) :
    ∃ low high, lead? (0xE0 + h) = some ⟨h, 2, low, high⟩ ∧
      low ≤ 0x80 + v ∧ 0x80 + v ≤ high := by
  unfold lead?
  rw [if_neg (by omega), if_neg (by omega)]
  by_cases h0 : h = 0
  · subst h0
    exact ⟨0xA0, 0xBF, rfl, by have := hlong rfl; omega, by omega⟩
  by_cases hD : h = 0xD
  · subst hD
    exact ⟨0x80, 0x9F, rfl, by omega, by have := hsurrogate rfl; omega⟩
  rw [if_neg (by omega), if_neg (by omega), if_pos (by omega), Nat.add_sub_cancel_left]
  exact ⟨0x80, 0xBF, rfl, by omega, by omega⟩

/-- The second of four octets is within the bounds if the value is neither overlong nor
above the last character. -/
lemma lead_four {h v : Nat} (hv : v < 64) (hlong : h = 0 → 0x10 ≤ v)
    (hlast : h < 4 ∨ h = 4 ∧ v < 0x10) :
    ∃ low high, lead? (0xF0 + h) = some ⟨h, 3, low, high⟩ ∧
      low ≤ 0x80 + v ∧ 0x80 + v ≤ high := by
  unfold lead?
  rw [if_neg (by omega), if_neg (by omega), if_neg (by omega), if_neg (by omega),
    if_neg (by omega)]
  by_cases h0 : h = 0
  · subst h0
    exact ⟨0x90, 0xBF, rfl, by have := hlong rfl; omega, by omega⟩
  by_cases h4 : h = 4
  · subst h4
    exact ⟨0x80, 0x8F, rfl, by omega, by omega⟩
  rw [if_neg (by omega), if_pos (by omega), Nat.add_sub_cancel_left]
  exact ⟨0x80, 0xBF, rfl, by omega, by omega⟩

/-! ### A character, a text -/

lemma toNat_valid (c : Char) :
    c.toNat < 0xD800 ∨ (0xDFFF < c.toNat ∧ c.toNat < 0x110000) := c.valid

lemma run_encodeChar (ps : List (Option Char)) (c : Char) :
    run ⟨ps, none⟩ (encodeChar c) = ⟨some c :: ps, none⟩ := by
  have hvalid := toNat_valid c
  have hc : Char.ofNat c.toNat = c := Char.ofNat_toNat c
  unfold encodeChar
  set n := c.toNat
  by_cases h1 : n < 0x80
  · simp only [if_pos h1, run_cons, run_nil]
    rw [step_ascii ps h1, hc]
  by_cases h2 : n < 0x800
  · simp only [if_neg h1, if_pos h2, run_cons, run_nil]
    rw [step_lead ps (by omega) (by omega) (lead_two (h := n / 64) (by omega) (by omega)),
      step_last ps (by omega) (by omega) (by omega),
      show n / 64 * 64 + n % 64 = n by omega, hc]
  by_cases h3 : n < 0x10000
  · obtain ⟨low, high, hlead, hl, hh⟩ := lead_three (h := n / 4096) (v := n / 64 % 64)
      (by omega) (by omega) (by omega) (by omega)
    simp only [if_neg h1, if_neg h2, if_pos h3, run_cons, run_nil]
    rw [step_lead ps (by omega) (by omega) hlead, step_inner ps (by omega) hl hh (by omega),
      step_last ps (by omega) (by omega) (by omega),
      show (n / 4096 * 64 + n / 64 % 64) * 64 + n % 64 = n by omega, hc]
  · obtain ⟨low, high, hlead, hl, hh⟩ := lead_four (h := n / 262144) (v := n / 4096 % 64)
      (by omega) (by omega) (by omega)
    simp only [if_neg h1, if_neg h2, if_neg h3, run_cons, run_nil]
    rw [step_lead ps (by omega) (by omega) hlead, step_inner ps (by omega) hl hh (by omega),
      step_inner ps (by omega) (by omega) (by omega) (by omega),
      step_last ps (by omega) (by omega) (by omega),
      show ((n / 262144 * 64 + n / 4096 % 64) * 64 + n / 64 % 64) * 64 + n % 64 = n by omega,
      hc]

lemma run_encode (ps : List (Option Char)) (t : Text) :
    run ⟨ps, none⟩ (encode t) = ⟨(t.map some).reverse ++ ps, none⟩ := by
  induction t generalizing ps with
  | nil => rfl
  | cons c r ih => rw [encode_cons, run_append, run_encodeChar, ih]; simp

lemma scan_encode (t : Text) : scan (encode t) = t.map some := by
  rw [scan, init, run_encode]
  simp [finish]

lemma lossy_encode (t : Text) : lossy (encode t) = t := by
  rw [lossy, scan_encode, List.map_map]
  exact List.map_id t

/-- **An encoded text is well-formed and reads back as itself.** -/
theorem decode?_encode (t : Text) : decode? (encode t) = some t := by
  rw [decode?, scan_encode, if_neg (by simp), lossy_encode]

theorem encode_injective : Function.Injective encode := by
  intro s t h
  have hd := congrArg decode? h
  simpa [decode?_encode] using hd

lemma encode_ne_nil {t : Text} (h : t ≠ []) : encode t ≠ [] := by
  intro he
  exact h (encode_injective (he.trans encode_nil.symm))

end RomEmbed.Utf8
