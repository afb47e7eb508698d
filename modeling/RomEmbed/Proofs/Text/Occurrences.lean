import Mathlib.Data.List.Infix
import Mathlib.Tactic.Common
import RomEmbed.Text.Basic

/-!
Where a pattern occurs in a text that is put together of others. It occurs in one of them, or
it straddles the seam between two, so that a beginning of it ends the one and its rest begins
the other. Whether it does can be seen from the few characters on either side of the seam.
-/

namespace RomEmbed.Text

variable {p s t u : Text} {c : Char}

/-! ### Seams -/

/-- The pattern begins in the first text and ends in the second. -/
def Straddles (p s t : Text) : Prop :=
  ∃ a b, a ≠ [] ∧ b ≠ [] ∧ p = a ++ b ∧ a <:+ s ∧ b <+: t

lemma Straddles.of_cons (h : Straddles p s t) : Straddles p (c :: s) t := by
  obtain ⟨a, b, ha, hb, hp, hs, ht⟩ := h
  exact ⟨a, b, ha, hb, hp, hs.trans (List.suffix_cons c s), ht⟩

/-- No beginning of the pattern ends the text. -/
lemma not_straddles_of_left (h : ∀ a ∈ p.inits, a <:+ s → a = []) : ¬Straddles p s t := by
  rintro ⟨a, b, ha, -, rfl, hs, -⟩
  exact ha (h a ((List.mem_inits _ _).mpr (List.prefix_append a b)) hs)

/-- No ending of the pattern begins the text. -/
lemma not_straddles_of_right (h : ∀ b ∈ p.tails, b <+: t → b = [] ∨ b = p) :
    ¬Straddles p s t := by
  rintro ⟨a, b, ha, hb, rfl, -, ht⟩
  rcases h b ((List.mem_tails _ _).mpr (List.suffix_append a b)) ht with h0 | h0
  · exact hb h0
  · exact ha (by simpa using h0)

/-- After a seam no more counts than the pattern is long. -/
lemma straddles_append_iff (hlength : p.length ≤ t.length) :
    Straddles p s (t ++ u) ↔ Straddles p s t := by
  constructor
  · rintro ⟨a, b, ha, hb, rfl, hs, ht⟩
    have hle : b.length ≤ t.length :=
      Nat.le_trans (by rw [List.length_append]; omega) hlength
    exact ⟨a, b, ha, hb, rfl, hs,
      List.prefix_of_prefix_length_le ht (List.prefix_append t u) hle⟩
  · rintro ⟨a, b, ha, hb, hp, hs, ht⟩
    exact ⟨a, b, ha, hb, hp, hs, ht.trans (List.prefix_append t u)⟩

lemma not_straddles_of_not_mem (hc : p.head? = some c) (hs : c ∉ s) : ¬Straddles p s t := by
  rintro ⟨a, b, ha, -, rfl, hsuffix, -⟩
  obtain ⟨d, a, rfl⟩ := List.exists_cons_of_ne_nil ha
  obtain rfl : d = c := by simpa using hc
  exact hs (hsuffix.subset (List.mem_cons_self ..))

lemma not_infix_of_not_mem (hp : c ∈ p) (hs : c ∉ s) : ¬p <:+: s :=
  fun h => hs (h.subset hp)

/-- What begins an append and does not straddle its seam begins the first part. -/
lemma prefix_append_iff (hs : s ≠ []) (h : ¬Straddles p s t) : p <+: s ++ t ↔ p <+: s := by
  refine ⟨fun hp => ?_, fun hp => hp.trans (List.prefix_append s t)⟩
  rcases List.prefix_or_prefix_of_prefix hp (List.prefix_append s t) with hps | ⟨b, rfl⟩
  · exact hps
  · by_cases hb : b = []
    · rw [hb, List.append_nil]
    · have ht : b <+: t := (List.prefix_append_right_inj s).mp hp
      exact absurd ⟨s, b, hs, hb, rfl, List.suffix_refl s, ht⟩ h

/-! ### Counting -/

/-- In how many places a pattern occurs. -/
def occurrences (p t : Text) : Nat := t.tails.countP fun u => p.isPrefixOf u

lemma occurrences_cons (p : Text) (c : Char) (t : Text) :
    occurrences p (c :: t) = occurrences p t + if p <+: c :: t then 1 else 0 := by
  simp [occurrences, List.countP_cons]

lemma occurrences_eq_zero (h : ¬p <:+: t) : occurrences p t = 0 := by
  rw [occurrences, List.countP_eq_zero]
  intro u hu hp
  have hsuffix : u <:+ t := (List.mem_tails _ _).mp hu
  exact h ((List.isPrefixOf_iff_prefix.mp hp).isInfix.trans hsuffix.isInfix)

/-- No place is lost or won at a seam that is not straddled. -/
lemma occurrences_append (hp : p ≠ []) (h : ¬Straddles p s t) :
    occurrences p (s ++ t) = occurrences p s + occurrences p t := by
  induction s with
  | nil =>
    have hnil : occurrences p [] = 0 := occurrences_eq_zero (by simpa using hp)
    rw [hnil, List.nil_append, Nat.zero_add]
  | cons c s ih =>
    have hpre := prefix_append_iff (List.cons_ne_nil c s) h
    rw [List.cons_append] at hpre
    rw [List.cons_append, occurrences_cons, occurrences_cons, ih fun hs => h hs.of_cons,
      if_congr hpre rfl rfl]
    omega

end RomEmbed.Text
