import Mathlib.Tactic.Common
import Mathlib.Tactic.IntervalCases
import RomEmbed.Output.ArrayLiteral

/-!
Array literals and octets correspond one to one: the reader gives the octets of every
literal that is written, and accepts nothing else.

A token ends where its digits end. What follows it is a comma or the closing bracket, and
neither is a digit, so the reader never takes one digit for two or two for one.
-/

namespace RomEmbed.ArrayLiteral

/-! ### Digits and tokens -/

lemma digit?_digitChar {n : Nat} (h : n < 16) : digit? (Nat.digitChar n) = some n := by
  interval_cases n <;> rfl

lemma digit?_eq_some {c : Char} {n : Nat} (h : digit? c = some n) :
    n < 16 ∧ c = Nat.digitChar n := by
  have hc : Char.ofNat c.toNat = c := Char.ofNat_toNat c
  unfold digit? at h
  split at h
  · next hd =>
    change 48 ≤ c.toNat ∧ c.toNat ≤ 57 at hd
    obtain rfl : c.toNat - 48 = n := Option.some.inj h
    obtain ⟨hl, hh⟩ := hd
    rw [← hc]
    generalize c.toNat = k at hl hh
    interval_cases k <;> decide
  · split at h
    · next hd =>
      change 97 ≤ c.toNat ∧ c.toNat ≤ 102 at hd
      obtain rfl : c.toNat - 97 + 10 = n := Option.some.inj h
      obtain ⟨hl, hh⟩ := hd
      rw [← hc]
      generalize c.toNat = k at hl hh
      interval_cases k <;> decide
    · cases h

lemma token_one {n : Nat} (h : n < 16) :
    token (UInt8.ofNat n) = ['0', 'x', Nat.digitChar n] := by
  have hn : (UInt8.ofNat n).toNat = n :=
    UInt8.toNat_ofNat_of_lt' (show n < 256 by omega)
  simp only [token, hn, if_pos h]

lemma token_two {h l : Nat} (h0 : h ≠ 0) (hh : h < 16) (hl : l < 16) :
    token (UInt8.ofNat (16 * h + l)) = ['0', 'x', Nat.digitChar h, Nat.digitChar l] := by
  have hn : (UInt8.ofNat (16 * h + l)).toNat = 16 * h + l :=
    UInt8.toNat_ofNat_of_lt' (show 16 * h + l < 256 by omega)
  have h1 : (16 * h + l) / 16 = h := by omega
  have h2 : (16 * h + l) % 16 = l := by omega
  simp only [token, hn, h1, h2, if_neg (show ¬16 * h + l < 16 by omega)]

/-- An octet is below sixteen, or it has two digits of which the first is not zero. -/
lemma octet_cases (b : UInt8) :
    (∃ n < 16, b = UInt8.ofNat n) ∨
      ∃ h l, h ≠ 0 ∧ h < 16 ∧ l < 16 ∧ b = UInt8.ofNat (16 * h + l) := by
  have hb := b.toNat_lt
  by_cases h : b.toNat < 16
  · exact Or.inl ⟨b.toNat, h, (UInt8.ofNat_toNat).symm⟩
  · refine Or.inr ⟨b.toNat / 16, b.toNat % 16, by omega, by omega, by omega, ?_⟩
    rw [Nat.div_add_mod, UInt8.ofNat_toNat]

/-! ### The tokens after the first -/

/-- No digit comes right after a token. -/
lemma more_append_bracket (bs : Bytes) :
    ∃ d r, more bs ++ [']'] = d :: r ∧ digit? d = none := by
  cases bs with
  | nil => exact ⟨']', [], rfl, rfl⟩
  | cons b bs => exact ⟨',', _, rfl, rfl⟩

lemma readMore?_more (bs : Bytes) : readMore? (more bs ++ [']']) = some bs := by
  induction bs with
  | nil => rfl
  | cons b bs ih =>
    rcases octet_cases b with ⟨n, hn, rfl⟩ | ⟨h, l, h0, hh, hl, rfl⟩
    · obtain ⟨d, r, hr, hd⟩ := more_append_bracket bs
      rw [more_cons, token_one hn]
      simp only [List.cons_append, List.nil_append]
      rw [hr] at ih ⊢
      simp [readMore?, digit?_digitChar hn, hd, ih]
    · rw [more_cons, token_two h0 hh hl]
      simp only [List.cons_append, List.nil_append]
      simp [readMore?, digit?_digitChar hh, digit?_digitChar hl, h0, ih]

lemma eq_more_of_readMore? {t : Text} {bs : Bytes} (h : readMore? t = some bs) :
    t = more bs ++ [']'] := by
  induction t using readMore?.induct generalizing bs with
  | case1 =>
    obtain rfl : [] = bs := by simpa [readMore?] using h
    rfl
  | case2 c d r l hd hc => simp [readMore?, hc, hd] at h
  | case3 c d r n l hd hc h0 ih =>
    simp only [readMore?, hc, hd, h0, if_false, Option.map_eq_some_iff] at h
    obtain ⟨bs, hr, rfl⟩ := h
    obtain ⟨hn, rfl⟩ := digit?_eq_some hc
    obtain ⟨hl, rfl⟩ := digit?_eq_some hd
    rw [more_cons, token_two h0 hn hl, ih hr]
    simp
  | case4 c d r n hd hc ih =>
    simp only [readMore?, hc, hd, Option.map_eq_some_iff] at h
    obtain ⟨bs, hr, rfl⟩ := h
    obtain ⟨hn, rfl⟩ := digit?_eq_some hc
    rw [more_cons, token_one hn, ih hr]
    simp
  | case5 c d r hc => simp [readMore?, hc] at h
  | case6 t hclose htoken =>
    rw [readMore?] at h
    · cases h
    · exact hclose
    · exact htoken

/-! ### The whole literal -/

theorem decode?_render (bs : Bytes) : decode? (render bs) = some bs := by
  cases bs with
  | nil => rfl
  | cons b bs =>
    have hne : token b ++ more bs ++ [']'] ≠ [']'] := by
      rcases octet_cases b with ⟨n, hn, rfl⟩ | ⟨h, l, h0, hh, hl, rfl⟩
      · rw [token_one hn]; simp
      · rw [token_two h0 hh hl]; simp
    have hr := readMore?_more (b :: bs)
    simp only [more_cons, List.cons_append] at hr
    rw [render, decode?]
    · exact hr
    · simpa using hne

theorem eq_render_of_decode? {t : Text} {bs : Bytes} (h : decode? t = some bs) :
    t = render bs := by
  unfold decode? at h
  split at h
  · obtain rfl : [] = bs := by simpa using h
    rfl
  · next r _ =>
    have hr := eq_more_of_readMore? h
    cases bs with
    | nil => simp at hr
    | cons b bs => simpa [render] using hr
  · cases h

/-- **The reader accepts exactly the literals that are written.** -/
theorem decode?_eq_some_iff {t : Text} {bs : Bytes} : decode? t = some bs ↔ t = render bs :=
  ⟨eq_render_of_decode?, fun h => h ▸ decode?_render bs⟩

/-! ### Brackets -/

/-- The characters that stand between the brackets of a literal. -/
def between : Text := "0123456789abcdefx, ".toList

lemma digitChar_mem_between : ∀ n < 16, Nat.digitChar n ∈ between := by decide

lemma token_subset_between (b : UInt8) : token b ⊆ between := by
  have hstart : ['0', 'x'] ⊆ between := by decide
  rcases octet_cases b with ⟨n, hn, rfl⟩ | ⟨h, l, h0, hh, hl, rfl⟩
  · rw [token_one hn]
    exact List.append_subset.mpr ⟨hstart, by simpa using digitChar_mem_between n hn⟩
  · rw [token_two h0 hh hl]
    exact List.append_subset.mpr
      ⟨hstart, by simpa using ⟨digitChar_mem_between h hh, digitChar_mem_between l hl⟩⟩

lemma more_subset_between (bs : Bytes) : more bs ⊆ between := by
  have hseparator : [',', ' '] ⊆ between := by decide
  induction bs with
  | nil => exact List.nil_subset _
  | cons b bs ih =>
    rw [more_cons]
    exact List.append_subset.mpr
      ⟨hseparator, List.append_subset.mpr ⟨token_subset_between b, ih⟩⟩

lemma exists_render_eq (bs : Bytes) : ∃ t, render bs = '[' :: (t ++ [']']) ∧ t ⊆ between := by
  cases bs with
  | nil => exact ⟨[], rfl, List.nil_subset _⟩
  | cons b bs =>
    exact ⟨token b ++ more bs, rfl,
      List.append_subset.mpr ⟨token_subset_between b, more_subset_between bs⟩⟩

lemma not_mem_render {c : Char} {bs : Bytes} (h : c ∉ '[' :: ']' :: between) :
    c ∉ render bs := by
  obtain ⟨t, ht, hbetween⟩ := exists_render_eq bs
  intro hc
  rw [ht] at hc
  rcases List.mem_cons.mp hc with rfl | hc
  · exact h (by simp)
  rcases List.mem_append.mp hc with hc | hc
  · exact h (by simp [hbetween hc])
  · rw [List.mem_singleton.mp hc] at h
    exact h (by simp)

/-- The opening bracket of a literal is the only one in it. -/
theorem exists_render_eq_cons (bs : Bytes) : ∃ r, render bs = '[' :: r ∧ '[' ∉ r := by
  obtain ⟨t, ht, hbetween⟩ := exists_render_eq bs
  refine ⟨t ++ [']'], ht, ?_⟩
  have hno : '[' ∉ t := fun h => absurd (hbetween h) (by decide)
  simp [hno]

/-- The closing bracket of a literal is the only one in it. -/
theorem exists_render_eq_append (bs : Bytes) : ∃ r, render bs = r ++ [']'] ∧ ']' ∉ r := by
  obtain ⟨t, ht, hbetween⟩ := exists_render_eq bs
  refine ⟨'[' :: t, ht, ?_⟩
  have hno : ']' ∉ t := fun h => absurd (hbetween h) (by decide)
  simp [hno]

end RomEmbed.ArrayLiteral
