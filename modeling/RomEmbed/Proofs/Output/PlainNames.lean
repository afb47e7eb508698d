import Mathlib.Tactic.Common
import Mathlib.Computability.RegularExpressions
import RomEmbed.Output.ClassName
import RomEmbed.Proofs.Text.Decoding

/-!
The names that are plain are those of the regular expression `[A-Za-z_$][A-Za-z0-9_$]*`, with
the letters and digits of ASCII and no others.
-/

namespace RomEmbed.ClassName

open RegularExpression (char)

variable {c first last : Char} {cs name t : Text}

/-! ### Characters -/

/-- The characters from one to another. -/
def span (first last : Char) : Text :=
  (List.range' first.toNat (last.toNat + 1 - first.toNat)).map Char.ofNat

/-- `[A-Za-z_$]` -/
def leads : Text := span 'A' 'Z' ++ span 'a' 'z' ++ ['_', '$']

/-- `[A-Za-z0-9_$]` -/
def inners : Text := span 'A' 'Z' ++ span 'a' 'z' ++ span '0' '9' ++ ['_', '$']

lemma mem_span (h : last.toNat < 0xD800) :
    c ∈ span first last ↔ first.toNat ≤ c.toNat ∧ c.toNat ≤ last.toNat := by
  simp only [span, List.mem_map, List.mem_range'_1]
  constructor
  · rintro ⟨n, ⟨hfirst, hlast⟩, rfl⟩
    rw [Utf8.toNat_ofNat (Or.inl (by omega))]
    omega
  · rintro ⟨hfirst, hlast⟩
    exact ⟨c.toNat, ⟨hfirst, by omega⟩, Char.ofNat_toNat c⟩

lemma mem_upper : c ∈ span 'A' 'Z' ↔ c.isUpper = true :=
  (mem_span (by decide)).trans decide_eq_true_iff.symm

lemma mem_lower : c ∈ span 'a' 'z' ↔ c.isLower = true := by
  have hlower : c.isLower = true ↔ 'a'.toNat ≤ c.toNat ∧ c.toNat ≤ 'z'.toNat :=
    (Bool.and_eq_true_iff).trans (and_congr decide_eq_true_iff decide_eq_true_iff)
  rw [mem_span (by decide), hlower]

lemma mem_digit : c ∈ span '0' '9' ↔ c.isDigit = true := by
  have hdigit : c.isDigit = true ↔ '0'.toNat ≤ c.toNat ∧ c.toNat ≤ '9'.toNat :=
    (Bool.and_eq_true_iff).trans (and_congr decide_eq_true_iff decide_eq_true_iff)
  rw [mem_span (by decide), hdigit]

lemma isAlpha_iff : c.isAlpha = true ↔ c ∈ span 'A' 'Z' ∨ c ∈ span 'a' 'z' := by
  rw [mem_upper, mem_lower]
  exact Bool.or_eq_true_iff

lemma isAlphanum_iff : c.isAlphanum = true ↔ c.isAlpha = true ∨ c ∈ span '0' '9' := by
  rw [mem_digit]
  exact Bool.or_eq_true_iff

lemma isLead_iff : isLead c = true ↔ c ∈ leads := by
  simp only [isLead, leads, List.mem_append, isAlpha_iff, List.mem_cons, List.not_mem_nil,
    or_false, Bool.or_eq_true, beq_iff_eq, or_assoc]

lemma isInner_iff : isInner c = true ↔ c ∈ inners := by
  simp only [isInner, inners, List.mem_append, isAlphanum_iff, isAlpha_iff, List.mem_cons,
    List.not_mem_nil, or_false, Bool.or_eq_true, beq_iff_eq, or_assoc]

/-! ### The expression -/

/-- A single character out of some. -/
def oneOf (cs : Text) : RegularExpression Char := (cs.map char).sum

/-- `[A-Za-z_$][A-Za-z0-9_$]*` -/
def plain : RegularExpression Char := oneOf leads * (oneOf inners).star

lemma mem_oneOf : t ∈ (oneOf cs).matches' ↔ ∃ c ∈ cs, t = [c] := by
  induction cs with
  | nil => simp [oneOf]
  | cons c r ih =>
    have hsum : oneOf (c :: r) = char c + oneOf r := rfl
    have hchar : t ∈ (char c).matches' ↔ t = [c] := Iff.rfl
    rw [hsum, RegularExpression.matches'_add, Language.mem_add, ih, hchar]
    simp

lemma mem_star_oneOf : t ∈ (oneOf cs).star.matches' ↔ ∀ c ∈ t, c ∈ cs := by
  rw [RegularExpression.matches'_star, Language.mem_kstar]
  constructor
  · rintro ⟨parts, rfl, hparts⟩ c hc
    obtain ⟨part, hpart, hmem⟩ := List.mem_flatten.mp hc
    obtain ⟨d, hd, rfl⟩ := mem_oneOf.mp (hparts part hpart)
    rwa [List.mem_singleton.mp hmem]
  · intro h
    refine ⟨t.map fun c => [c], ?_, ?_⟩
    · rw [← List.flatMap_def, List.flatMap_singleton']
    · intro part hpart
      obtain ⟨c, hc, rfl⟩ := List.mem_map.mp hpart
      exact mem_oneOf.mpr ⟨c, h c hc, rfl⟩

lemma isPlain_cons {r : Text} :
    isPlain (c :: r) = true ↔ isLead c = true ∧ ∀ d ∈ r, isInner d = true := by
  simp [isPlain]

lemma isInner_of_isPlain (h : isPlain name = true) : ∀ c ∈ name, isInner c = true := by
  obtain _ | ⟨c, r⟩ := name
  · cases h
  · obtain ⟨hlead, hinner⟩ := isPlain_cons.mp h
    have hc : isInner c = true := by
      simp only [isLead, isInner, isAlphanum_iff, Bool.or_eq_true] at hlead ⊢
      tauto
    exact List.forall_mem_cons.mpr ⟨hc, hinner⟩

lemma not_mem_of_isPlain (h : isPlain name = true) (hc : isInner c = false) : c ∉ name :=
  fun hmem => Bool.false_ne_true (hc.symm.trans (isInner_of_isPlain h c hmem))

/-- **A name is plain if the expression matches it**, and not else. -/
theorem isPlain_iff : isPlain name = true ↔ name ∈ plain.matches' := by
  rw [plain, RegularExpression.matches'_mul, Language.mem_mul]
  constructor
  · intro h
    obtain _ | ⟨c, r⟩ := name
    · cases h
    · obtain ⟨hlead, hinner⟩ := isPlain_cons.mp h
      exact ⟨[c], mem_oneOf.mpr ⟨c, isLead_iff.mp hlead, rfl⟩, r,
        mem_star_oneOf.mpr fun d hd => isInner_iff.mp (hinner d hd), rfl⟩
  · rintro ⟨first, hfirst, r, hr, rfl⟩
    obtain ⟨c, hc, rfl⟩ := mem_oneOf.mp hfirst
    exact isPlain_cons.mpr
      ⟨isLead_iff.mpr hc, fun d hd => isInner_iff.mpr (mem_star_oneOf.mp hr d hd)⟩

end RomEmbed.ClassName
