import Mathlib.Tactic.Common
import RomEmbed.Output.ClassText
import RomEmbed.Proofs.Output.Grammar
import RomEmbed.Proofs.Output.PlainNames
import RomEmbed.Proofs.Text.Occurrences

/-!
Finding the array of a class by the marker before it. The class has its own marker after the
name, so the array is found unless a marker is met before that one. It can only be met in the
name and the blank that follows it; then what is found does not depend on the image, or holds
more than the array.
-/

namespace RomEmbed.ClassText

open Text (Straddles)

variable {mark s t u rest : Text} {name : Text} {c : Char}

/-! ### First occurrences -/

lemma after?_append_self (mark t : Text) : after? mark (mark ++ t) = some t := by
  have hpre : mark.isPrefixOf? (mark ++ t) = some t :=
    List.isPrefixOf?_eq_some_iff_append_eq.mpr rfl
  rcases ht : mark ++ t with _ | ⟨c, r⟩
  · rwa [ht] at hpre
  · rw [ht] at hpre
    simp only [after?, hpre]

lemma after?_cons (h : ¬mark <+: c :: t) : after? mark (c :: t) = after? mark t := by
  have hnone : mark.isPrefixOf? (c :: t) = none := by
    rw [← Option.not_isSome_iff_eq_none, List.isSome_isPrefixOf?_eq_isPrefixOf,
      List.isPrefixOf_iff_prefix]
    exact h
  simp only [after?, hnone]

/-- What is found is what comes after the first of all occurrences. -/
lemma after?_eq_some_iff :
    after? mark t = some rest ↔
      ∃ front, t = front ++ (mark ++ rest) ∧
        ∀ front' rest', t = front' ++ (mark ++ rest') → front.length ≤ front'.length := by
  induction t with
  | nil =>
    rw [after?, List.isPrefixOf?_eq_some_iff_append_eq]
    simp
  | cons c r ih =>
    by_cases hpre : mark <+: c :: r
    · obtain ⟨rest₀, hr⟩ := hpre
      rw [← hr, after?_append_self]
      constructor
      · rintro ⟨⟩
        exact ⟨[], rfl, fun _ _ _ => Nat.zero_le _⟩
      · rintro ⟨front, hfront, hfirst⟩
        have h0 : front = [] := List.length_eq_zero_iff.mp (Nat.le_zero.mp (hfirst [] rest₀ rfl))
        rw [h0, List.nil_append] at hfront
        rw [List.append_cancel_left hfront]
    · rw [after?_cons hpre, ih]
      constructor
      · rintro ⟨front, rfl, hfirst⟩
        refine ⟨c :: front, rfl, fun front' rest' h => ?_⟩
        obtain _ | ⟨d, front'⟩ := front'
        · exact absurd ⟨rest', h.symm⟩ hpre
        · exact Nat.succ_le_succ (hfirst front' rest' (List.cons.inj h).2)
      · rintro ⟨front, hfront, hfirst⟩
        obtain _ | ⟨d, front⟩ := front
        · exact absurd ⟨rest, hfront.symm⟩ hpre
        · refine ⟨front, (List.cons.inj hfront).2, fun front' rest' h => ?_⟩
          have hle := hfirst (c :: front') rest' (congrArg (c :: ·) h)
          exact Nat.le_of_succ_le_succ hle

/-- A beginning that the mark neither occurs in nor straddles the end of is passed over. -/
lemma after?_append (hmark : ¬mark <:+: s) (h : ¬Straddles mark s t) :
    after? mark (s ++ t) = after? mark t := by
  induction s with
  | nil => rfl
  | cons c s ih =>
    have hpre : ¬mark <+: c :: (s ++ t) := fun hp =>
      hmark ((Text.prefix_append_iff (List.cons_ne_nil c s) h).mp hp).isInfix
    rw [List.cons_append, after?_cons hpre]
    exact ih (fun hs => hmark (hs.trans (List.suffix_cons c s).isInfix)) fun hs => h hs.of_cons

/-- Where the mark occurs in a beginning it is found there, whatever comes after. -/
lemma exists_after?_append (h : mark <:+: s) :
    ∃ b, ∀ t, after? mark (s ++ t) = some (b ++ t) := by
  induction s with
  | nil =>
    obtain rfl : mark = [] := List.infix_nil.mp h
    exact ⟨[], fun t => after?_append_self [] t⟩
  | cons c s ih =>
    by_cases hpre : mark <+: c :: s
    · obtain ⟨b, hb⟩ := hpre
      refine ⟨b, fun t => ?_⟩
      rw [← hb, List.append_assoc, after?_append_self]
    · have hs : mark <:+: s := (List.infix_cons_iff.mp h).resolve_left hpre
      obtain ⟨b, hb⟩ := ih hs
      refine ⟨b, fun t => ?_⟩
      have hpre' : ¬mark <+: c :: (s ++ t) := by
        intro hp
        have hle : mark.length ≤ (c :: s).length := Nat.le_succ_of_le hs.length_le
        exact hpre (List.prefix_of_prefix_length_le hp (List.prefix_append (c :: s) t) hle)
      rw [List.cons_append, after?_cons hpre', hb]

/-! ### The array -/

lemma takeWhile_semicolon {l : Text} (h : ';' ∉ l) (r : Text) :
    (l ++ ';' :: r).takeWhile (· ≠ ';') = l := by
  have hl : ∀ c ∈ l, decide (c ≠ ';') = true := fun c hc => by
    simpa using ne_of_mem_of_not_mem hc h
  rw [List.takeWhile_append_of_pos hl]
  simp

/-- What is extracted is what stands between the first marker and the next semicolon. -/
lemma array?_eq_some_iff {l : Text} :
    array? t = some l ↔
      ∃ front rest, t = front ++ (marker ++ (l ++ ';' :: rest)) ∧ ';' ∉ l ∧
        ∀ front' rest', t = front' ++ (marker ++ rest') → front.length ≤ front'.length := by
  simp only [array?, Option.bind_eq_bind, Option.bind_eq_some_iff, after?_eq_some_iff]
  constructor
  · rintro ⟨rest, ⟨front, rfl, hfirst⟩, hrest⟩
    split at hrest
    · next hmem =>
      obtain ⟨l', r, rfl, hl'⟩ := List.eq_append_cons_of_mem hmem
      rw [takeWhile_semicolon hl'] at hrest
      obtain rfl := Option.some.inj hrest
      exact ⟨front, r, rfl, hl', hfirst⟩
    · cases hrest
  · rintro ⟨front, rest, rfl, hl, hfirst⟩
    refine ⟨l ++ ';' :: rest, ⟨front, rfl, hfirst⟩, ?_⟩
    rw [if_pos (by simp), takeWhile_semicolon hl]

lemma array?_of_after? {l r : Text} (h : after? marker t = some (l ++ ';' :: r))
    (hl : ';' ∉ l) : array? t = some l := by
  have hmem : ';' ∈ l ++ ';' :: r := by simp
  simp only [array?, h, Option.bind_eq_bind, Option.bind_some, if_pos hmem]
  rw [takeWhile_semicolon hl]

/-! ### The parts of a class -/

/-- What stands between the name and the marker. -/
def gap : Text := " \x7b\n    constructor() \x7b\n        ".toList

lemma assignment_eq : assignment = gap ++ marker := by decide

lemma exists_accessors_eq : ∃ r, accessors = ';' :: r := ⟨_, rfl⟩

lemma render_embedding (name : Text) (rom : Rom) :
    (embedding name rom).render =
      opening ++ (name ++ (gap ++ (marker ++ (ArrayLiteral.render rom.bytes ++ accessors)))) := by
  rw [render, embedding, assignment_eq, List.append_assoc]

lemma semicolon_not_mem_literal (bs : Bytes) : ';' ∉ ArrayLiteral.render bs :=
  ArrayLiteral.not_mem_render (by decide)

/-- The only character after the name that a marker at its end can reach is the blank. -/
lemma infix_of_straddles (h : Straddles marker name gap) : marker <:+: name ++ [' '] := by
  have hblank : ∀ b ∈ marker.tails, b <+: gap → b = [] ∨ b = [' '] := by decide
  obtain ⟨a, b, -, hb, hmarker, ⟨front, hname⟩, hgap⟩ := h
  have hmem : b ∈ marker.tails :=
    (List.mem_tails _ _).mpr (hmarker ▸ List.suffix_append a b)
  obtain rfl := (hblank b hmem hgap).resolve_left hb
  exact ⟨front, [], by rw [hmarker, ← hname]; simp⟩

/-! ### Names that forge the marker, and others -/

/-- Without a marker in the name the first one is that of the class. -/
lemma after?_render (h : ¬marker <:+: name ++ [' ']) (rom : Rom) :
    after? marker (embedding name rom).render =
      some (ArrayLiteral.render rom.bytes ++ accessors) := by
  have hopening : ∀ a ∈ marker.inits, a <:+ opening → a = [] := by decide
  have hgap : ∀ a ∈ marker.inits, a <:+ gap → a = [] := by decide
  have hname : ¬marker <:+: name := fun hn => h (hn.trans (List.infix_append' [] name [' ']))
  have hseam : ∀ u, ¬Straddles marker name (gap ++ u) := fun u hs =>
    h (infix_of_straddles ((Text.straddles_append_iff (by decide)).mp hs))
  rw [render_embedding, after?_append (by decide) (Text.not_straddles_of_left hopening),
    after?_append hname (hseam _), after?_append (by decide) (Text.not_straddles_of_left hgap),
    after?_append_self]

/-- A marker in the name is found there, and more than the array comes after it. -/
lemma exists_after?_render (h : marker <:+: name ++ [' ']) :
    ∃ b g, g ≠ [] ∧ ';' ∉ g ∧ ∀ rom, after? marker (embedding name rom).render =
      some (b ++ (g ++ (ArrayLiteral.render rom.bytes ++ accessors))) := by
  obtain ⟨g, hgap⟩ : ∃ g, gap = ' ' :: g := ⟨_, rfl⟩
  have hsemicolon : ';' ∉ gap ++ marker := by decide
  have hfront : marker <:+: opening ++ (name ++ [' ']) :=
    h.trans (List.suffix_append opening _).isInfix
  obtain ⟨b, hb⟩ := exists_after?_append hfront
  refine ⟨b, g ++ marker, ?_, ?_, fun rom => ?_⟩
  · exact List.append_ne_nil_of_right_ne_nil g (by decide)
  · rw [hgap] at hsemicolon
    exact fun hg => hsemicolon (List.mem_cons_of_mem _ hg)
  · rw [render_embedding, ← hb, hgap]
    simp only [List.append_assoc, List.cons_append, List.nil_append]

/-- A name that forges the marker spoils the extraction for some image. -/
lemma exists_array?_ne (h : marker <:+: name ++ [' ']) :
    ∃ rom, array? (embedding name rom).render ≠ some (ArrayLiteral.render rom.bytes) := by
  obtain ⟨b, g, hg, hno, hb⟩ := exists_after?_render h
  by_cases hsemicolon : ';' ∈ b
  · -- what is extracted ends in the name, and is the same for all images
    obtain ⟨l, r, rfl, hl⟩ := List.eq_append_cons_of_mem hsemicolon
    have hconst : ∀ rom, array? (embedding name rom).render = some l := by
      intro rom
      have hafter := hb rom
      rw [List.append_assoc, List.cons_append] at hafter
      exact array?_of_after? hafter hl
    by_contra! hall
    have hempty := (hconst ⟨[]⟩).symm.trans (hall ⟨[]⟩)
    have hzero := (hconst ⟨[0]⟩).symm.trans (hall ⟨[0]⟩)
    have hsame := ArrayLiteral.render_injective (Option.some.inj (hempty.symm.trans hzero))
    cases hsame
  · -- what is extracted goes on to the end of the array, and is longer than that
    obtain ⟨r, hr⟩ := exists_accessors_eq
    let literal := ArrayLiteral.render []
    have hafter : after? marker (embedding name ⟨[]⟩).render =
        some (b ++ (g ++ literal) ++ ';' :: r) := by
      rw [hb, hr, List.append_assoc, List.append_assoc]
    have hmem : ';' ∉ b ++ (g ++ literal) := by
      simp only [List.mem_append, not_or]
      exact ⟨hsemicolon, hno, semicolon_not_mem_literal []⟩
    refine ⟨⟨[]⟩, fun hall => ?_⟩
    have hfull : b ++ (g ++ literal) = literal :=
      Option.some.inj ((array?_of_after? hafter hmem).symm.trans hall)
    have hlength := congrArg List.length hfull
    have hpos := List.length_pos_iff.mpr hg
    simp only [List.length_append] at hlength
    omega

/-- A plain name has no dot, so no marker is in it. -/
lemma not_marker_infix_of_plain (h : ClassName.isPlain name = true) :
    ¬marker <:+: name ++ [' '] := by
  have hdot : '.' ∉ name := ClassName.not_mem_of_isPlain h rfl
  exact Text.not_infix_of_not_mem (c := '.') (by decide) (by simpa using hdot)

/-- **The array of every image is found by its marker exactly under the names that do not forge
it.** A name forges the marker if this occurs in it or is completed by the blank after it. No
plain name does. -/
theorem array?_render_iff (name : Text) :
    (∀ t l, array? t = some l ↔
      ∃ front rest, t = front ++ ("this.memory = ".toList ++ (l ++ ';' :: rest)) ∧ ';' ∉ l ∧
        ∀ front' rest', t = front' ++ ("this.memory = ".toList ++ rest') →
          front.length ≤ front'.length) ∧
    ((∀ rom, array? (embedding name rom).render = some (ArrayLiteral.render rom.bytes)) ↔
      ¬"this.memory = ".toList <:+: name ++ [' ']) ∧
    (∀ front, name = front ++ "this.memory =".toList → ∃ rom,
      array? (embedding name rom).render ≠ some (ArrayLiteral.render rom.bytes)) ∧
    (ClassName.isPlain name = true → ∀ rom,
      array? (embedding name rom).render = some (ArrayLiteral.render rom.bytes)) := by
  have hfound : ¬marker <:+: name ++ [' '] → ∀ rom,
      array? (embedding name rom).render = some (ArrayLiteral.render rom.bytes) := by
    intro h rom
    obtain ⟨r, hr⟩ := exists_accessors_eq
    have hafter := after?_render h rom
    rw [hr] at hafter
    exact array?_of_after? hafter (semicolon_not_mem_literal _)
  refine ⟨fun t l => array?_eq_some_iff, ⟨fun hall h => ?_, hfound⟩, ?_, ?_⟩
  · obtain ⟨rom, hne⟩ := exists_array?_ne h
    exact hne (hall rom)
  · rintro front rfl
    have hmarker : marker = "this.memory =".toList ++ [' '] := by decide
    refine exists_array?_ne (List.IsSuffix.isInfix ⟨front, ?_⟩)
    rw [hmarker, List.append_assoc]
  · exact fun hplain => hfound (not_marker_infix_of_plain hplain)

end RomEmbed.ClassText
