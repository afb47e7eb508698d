import Mathlib.Tactic.Common
import RomEmbed.Proofs.Output.Extraction
import RomEmbed.Proofs.Text.Brackets

/-!
The structure of a class. Its brackets and lines, and the places where its memory is assigned,
are those of the name and a fixed number more: the array adds nothing to them but one pair of
brackets, and nothing that the name ends with goes on into the frame. A plain name has none of
them, so that a class of that name is determined in all of this.
-/

namespace RomEmbed

open Text (Balanced Bare depth awaited isBracket occurrences Straddles)

variable {name t : Text} {c : Char}

/-- Every text is made of lines, if one more is ended after it. -/
lemma Text.exists_lines (t : Text) :
    ∃ lines : List Text, lines.length = t.count '\n' + 1 ∧ (∀ l ∈ lines, '\n' ∉ l) ∧
      t ++ ['\n'] = lines.flatMap (· ++ ['\n']) := by
  induction t with
  | nil => exact ⟨[[]], rfl, by simp, rfl⟩
  | cons c r ih =>
    obtain ⟨lines, hlength, hnone, hlines⟩ := ih
    by_cases hc : c = '\n'
    · subst hc
      refine ⟨[] :: lines, ?_, ?_, ?_⟩
      · rw [List.length_cons, hlength, List.count_cons_self]
      · exact List.forall_mem_cons.mpr ⟨List.not_mem_nil, hnone⟩
      · rw [List.cons_append, hlines, List.flatMap_cons]
        rfl
    · -- the character goes on with the first line
      obtain ⟨l, ls, rfl⟩ := List.exists_cons_of_length_eq_add_one hlength
      obtain ⟨hl, hls⟩ := List.forall_mem_cons.mp hnone
      refine ⟨(c :: l) :: ls, ?_, ?_, ?_⟩
      · rw [List.count_cons_of_ne hc, ← hlength]
        rfl
      · refine List.forall_mem_cons.mpr ⟨?_, hls⟩
        simpa [Ne.symm hc] using hl
      · rw [List.cons_append, hlines, List.flatMap_cons, List.flatMap_cons]
        rfl

lemma ArrayLiteral.balanced_render (bs : Bytes) : Balanced (render bs) := by
  obtain ⟨t, ht, hbetween⟩ := exists_render_eq bs
  have hbare : Bare between := by decide
  have htokens : Bare t := fun c hc => hbare c (hbetween hc)
  rw [ht]
  exact .pair rfl htokens.balanced .nil

lemma ArrayLiteral.ascii_render (bs : Bytes) : (render bs).all (·.toNat < 128) = true := by
  obtain ⟨t, ht, hbetween⟩ := exists_render_eq bs
  have hdigits : between.all (·.toNat < 128) = true := by decide
  have htokens : t.all (·.toNat < 128) = true :=
    List.all_eq_true.mpr fun c hc => List.all_eq_true.mp hdigits c (hbetween hc)
  simp [ht, htokens]

namespace ClassText

/-! ### Brackets -/

/-- What stands in the outer brackets of a class is balanced, and the same for every name. -/
lemma exists_body (rom : Rom) :
    ∃ body, Balanced body ∧ ∀ name, (embedding name rom).render =
      opening ++ (name ++ (' ' :: '{' :: (body ++ ['}', '\n']))) := by
  obtain ⟨g, hgap, hg⟩ :
      ∃ g, gap = ' ' :: '{' :: g ∧ awaited [] (g ++ marker) = some ['}'] :=
    ⟨gap.drop 2, by decide⟩
  obtain ⟨a, haccessors, ha⟩ :
      ∃ a, accessors = a ++ ['}', '\n'] ∧ awaited ['}'] a = some [] :=
    ⟨accessors.dropLast.dropLast, by decide +kernel⟩
  have hliteral := ArrayLiteral.balanced_render rom.bytes
  refine ⟨g ++ marker ++ (ArrayLiteral.render rom.bytes ++ a), ?_, fun name => ?_⟩
  · rw [Text.balanced_iff, Text.awaited_append, hg, Option.bind_some, Text.awaited_append,
      hliteral.awaited, Option.bind_some, ha]
  · rw [render_embedding, hgap, haccessors]
    simp only [List.append_assoc, List.cons_append]

lemma balanced_render_iff (name : Text) (rom : Rom) :
    Balanced (embedding name rom).render ↔ Balanced name := by
  obtain ⟨body, hbody, hrender⟩ := exists_body rom
  have hopening : Balanced opening := by decide
  have hrest : Balanced (' ' :: '{' :: (body ++ '}' :: ['\n'])) :=
    .other rfl (.pair rfl hbody (by decide))
  rw [hrender, Text.balanced_append_iff_of_left hopening, Text.balanced_append_iff_of_right hrest]

lemma depth_eq_zero_iff (hname : Bare name) {rom : Rom} {p q : Text}
    (hpq : p ++ q = (embedding name rom).render) : depth p = 0 ↔ '{' ∉ p ∨ '}' ∉ q := by
  obtain ⟨body, hbody, hrender⟩ := exists_body rom
  have hopening : Bare opening := by decide
  have hblank : Bare [' '] := by decide
  have hfront : Bare (opening ++ (name ++ [' '])) :=
    Text.bare_append_iff.mpr ⟨hopening, Text.bare_append_iff.mpr ⟨hname, hblank⟩⟩
  have hrest : Bare ['\n'] := by decide
  refine Text.depth_eq_zero_iff_of_enclosed hfront hbody hrest ?_
  rw [hpq, hrender]
  simp only [List.append_assoc, List.cons_append, List.nil_append]

/-! ### Characters -/

/-- What does not vary in a class. -/
def frame : Text := opening ++ (gap ++ (marker ++ accessors))

lemma frame_characters :
    frame.all (·.toNat < 128) = true ∧ frame.count '\n' = 14 ∧ frame.count '=' = 1 := by
  decide +kernel

lemma count_render (hc : c ∉ '[' :: ']' :: ArrayLiteral.between) (name : Text) (rom : Rom) :
    (embedding name rom).render.count c = name.count c + frame.count c := by
  have hliteral : (ArrayLiteral.render rom.bytes).count c = 0 :=
    List.count_eq_zero.mpr (ArrayLiteral.not_mem_render hc)
  simp only [render_embedding, frame, List.count_append, hliteral]
  omega

lemma ascii_render (hname : name.all (·.toNat < 128) = true) (rom : Rom) :
    (embedding name rom).render.all (·.toNat < 128) = true := by
  have hliteral := ArrayLiteral.ascii_render rom.bytes
  have hframe := frame_characters.1
  simp only [frame, List.all_append, Bool.and_eq_true] at hframe
  simp [render_embedding, hframe, hname, hliteral]

lemma exists_lines_render (name : Text) (rom : Rom) :
    ∃ lines : List Text, lines.length = (embedding name rom).render.count '\n' ∧
      (∀ l ∈ lines, '\n' ∉ l) ∧ (embedding name rom).render = lines.flatMap (· ++ ['\n']) := by
  obtain ⟨body, -, hrender⟩ := exists_body rom
  have hend : (embedding name rom).render =
      opening ++ (name ++ (' ' :: '{' :: (body ++ ['}']))) ++ ['\n'] := by
    rw [hrender]
    simp only [List.append_assoc, List.cons_append, List.nil_append]
  rw [hend, List.count_append]
  exact Text.exists_lines _

/-! ### Patterns -/

/-- No seam of a class is within the pattern: no beginning of it ends a part of the frame, no
end of it begins what stands after the name, and it does not begin in the array. -/
structure Clear (p : Text) : Prop where
  left : ∀ part ∈ [opening, gap, marker], ∀ a ∈ p.inits, a <:+ part → a = []
  right : ∀ b ∈ p.tails, b <+: gap → b = [] ∨ b = p
  length_le : p.length ≤ gap.length
  head : ∃ c ∉ '[' :: ']' :: ArrayLiteral.between, p.head? = some c

namespace Clear

variable {p s part : Text} {bs : Bytes}

lemma ne_nil (h : Clear p) : p ≠ [] := by
  obtain ⟨c, -, hc⟩ := h.head
  exact List.ne_nil_of_mem (List.mem_of_mem_head? hc)

lemma not_straddles_part (h : Clear p) (hpart : part ∈ [opening, gap, marker]) :
    ¬Straddles p part t :=
  Text.not_straddles_of_left (h.left part hpart)

lemma not_straddles_name (h : Clear p) : ¬Straddles p name (gap ++ t) := fun hs =>
  Text.not_straddles_of_right h.right ((Text.straddles_append_iff h.length_le).mp hs)

lemma not_straddles_literal (h : Clear p) : ¬Straddles p (ArrayLiteral.render bs) t := by
  obtain ⟨c, hc, hhead⟩ := h.head
  exact Text.not_straddles_of_not_mem hhead (ArrayLiteral.not_mem_render hc)

lemma not_infix_literal (h : Clear p) : ¬p <:+: ArrayLiteral.render bs := by
  obtain ⟨c, hc, hhead⟩ := h.head
  exact Text.not_infix_of_not_mem (List.mem_of_mem_head? hhead) (ArrayLiteral.not_mem_render hc)

/-- Such a pattern occurs in the name as often as it did, and in the frame. -/
lemma occurrences_render (h : Clear p) (name : Text) (rom : Rom) :
    occurrences p (embedding name rom).render = occurrences p name +
      (occurrences p opening + occurrences p gap + occurrences p marker +
        occurrences p accessors) := by
  rw [render_embedding, Text.occurrences_append h.ne_nil (h.not_straddles_part (by simp)),
    Text.occurrences_append h.ne_nil h.not_straddles_name,
    Text.occurrences_append h.ne_nil (h.not_straddles_part (by simp)),
    Text.occurrences_append h.ne_nil (h.not_straddles_part (by simp)),
    Text.occurrences_append h.ne_nil h.not_straddles_literal,
    Text.occurrences_eq_zero h.not_infix_literal]
  omega

/-- Such a pattern is found after the array, unless it occurs before. -/
lemma after?_render (h : Clear p) (hfront : ∀ s ∈ [opening, name, gap, marker], ¬p <:+: s)
    (rom : Rom) : after? p (embedding name rom).render = after? p accessors := by
  rw [render_embedding, after?_append (hfront _ (by simp)) (h.not_straddles_part (by simp)),
    after?_append (hfront _ (by simp)) h.not_straddles_name,
    after?_append (hfront _ (by simp)) (h.not_straddles_part (by simp)),
    after?_append (hfront _ (by simp)) (h.not_straddles_part (by simp)),
    after?_append h.not_infix_literal h.not_straddles_literal]

end Clear

/-- An assignment to the memory, without what is assigned. -/
def assigning : Text := "this.memory =".toList

lemma clear_assigning : Clear assigning where
  left := by decide
  right := by decide
  length_le := by decide
  head := ⟨'t', by decide⟩

lemma occurrences_assigning (name : Text) (rom : Rom) :
    occurrences assigning (embedding name rom).render = occurrences assigning name + 1 := by
  have hframe : occurrences assigning opening + occurrences assigning gap +
      occurrences assigning marker + occurrences assigning accessors = 1 := by decide +kernel
  rw [clear_assigning.occurrences_render, hframe]

/-- How the method for writing begins. -/
def writing : Text := "write(addr, value)".toList

lemma clear_writing : Clear writing where
  left := by decide
  right := by decide
  length_le := by decide
  head := ⟨'w', by decide⟩

/-- Under a name without an opening bracket the first method for writing is that of the frame,
which neither assigns to the memory nor indexes it. -/
lemma exists_after?_writing (hname : '(' ∉ name) :
    ∃ rest, ¬"memory =".toList <:+: writing ++ rest ∧ ¬"memory[".toList <:+: writing ++ rest ∧
      ∀ rom, after? writing (embedding name rom).render = some rest := by
  have hbody : (after? writing accessors).any fun rest =>
      ¬"memory =".toList <:+: writing ++ rest ∧ ¬"memory[".toList <:+: writing ++ rest := by
    decide +kernel
  obtain ⟨rest, hrest, hnone⟩ := (Option.any_eq_true _ _).mp hbody
  obtain ⟨hassigned, hindexed⟩ := of_decide_eq_true hnone
  have hparts : ∀ s ∈ [opening, gap, marker], ¬writing <:+: s := by decide
  have hfront : ∀ s ∈ [opening, name, gap, marker], ¬writing <:+: s := by
    have hwriting : ¬writing <:+: name := Text.not_infix_of_not_mem (c := '(') (by decide) hname
    simp only [List.forall_mem_cons] at hparts ⊢
    exact ⟨hparts.1, hwriting, hparts.2⟩
  exact ⟨rest, hassigned, hindexed, fun rom => (clear_writing.after?_render hfront rom).trans hrest⟩

/-! ### The whole -/

/-- What a class is like whose name takes no part in its structure. -/
structure WellFormed (t : Text) : Prop where
  ascii : ∀ c ∈ t, c.toNat < 128
  lines : ∃ lines : List Text, lines.length = 14 ∧ (∀ l ∈ lines, '\n' ∉ l) ∧
    t = lines.flatMap (· ++ ['\n'])
  balanced : Balanced t
  enclosed : ∀ p q, p ++ q = t → (depth p = 0 ↔ '{' ∉ p ∨ '}' ∉ q)
  assigned : occurrences "this.memory =".toList t = 1 ∧ t.count '=' = 1
  untouched : ∃ front rest, t = front ++ ("write(addr, value)".toList ++ rest) ∧
    (∀ front' rest', t = front' ++ ("write(addr, value)".toList ++ rest') →
      front.length ≤ front'.length) ∧
    ¬"memory =".toList <:+: "write(addr, value)".toList ++ rest ∧
    ¬"memory[".toList <:+: "write(addr, value)".toList ++ rest

lemma wellFormed_render (h : ClassName.isPlain name = true) (rom : Rom) :
    WellFormed (embedding name rom).render := by
  have hinner : name ⊆ ClassName.inners := fun c hc =>
    ClassName.isInner_iff.mp (ClassName.isInner_of_isPlain h c hc)
  have hinners : Bare ClassName.inners ∧ ClassName.inners.all (·.toNat < 128) = true := by decide
  have hbare : Bare name := fun c hc => hinners.1 c (hinner hc)
  have hascii : name.all (·.toNat < 128) = true :=
    List.all_eq_true.mpr fun c hc => List.all_eq_true.mp hinners.2 c (hinner hc)
  have hcount : ∀ c, ClassName.isInner c = false → name.count c = 0 := fun c hc =>
    List.count_eq_zero.mpr (ClassName.not_mem_of_isPlain h hc)
  refine ⟨?_, ?_, ?_, ?_, ⟨?_, ?_⟩, ?_⟩
  · simpa using ascii_render hascii rom
  · obtain ⟨lines, hlength, hnone, hlines⟩ := exists_lines_render name rom
    refine ⟨lines, ?_, hnone, hlines⟩
    rw [hlength, count_render (by decide), hcount _ rfl, frame_characters.2.1]
  · exact (balanced_render_iff name rom).mpr hbare.balanced
  · exact fun p q => depth_eq_zero_iff hbare
  · have hdot : '.' ∉ name := ClassName.not_mem_of_isPlain h rfl
    rw [show "this.memory =".toList = assigning from rfl, occurrences_assigning,
      Text.occurrences_eq_zero (Text.not_infix_of_not_mem (c := '.') (by decide) hdot)]
  · rw [count_render (by decide), hcount _ rfl, frame_characters.2.2]
  · obtain ⟨rest, hassigned, hindexed, hafter⟩ :=
      exists_after?_writing (ClassName.not_mem_of_isPlain h rfl)
    obtain ⟨front, hrender, hfirst⟩ := after?_eq_some_iff.mp (hafter rom)
    exact ⟨front, rest, hrender, hfirst, hassigned, hindexed⟩

/-- **The structure of a class is that of its name and of the frame**, for every image: its
brackets match if those of the name do, and its lines and assignments are those of the name and
a fixed number more. -/
theorem render_structure (name : Text) (rom : Rom) :
    (Balanced (embedding name rom).render ↔ Balanced name) ∧
    (embedding name rom).render.count '\n' = name.count '\n' + 14 ∧
    occurrences "this.memory =".toList (embedding name rom).render =
      occurrences "this.memory =".toList name + 1 ∧
    (ClassName.isPlain name = true → WellFormed (embedding name rom).render) := by
  refine ⟨balanced_render_iff name rom, ?_, occurrences_assigning name rom,
    fun h => wellFormed_render h rom⟩
  rw [count_render (by decide), frame_characters.2.1]

end ClassText

end RomEmbed
