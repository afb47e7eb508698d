import Mathlib.Tactic.Common
import RomEmbed.Text.Terminal

/-!
When leaving out control sequences changes a text, and when the two ways to do so differ.
What is kept is part of the text, and all of it is shown; without an escape character it is all
that is shown. So nothing is left out of a text exactly when all its characters are shown. The two
ways part only at a blank within a sequence, and a sequence begins with an escape character, so
they agree on every text in which no blank comes after one.
-/

namespace RomEmbed.Terminal

variable {b : AtBlank} {s : State} {c : Char} {t : Text}

/-! ### One character -/

/-- A character is kept after one that was kept, or it is read as part of a sequence, which
may be over before it or begin with it. -/
lemma step_cases (s : State) (c : Char) :
    (isShown c = true ∧
      ∃ m, (m = s.mode ∨ m = .ground) ∧ ∀ b, step b s c = ⟨c :: s.kept, true, m⟩) ∨
    ∃ m, (m = s.mode ∨ m = .ground ∨ c = '\x1B') ∧
      ∀ b, step b s c = skip b { s with mode := m } c := by
  by_cases hkeeping : s.keeping = true
  · by_cases hshown : isShown c = true
    · refine Or.inl ⟨hshown, if c.toNat < 0x80 then s.mode else .ground, ?_, fun b => ?_⟩
      · split <;> simp
      · rw [step, if_pos hkeeping, if_pos hshown]
    by_cases hescape : c = '\x1B'
    · refine Or.inr ⟨.escape, Or.inr (Or.inr hescape), fun b => ?_⟩
      rw [step, if_pos hkeeping, if_neg hshown, if_pos hescape]
    by_cases hcancel : c = '\x18' ∨ c = '\x1A'
    · refine Or.inr ⟨.ground, Or.inr (Or.inl rfl), fun b => ?_⟩
      rw [step, if_pos hkeeping, if_neg hshown, if_neg hescape, if_pos hcancel]
    · refine Or.inr ⟨s.mode, Or.inl rfl, fun b => ?_⟩
      rw [step, if_pos hkeeping, if_neg hshown, if_neg hescape, if_neg hcancel]
  · refine Or.inr ⟨s.mode, Or.inl rfl, fun b => ?_⟩
    rw [step, if_neg hkeeping]

/-- The control characters of ASCII. -/
def IsControl (c : Char) : Prop := c.toNat < 0x20 ∨ c.toNat = 0x7F

instance (c : Char) : Decidable (IsControl c) :=
  inferInstanceAs (Decidable (_ ∨ _))

/-- Shown is what is no control character of ASCII, or is one of the blanks. -/
lemma isShown_iff : isShown c = true ↔ (IsControl c → c ∈ ['\t', '\n', '\x0C', '\r']) := by
  have hspace : ' ' ≤ c ↔ ¬c.toNat < 0x20 := Nat.not_lt.symm
  have hdelete : c ≠ '\x7F' ↔ c.toNat ≠ 0x7F := not_congr Char.toNat_inj.symm
  simp only [isShown, isKeptBlank, IsControl, Bool.or_eq_true, Bool.and_eq_true, decide_eq_true_eq,
    beq_iff_eq, List.mem_cons, List.not_mem_nil, or_false, hspace, hdelete]
  tauto

-- a control character, but none of ASCII
example : isShown '\u0085' = true ∧ ¬IsControl '\u0085' := by decide

/-- No sequence begins without an escape character. -/
lemma next_ground (h : c ≠ '\x1B') : Mode.next .ground c = .ground := by
  simp [Mode.next, h]

/-! ### What is kept -/

lemma isShown_of_keeps {m : Mode} (h : m.keeps c = true) : isShown c = true := by
  cases m <;> simp_all [Mode.keeps, isShown]

lemma kept_step (h : ∀ d ∈ s.kept, isShown d = true) :
    ∀ d ∈ (step b s c).kept, isShown d = true := by
  intro d hd
  rcases step_cases s c with ⟨hshown, m, -, hstep⟩ | ⟨m, -, hstep⟩
  · rw [hstep b] at hd
    rcases List.mem_cons.mp hd with rfl | hd
    · exact hshown
    · exact h d hd
  · rw [hstep b, skip] at hd
    split at hd
    · next hk =>
      rcases List.mem_cons.mp hd with rfl | hd
      · exact isShown_of_keeps hk
      · exact h d hd
    · exact h d hd

lemma kept_run (h : ∀ d ∈ s.kept, isShown d = true) :
    ∀ d ∈ (run b s t).kept, isShown d = true := by
  induction t generalizing s with
  | nil => exact h
  | cons c r ih => exact ih (kept_step h)

lemma kept_step_sublist : (step b s c).kept.Sublist (c :: s.kept) := by
  rcases step_cases s c with ⟨-, m, -, hstep⟩ | ⟨m, -, hstep⟩
  · have hkept : (step b s c).kept = c :: s.kept := by rw [hstep b]
    exact hkept ▸ List.Sublist.refl _
  · rw [hstep b, skip]
    split
    · exact List.Sublist.refl _
    · exact List.sublist_cons_self c s.kept

lemma kept_run_sublist : (run b s t).kept.Sublist (t.reverse ++ s.kept) := by
  induction t generalizing s with
  | nil => exact List.Sublist.refl _
  | cons c r ih =>
    rw [run_cons, List.reverse_cons, List.append_assoc, List.singleton_append]
    exact ih.trans (kept_step_sublist.append_left _)

/-- Every character that is kept is shown. -/
lemma isShown_of_mem_keep (h : c ∈ keep b t) : isShown c = true :=
  kept_run (by simp) c (List.mem_reverse.mp h)

/-- What is kept is part of the text, in its order. -/
lemma keep_sublist (b : AtBlank) (t : Text) : (keep b t).Sublist t := by
  have h : (run b {} t).kept.Sublist (t.reverse ++ []) := kept_run_sublist
  rw [List.append_nil] at h
  exact List.reverse_sublist.mp (by rwa [keep, List.reverse_reverse])

/-- Outside of sequences a character is kept if it is shown, and only an escape character begins a
sequence. -/
lemma step_ground (h : s.mode = .ground) (hc : c ≠ '\x1B') :
    (step b s c).mode = .ground ∧
      (step b s c).kept = if isShown c then c :: s.kept else s.kept := by
  rcases step_cases s c with ⟨hshown, m, hm, hstep⟩ | ⟨m, hm, hstep⟩
  · rw [hstep, if_pos hshown]
    rcases hm with rfl | rfl
    · exact ⟨h, rfl⟩
    · exact ⟨rfl, rfl⟩
  · have hm : m = .ground := by
      rcases hm with rfl | rfl | rfl
      · exact h
      · rfl
      · exact absurd rfl hc
    rw [hstep, skip, hm, Mode.keeps]
    split
    · cases b
      · exact ⟨rfl, rfl⟩
      · exact ⟨next_ground hc, rfl⟩
    · exact ⟨next_ground hc, rfl⟩

lemma kept_run_ground (h : s.mode = .ground) (ht : '\x1B' ∉ t) :
    (run b s t).kept = (t.filter isShown).reverse ++ s.kept := by
  induction t generalizing s with
  | nil => rfl
  | cons c r ih =>
    obtain ⟨hc, hr⟩ := not_or.mp (List.mem_cons.not.mp ht)
    obtain ⟨hmode, hkept⟩ := step_ground (b := b) h (Ne.symm hc)
    rw [run_cons, ih hmode hr, hkept, List.filter_cons]
    split <;> simp

/-- **Without an escape character nothing is left out but what is not shown.** -/
theorem keep_of_no_escape (h : '\x1B' ∉ t) : keep b t = t.filter isShown := by
  rw [keep, kept_run_ground rfl h]
  simp

/-- **A text is kept whole exactly if all its characters are shown.** -/
theorem keep_eq_self_iff : keep b t = t ↔ ∀ c ∈ t, isShown c = true := by
  constructor
  · intro h c hc
    rw [← h] at hc
    exact isShown_of_mem_keep hc
  · exact keep_of_shown b

/-! ### The two ways -/

/-- A blank comes somewhere after an escape character. -/
def BlankAfterEscape (t : Text) : Prop :=
  ∃ pre post, t = pre ++ '\x1B' :: post ∧ ∃ c ∈ post, isKeptBlank c = true

lemma skip_eq (h : s.mode = .ground ∨ isKeptBlank c = false) :
    skip .ends s c = skip .putsOff s c := by
  unfold skip
  split
  · next hk =>
    have hmode : s.mode = .ground := by
      rcases h with h | h
      · exact h
      · cases hm : s.mode <;> simp_all [Mode.keeps]
    have hescape : c ≠ '\x1B' := by
      rintro rfl
      exact absurd (isShown_of_keeps hk) (by decide)
    simp only [AtBlank.next, hmode, next_ground hescape]
  · rfl

lemma step_eq (h : s.mode = .ground ∨ isKeptBlank c = false) :
    step .ends s c = step .putsOff s c := by
  rcases step_cases s c with ⟨-, m, -, hstep⟩ | ⟨m, hm, hstep⟩
  · rw [hstep, hstep]
  · rw [hstep, hstep]
    rcases hm with rfl | rfl | rfl
    · exact skip_eq h
    · exact skip_eq (Or.inl rfl)
    · exact skip_eq (Or.inr rfl)

lemma run_eq_of_no_blank (h : ∀ c ∈ t, isKeptBlank c = false) :
    run .ends s t = run .putsOff s t := by
  induction t generalizing s with
  | nil => rfl
  | cons c r ih =>
    rw [run_cons, run_cons, step_eq (Or.inr (h c (by simp)))]
    exact ih fun d hd => h d (by simp [hd])

lemma run_eq (hmode : s.mode = .ground) (h : ¬BlankAfterEscape t) :
    run .ends s t = run .putsOff s t := by
  induction t generalizing s with
  | nil => rfl
  | cons c r ih =>
    rw [run_cons, run_cons, step_eq (Or.inl hmode)]
    by_cases hc : c = '\x1B'
    · -- from here on there are no blanks
      refine run_eq_of_no_blank fun d hd => ?_
      by_contra hblank
      exact h ⟨[], r, by rw [hc, List.nil_append], d, hd, by simpa using hblank⟩
    · refine ih (step_ground hmode hc).1 ?_
      rintro ⟨pre, post, rfl, hblank⟩
      exact h ⟨c :: pre, post, rfl, hblank⟩

/-- **Both ways agree where no blank comes after an escape character.** -/
theorem plain_eq_streamed (h : ¬BlankAfterEscape t) : plain t = streamed t := by
  rw [plain, streamed, keep, keep, run_eq rfl h]

-- the blank puts the sequence off, and the next control character resumes it
example : plain "\x1B\n\x01]".toList = "\n]".toList ∧ streamed "\x1B\n\x01]".toList = ['\n'] := by
  decide

end RomEmbed.Terminal
