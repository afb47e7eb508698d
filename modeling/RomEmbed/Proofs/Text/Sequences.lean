import Mathlib.Data.List.TakeWhile
import Mathlib.Tactic.Common
import RomEmbed.Proofs.Text.Stripping

/-!
What control sequences are left out of a text that reaches a stream that is no terminal. A sequence
that is complete is left out as a whole, and nothing else than such sequences and control
characters. Where a sequence is not complete, or a blank stands in it, what is left is given by
a relation on texts: of a sequence nothing is left but its blanks, and after a blank a stretch of
shown characters, behind which the sequence goes on unless the stretch is not of ASCII only.
-/

namespace RomEmbed.Terminal

variable {m : Mode} {keeping : Bool} {c : Char} {s t u v stretch : Text}

/-! ### From within a sequence on -/

/-- How a sequence stands after a stretch of shown characters. -/
def Mode.after (m : Mode) (stretch : Text) : Mode :=
  if stretch.all (·.toNat < 0x80) then m else ground

/-- Of a text read from some mode on, so much is left. -/
inductive Strips : Mode → Text → Text → Prop
  | nil {m : Mode} : Strips m [] []
  | shown {c : Char} {t u : Text} :
      isShown c = true → Strips .ground t u → Strips .ground (c :: t) (c :: u)
  | dropped {m : Mode} {c : Char} {t u : Text} :
      m.keeps c = false → Strips (m.next c) t u → Strips m (c :: t) u
  | putOff {m : Mode} {c : Char} {stretch t u : Text} :
      m ≠ .ground → m.keeps c = true → (∀ d ∈ stretch, isShown d = true) →
      (∀ d ∈ t.head?, isShown d = false) → Strips (m.after stretch) t u →
      Strips m (c :: (stretch ++ t)) (c :: (stretch ++ u))

/-- What is kept of a text read from some mode on, after a character that is kept or not. -/
def left (m : Mode) (keeping : Bool) (t : Text) : Text :=
  (run .putsOff ⟨[], keeping, m⟩ t).kept.reverse

lemma streamed_eq_left (t : Text) : streamed t = left .ground false t := rfl

lemma kept_run_append (k : Text) (a : State) (t : Text) :
    (run .putsOff { a with kept := a.kept ++ k } t).kept = (run .putsOff a t).kept ++ k := by
  induction t generalizing a with
  | nil => rfl
  | cons c r ih =>
    -- what was kept before stays below what is kept of the character
    have hstep : step .putsOff { a with kept := a.kept ++ k } c =
        { step .putsOff a c with kept := (step .putsOff a c).kept ++ k } := by
      unfold step skip
      split_ifs <;> rfl
    rw [run_cons, run_cons, hstep, ih]

lemma left_of_kept {m' : Mode} (h : step .putsOff ⟨[], keeping, m⟩ c = ⟨[c], true, m'⟩) :
    left m keeping (c :: t) = c :: left m' true t := by
  have hkept := kept_run_append [c] ⟨[], true, m'⟩ t
  rw [List.nil_append] at hkept
  rw [left, run_cons, h, hkept, List.reverse_append]
  rfl

lemma left_of_dropped {m' : Mode} (h : step .putsOff ⟨[], keeping, m⟩ c = ⟨[], false, m'⟩) :
    left m keeping (c :: t) = left m' false t := by
  rw [left, run_cons, h, left]

lemma ne_escape_of_shown (h : isShown c = true) : c ≠ '\x1B' := by
  rintro rfl
  exact absurd h (by decide)

lemma left_kept (h : m.keeps c = true) : left m false (c :: t) = c :: left (m.next c) true t := by
  refine left_of_kept ?_
  rw [step, if_neg Bool.false_ne_true, skip, if_pos h]
  rfl

lemma left_dropped (h : m.keeps c = false) : left m false (c :: t) = left (m.next c) false t := by
  refine left_of_dropped ?_
  rw [step, if_neg Bool.false_ne_true, skip, if_neg (Bool.eq_false_iff.mp h)]

lemma left_shown (h : isShown c = true) :
    left m true (c :: t) = c :: left (m.after [c]) true t := by
  refine left_of_kept ?_
  rw [step, if_pos rfl, if_pos h, Mode.after]
  simp only [List.all_cons, List.all_nil, Bool.and_true, decide_eq_true_eq]

/-- What is not shown is read as part of a sequence, also after a stretch that was kept. -/
lemma left_control (h : isShown c = false) (keeping : Bool) :
    left m keeping (c :: t) = left (m.next c) false t := by
  have hkeeps (m : Mode) : m.keeps c = false :=
    Bool.eq_false_iff.mpr fun hk => Bool.eq_false_iff.mp h (isShown_of_keeps hk)
  rcases keeping with _ | _
  · exact left_dropped (hkeeps m)
  refine left_of_dropped ?_
  have hskip (m : Mode) : skip .putsOff ⟨[], true, m⟩ c = ⟨[], false, m.next c⟩ := by
    rw [skip, if_neg (Bool.eq_false_iff.mp (hkeeps m))]
  rw [step, if_pos rfl, if_neg (Bool.eq_false_iff.mp h), hskip, hskip, hskip]
  split_ifs with hescape hcancel
  · subst hescape
    cases m <;> rfl
  · have hground (m : Mode) : m.next c = .ground := if_pos hcancel
    rw [hground, hground]
  · rfl

/-- Outside of sequences it does not matter whether the last character was kept. -/
lemma left_ground (keeping : Bool) (t : Text) : left .ground keeping t = left .ground false t := by
  rcases keeping with _ | _
  · rfl
  rcases t with _ | ⟨c, t⟩
  · rfl
  by_cases hc : isShown c = true
  · rw [left_shown hc, left_kept (m := .ground) hc, next_ground (ne_escape_of_shown hc),
      Mode.after, ite_self]
  · have hc := Bool.eq_false_iff.mpr hc
    rw [left_control hc, left_control hc]

/-- A stretch of shown characters is kept. -/
lemma left_stretch (hstretch : ∀ d ∈ stretch, isShown d = true)
    (hend : ∀ d ∈ t.head?, isShown d = false) :
    left m true (stretch ++ t) = stretch ++ left (m.after stretch) false t := by
  induction stretch generalizing m with
  | nil =>
    have hafter : m.after [] = m := by simp [Mode.after]
    rw [hafter]
    rcases t with _ | ⟨d, t⟩
    · rfl
    · have hd := hend d rfl
      rw [List.nil_append, List.nil_append, left_control hd, left_control hd]
  | cons d ds ih =>
    obtain ⟨hd, hds⟩ := List.forall_mem_cons.mp hstretch
    have hafter : (m.after [d]).after ds = m.after (d :: ds) := by
      simp only [Mode.after, List.all_cons, List.all_nil, Bool.and_true, Bool.and_eq_true]
      split_ifs <;> first | rfl | tauto
    rw [List.cons_append, left_shown hd, ih hds, hafter, List.cons_append]

/-- A blank leaves a sequence where it is. -/
lemma next_of_keeps (hm : m ≠ .ground) (h : m.keeps c = true) : m.next c = m := by
  have hblank : isKeptBlank c = true := by
    cases m <;> simp_all [Mode.keeps]
  simp only [isKeptBlank, Bool.or_eq_true, beq_iff_eq] at hblank
  rcases hblank with ((rfl | rfl) | rfl) | rfl <;> cases m <;> rfl

lemma strips_left (m : Mode) (t : Text) : Strips m t (left m false t) := by
  induction hn : t.length using Nat.strongRecOn generalizing m t with
  | _ n ih =>
    rcases t with _ | ⟨c, t⟩
    · exact .nil
    subst hn
    by_cases hc : m.keeps c = true
    · by_cases hm : m = .ground
      · subst hm
        rw [left_kept hc, next_ground (ne_escape_of_shown hc), left_ground]
        exact .shown hc (ih _ (Nat.lt_succ_self _) _ _ rfl)
      · -- the blank and the stretch behind it are kept
        have hsplit : t.takeWhile isShown ++ t.dropWhile isShown = t :=
          List.takeWhile_append_dropWhile
        have hstretch : ∀ d ∈ t.takeWhile isShown, isShown d = true := fun d hd =>
          List.mem_takeWhile_imp hd
        have hend : ∀ d ∈ (t.dropWhile isShown).head?, isShown d = false := by
          intro d hd
          have hnot := List.head?_dropWhile_not isShown t
          rwa [Option.mem_def.mp hd] at hnot
        have hlength : (t.dropWhile isShown).length < (c :: t).length :=
          Nat.lt_succ_of_le (List.length_dropWhile_le _ _)
        have hleft : left m false (c :: t) = c :: (t.takeWhile isShown ++
            left (m.after (t.takeWhile isShown)) false (t.dropWhile isShown)) := by
          rw [left_kept hc, next_of_keeps hm hc, ← left_stretch hstretch hend, hsplit]
        have hstrips := Strips.putOff hm hc hstretch hend (ih _ hlength _ _ rfl)
        rwa [hsplit, ← hleft] at hstrips
    · have hc := Bool.eq_false_iff.mpr hc
      rw [left_dropped hc]
      exact .dropped hc (ih _ (Nat.lt_succ_self _) _ _ rfl)

/-- **The relation gives what is left, and nothing else.** -/
theorem strips_iff : Strips m t u ↔ u = left m false t := by
  constructor
  · intro h
    induction h with
    | nil => rfl
    | shown hc _ ih =>
      rw [left_kept (m := .ground) hc, next_ground (ne_escape_of_shown hc), left_ground, ih]
    | dropped hc _ ih => rw [left_dropped hc, ih]
    | putOff hm hc hstretch hend _ ih =>
      rw [left_kept hc, next_of_keeps hm hc, left_stretch hstretch hend, ih]
  · rintro rfl
    exact strips_left m t

/-! ### Complete sequences -/

def Within (low high c : Char) : Prop := low ≤ c ∧ c ≤ high

instance (low high c : Char) : Decidable (Within low high c) :=
  inferInstanceAs (Decidable (_ ∧ _))

/-- How a control sequence goes on after its escape character if it is complete and has no blank
in it, except within a string. -/
inductive Sequence : Text → Prop
  | letter {c : Char} : Within '0' '~' c → c ∉ ['[', ']', 'P', 'X', '^', '_'] → Sequence [c]
  | inner {body : Text} {c : Char} :
      body ≠ [] → (∀ d ∈ body, Within ' ' '/' d) → Within '0' '~' c → Sequence (body ++ [c])
  | control {params : Text} {c : Char} :
      (∀ d ∈ params, Within ' ' '?' d) → Within '@' '~' c → Sequence ('[' :: params ++ [c])
  | system {body stop : Text} :
      (∀ d ∈ body, d ∉ ['\x07', '\x18', '\x1A', '\x1B']) → stop ∈ [['\x07'], ['\x1B', '\\']] →
      Sequence (']' :: body ++ stop)
  | string {kind : Char} {body : Text} :
      kind ∈ ['P', 'X', '^', '_'] →
      (∀ d ∈ body, d ∉ ['\x18', '\x1A', '\x1B'] ∧ terminator ∉ Utf8.encodeChar d) →
      Sequence (kind :: body ++ ['\x1B', '\\'])

/-- Without its sequences and its other control characters, a text is so much. -/
inductive Cleaned : Text → Text → Prop
  | nil : Cleaned [] []
  | shown {c : Char} {t u : Text} : isShown c = true → Cleaned t u → Cleaned (c :: t) (c :: u)
  | control {c : Char} {t u : Text} :
      isShown c = false → c ≠ '\x1B' → Cleaned t u → Cleaned (c :: t) u
  | sequence {s t u : Text} : Sequence s → Cleaned t u → Cleaned ('\x1B' :: s ++ t) u

namespace Cleaned

lemma of_shown (h : ∀ c ∈ t, isShown c = true) : Cleaned t t := by
  induction t with
  | nil => exact .nil
  | cons c t ih =>
    obtain ⟨hc, ht⟩ := List.forall_mem_cons.mp h
    exact .shown hc (ih ht)

lemma append (ht : Cleaned t u) (hs : Cleaned s v) : Cleaned (t ++ s) (u ++ v) := by
  induction ht with
  | nil => exact hs
  | shown hc _ ih => exact .shown hc ih
  | control hc hescape _ ih => exact .control hc hescape ih
  | sequence hsequence _ ih =>
    rw [List.append_assoc]
    exact .sequence hsequence ih

end Cleaned

namespace Mode

/-- A character that is not kept takes a sequence from one mode to another. -/
def Drops (m : Mode) (c : Char) (m' : Mode) : Prop := m.keeps c = false ∧ m.next c = m'

instance (m : Mode) (c : Char) (m' : Mode) : Decidable (m.Drops c m') :=
  inferInstanceAs (Decidable (_ ∧ _))

/-- What characters of ASCII do can be looked up. -/
lemma drops_ascii {m m' : Mode} {p : Char → Prop} (hc : p c) (hascii : c.toNat < 0x80)
    (h : ∀ n < 0x80, p (Char.ofNat n) → m.Drops (Char.ofNat n) m') : m.Drops c m' := by
  have hdrops := h c.toNat hascii
  rw [Char.ofNat_toNat] at hdrops
  exact hdrops hc

lemma drops_within {m m' : Mode} {low high : Char} (hhigh : high.toNat < 0x80)
    (h : ∀ n < 0x80, Within low high (Char.ofNat n) → m.Drops (Char.ofNat n) m')
    (hc : Within low high c) : m.Drops c m' :=
  drops_ascii hc (Nat.lt_of_le_of_lt hc.2 hhigh) h

lemma drops_escape (m : Mode) : m.Drops '\x1B' .escape := by
  cases m <;> exact ⟨rfl, rfl⟩

lemma drops_letter (h : Within '0' '~' c) (hc : c ∉ ['[', ']', 'P', 'X', '^', '_']) :
    escape.Drops c ground := by
  have hascii : c.toNat < 0x80 := Nat.lt_of_le_of_lt h.2 (by decide)
  exact drops_ascii (p := fun c => Within '0' '~' c ∧ c ∉ ['[', ']', 'P', 'X', '^', '_'])
    ⟨h, hc⟩ hascii (by decide)

/-- The modes of a string that only its terminator ends. -/
def strings : List Mode := [deviceEntry, deviceParam, deviceInner, string]

lemma exists_drops_string (hm : m ∈ strings) (hc : c ∉ ['\x18', '\x1A', '\x1B'])
    (hterminator : terminator ∉ Utf8.encodeChar c) : ∃ m' ∈ strings, m.Drops c m' := by
  simp only [List.mem_cons, List.not_mem_nil, or_false, not_or] at hc
  obtain ⟨hcancel, hsubstitute, hescape⟩ := hc
  refine ⟨m.next c, ?_, ?_, rfl⟩
  · simp only [strings, List.mem_cons, List.not_mem_nil, or_false] at hm
    rcases hm with rfl | rfl | rfl | rfl <;>
      simp only [next, hcancel, hsubstitute, hescape, hterminator, or_self, if_false] <;>
      repeat' split
    all_goals decide
  · simp only [strings, List.mem_cons, List.not_mem_nil, or_false] at hm
    rcases hm with rfl | rfl | rfl | rfl <;> rfl

end Mode

namespace Strips

lemma drops {m' : Mode} (hc : m.Drops c m') (h : Strips m' t u) : Strips m (c :: t) u := by
  obtain ⟨hkeeps, rfl⟩ := hc
  exact .dropped hkeeps h

/-- Characters that leave a sequence where it is. -/
lemma stays (hs : ∀ d ∈ s, m.Drops d m) (h : Strips m t u) : Strips m (s ++ t) u := by
  induction s with
  | nil => exact h
  | cons d s ih =>
    obtain ⟨hd, hs⟩ := List.forall_mem_cons.mp hs
    exact (ih hs).drops hd

lemma strings (hs : ∀ d ∈ s, d ∉ ['\x18', '\x1A', '\x1B'] ∧ terminator ∉ Utf8.encodeChar d)
    (h : ∀ m ∈ Mode.strings, Strips m t u) : ∀ m ∈ Mode.strings, Strips m (s ++ t) u := by
  induction s with
  | nil => exact h
  | cons d s ih =>
    intro m hm
    obtain ⟨⟨hcancel, hterminator⟩, hs⟩ := List.forall_mem_cons.mp hs
    obtain ⟨m', hm', hd⟩ := Mode.exists_drops_string hm hcancel hterminator
    exact (ih hs m' hm').drops hd

/-- An escape character and a backslash end whatever is under way. -/
lemma terminated (m : Mode) (h : Strips .ground t u) : Strips m ('\x1B' :: '\\' :: t) u :=
  (h.drops (Mode.drops_letter (by decide) (by decide))).drops m.drops_escape

/-- Nothing is left of a complete sequence. -/
lemma of_sequence (hs : Sequence s) (h : Strips .ground t u) : Strips .escape (s ++ t) u := by
  cases hs with
  | letter hc hletter => exact h.drops (Mode.drops_letter hc hletter)
  | @inner body c hbody hinner hc =>
    obtain ⟨d, ds, rfl⟩ := List.exists_cons_of_ne_nil hbody
    obtain ⟨hd, hds⟩ := List.forall_mem_cons.mp hinner
    have hend : Strips .escapeInner (c :: t) u :=
      h.drops (Mode.drops_within (by decide) (by decide) hc)
    have hrest : Strips .escapeInner (ds ++ c :: t) u :=
      hend.stays fun e he => Mode.drops_within (by decide) (by decide) (hds e he)
    simpa using hrest.drops (Mode.drops_within (by decide) (by decide) hd)
  | @control params c hparams hc =>
    have hend : Strips .control (c :: t) u :=
      h.drops (Mode.drops_within (by decide) (by decide) hc)
    have hrest : Strips .control (params ++ c :: t) u :=
      hend.stays fun d hd => Mode.drops_within (by decide) (by decide) (hparams d hd)
    have hentry : Mode.escape.Drops '[' .control := ⟨rfl, rfl⟩
    simpa using hrest.drops hentry
  | @system body stop hbody hstop =>
    have hend : Strips .system (stop ++ t) u := by
      simp only [List.mem_cons, List.not_mem_nil, or_false] at hstop
      rcases hstop with rfl | rfl
      · exact h.drops ⟨rfl, rfl⟩
      · exact h.terminated .system
    have hrest : Strips .system (body ++ (stop ++ t)) u := by
      refine hend.stays fun d hd => ⟨rfl, ?_⟩
      have hd := hbody d hd
      simp only [List.mem_cons, List.not_mem_nil, or_false, not_or] at hd
      simp [Mode.next, hd]
    have hentry : Mode.escape.Drops ']' .system := ⟨rfl, rfl⟩
    simpa using hrest.drops hentry
  | @string kind body hkind hbody =>
    have hend : ∀ m ∈ Mode.strings, Strips m ('\x1B' :: '\\' :: t) u := fun m _ => h.terminated m
    have hentry : ∃ m ∈ Mode.strings, Mode.escape.Drops kind m := by
      simp only [List.mem_cons, List.not_mem_nil, or_false] at hkind
      rcases hkind with rfl | rfl | rfl | rfl
      · exact ⟨.deviceEntry, by decide, rfl, rfl⟩
      all_goals exact ⟨.string, by decide, rfl, rfl⟩
    obtain ⟨m, hm, hkind⟩ := hentry
    simpa using (strings hbody hend m hm).drops hkind

lemma of_cleaned (h : Cleaned t u) : Strips .ground t u := by
  induction h with
  | nil => exact .nil
  | shown hc _ ih => exact .shown hc ih
  | control hc hescape _ ih => exact ih.drops ⟨hc, next_ground hescape⟩
  | sequence hs _ ih => exact (of_sequence hs ih).drops (Mode.drops_escape _)

end Strips

/-- **Complete sequences and control characters are left out, and nothing else.** -/
theorem streamed_of_cleaned (h : Cleaned t u) : streamed t = u := by
  rw [streamed_eq_left]
  exact (strips_iff.mp (.of_cleaned h)).symm

example : streamed "\x1B[1;31mred\x1B[0m\x07".toList = "red".toList := by decide

end RomEmbed.Terminal
