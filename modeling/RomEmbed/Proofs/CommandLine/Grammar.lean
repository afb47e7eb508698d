import Mathlib.Tactic.Common
import RomEmbed.CommandLine.Parse
import RomEmbed.Proofs.Text.Decoding

/-!
The command lines that are accepted: a ROM and a name, which look positional, or which stand
around one escape, after which they may look like anything.

The scan takes the arguments that look positional one after another. At an escape it goes on
the same way with all that come after it, whatever they look like; at anything else it stops.
So what it makes of a command line of positional arguments depends on the values that are left
when the escape is dropped.
-/

namespace RomEmbed.CommandLine

variable {s u : State} {seen last : Seen} {a : Bytes} {args pre post : List Bytes}

/-- The argument after which every other is positional. -/
def escape : Bytes := [dash, dash]

/-- A dash alone, or no dash in front. -/
def LooksPositional (a : Bytes) : Prop := a = [dash] ∨ a.head? ≠ some dash

instance (a : Bytes) : Decidable (LooksPositional a) := inferInstanceAs (Decidable (_ ∨ _))

/-- The command line gives the values: they all look positional, or an escape stands among
them and those before it do. -/
def Spells (args values : List Bytes) : Prop :=
  (args = values ∧ ∀ a ∈ values, LooksPositional a) ∨
  ∃ pre post, args = pre ++ [escape] ++ post ∧ (∀ a ∈ pre, LooksPositional a) ∧
    pre ++ post = values

/-! ### Steps that may end in a report -/

section

variable {α β : Type} {x : Except Report α} {f : α → Except Report β} {y : β} {r : Report}

lemma bind_eq_ok_iff : x >>= f = .ok y ↔ ∃ a, x = .ok a ∧ f a = .ok y := by
  cases x <;> simp [bind, Except.bind]

lemma bind_eq_error_iff :
    x >>= f = .error r ↔ x = .error r ∨ ∃ a, x = .ok a ∧ f a = .error r := by
  cases x <;> simp [bind, Except.bind]

lemma map_eq_ok_iff {g : α → β} : x.map g = .ok y ↔ ∃ a, x = .ok a ∧ g a = y := by
  cases x <;> simp [Except.map]

end

/-! ### One argument -/

lemma of_eq_positional_iff : Form.of a = .positional ↔ LooksPositional a := by
  unfold LooksPositional Form.of
  rcases a with _ | ⟨b, _ | ⟨c, r⟩⟩
  · simp
  · by_cases hb : b = dash <;> simp [hb]
  · by_cases hb : b = dash
    · by_cases hc : c = dash
      · by_cases hr : r = [] <;> simp [hb, hc, hr, Form.ofLong]
      · simp [hb, hc]
    · simp [hb]

lemma of_eq_escape_iff : Form.of a = .escape ↔ a = escape := by
  unfold escape Form.of
  rcases a with _ | ⟨b, _ | ⟨c, r⟩⟩
  · simp
  · by_cases hb : b = dash <;> simp [hb]
  · by_cases hb : b = dash
    · by_cases hc : c = dash
      · by_cases hr : r = [] <;> simp [hb, hc, hr, Form.ofLong]
      · simp [hb, hc]
    · simp [hb]

lemma not_looksPositional_escape : ¬LooksPositional escape := by
  simp [LooksPositional, escape]

lemma step_positional (h : s.escaped = true ∨ LooksPositional a) :
    step s a = (s.seen.take a).map (State.mk s.escaped) := by
  have htake : (do return { s with seen := ← s.seen.take a } : Except Report State) =
      (s.seen.take a).map (State.mk s.escaped) := by
    cases s.seen.take a <;> rfl
  unfold step
  split
  · exact htake
  · next hescaped =>
    rw [of_eq_positional_iff.mpr (h.resolve_left hescaped)]
    exact htake

lemma step_escape (seen : Seen) : step ⟨false, seen⟩ escape = .ok ⟨true, seen⟩ := by
  have hform : Form.of escape = .escape := of_eq_escape_iff.mpr rfl
  simp [step, hform]

lemma stop_ne_ok (seen : Seen) (flag : Flag) (u : State) : stop seen flag ≠ .ok u := by
  intro h
  obtain ⟨_, -, hshown⟩ := bind_eq_ok_iff.mp h
  cases hshown

/-- Neither positional nor the escape: the scan stops here. -/
lemma step_option_ne_ok (hpositional : ¬LooksPositional a) (hescape : a ≠ escape)
    (u : State) : step ⟨false, seen⟩ a ≠ .ok u := by
  unfold step
  rw [if_neg Bool.false_ne_true]
  split
  · next hform => exact absurd (of_eq_escape_iff.mp hform) hescape
  · unfold long
    split
    · exact stop_ne_ok _ _ _
    · simp
    · simp
  · unfold short
    split
    · exact stop_ne_ok _ _ _
    · exact stop_ne_ok _ _ _
    · simp
    · simp
  · next hform => exact absurd (of_eq_positional_iff.mp hform) hpositional

/-- **The ways to go on after an argument.** -/
lemma step_eq_ok_iff :
    step s a = .ok u ↔
      (s.escaped = false ∧ a = escape ∧ u = ⟨true, s.seen⟩) ∨
      ((s.escaped = true ∨ LooksPositional a) ∧
        ∃ seen, s.seen.take a = .ok seen ∧ u = ⟨s.escaped, seen⟩) := by
  obtain ⟨escaped, seen⟩ := s
  constructor
  · intro h
    by_cases hpositional : escaped = true ∨ LooksPositional a
    · rw [step_positional hpositional] at h
      obtain ⟨next, htake, rfl⟩ := map_eq_ok_iff.mp h
      exact Or.inr ⟨hpositional, next, htake, rfl⟩
    · obtain ⟨hescaped, ha⟩ := not_or.mp hpositional
      obtain rfl : escaped = false := by simpa using hescaped
      by_cases hescape : a = escape
      · subst hescape
        rw [step_escape] at h
        exact Or.inl ⟨rfl, rfl, (Except.ok.inj h).symm⟩
      · exact absurd h (step_option_ne_ok ha hescape u)
  · rintro (⟨hescaped, rfl, rfl⟩ | ⟨hpositional, next, htake, rfl⟩)
    · obtain rfl : escaped = false := hescaped
      exact step_escape seen
    · rw [step_positional hpositional]
      exact map_eq_ok_iff.mpr ⟨next, htake, rfl⟩

/-! ### Argument after argument -/

/-- Takes positional arguments one after another. -/
def Seen.takeAll (seen : Seen) : List Bytes → Except Report Seen
  | [] => .ok seen
  | a :: r => seen.take a >>= (·.takeAll r)

@[simp] lemma Seen.takeAll_nil (seen : Seen) : seen.takeAll [] = .ok seen := rfl

@[simp] lemma Seen.takeAll_cons (seen : Seen) (a : Bytes) (r : List Bytes) :
    seen.takeAll (a :: r) = seen.take a >>= (·.takeAll r) := rfl

lemma Seen.takeAll_append (seen : Seen) (as bs : List Bytes) :
    seen.takeAll (as ++ bs) = seen.takeAll as >>= (·.takeAll bs) := by
  induction as generalizing seen with
  | nil => rfl
  | cons a r ih =>
    simp only [List.cons_append, takeAll_cons]
    cases seen.take a with
    | error e => rfl
    | ok next => exact ih next

lemma run_positional {e : Bool} (h : e = true ∨ ∀ a ∈ args, LooksPositional a) :
    run ⟨e, seen⟩ args = (seen.takeAll args).map (State.mk e) := by
  induction args generalizing seen with
  | nil => rfl
  | cons a r ih =>
    have ha : e = true ∨ LooksPositional a := h.imp_right fun h => h a (by simp)
    rw [run_cons, step_positional ha, Seen.takeAll_cons]
    cases seen.take a with
    | error e => rfl
    | ok next => exact ih (h.imp_right fun h a ha => h a (by simp [ha]))

/-- The escape leaves no trace but that the scan goes on escaped. -/
lemma run_escape (h : ∀ a ∈ pre, LooksPositional a) :
    run ⟨false, seen⟩ (pre ++ [escape] ++ post) =
      (seen.takeAll (pre ++ post)).map (State.mk true) := by
  rw [List.append_assoc, run_append, run_positional (Or.inr h), Seen.takeAll_append]
  cases seen.takeAll pre with
  | error e => rfl
  | ok next =>
    calc run ⟨false, next⟩ ([escape] ++ post) = run ⟨true, next⟩ post := by
          rw [List.singleton_append, run_cons, step_escape]
          rfl
      _ = (next.takeAll post).map (State.mk true) := run_positional (Or.inl rfl)

lemma run_option_ne_ok (h : ∀ a ∈ pre, LooksPositional a) (hpositional : ¬LooksPositional a)
    (hescape : a ≠ escape) (u : State) : run ⟨false, seen⟩ (pre ++ [a] ++ post) ≠ .ok u := by
  rw [List.append_assoc, run_append, run_positional (Or.inr h)]
  intro hrun
  obtain ⟨v, hpre, hpost⟩ := bind_eq_ok_iff.mp hrun
  obtain ⟨next, -, rfl⟩ := map_eq_ok_iff.mp hpre
  obtain ⟨w, hstep, -⟩ := bind_eq_ok_iff.mp hpost
  exact step_option_ne_ok hpositional hescape w hstep

/-- The first argument that does not look positional, if there is one. -/
lemma forall_or_exists_first (args : List Bytes) :
    (∀ a ∈ args, LooksPositional a) ∨
      ∃ pre a post, args = pre ++ [a] ++ post ∧ (∀ a ∈ pre, LooksPositional a) ∧
        ¬LooksPositional a := by
  induction args with
  | nil => exact Or.inl (by simp)
  | cons a r ih =>
    by_cases ha : LooksPositional a
    · rcases ih with h | ⟨pre, b, post, rfl, hpre, hb⟩
      · exact Or.inl (by simpa [ha] using h)
      · exact Or.inr ⟨a :: pre, b, post, by simp, by simpa [ha] using hpre, hb⟩
    · exact Or.inr ⟨[], a, r, rfl, by simp, ha⟩

/-- **The scans that come to the end of a command line.** -/
theorem run_eq_ok_iff :
    run ⟨false, seen⟩ args = .ok u ↔
      ∃ values, Spells args values ∧ seen.takeAll values = .ok u.seen ∧
        (u.escaped = true ↔ escape ∈ args) := by
  have hno (h : ∀ a ∈ args, LooksPositional a) : escape ∉ args :=
    fun hmem => not_looksPositional_escape (h _ hmem)
  constructor
  · intro h
    rcases forall_or_exists_first args with hall | ⟨pre, a, post, rfl, hpre, ha⟩
    · rw [run_positional (Or.inr hall)] at h
      obtain ⟨last, htake, rfl⟩ := map_eq_ok_iff.mp h
      exact ⟨args, Or.inl ⟨rfl, hall⟩, htake, by simpa using hno hall⟩
    · by_cases hescape : a = escape
      · subst hescape
        rw [run_escape hpre] at h
        obtain ⟨last, htake, rfl⟩ := map_eq_ok_iff.mp h
        exact ⟨pre ++ post, Or.inr ⟨pre, post, rfl, hpre, rfl⟩, htake, by simp⟩
      · exact absurd h (run_option_ne_ok hpre ha hescape u)
  · obtain ⟨escaped, last⟩ := u
    rintro ⟨values, ⟨rfl, hall⟩ | ⟨pre, post, rfl, hpre, rfl⟩, htake, hescaped⟩
    · obtain rfl : escaped = false := by simpa [hno hall] using hescaped
      rw [run_positional (Or.inr hall)]
      exact map_eq_ok_iff.mpr ⟨last, htake, rfl⟩
    · obtain rfl : escaped = true := by simpa using hescaped
      rw [run_escape hpre]
      exact map_eq_ok_iff.mpr ⟨last, htake, rfl⟩

/-! ### The two values -/

lemma Seen.takeAll_none_cons (a : Bytes) (r : List Bytes) :
    Seen.none.takeAll (a :: r) = (Seen.rom a).takeAll r := rfl

@[simp] lemma Seen.take_both (r n a : Bytes) : (Seen.both r n).take a = .error (.surplus a) := rfl

lemma Seen.take_rom_eq_ok_iff {r : Bytes} :
    (Seen.rom r).take a = .ok last ↔ r ≠ [] ∧ last = .both r a := by
  by_cases hr : r = []
  · simp [take, check, hr, bind, Except.bind]
  · simp [take, check, hr, bind, Except.bind, pure, Except.pure, eq_comm]

/-- **What can be taken**: nothing, a ROM, or a ROM that is not empty and a name. -/
lemma Seen.takeAll_none_eq_ok_iff {values : List Bytes} :
    Seen.none.takeAll values = .ok last ↔
      values = [] ∧ last = .none ∨ (∃ r, values = [r] ∧ last = .rom r) ∨
        ∃ r n, values = [r, n] ∧ r ≠ [] ∧ last = .both r n := by
  rcases values with _ | ⟨a, _ | ⟨b, _ | ⟨c, rest⟩⟩⟩
  · simp [@eq_comm _ last]
  · rw [takeAll_none_cons, takeAll_nil]
    simp [@eq_comm _ last]
  · rw [takeAll_none_cons, takeAll_cons, bind_eq_ok_iff]
    simp [take_rom_eq_ok_iff, @eq_comm _ last]
  · -- a third value is refused
    rw [takeAll_none_cons, takeAll_cons, bind_eq_ok_iff]
    simp [take_rom_eq_ok_iff, bind, Except.bind]

lemma Seen.takeAll_none_eq_both_iff {values : List Bytes} {r n : Bytes} :
    Seen.none.takeAll values = .ok (.both r n) ↔ values = [r, n] ∧ r ≠ [] := by
  rw [takeAll_none_eq_ok_iff]
  constructor
  · rintro (⟨-, h⟩ | ⟨r', -, h⟩ | ⟨r', n', rfl, hr, h⟩)
    · cases h
    · cases h
    · cases h
      exact ⟨rfl, hr⟩
  · rintro ⟨rfl, hr⟩
    exact Or.inr (Or.inr ⟨r, n, rfl, hr, rfl⟩)

lemma finish_eq_ok_iff {q : Request} :
    finish s = .ok q ↔ s.seen = .both q.rom (Utf8.encode q.name) := by
  obtain ⟨rom, name⟩ := q
  unfold finish
  split
  · next h => simp [h]
  · next r h =>
    rw [h]
    simp [bind_eq_ok_iff]
  · next r n h =>
    rw [h]
    rcases hn : Utf8.decode? n with _ | decoded
    · have hne : n ≠ Utf8.encode name := by
        rintro rfl
        simp [Utf8.decode?_encode] at hn
      simp [hne]
    · obtain rfl := Utf8.decode?_eq_some_iff.mp hn
      simp [Utf8.encode_injective.eq_iff]

lemma parse_eq_ok_iff {q : Request} :
    parse args = .ok q ↔ q.rom ≠ [] ∧ Spells args [q.rom, Utf8.encode q.name] := by
  constructor
  · intro h
    obtain ⟨u, hrun, hfinish⟩ := bind_eq_ok_iff.mp h
    obtain ⟨values, hspells, htake, -⟩ := run_eq_ok_iff.mp hrun
    rw [finish_eq_ok_iff.mp hfinish] at htake
    obtain ⟨rfl, hrom⟩ := Seen.takeAll_none_eq_both_iff.mp htake
    exact ⟨hrom, hspells⟩
  · rintro ⟨hrom, hspells⟩
    have htake := Seen.takeAll_none_eq_both_iff.mpr ⟨Eq.refl [q.rom, Utf8.encode q.name], hrom⟩
    have hrun : run {} args =
        .ok ⟨decide (escape ∈ args), .both q.rom (Utf8.encode q.name)⟩ :=
      run_eq_ok_iff.mpr ⟨_, hspells, htake, by simp⟩
    exact bind_eq_ok_iff.mpr ⟨_, hrun, finish_eq_ok_iff.mpr rfl⟩

/-- **Exactly the command lines of the grammar are accepted**, and their values are returned
as they are. Any path that is not empty and any name can be given behind an escape. -/
theorem parse_grammar :
    (∀ args rom name, parse args = .ok ⟨rom, name⟩ ↔
      rom ≠ [] ∧ Spells args [rom, Utf8.encode name]) ∧
    (∀ rom name, rom ≠ [] → parse [escape, rom, Utf8.encode name] = .ok ⟨rom, name⟩) := by
  refine ⟨fun args rom name => parse_eq_ok_iff, fun rom name hrom => ?_⟩
  exact parse_eq_ok_iff.mpr ⟨hrom, Or.inr ⟨[], _, rfl, by simp, rfl⟩⟩

-- only the first escape is dropped
example : parse [[120], escape, escape] = .ok ⟨[120], ['-', '-']⟩ := by decide

end RomEmbed.CommandLine
