import Mathlib.Tactic.Common
import RomEmbed.Proofs.CommandLine.Finality
import RomEmbed.Proofs.CommandLine.Options

/-!
The two flags. Help or the version is shown exactly if the command line comes to the flag: no
escape before it, and only arguments that are valid as far as they go, for the latest of
them is checked when the flag is met. What comes after the flag is not read.
-/

namespace RomEmbed.CommandLine

variable {seen : Seen} {a : Bytes} {args pre : List Bytes} {flag : Flag}

/-! ### Valid arguments -/

/-- The arguments are valid as far as they go: a ROM that is not empty, and a name. -/
structure Sound (pre : List Bytes) : Prop where
  looksPositional : ∀ a ∈ pre, LooksPositional a
  length_le : pre.length ≤ 2
  rom_ne : pre.head? ≠ some []
  name_text : ∀ n, pre[1]? = some n → ∃ name, n = Utf8.encode name

lemma check_rom_iff {rom : Bytes} : (Seen.rom rom).check = .ok () ↔ rom ≠ [] := by
  simp [Seen.check]

lemma check_both_iff {rom n : Bytes} :
    (Seen.both rom n).check = .ok () ↔ ∃ name, n = Utf8.encode name := by
  simp only [Seen.check, ← Utf8.decode?_eq_some_iff]
  cases Utf8.decode? n <;> simp

lemma sound_iff :
    Sound pre ↔ (∀ a ∈ pre, LooksPositional a) ∧
      ∃ seen, Seen.none.takeAll pre = .ok seen ∧ seen.check = .ok () := by
  simp only [Seen.takeAll_none_eq_ok_iff]
  constructor
  · rintro ⟨hlooks, hlen, hrom, hname⟩
    refine ⟨hlooks, ?_⟩
    rcases pre with _ | ⟨rom, _ | ⟨n, _ | ⟨b, rest⟩⟩⟩
    · exact ⟨_, Or.inl ⟨rfl, rfl⟩, rfl⟩
    · exact ⟨_, Or.inr (Or.inl ⟨rom, rfl, rfl⟩), check_rom_iff.mpr (by simpa using hrom)⟩
    · exact ⟨_, Or.inr (Or.inr ⟨rom, n, rfl, by simpa using hrom, rfl⟩),
        check_both_iff.mpr (hname n rfl)⟩
    · simp at hlen
  · rintro ⟨hlooks, seen, ⟨rfl, rfl⟩ | ⟨rom, rfl, rfl⟩ | ⟨rom, n, rfl, hrom, rfl⟩, hcheck⟩
    · exact ⟨hlooks, by simp, by simp, by simp⟩
    · exact ⟨hlooks, by simp, by simpa using check_rom_iff.mp hcheck, by simp⟩
    · exact ⟨hlooks, by simp, by simpa using hrom, by simpa using check_both_iff.mp hcheck⟩

/-! ### What asks for a flag -/

/-- The character that stands for a flag. -/
def Flag.letter : Flag → Char
  | help => 'h'
  | version => 'V'

/-- A flag in full, or a cluster that begins with its letter. -/
def Asks (flag : Flag) (a : Bytes) : Prop :=
  a = Utf8.encode ("--".toList ++ flag.name) ∨ Utf8.encode ['-', flag.letter] <+: a

lemma asks_iff :
    Asks flag a ↔
      a = longOption (Utf8.encode flag.name) none ∨ ∃ rest, a = shortOption flag.letter rest := by
  have hlong : Utf8.encode ("--".toList ++ flag.name) =
      longOption (Utf8.encode flag.name) none := by
    rw [Utf8.encode_append, longOption, assigned, List.append_nil]
    rfl
  have hshort (rest : Bytes) : Utf8.encode ['-', flag.letter] ++ rest =
      shortOption flag.letter rest := by
    rw [Utf8.encode_cons, Utf8.encode_cons, Utf8.encode_nil, List.append_nil]
    rfl
  unfold Asks
  rw [hlong]
  simp only [List.prefix_iff_exists_append_eq, hshort, eq_comm]

lemma asks_of_scan {cluster : Bytes} {r : List (Option Char)}
    (h : Utf8.scan cluster = some flag.letter :: r) : Asks flag (dash :: cluster) := by
  obtain ⟨rest, rfl, -⟩ := Utf8.scan_eq_some_cons_iff.mp h
  exact asks_iff.mpr (Or.inr ⟨rest, rfl⟩)

lemma step_of_asks (h : Asks flag a) : step ⟨false, seen⟩ a = stop seen flag := by
  rcases asks_iff.mp h with rfl | ⟨rest, rfl⟩
  · have hne : Utf8.encode flag.name ≠ [] := by cases flag <;> decide
    have hname : equals ∉ Utf8.encode flag.name := by cases flag <;> decide
    have hflag : flag? (Utf8.encode flag.name) = some flag := flag?_eq_some_iff.mpr rfl
    rw [step_longOption hname (Or.inl hne)]
    simp only [long, hflag]
  · have hdash : flag.letter ≠ '-' := by cases flag <;> decide
    rw [step_shortOption hdash, short, Utf8.scan_encodeChar_append]
    cases flag <;> rfl

lemma kind_eq_shown_iff {r : Report} :
    r.kind = (Report.shown flag).kind ↔ r = .shown flag := by
  cases r with
  | shown other => cases flag <;> cases other <;> simp [Report.kind]
  | _ => cases flag <;> simp [Report.kind]

lemma check_ne_shown (seen : Seen) (flag : Flag) : seen.check ≠ .error (.shown flag) := by
  intro h
  rcases kind_of_check_error h with hkind | hkind <;> cases flag <;> cases hkind

lemma stop_eq_shown_iff {asked : Flag} :
    stop seen asked = .error (.shown flag) ↔ seen.check = .ok () ∧ asked = flag := by
  constructor
  · intro h
    rcases stop_error_cases h with hcheck | ⟨hcheck, hshown⟩
    · exact absurd hcheck (check_ne_shown seen flag)
    · exact ⟨hcheck, (Report.shown.inj hshown).symm⟩
  · rintro ⟨hcheck, rfl⟩
    exact bind_eq_error_iff.mpr (Or.inr ⟨(), hcheck, rfl⟩)

lemma takeAll_ne_shown (seen : Seen) (args : List Bytes) (flag : Flag) :
    seen.takeAll args ≠ .error (.shown flag) := by
  induction args generalizing seen with
  | nil => simp
  | cons a rest ih =>
    intro h
    rcases bind_eq_error_iff.mp h with htake | ⟨next, -, hrest⟩
    · rcases take_error_cases htake with hcheck | hsurplus
      · exact check_ne_shown _ _ hcheck
      · cases hsurplus
    · exact ih next hrest

lemma run_positional_ne_shown {e : Bool} (h : e = true ∨ ∀ a ∈ args, LooksPositional a) :
    run ⟨e, seen⟩ args ≠ .error (.shown flag) := by
  rw [run_positional h]
  cases htake : seen.takeAll args with
  | error r =>
    intro h
    obtain rfl : r = .shown flag := Except.error.inj h
    exact takeAll_ne_shown seen args flag htake
  | ok last => simp [Except.map]

lemma finish_ne_shown (s : State) (flag : Flag) : finish s ≠ .error (.shown flag) := by
  intro h
  rcases finish_error_cases h with hcheck | ⟨hkind, -⟩
  · exact check_ne_shown _ _ hcheck
  · cases flag <;> cases hkind

lemma asks_of_step (h : step ⟨false, seen⟩ a = .error (.shown flag)) :
    Asks flag a ∧ seen.check = .ok () := by
  rcases form_cases a with ha | rfl | ⟨name, value, rfl, hname, hne⟩ | ⟨cluster, rfl, hne, hdash⟩
  · have hone : ∀ b ∈ [a], LooksPositional b := by simpa using ha
    have hrun : run ⟨false, seen⟩ [a] = .error (.shown flag) := by
      rw [run_cons, h]
      rfl
    exact absurd hrun (run_positional_ne_shown (Or.inr hone))
  · rw [step_escape] at h
    cases h
  · rw [step_longOption hname hne] at h
    unfold long at h
    split at h
    · next asked _ hflag =>
      obtain ⟨hcheck, rfl⟩ := stop_eq_shown_iff.mp h
      rw [flag?_eq_some_iff.mp hflag]
      exact ⟨asks_iff.mpr (Or.inl rfl), hcheck⟩
    · cases h
    · cases h
  · rw [step_cluster hne hdash] at h
    unfold short at h
    split at h
    · next hscan =>
      obtain ⟨hcheck, rfl⟩ := stop_eq_shown_iff.mp h
      exact ⟨asks_of_scan hscan, hcheck⟩
    · next hscan =>
      obtain ⟨hcheck, rfl⟩ := stop_eq_shown_iff.mp h
      exact ⟨asks_of_scan hscan, hcheck⟩
    · cases h
    · cases h

/-- The command line comes to a flag after arguments that are valid as far as they go. -/
def Informs (flag : Flag) (args : List Bytes) : Prop :=
  ∃ pre f post, args = pre ++ [f] ++ post ∧ Sound pre ∧ Asks flag f

/-- **Help or the version is shown exactly if the command line comes to the flag.** -/
lemma parse_eq_shown_iff : parse args = .error (.shown flag) ↔ Informs flag args := by
  constructor
  · intro h
    have hrun : run {} args = .error (.shown flag) :=
      (bind_eq_error_iff.mp h).resolve_right fun ⟨s, _, hfinish⟩ => finish_ne_shown s flag hfinish
    rcases forall_or_exists_first args with hall | ⟨pre, a, post, rfl, hpre, ha⟩
    · exact absurd hrun (run_positional_ne_shown (Or.inr hall))
    rw [run_append_option hpre] at hrun
    rcases bind_eq_error_iff.mp hrun with htake | ⟨seen, htake, hrest⟩
    · exact absurd htake (takeAll_ne_shown _ _ _)
    rcases bind_eq_error_iff.mp hrest with hstep | ⟨u, hstep, hpost⟩
    · obtain ⟨hasks, hcheck⟩ := asks_of_step hstep
      exact ⟨pre, a, post, rfl, sound_iff.mpr ⟨hpre, seen, htake, hcheck⟩, hasks⟩
    · -- past an escape nothing is a flag
      rcases step_eq_ok_iff.mp hstep with ⟨-, -, rfl⟩ | ⟨hlooks, -⟩
      · exact absurd hpost (run_positional_ne_shown (Or.inl rfl))
      · exact absurd (hlooks.resolve_left Bool.false_ne_true) ha
  · rintro ⟨pre, f, post, rfl, hsound, hasks⟩
    obtain ⟨hlooks, seen, htake, hcheck⟩ := sound_iff.mp hsound
    refine parse_of_step_error hlooks htake ?_
    rw [step_of_asks hasks, stop_eq_shown_iff.mpr ⟨hcheck, rfl⟩]

end RomEmbed.CommandLine
