import Mathlib.Tactic.Common
import RomEmbed.Proofs.CommandLine.Grammar
import RomEmbed.Proofs.Text.Scanning

/-!
Options. Before an escape, an argument that does not look positional is an option, and the scan
ends with it. What it ends in depends on the form of the option alone: an unknown one is
reported at once, by its name or its first character, whatever else the option holds,
whatever comes after it, and even if an argument before it is not valid.
-/

namespace RomEmbed.CommandLine

variable {seen : Seen} {a name cluster : Bytes} {value : Option Bytes}
  {pre post : List Bytes} {r : Report} {c : Char} {flag : Flag}

/-! ### Forms -/

/-- What stands behind the name of a long option. -/
def assigned : Option Bytes → Bytes
  | none => []
  | some value => equals :: value

/-- The option `--name` or `--name=value`. -/
def longOption (name : Bytes) (value : Option Bytes) : Bytes :=
  Report.longForm (name ++ assigned value)

/-- A cluster of options that begins with `-c`. -/
def shortOption (c : Char) (rest : Bytes) : Bytes := dash :: (Utf8.encodeChar c ++ rest)

lemma ofLong_append_assigned (hname : equals ∉ name) (value : Option Bytes) :
    Form.ofLong (name ++ assigned value) = .long name value := by
  have hall : ∀ b ∈ name, decide (b ≠ equals) = true :=
    fun b hb => decide_eq_true fun h => hname (h ▸ hb)
  unfold Form.ofLong
  rw [List.takeWhile_append_of_pos hall, List.dropWhile_append_of_pos hall]
  cases value <;> simp [assigned]

/-- The name ends at the first equals sign. -/
lemma exists_eq_append_assigned (text : Bytes) :
    ∃ name value, text = name ++ assigned value ∧ equals ∉ name := by
  by_cases h : equals ∈ text
  · obtain ⟨name, value, rfl, hname⟩ := List.eq_append_cons_of_mem h
    exact ⟨name, some value, rfl, hname⟩
  · exact ⟨text, none, by simp [assigned], h⟩

lemma of_longOption (hname : equals ∉ name) (h : name ≠ [] ∨ value ≠ none) :
    Form.of (longOption name value) = .long name value := by
  have hne : name ++ assigned value ≠ [] := by
    rcases h with h | h
    · exact List.append_ne_nil_of_left_ne_nil h _
    · cases value with
      | none => exact absurd rfl h
      | some value => simp [assigned]
  simp [longOption, Report.longForm, Form.of, hne, ofLong_append_assigned hname]

lemma of_cluster (hne : cluster ≠ []) (hdash : cluster.head? ≠ some dash) :
    Form.of (dash :: cluster) = .short cluster := by
  obtain ⟨b, rest, rfl⟩ := List.exists_cons_of_ne_nil hne
  have hb : b ≠ dash := by simpa using hdash
  simp [Form.of, hb]

/-- **The forms of arguments.** -/
lemma form_cases (a : Bytes) :
    LooksPositional a ∨ a = escape ∨
      (∃ name value, a = longOption name value ∧ equals ∉ name ∧ (name ≠ [] ∨ value ≠ none)) ∨
      ∃ cluster, a = dash :: cluster ∧ cluster ≠ [] ∧ cluster.head? ≠ some dash := by
  rcases a with _ | ⟨b, cluster⟩
  · exact Or.inl (Or.inr (by simp))
  by_cases hb : b = dash
  · subst hb
    rcases cluster with _ | ⟨b, text⟩
    · exact Or.inl (Or.inl rfl)
    by_cases hb : b = dash
    · subst hb
      by_cases htext : text = []
      · subst htext
        exact Or.inr (Or.inl rfl)
      · obtain ⟨name, value, rfl, hname⟩ := exists_eq_append_assigned text
        refine Or.inr (Or.inr (Or.inl ⟨name, value, rfl, hname, ?_⟩))
        by_contra! h
        obtain ⟨rfl, rfl⟩ := h
        exact htext rfl
    · exact Or.inr (Or.inr (Or.inr ⟨b :: text, rfl, by simp, by simpa using hb⟩))
  · exact Or.inl (Or.inr (by simpa using hb))

/-! ### What an option ends the scan in -/

lemma step_longOption (hname : equals ∉ name) (h : name ≠ [] ∨ value ≠ none) :
    step ⟨false, seen⟩ (longOption name value) = long seen name value := by
  simp only [step, of_longOption hname h, Bool.false_eq_true, if_false]

lemma step_cluster (hne : cluster ≠ []) (hdash : cluster.head? ≠ some dash) :
    step ⟨false, seen⟩ (dash :: cluster) = short seen cluster := by
  simp only [step, of_cluster hne hdash, Bool.false_eq_true, if_false]

lemma encodeChar_head_ne_dash (h : c ≠ '-') (rest : Bytes) :
    (Utf8.encodeChar c ++ rest).head? ≠ some dash := by
  intro hhead
  obtain ⟨rest', hrest⟩ := List.head?_eq_some_iff.mp hhead
  have hscan := Utf8.scan_encodeChar_append c rest
  have hdash : Utf8.encodeChar '-' = [dash] := by decide
  rw [hrest, ← List.singleton_append, ← hdash, Utf8.scan_encodeChar_append] at hscan
  exact h (by simpa using congrArg List.head? hscan.symm)

lemma step_shortOption (h : c ≠ '-') (rest : Bytes) :
    step ⟨false, seen⟩ (shortOption c rest) = short seen (Utf8.encodeChar c ++ rest) :=
  step_cluster (List.append_ne_nil_of_left_ne_nil (Utf8.encodeChar_ne_nil c) rest)
    (encodeChar_head_ne_dash h rest)

/-! ### Unknown options -/

lemma flag?_eq_some_iff : flag? name = some flag ↔ name = Utf8.encode flag.name := by
  have hne : Utf8.encode Flag.help.name ≠ Utf8.encode Flag.version.name := by decide
  unfold flag?
  split
  · next h => cases flag <;> simp [h, hne]
  · next h =>
    split
    · next h' => cases flag <;> simp [h', hne.symm]
    · next h' => cases flag <;> simp [h, h']

lemma long_of_unknown (h : ∀ flag : Flag, name ≠ Utf8.encode flag.name) :
    long seen name value = .error (.unknownLong name) := by
  have hnone : flag? name = none :=
    Option.eq_none_iff_forall_ne_some.mpr fun flag hflag => h flag (flag?_eq_some_iff.mp hflag)
  simp only [long, hnone]

lemma short_encodeChar (hhelp : c ≠ 'h') (hversion : c ≠ 'V') (rest : Bytes) :
    short seen (Utf8.encodeChar c ++ rest) = .error (.unknownShort [c]) := by
  unfold short
  rw [Utf8.scan_encodeChar_append]
  split
  · next h => cases h; exact absurd rfl hhelp
  · next h => cases h; exact absurd rfl hversion
  · next h => cases h; rfl
  · next h => exact absurd rfl (h _ _)

/-! ### The arguments before an option -/

/-- The scan comes past these arguments, valid or not: of two the first is a ROM that is not
empty, for the second has it checked. -/
structure Passed (pre : List Bytes) : Prop where
  looksPositional : ∀ a ∈ pre, LooksPositional a
  length_le : pre.length ≤ 2
  rom_ne : pre.length = 2 → pre.head? ≠ some []

lemma Passed.exists_takeAll (h : Passed pre) : ∃ seen, Seen.none.takeAll pre = .ok seen := by
  obtain ⟨-, hlen, hrom⟩ := h
  simp only [Seen.takeAll_none_eq_ok_iff]
  rcases pre with _ | ⟨rom, _ | ⟨n, _ | ⟨b, rest⟩⟩⟩
  · exact ⟨_, Or.inl ⟨rfl, rfl⟩⟩
  · exact ⟨_, Or.inr (Or.inl ⟨rom, rfl, rfl⟩)⟩
  · exact ⟨_, Or.inr (Or.inr ⟨rom, n, rfl, by simpa using hrom rfl, rfl⟩)⟩
  · simp at hlen

lemma run_append_option (h : ∀ a ∈ pre, LooksPositional a) (a : Bytes) (post : List Bytes) :
    run {} (pre ++ [a] ++ post) =
      Seen.none.takeAll pre >>= fun seen => step ⟨false, seen⟩ a >>= (run · post) := by
  rw [List.append_assoc, run_append, run_positional (Or.inr h)]
  cases Seen.none.takeAll pre <;> rfl

/-- The scan gets to the option, and no further. -/
lemma parse_of_step_error (h : ∀ a ∈ pre, LooksPositional a)
    (htake : Seen.none.takeAll pre = .ok seen) (hstep : step ⟨false, seen⟩ a = .error r) :
    parse (pre ++ [a] ++ post) = .error r := by
  unfold parse
  rw [run_append_option h, htake]
  change step ⟨false, seen⟩ a >>= (run · post) >>= finish = _
  rw [hstep]
  rfl

/-- **An unknown option is told by its own name alone**: not by its value or the rest of its
cluster, nor by the arguments around it. -/
theorem parse_unknown_option :
    (∀ name, name ≠ [] → equals ∉ name → (∀ flag : Flag, name ≠ Utf8.encode flag.name) →
      (Report.unknownLong name).kind = .unknownArgument ∧
      ∀ pre value post, Passed pre →
        parse (pre ++ [longOption name value] ++ post) = .error (.unknownLong name)) ∧
    (∀ c, c ∉ ['-', 'h', 'V'] →
      (Report.unknownShort [c]).kind = .unknownArgument ∧
      ∀ pre rest post, Passed pre →
        parse (pre ++ [shortOption c rest] ++ post) = .error (.unknownShort [c])) := by
  refine ⟨fun name hne hname hflag => ⟨rfl, fun pre value post hpre => ?_⟩,
    fun c hc => ⟨rfl, fun pre rest post hpre => ?_⟩⟩
  · obtain ⟨seen, htake⟩ := hpre.exists_takeAll
    refine parse_of_step_error hpre.looksPositional htake ?_
    rw [step_longOption hname (Or.inl hne), long_of_unknown hflag]
  · obtain ⟨seen, htake⟩ := hpre.exists_takeAll
    refine parse_of_step_error hpre.looksPositional htake ?_
    simp only [List.mem_cons, List.not_mem_nil, or_false, not_or] at hc
    obtain ⟨hdash, hhelp, hversion⟩ := hc
    rw [step_shortOption hdash, short_encodeChar hhelp hversion]

/-- A name that is no text, with an empty ROM before it and a flag in its value and behind it. -/
theorem parse_unknown_option_pending :
    Passed [[]] ∧ equals ∉ ([0x76, 0xFF] : Bytes) ∧
    (∀ flag : Flag, [0x76, 0xFF] ≠ Utf8.encode flag.name) ∧
    parse ([[]] ++ [longOption [0x76, 0xFF] (some (Utf8.encode "-h".toList))] ++
      [Utf8.encode "--help".toList]) = .error (.unknownLong [0x76, 0xFF]) ∧
    parse ([[]] ++ [shortOption 'é' [0xFF]] ++ [escape]) = .error (.unknownShort ['é']) := by
  have hpre : Passed [[]] := ⟨by decide, by decide, by decide⟩
  have hname : equals ∉ ([0x76, 0xFF] : Bytes) := by decide
  have hflag (flag : Flag) : [0x76, 0xFF] ≠ Utf8.encode flag.name := by
    cases flag <;> decide
  exact ⟨hpre, hname, hflag,
    (parse_unknown_option.1 _ (List.cons_ne_nil _ _) hname hflag).2 _ _ _ hpre,
    (parse_unknown_option.2 'é' (by decide)).2 _ _ _ hpre⟩

end RomEmbed.CommandLine
