import RomEmbed.Proofs.CommandLine.Grammar

/-!
What more arguments can change. The scan stops for good at an argument that is reported at
once, so such a report stands whatever comes after it. A positional argument that is not valid
is found out later, and then perhaps not reported, but nothing ever takes its place. So only a
command line that lacks arguments can be mended by more of them, and a complete one bears no
more than an escape.
-/

namespace RomEmbed.CommandLine

variable {s u : State} {seen last : Seen} {a : Bytes} {args more : List Bytes} {r : Report}
  {q : Request}

lemma parse_append (args more : List Bytes) :
    parse (args ++ more) = run {} args >>= fun s => run s more >>= finish := by
  unfold parse
  rw [run_append]
  cases run {} args <;> rfl

/-! ### The end of the arguments -/

lemma kind_of_check_error (h : seen.check = .error r) :
    r.kind = .invalidValue ∨ r.kind = .invalidUtf8 := by
  unfold Seen.check at h
  split at h
  · cases h
  · split at h
    · obtain rfl : Report.emptyRom = r := Except.error.inj h
      exact Or.inl rfl
    · cases h
  · split at h
    · obtain rfl : Report.nameNotUtf8 = r := Except.error.inj h
      exact Or.inr rfl
    · cases h

/-- At the end the last argument is found invalid, or another one missing. -/
lemma finish_error_cases (h : finish s = .error r) :
    s.seen.check = .error r ∨
      r.kind = .missingArgument ∧ (s.seen = .none ∨ ∃ rom, s.seen = .rom rom ∧ rom ≠ []) := by
  unfold finish at h
  split at h
  · next hseen =>
    obtain rfl : Report.missing true = r := Except.error.inj h
    exact Or.inr ⟨rfl, Or.inl hseen⟩
  · next rom hseen =>
    rw [hseen]
    rcases bind_eq_error_iff.mp h with hcheck | ⟨_, hcheck, hmissing⟩
    · exact Or.inl hcheck
    · obtain rfl : Report.missing false = r := Except.error.inj hmissing
      refine Or.inr ⟨rfl, Or.inr ⟨rom, rfl, ?_⟩⟩
      rintro rfl
      cases hcheck
  · next rom n hseen =>
    rw [hseen]
    rcases hn : Utf8.decode? n with _ | name
    · left
      simpa [Seen.check, hn] using h
    · rw [hn] at h
      cases h

/-! ### Arguments that are not valid -/

/-- No positional argument is taken after one that is not valid. -/
lemma take_of_check_error (h : seen.check = .error r) : seen.take a ≠ .ok last := by
  cases seen with
  | none => cases h
  | rom rom =>
    intro htake
    obtain ⟨hrom, -⟩ := Seen.take_rom_eq_ok_iff.mp htake
    simp [Seen.check, hrom] at h
  | both rom n => simp

lemma run_of_check_error (h : s.seen.check = .error r) (hrun : run s args = .ok u) :
    u.seen = s.seen := by
  induction args generalizing s with
  | nil => rw [Except.ok.inj hrun]
  | cons a rest ih =>
    obtain ⟨v, hstep, hrest⟩ := bind_eq_ok_iff.mp hrun
    rcases step_eq_ok_iff.mp hstep with ⟨-, -, rfl⟩ | ⟨-, last, htake, -⟩
    · exact ih (s := ⟨true, s.seen⟩) h hrest
    · exact absurd htake (take_of_check_error h)

lemma finish_ne_ok_of_check_error (h : s.seen.check = .error r) (q : Request) :
    finish s ≠ .ok q := by
  intro hfinish
  rw [finish_eq_ok_iff.mp hfinish] at h
  simp [Seen.check, Utf8.decode?_encode] at h

/-! ### Complete command lines -/

lemma step_of_both {rom n : Bytes} (h : s.seen = .both rom n) :
    step s a = .ok u ↔ s.escaped = false ∧ a = escape ∧ u = ⟨true, s.seen⟩ := by
  rw [step_eq_ok_iff, h]
  simp

/-- After both arguments the scan goes on only over one escape. -/
lemma run_of_both {rom n : Bytes} (h : s.seen = .both rom n) (hmore : more ≠ []) :
    run s more = .ok u ↔ s.escaped = false ∧ more = [escape] ∧ u = ⟨true, s.seen⟩ := by
  obtain ⟨a, rest, rfl⟩ := List.exists_cons_of_ne_nil hmore
  constructor
  · intro hrun
    obtain ⟨v, hstep, hrest⟩ := bind_eq_ok_iff.mp hrun
    obtain ⟨hescaped, rfl, rfl⟩ := (step_of_both h).mp hstep
    rcases rest with _ | ⟨b, rest⟩
    · exact ⟨hescaped, rfl, (Except.ok.inj hrest).symm⟩
    · -- an escape after the escape would be a third argument
      obtain ⟨w, hnext, -⟩ := bind_eq_ok_iff.mp hrest
      obtain ⟨hnot, -⟩ := (step_of_both (s := ⟨true, s.seen⟩) h).mp hnext
      cases hnot
  · rintro ⟨hescaped, hrest, rfl⟩
    obtain ⟨rfl, rfl⟩ : a = escape ∧ rest = [] := by simpa using hrest
    exact bind_eq_ok_iff.mpr ⟨_, (step_of_both h).mpr ⟨hescaped, rfl, rfl⟩, rfl⟩

lemma parse_append_of_ok (h : parse args = .ok q) (hmore : more ≠ []) (q' : Request) :
    parse (args ++ more) = .ok q' ↔ more = [escape] ∧ escape ∉ args ∧ q' = q := by
  obtain ⟨s, hrun, hfinish⟩ := bind_eq_ok_iff.mp h
  have hseen := finish_eq_ok_iff.mp hfinish
  obtain ⟨-, -, -, hescaped⟩ := run_eq_ok_iff.mp hrun
  have hnot : s.escaped = false ↔ escape ∉ args := by rw [← hescaped, Bool.not_eq_true]
  have hsame : finish ⟨true, s.seen⟩ = .ok q' ↔ q' = q := by
    rw [show finish ⟨true, s.seen⟩ = finish s from rfl, hfinish, Except.ok.injEq, eq_comm]
  rw [parse_append, hrun]
  change run s more >>= finish = .ok q' ↔ _
  rw [bind_eq_ok_iff]
  constructor
  · rintro ⟨u, hrest, hq⟩
    obtain ⟨hs, rfl, rfl⟩ := (run_of_both hseen hmore).mp hrest
    exact ⟨rfl, hnot.mp hs, hsame.mp hq⟩
  · rintro ⟨rfl, hno, hq⟩
    exact ⟨_, (run_of_both hseen hmore).mpr ⟨hnot.mpr hno, rfl, rfl⟩, hsame.mpr hq⟩

/-! ### What is missing -/

lemma take_error_cases (h : seen.take a = .error r) : seen.check = .error r ∨ r = .surplus a := by
  cases seen with
  | none => cases h
  | rom rom =>
    rcases bind_eq_error_iff.mp h with hcheck | ⟨_, -, hboth⟩
    · exact Or.inl hcheck
    · cases hboth
  | both rom n => exact Or.inr (Except.error.inj h).symm

lemma stop_error_cases {flag : Flag} (h : stop seen flag = .error r) :
    seen.check = .error r ∨ seen.check = .ok () ∧ r = .shown flag := by
  rcases bind_eq_error_iff.mp h with hcheck | ⟨⟨⟩, hcheck, hshown⟩
  · exact Or.inl hcheck
  · exact Or.inr ⟨hcheck, (Except.error.inj hshown).symm⟩

lemma kind_of_take_error (h : seen.take a = .error r) : r.kind ≠ .missingArgument := by
  rcases take_error_cases h with hcheck | rfl
  · rcases kind_of_check_error hcheck with hkind | hkind <;> simp [hkind]
  · simp [Report.kind]

lemma kind_of_stop_error {flag : Flag} (h : stop seen flag = .error r) :
    r.kind ≠ .missingArgument := by
  rcases stop_error_cases h with hcheck | ⟨-, rfl⟩
  · rcases kind_of_check_error hcheck with hkind | hkind <;> simp [hkind]
  · cases flag <;> simp [Report.kind]

/-- An argument is missing only when there are no more. -/
lemma kind_of_step_error (h : step s a = .error r) : r.kind ≠ .missingArgument := by
  unfold step at h
  have htake (h : (do return { s with seen := ← s.seen.take a } : Except Report State) =
      .error r) : r.kind ≠ .missingArgument := by
    rcases bind_eq_error_iff.mp h with htake | ⟨_, -, hok⟩
    · exact kind_of_take_error htake
    · cases hok
  split at h
  · exact htake h
  split at h
  · cases h
  · unfold long at h
    split at h
    · exact kind_of_stop_error h
    · obtain rfl := Except.error.inj h
      simp [Report.kind]
    · obtain rfl := Except.error.inj h
      simp [Report.kind]
  · unfold short at h
    split at h
    · exact kind_of_stop_error h
    · exact kind_of_stop_error h
    · obtain rfl := Except.error.inj h
      simp [Report.kind]
    · obtain rfl := Except.error.inj h
      simp [Report.kind]
  · exact htake h

lemma kind_of_run_error (h : run s args = .error r) : r.kind ≠ .missingArgument := by
  induction args generalizing s with
  | nil => cases h
  | cons a rest ih =>
    rcases bind_eq_error_iff.mp h with hstep | ⟨v, -, hrest⟩
    · exact kind_of_step_error hstep
    · exact ih hrest

/-- Where an argument is missing, a letter will do. -/
lemma exists_run_finish (h : s.seen = .none ∨ ∃ rom, s.seen = .rom rom ∧ rom ≠ []) :
    ∃ more q, run s more >>= finish = .ok q := by
  obtain ⟨escaped, seen⟩ := s
  set letter := Utf8.encode ['a']
  have hletter : LooksPositional letter := Or.inr (by decide)
  suffices ∃ more rom, (∀ a ∈ more, LooksPositional a) ∧
      seen.takeAll more = .ok (.both rom letter) by
    obtain ⟨more, rom, hmore, htake⟩ := this
    have hrun : run ⟨escaped, seen⟩ more = .ok ⟨escaped, .both rom letter⟩ := by
      rw [run_positional (Or.inr hmore), htake]
      rfl
    exact ⟨more, ⟨rom, ['a']⟩, bind_eq_ok_iff.mpr ⟨_, hrun, finish_eq_ok_iff.mpr rfl⟩⟩
  rcases h with h | ⟨rom, h, hrom⟩
  · obtain rfl : seen = .none := h
    exact ⟨[letter, letter], letter, by simpa using hletter,
      Seen.takeAll_none_eq_both_iff.mpr ⟨rfl, by decide⟩⟩
  · obtain rfl : seen = .rom rom := h
    exact ⟨[letter], rom, by simpa using hletter,
      bind_eq_ok_iff.mpr ⟨_, Seen.take_rom_eq_ok_iff.mpr ⟨hrom, rfl⟩, rfl⟩⟩

/-! ### Which reports are final -/

/-- **Where a report comes from**, and what more arguments make of it. -/
lemma parse_error_cases (h : parse args = .error r) :
    (r.kind ≠ .missingArgument ∧ ∀ more, parse (args ++ more) = .error r) ∨
    ((r.kind = .invalidValue ∨ r.kind = .invalidUtf8) ∧
      ∀ more q, parse (args ++ more) ≠ .ok q) ∨
    (r.kind = .missingArgument ∧ ∃ more q, parse (args ++ more) = .ok q) := by
  rcases bind_eq_error_iff.mp h with hrun | ⟨s, hrun, hfinish⟩
  · refine Or.inl ⟨kind_of_run_error hrun, fun more => ?_⟩
    rw [parse_append, hrun]
    rfl
  have hmore (more : List Bytes) : parse (args ++ more) = run s more >>= finish := by
    rw [parse_append, hrun]
    rfl
  rcases finish_error_cases hfinish with hcheck | ⟨hkind, hseen⟩
  · refine Or.inr (Or.inl ⟨kind_of_check_error hcheck, fun more q hq => ?_⟩)
    rw [hmore] at hq
    obtain ⟨u, hrest, hfinish⟩ := bind_eq_ok_iff.mp hq
    rw [← run_of_check_error hcheck hrest] at hcheck
    exact finish_ne_ok_of_check_error hcheck q hfinish
  · obtain ⟨more, q, hq⟩ := exists_run_finish hseen
    exact Or.inr (Or.inr ⟨hkind, more, q, by rw [hmore, hq]⟩)

/-- **What more arguments can change.** A report of an unknown argument, of a value too many,
or of help or the version stands whatever comes after it; one of an argument that is not valid
never gives way to success; a complete command line stays one only if an escape is added, and
only the first; and just those that lack an argument can be made complete. -/
theorem parse_final :
    (∀ args more r, parse args = .error r →
      r.kind ∈ [.unknownArgument, .tooManyValues, .help, .version] →
      parse (args ++ more) = .error r) ∧
    (∀ args more r q, parse args = .error r → r.kind ∈ [.invalidValue, .invalidUtf8] →
      parse (args ++ more) ≠ .ok q) ∧
    (∀ args more q q', parse args = .ok q → more ≠ [] →
      (parse (args ++ more) = .ok q' ↔ more = [escape] ∧ escape ∉ args ∧ q' = q)) ∧
    (∀ args r, parse args = .error r →
      ((∃ more q, parse (args ++ more) = .ok q) ↔ r.kind = .missingArgument)) := by
  refine ⟨fun args more r h hkind => ?_, fun args more r q h hkind => ?_,
    fun args more q q' h hmore => parse_append_of_ok h hmore q', fun args r h => ?_⟩
  · rcases parse_error_cases h with ⟨-, herror⟩ | ⟨hinvalid | hinvalid, -⟩ | ⟨hmissing, -⟩
    · exact herror more
    · simp [hinvalid] at hkind
    · simp [hinvalid] at hkind
    · simp [hmissing] at hkind
  · rcases parse_error_cases h with ⟨-, herror⟩ | ⟨-, hno⟩ | ⟨hmissing, -⟩
    · simp [herror more]
    · exact hno more q
    · simp [hmissing] at hkind
  · rcases parse_error_cases h with ⟨hkind, herror⟩ | ⟨hinvalid | hinvalid, hno⟩ | ⟨hkind, hok⟩
    · simp [herror, hkind]
    · simp [hno, hinvalid]
    · simp [hno, hinvalid]
    · exact iff_of_true hok hkind

end RomEmbed.CommandLine
