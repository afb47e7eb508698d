import Mathlib.Data.List.Infix
import Mathlib.Tactic.Common
import RomEmbed.Proofs.Embedding.Records
import RomEmbed.Proofs.Log.Listing
import RomEmbed.Proofs.Program.Diagnostics

/-!
What a list of directives makes of a run. Since only the last directive for a target counts and
the longest decides, the order of a list does not matter otherwise; to raise a threshold brings
more records to light and hides none; and a pattern keeps those whose message it matches, which for
a plain pattern are those that have it. A setting without directives shows no record at all, since
no record of an embedding is an error.
-/

namespace RomEmbed

open Files (Tree)

variable {engine : Log.Engine} {t : Tree} {args : List Bytes} {path : Bytes} {name v w : Text}
  {r : Log.Record}

/-- No record of an embedding is an error. -/
lemma Embedding.level_ne_error (h : r ∈ (embed t path name).2.records) : r.level ≠ .error := by
  rcases hl : Rom.load t path with e | rom
  · rw [embed_of_unloaded hl] at h
    cases h
  · rw [records_of_loaded hl] at h
    rcases List.mem_cons.mp h with rfl | h
    · simp [loaded]
    · rcases List.mem_append.mp h with h | h
      · obtain rfl : r = notPlain name := by
          split at h
          · cases h
          · exact List.mem_singleton.mp h
        simp [notPlain]
      · obtain rfl : r = wrote name rom := by
          split at h
          · exact List.mem_singleton.mp h
          · cases h
        simp [wrote]

namespace Program

open Log (Item Setting Filter listing everything)

/-- What a run prints to the error stream under a setting: complaints about it, some of the records
in their order, and the failure; or else why its arguments are not accepted. -/
def Prints (engine : Log.Engine) (t : Tree) (args : List Bytes) (v complaints : Text)
    (shown : List Log.Record) : Prop :=
  match CommandLine.parse args with
  | .error report => shown = [] ∧ (run engine t args (some v)).2.errors = (ofReport report).errors
  | .ok q => shown.Sublist (embed t q.rom q.name).2.records ∧
      (run engine t args (some v)).2.errors =
        complaints ++ recordLines shown ++ failureLines (embed t q.rom q.name).2

/-- The records that pass a filter, if the arguments are accepted. -/
def passing (t : Tree) (args : List Bytes) (f : Filter) : List Log.Record :=
  match CommandLine.parse args with
  | .error _ => []
  | .ok q => (embed t q.rom q.name).2.records.filter f.admits

lemma prints_passing (engine : Log.Engine) (t : Tree) (args : List Bytes) (v : Text) :
    Prints engine t args v (complaintLines engine (some v))
      (passing t args (Setting.parse engine v).filter) := by
  unfold Prints passing
  rcases hp : CommandLine.parse args with report | q
  · exact ⟨rfl, by rw [run_of_report hp]⟩
  · exact ⟨List.filter_sublist, by rw [run_of_request hp, errors_ofOutcome]; rfl⟩

lemma passing_congr {f g : Filter} (h : ∀ r, f.admits r = g.admits r) :
    passing t args f = passing t args g := by
  have hadmits : f.admits = g.admits := funext h
  simp only [passing, hadmits]

lemma passing_sublist {f g : Filter} (h : ∀ r, f.admits r = true → g.admits r = true) :
    (passing t args f).Sublist (passing t args g) := by
  unfold passing
  split
  · exact List.Sublist.refl _
  · exact List.monotone_filter_right _ h

lemma Prints.errors_eq {complaints : Text} {shown : List Log.Record}
    (hv : Prints engine t args v complaints shown) (hw : Prints engine t args w complaints shown) :
    (run engine t args (some v)).2.errors = (run engine t args (some w)).2.errors := by
  unfold Prints at hv hw
  rcases hp : CommandLine.parse args with report | q <;> simp only [hp] at hv hw <;>
    exact hv.2.trans hw.2.symm

/-- A list of directives prints no complaints. -/
lemma prints_listing (engine : Log.Engine) (t : Tree) (args : List Bytes) (items : List Item) :
    Prints engine t args (listing items) []
      (passing t args (.reading (items.map (·.directive)) everything)) := by
  have h := prints_passing engine t args (listing items)
  rw [complaintLines, Setting.ofVariable, Setting.parse_listing] at h
  exact h

lemma prints_listing_pattern (engine : Log.Engine) (t : Tree) (args : List Bytes)
    (items : List Item) {s : Text} (hs : '/' ∉ s) :
    Prints engine t args (listing items ++ '/' :: s)
      ((Setting.readPattern engine s).2.flatMap line)
      (passing t args (.reading (items.map (·.directive)) (Setting.readPattern engine s).1)) := by
  have h := prints_passing engine t args (listing items ++ '/' :: s)
  rw [complaintLines, Setting.ofVariable, Setting.parse_listing_pattern engine items hs] at h
  exact h

/-- What passes by its message is chosen among the records that the directives let through. -/
lemma passing_reading (ds : List Log.Directive) (passes : Text → Bool) :
    passing t args (.reading ds passes) =
      (passing t args (.reading ds everything)).filter fun r => passes r.message := by
  unfold passing
  split
  · rfl
  · rw [List.filter_filter]
    exact List.filter_congr fun r _ => Filter.admits_reading_passes ds passes r

lemma passing_nil (passes : Text → Bool) : passing t args (.reading [] passes) = [] := by
  unfold passing
  split
  · rfl
  · refine List.filter_eq_nil_iff.mpr fun r hr hadmits => ?_
    exact Embedding.level_ne_error hr (Filter.level_of_admits_reading_nil hadmits)

/-! ### Lists that are changed -/

section

variable {items others pre post : List Item} {i j : Item}

lemma errors_listing_replaced (hclear : Log.Clear ((pre ++ i :: post).map (·.directive)))
    (hlater : ∃ j ∈ post, j.directive.target = i.directive.target) :
    (run engine t args (some (listing (pre ++ post)))).2.errors =
      (run engine t args (some (listing (pre ++ i :: post)))).2.errors := by
  have hlater' : ∃ d ∈ post.map (·.directive), d.target = i.directive.target := by
    simpa using hlater
  have hprints := prints_listing engine t args (pre ++ post)
  have hprints' := prints_listing engine t args (pre ++ i :: post)
  rw [List.map_append, List.map_cons] at hclear hprints'
  rw [List.map_append, passing_congr (Filter.admits_reading_replaced hclear hlater')] at hprints
  exact hprints.errors_eq hprints'

lemma errors_listing_perm (hclear : Log.Clear (items.map (·.directive)))
    (hnodup : (items.map (·.directive.target)).Nodup) (hperm : items.Perm others) :
    (run engine t args (some (listing others))).2.errors =
      (run engine t args (some (listing items))).2.errors := by
  have hnodup' : ((items.map (·.directive)).map (·.target)).Nodup := by
    rwa [List.map_map]
  have hprints := prints_listing engine t args others
  rw [passing_congr (Filter.admits_reading_perm hclear hnodup' (hperm.map _))] at hprints
  exact hprints.errors_eq (prints_listing engine t args items)

lemma prints_listing_raised (hclear : Log.Clear ((pre ++ i :: post).map (·.directive)))
    (htarget : j.directive.target = i.directive.target)
    (hbelow : i.directive.threshold.Below j.directive.threshold) :
    ∃ shown more, shown.Sublist more ∧ Prints engine t args (listing (pre ++ i :: post)) [] shown ∧
      Prints engine t args (listing (pre ++ j :: post)) [] more := by
  refine ⟨_, _, passing_sublist fun r hr => ?_, prints_listing engine t args _,
    prints_listing engine t args _⟩
  rw [List.map_append, List.map_cons] at hclear hr ⊢
  exact Filter.admits_reading_raised hclear htarget hbelow hr

lemma prints_of_barren (hv : Setting.Barren v) :
    Prints engine t args v (complaintLines engine (some v)) [] := by
  obtain ⟨passes, hfilter⟩ := Setting.filter_of_barren engine hv
  have hprints := prints_passing engine t args v
  rwa [hfilter, passing_nil] at hprints

/-- A pattern that is read chooses among the records that the directives let through. -/
lemma prints_listing_matched {s : Text} {passes : Text → Bool} (hs : '/' ∉ s)
    (hcompile : engine.compile s = .ok passes) :
    Prints engine t args (listing items ++ '/' :: s) []
      ((passing t args (.reading (items.map (·.directive)) everything)).filter
        fun r => passes r.message) := by
  have h := prints_listing_pattern engine t args items hs
  rw [Setting.readPattern, hcompile, passing_reading] at h
  exact h

/-- A plain pattern is looked for in the messages. -/
lemma prints_listing_plain {s : Text} (hs : '/' ∉ s) (hplain : Log.Pattern.IsPlain s) :
    Prints engine t args (listing items ++ '/' :: s) []
      ((passing t args (.reading (items.map (·.directive)) everything)).filter
        fun r => s <:+: r.message) := by
  have hoccurs (r : Log.Record) : decide (s <:+: r.message) = Text.occurs s r.message := by
    rw [Bool.eq_iff_iff, decide_eq_true_iff, Text.occurs_iff]
  simp only [hoccurs]
  exact prints_listing_matched hs (engine.compile_plain s hplain)

/-- A pattern that cannot be read is complained about and chooses nothing. -/
lemma prints_listing_unread {s reason : Text} (hs : '/' ∉ s)
    (hcompile : engine.compile s = .error reason) :
    Prints engine t args (listing items ++ '/' :: s)
      (line (Setting.warning ("invalid regex filter - ".toList ++ reason)))
      (passing t args (.reading (items.map (·.directive)) everything)) := by
  have h := prints_listing_pattern engine t args items hs
  rw [Setting.readPattern, hcompile, List.flatMap_singleton] at h
  exact h

end

/-- **What a list of directives makes of a run.** A directive that another for its target follows
might as well be missing, and directives for different targets might stand in any order. Raising a
threshold adds records to those printed. A pattern keeps those whose message it matches, which for
a plain one are those that have it; one that cannot be read is complained about and left out. A
setting without directives prints no record. -/
theorem run_directives (engine : Log.Engine) (items : List Item)
    (hclear : Log.Clear (items.map (·.directive))) (t : Tree) (args : List Bytes) :
    (∀ pre i post, items = pre ++ i :: post →
      (∃ j ∈ post, j.directive.target = i.directive.target) →
      (run engine t args (some (listing (pre ++ post)))).2.errors =
        (run engine t args (some (listing items))).2.errors) ∧
    ((items.map (·.directive.target)).Nodup → ∀ others, items.Perm others →
      (run engine t args (some (listing others))).2.errors =
        (run engine t args (some (listing items))).2.errors) ∧
    (∀ pre i post j, items = pre ++ i :: post → j.directive.target = i.directive.target →
      i.directive.threshold.Below j.directive.threshold →
      ∃ shown more, shown.Sublist more ∧ Prints engine t args (listing items) [] shown ∧
        Prints engine t args (listing (pre ++ j :: post)) [] more) ∧
    (∀ s, '/' ∉ s → ∃ shown, Prints engine t args (listing items) [] shown ∧
      (Log.Pattern.IsPlain s → Prints engine t args (listing items ++ '/' :: s) []
        (shown.filter fun r => s <:+: r.message)) ∧
      (∀ passes, engine.compile s = .ok passes →
        Prints engine t args (listing items ++ '/' :: s) []
          (shown.filter fun r => passes r.message)) ∧
      ∀ reason, engine.compile s = .error reason →
        Prints engine t args (listing items ++ '/' :: s)
          (line (Setting.warning ("invalid regex filter - ".toList ++ reason))) shown) ∧
    ∀ v, Setting.Barren v → Prints engine t args v (complaintLines engine (some v)) [] := by
  refine ⟨?_, fun hnodup others => errors_listing_perm hclear hnodup, ?_, fun s hs => ?_,
    fun v => prints_of_barren⟩
  · rintro pre i post rfl
    exact errors_listing_replaced hclear
  · rintro pre i post j rfl
    exact prints_listing_raised hclear
  · exact ⟨_, prints_listing engine t args items, prints_listing_plain hs,
      fun _ => prints_listing_matched hs, fun _ => prints_listing_unread hs⟩

/-- A directive for all records, also those of reading the image unless a longer one decides. -/
def silenced : Item where
  text := "romgen=off".toList
  directive := ⟨some "romgen".toList, none⟩
  comma_not_mem := by decide
  slash_not_mem := by decide
  spells := Log.Directive.spells_iff.mpr ⟨by decide, by decide⟩

/-- A directive for the same target, with blanks around it. -/
def informed : Item where
  text := " romgen=info ".toList
  directive := ⟨some "romgen".toList, some .info⟩
  comma_not_mem := by decide
  slash_not_mem := by decide
  spells := Log.Directive.spells_iff.mpr ⟨by decide, by decide⟩

/-- The longer one. -/
def traced : Item where
  text := "romgen::rom::loader".toList
  directive := ⟨some "romgen::rom::loader".toList, some .trace⟩
  comma_not_mem := by decide
  slash_not_mem := by decide
  spells := Log.Directive.spells_iff.mpr ⟨by decide, by decide⟩

/-- Of two targets one begins the other: the longer decides for its own records only. -/
theorem run_directives_nested :
    let args := [Tree.ascii "R", Tree.ascii "S"]
    let errors := fun items => (run .plain imaged args (some (listing items))).2.errors
    Log.Clear ([silenced, traced, informed].map (·.directive)) ∧
    errors [traced, informed] = errors [silenced, traced, informed] ∧
    errors [informed, traced] = errors [traced, informed] ∧
    (∃ shown more, shown.Sublist more ∧
      Prints .plain imaged args (listing [traced, silenced]) [] shown ∧
      Prints .plain imaged args (listing [traced, informed]) [] more) ∧
    errors [traced, silenced] = "DEBUG: Loaded 1 bytes from R\n".toList ∧
    errors [traced, informed] =
      "DEBUG: Loaded 1 bytes from R\nINFO: Wrote 1 bytes of ROM as class S to S.js\n".toList ∧
    (∃ shown, Prints .plain imaged args (listing [traced, informed]) [] shown ∧
      Prints .plain imaged args (listing [traced, informed] ++ "/class".toList) []
        (shown.filter fun r => "class".toList <:+: r.message)) ∧
    Prints .plain imaged args "romgen//".toList
      (complaintLines .plain (some "romgen//".toList)) [] := by
  intro args errors
  have hnone : ∀ items : List Item, (∀ i ∈ items, i.directive.target ≠ none) →
      Log.Clear (items.map (·.directive)) := by
    rintro items hitems ⟨⟨d, hd, htarget⟩, -⟩
    obtain ⟨i, hi, rfl⟩ := List.mem_map.mp hd
    exact hitems i hi htarget
  have hclear := hnone [silenced, traced, informed] (by decide)
  have hclear' := hnone [traced, informed] (by decide)
  obtain ⟨hdelete, -⟩ := run_directives .plain _ hclear imaged args
  obtain ⟨-, hperm, -, hpattern, hbarren⟩ := run_directives .plain _ hclear' imaged args
  have hclear'' := hnone [traced, silenced] (by decide)
  obtain ⟨-, -, hraise, -⟩ := run_directives .plain _ hclear'' imaged args
  have hdeleted := hdelete [] silenced [traced, informed] rfl ⟨informed, by simp, rfl⟩
  rw [List.nil_append] at hdeleted
  have hswapped := hperm (by decide) [informed, traced] (.swap ..)
  obtain ⟨shown, hshown, hplain, -⟩ := hpattern "class".toList (by decide)
  have hraised := hraise [traced] silenced [] informed rfl rfl fun _ h => (nomatch h)
  exact ⟨hclear, hdeleted, hswapped, hraised, by decide +kernel, by decide +kernel,
    ⟨shown, hshown, hplain (by decide)⟩, hbarren _ (Or.inl (by decide))⟩

end Program

end RomEmbed
