import Mathlib.Tactic.Common
import Mathlib.Data.List.Induction
import RomEmbed.Log.Filter

/-!
Which directive decides. A later directive takes the place of an earlier one for the same target,
so of each target the last directive counts. Of those that cover a target the longest decides, and
two that are equally long are for the same target, unless one is for all targets and one for those
that begin with the empty text. Without this one exception the order of the directives does not
matter beyond which is the last for its target.
-/

namespace RomEmbed.Log

variable {ds es pre post : List Directive} {d e x : Directive} {target : Text}

/-! ### The last for its target -/

/-- No later directive is for the target of `d`. -/
def Lasts (ds : List Directive) (d : Directive) : Prop :=
  ∃ post, d :: post <:+ ds ∧ ∀ e ∈ post, e.target ≠ d.target

@[simp] lemma not_lasts_nil : ¬Lasts [] d := by
  rintro ⟨post, h, -⟩
  simp at h

lemma lasts_cons :
    Lasts (d :: ds) x ↔ Lasts ds x ∨ x = d ∧ ∀ e ∈ ds, e.target ≠ d.target := by
  constructor
  · rintro ⟨post, h, hpost⟩
    rcases List.suffix_cons_iff.mp h with heq | h
    · obtain ⟨rfl, rfl⟩ := List.cons.inj heq
      exact Or.inr ⟨rfl, hpost⟩
    · exact Or.inl ⟨post, h, hpost⟩
  · rintro (⟨post, h, hpost⟩ | ⟨rfl, hpost⟩)
    · exact ⟨post, h.trans (List.suffix_cons d ds), hpost⟩
    · exact ⟨ds, List.suffix_refl _, hpost⟩

lemma lasts_append :
    Lasts (ds ++ es) x ↔ Lasts es x ∨ Lasts ds x ∧ ∀ e ∈ es, e.target ≠ x.target := by
  induction ds with
  | nil => simp
  | cons d ds ih =>
    rw [List.cons_append, lasts_cons, ih, lasts_cons]
    simp only [List.forall_mem_append]
    constructor
    · rintro ((h | ⟨h, hes⟩) | ⟨rfl, hds, hes⟩)
      · exact Or.inl h
      · exact Or.inr ⟨Or.inl h, hes⟩
      · exact Or.inr ⟨Or.inr ⟨rfl, hds⟩, hes⟩
    · rintro (h | ⟨h | ⟨rfl, hds⟩, hes⟩)
      · exact Or.inl (Or.inl h)
      · exact Or.inl (Or.inr ⟨h, hes⟩)
      · exact Or.inr ⟨rfl, hds, hes⟩

lemma Lasts.mem (h : Lasts ds d) : d ∈ ds := by
  obtain ⟨post, hsuffix, -⟩ := h
  exact hsuffix.subset (List.mem_cons_self ..)

/-- Of each target that has a directive there is a last one. -/
lemma exists_lasts (h : e ∈ ds) : ∃ d, Lasts ds d ∧ d.target = e.target := by
  induction ds generalizing e with
  | nil => cases h
  | cons d ds ih =>
    rcases List.mem_cons.mp h with rfl | h
    · by_cases hlater : ∃ e' ∈ ds, e'.target = e.target
      · obtain ⟨e', he', htarget⟩ := hlater
        obtain ⟨x, hx, hxe⟩ := ih he'
        exact ⟨x, lasts_cons.mpr (Or.inl hx), hxe.trans htarget⟩
      · exact ⟨e, lasts_cons.mpr (Or.inr ⟨rfl, fun e' he' heq => hlater ⟨e', he', heq⟩⟩), rfl⟩
    · obtain ⟨x, hx, hxe⟩ := ih h
      exact ⟨x, lasts_cons.mpr (Or.inl hx), hxe⟩

/-- Of each target there is only one last directive. -/
lemma Lasts.unique (hd : Lasts ds d) (he : Lasts ds e) (htarget : d.target = e.target) :
    d = e := by
  induction ds with
  | nil => exact absurd hd not_lasts_nil
  | cons a ds ih =>
    rcases lasts_cons.mp hd with hd' | ⟨rfl, hd'⟩ <;>
      rcases lasts_cons.mp he with he' | ⟨rfl, he'⟩
    · exact ih hd' he'
    · exact absurd htarget (he' d hd'.mem)
    · exact absurd htarget.symm (hd' e he'.mem)
    · rfl

lemma lasts_iff_mem (hnodup : (ds.map (·.target)).Nodup) : Lasts ds d ↔ d ∈ ds := by
  induction ds with
  | nil => simp
  | cons a ds ih =>
    obtain ⟨ha, hds⟩ := List.nodup_cons.mp hnodup
    have hfront : ∀ e ∈ ds, e.target ≠ a.target := fun e he heq =>
      ha (List.mem_map.mpr ⟨e, he, heq⟩)
    rw [lasts_cons, ih hds, List.mem_cons, or_comm]
    simp only [and_iff_left hfront]

/-- The list that `put` makes holds the last directives. -/
lemma mem_put : e ∈ put ds d ↔ e = d ∨ e ∈ ds ∧ e.target ≠ d.target := by
  unfold put
  split
  · next hany =>
    obtain ⟨x, hx, hxd⟩ := List.any_eq_true.mp hany
    simp only [List.mem_map]
    constructor
    · rintro ⟨y, hy, rfl⟩
      by_cases hyd : y.target = d.target
      · simp [hyd]
      · simp [hyd, hy]
    · rintro (rfl | ⟨he, hne⟩)
      · exact ⟨x, hx, by rw [if_pos hxd]⟩
      · exact ⟨e, he, by simp [hne]⟩
  · next hany =>
    simp only [List.any_eq_true, beq_iff_eq, not_exists, not_and] at hany
    rw [List.mem_append, List.mem_singleton, or_comm]
    exact or_congr_right (and_iff_left_of_imp (hany e)).symm

lemma mem_foldl_put : d ∈ ds.foldl put [] ↔ Lasts ds d := by
  induction ds using List.reverseRecOn generalizing d with
  | nil => simp
  | append_singleton ds a ih =>
    rw [List.foldl_append, List.foldl_cons, List.foldl_nil, mem_put, ih, lasts_append, lasts_cons]
    simp only [not_lasts_nil, false_or, List.not_mem_nil, false_implies, implies_true, and_true,
      List.mem_singleton, forall_eq, ne_comm]

lemma foldl_put_ne_nil (h : ds ≠ []) : ds.foldl put [] ≠ [] := by
  obtain ⟨d, ds, rfl⟩ := List.exists_cons_of_ne_nil h
  obtain ⟨x, hx, -⟩ := exists_lasts (List.mem_cons_self (a := d) (l := ds))
  exact List.ne_nil_of_mem (mem_foldl_put.mpr hx)

/-! ### The longest that covers -/

lemma Directive.covers_congr (h : d.target = e.target) : d.covers target = e.covers target := by
  simp only [covers, h]

lemma Directive.length_congr (h : d.target = e.target) : d.length = e.length := by
  simp only [length, h]

/-- `d` is the last for its target, and none that covers more of the given target does so. -/
structure Decides (ds : List Directive) (target : Text) (d : Directive) : Prop where
  lasts : Lasts ds d
  covers : d.covers target = true
  longest : ∀ e ∈ ds, e.covers target = true → e.length ≤ d.length

/-- The directives are not both for all targets and for those that begin with the empty text. -/
def Clear (ds : List Directive) : Prop :=
  ¬((∃ d ∈ ds, d.target = none) ∧ ∃ d ∈ ds, d.target = some [])

lemma Clear.of_subset (h : Clear ds) (hsub : ∀ t ∈ es.map (·.target), t ∈ ds.map (·.target)) :
    Clear es := by
  have hof (t : Option Text) (ht : ∃ e ∈ es, e.target = t) : ∃ d ∈ ds, d.target = t :=
    List.mem_map.mp (hsub t (List.mem_map.mpr ht))
  exact fun ⟨hall, hempty⟩ => h ⟨hof _ hall, hof _ hempty⟩

lemma Clear.target_eq (h : Clear ds) (hd : d ∈ ds) (he : e ∈ ds) (hdc : d.covers target = true)
    (hec : e.covers target = true) (hlength : d.length = e.length) : d.target = e.target := by
  unfold Directive.covers at hdc hec
  unfold Directive.length at hlength
  rcases hdt : d.target with _ | a <;> rcases het : e.target with _ | b <;>
    simp only [hdt, het] at hdc hec hlength
  · rfl
  · obtain rfl := List.length_eq_zero_iff.mp hlength.symm
    exact absurd ⟨⟨d, hd, hdt⟩, e, he, het⟩ h
  · obtain rfl := List.length_eq_zero_iff.mp hlength
    exact absurd ⟨⟨e, he, het⟩, d, hd, hdt⟩ h
  · -- both begin the target
    have ha := List.isPrefixOf_iff_prefix.mp hdc
    have hb := List.isPrefixOf_iff_prefix.mp hec
    rw [(List.prefix_of_prefix_length_le ha hb (Nat.le_of_eq hlength)).eq_of_length hlength]

lemma Decides.unique (hclear : Clear ds) (hd : Decides ds target d) (he : Decides ds target e) :
    d = e := by
  have hlength : d.length = e.length :=
    Nat.le_antisymm (he.longest d hd.lasts.mem hd.covers) (hd.longest e he.lasts.mem he.covers)
  exact hd.lasts.unique he.lasts
    (hclear.target_eq hd.lasts.mem he.lasts.mem hd.covers he.covers hlength)

/-- The longer of two directives, and the later if they are equally long. -/
def longer (best : Option Directive) (d : Directive) : Option Directive :=
  match best with
  | none => some d
  | some b => if b.length ≤ d.length then some d else some b

lemma foldl_longer_eq_none (h : ds.foldl longer none = none) : ds = [] := by
  rcases List.eq_nil_or_concat ds with rfl | ⟨ds, a, rfl⟩
  · rfl
  · rw [List.concat_eq_append, List.foldl_append, List.foldl_cons, List.foldl_nil] at h
    unfold longer at h
    split at h
    · cases h
    · split at h <;> cases h

lemma foldl_longer_eq_some (h : ds.foldl longer none = some d) :
    d ∈ ds ∧ ∀ e ∈ ds, e.length ≤ d.length := by
  induction ds using List.reverseRecOn generalizing d with
  | nil => cases h
  | append_singleton ds a ih =>
    rw [List.foldl_append, List.foldl_cons, List.foldl_nil] at h
    simp only [List.mem_append, List.mem_singleton, or_imp, forall_and, forall_eq]
    rcases hbest : ds.foldl longer none with _ | b
    · obtain rfl := foldl_longer_eq_none hbest
      rw [hbest] at h
      obtain rfl : a = d := Option.some.inj h
      simp
    · obtain ⟨hb, hmax⟩ := ih hbest
      rw [hbest] at h
      unfold longer at h
      dsimp only at h
      split at h
      · next hle =>
        obtain rfl : a = d := Option.some.inj h
        exact ⟨Or.inr rfl, fun e he => Nat.le_trans (hmax e he) hle, Nat.le_refl _⟩
      · next hlt =>
        obtain rfl : b = d := Option.some.inj h
        exact ⟨Or.inl hb, hmax, by omega⟩

namespace Filter

variable {passes : Text → Bool}

lemma decisive_eq (f : Filter) (target : Text) :
    f.decisive target = (f.directives.filter (·.covers target)).foldl longer none := rfl

lemma decides_of_decisive
    (h : (Filter.mk (ds.foldl put []) passes).decisive target = some d) :
    Decides ds target d := by
  rw [decisive_eq] at h
  obtain ⟨hmem, hmax⟩ := foldl_longer_eq_some h
  simp only [List.mem_filter, mem_foldl_put] at hmem hmax
  refine ⟨hmem.1, hmem.2, fun e he hec => ?_⟩
  -- the last for the target of `e` is as long, and was looked at
  obtain ⟨x, hx, hxe⟩ := exists_lasts he
  rw [← Directive.length_congr hxe]
  exact hmax x ⟨hx, (Directive.covers_congr hxe).trans hec⟩

/-- **A directive is decisive exactly if it is the last for its target and the longest.** -/
theorem decisive_eq_some_iff (hclear : Clear ds) :
    (Filter.mk (ds.foldl put []) passes).decisive target = some d ↔ Decides ds target d := by
  refine ⟨decides_of_decisive, fun h => ?_⟩
  rcases hdecisive : (Filter.mk (ds.foldl put []) passes).decisive target with _ | x
  · rw [decisive_eq] at hdecisive
    have hnone := foldl_longer_eq_none hdecisive
    have hmem : d ∈ (ds.foldl put []).filter (·.covers target) :=
      List.mem_filter.mpr ⟨mem_foldl_put.mpr h.lasts, h.covers⟩
    rw [hnone] at hmem
    cases hmem
  · rw [(decides_of_decisive hdecisive).unique hclear h]

end Filter

/-! ### Lists that decide alike -/

/-- A directive is without effect if another for the same target follows. -/
lemma decides_replaced (hlater : ∃ e ∈ post, e.target = d.target) :
    Decides (pre ++ post) target x ↔ Decides (pre ++ d :: post) target x := by
  obtain ⟨e, he, hed⟩ := hlater
  have hlasts : Lasts (pre ++ post) x ↔ Lasts (pre ++ d :: post) x := by
    rw [lasts_append, lasts_append, lasts_cons]
    simp only [List.forall_mem_cons]
    constructor
    · rintro (h | ⟨h, hpost⟩)
      · exact Or.inl (Or.inl h)
      · exact Or.inr ⟨h, hed ▸ hpost e he, hpost⟩
    · rintro ((h | ⟨-, h⟩) | ⟨h, -, hpost⟩)
      · exact Or.inl h
      · exact absurd hed (h e he)
      · exact Or.inr ⟨h, hpost⟩
  have hlongest : (∀ a ∈ pre ++ post, a.covers target = true → a.length ≤ x.length) ↔
      ∀ a ∈ pre ++ d :: post, a.covers target = true → a.length ≤ x.length := by
    simp only [List.forall_mem_append, List.forall_mem_cons]
    refine and_congr_right fun _ => (and_iff_right_of_imp fun hpost hd => ?_).symm
    rw [← Directive.length_congr hed]
    exact hpost e he ((Directive.covers_congr hed).trans hd)
  constructor
  · exact fun h => ⟨hlasts.mp h.lasts, h.covers, hlongest.mp h.longest⟩
  · exact fun h => ⟨hlasts.mpr h.lasts, h.covers, hlongest.mpr h.longest⟩

/-- Directives for different targets may stand in any order. -/
lemma decides_perm (hnodup : (ds.map (·.target)).Nodup) (hperm : ds.Perm es) :
    Decides ds target x ↔ Decides es target x := by
  have hnodup' : (es.map (·.target)).Nodup := (hperm.map _).nodup_iff.mp hnodup
  have hlasts : Lasts ds x ↔ Lasts es x := by
    rw [lasts_iff_mem hnodup, lasts_iff_mem hnodup', hperm.mem_iff]
  constructor
  · exact fun h => ⟨hlasts.mp h.lasts, h.covers, fun e he => h.longest e (hperm.mem_iff.mpr he)⟩
  · exact fun h => ⟨hlasts.mpr h.lasts, h.covers, fun e he => h.longest e (hperm.mem_iff.mp he)⟩

/-- What passes `a` passes `b`. -/
def Threshold.Below (a b : Threshold) : Prop := ∀ l ∈ a, ∃ m ∈ b, l.detail ≤ m.detail

lemma Threshold.Below.refl (a : Threshold) : a.Below a := fun l hl => ⟨l, hl, Nat.le_refl _⟩

lemma Threshold.Below.admits {a b : Threshold} (h : a.Below b) {l : Level}
    (ha : a.admits l = true) : b.admits l = true := by
  rcases a with _ | most
  · cases ha
  · obtain ⟨m, rfl, hle⟩ := h most rfl
    exact admits_mono hle ha

/-- With a threshold raised, what decides has the same target and no lower threshold. -/
lemma exists_decides_raised (htarget : e.target = d.target)
    (hbelow : d.threshold.Below e.threshold) (h : Decides (pre ++ d :: post) target x) :
    ∃ y, Decides (pre ++ e :: post) target y ∧ x.threshold.Below y.threshold := by
  have hlongest : ∀ a ∈ pre ++ e :: post, a.covers target = true → a.length ≤ x.length := by
    have hx := h.longest
    simp only [List.forall_mem_append, List.forall_mem_cons] at hx ⊢
    rw [Directive.covers_congr htarget, Directive.length_congr htarget]
    exact hx
  have hlasts := h.lasts
  rw [lasts_append, lasts_cons] at hlasts
  rcases hlasts with (hlasts | ⟨rfl, hpost⟩) | ⟨hlasts, hrest⟩
  · refine ⟨x, ⟨?_, h.covers, hlongest⟩, .refl _⟩
    rw [lasts_append, lasts_cons]
    exact Or.inl (Or.inl hlasts)
  · refine ⟨e, ⟨?_, (Directive.covers_congr htarget).trans h.covers, ?_⟩, hbelow⟩
    · rw [lasts_append, lasts_cons]
      exact Or.inl (Or.inr ⟨rfl, htarget ▸ hpost⟩)
    · rwa [Directive.length_congr htarget]
  · refine ⟨x, ⟨?_, h.covers, hlongest⟩, .refl _⟩
    rw [lasts_append, List.forall_mem_cons, htarget]
    exact Or.inr ⟨hlasts, List.forall_mem_cons.mp hrest⟩

/-! ### What is let through -/

namespace Filter

variable {passes : Text → Bool} {r : Record}

/-- What a list of directives lets through. -/
def reading (ds : List Directive) (passes : Text → Bool) : Filter :=
  .ofDirectives (ds.foldl put []) passes

lemma reading_of_ne_nil (h : ds ≠ []) (passes : Text → Bool) :
    reading ds passes = ⟨ds.foldl put [], passes⟩ := by
  rw [reading, ofDirectives, if_neg (foldl_put_ne_nil h)]

/-- Lists of directives of which the same ones decide let the same records through. -/
lemma admits_reading_congr (hds : Clear ds) (hes : Clear es) (hds0 : ds ≠ []) (hes0 : es ≠ [])
    (h : ∀ target x, Decides ds target x ↔ Decides es target x) (r : Record) :
    (reading ds passes).admits r = (reading es passes).admits r := by
  have hdecisive :
      (reading ds passes).decisive r.target = (reading es passes).decisive r.target := by
    rw [reading_of_ne_nil hds0, reading_of_ne_nil hes0]
    refine Option.ext fun x => ?_
    exact (decisive_eq_some_iff hds).trans ((h r.target x).trans (decisive_eq_some_iff hes).symm)
  have hpasses : (reading ds passes).passes = (reading es passes).passes := rfl
  simp only [admits, threshold, hdecisive, hpasses]

lemma admits_reading_replaced (hclear : Clear (pre ++ d :: post))
    (hlater : ∃ e ∈ post, e.target = d.target) (r : Record) :
    (reading (pre ++ post) passes).admits r = (reading (pre ++ d :: post) passes).admits r := by
  have hne : pre ++ post ≠ [] := by
    obtain ⟨e, he, -⟩ := hlater
    exact List.append_ne_nil_of_right_ne_nil _ (List.ne_nil_of_mem he)
  have hsub : Clear (pre ++ post) := by
    refine hclear.of_subset fun t ht => ?_
    simp only [List.map_append, List.map_cons, List.mem_append, List.mem_cons] at ht ⊢
    exact ht.imp_right Or.inr
  exact admits_reading_congr hsub hclear hne (by simp) (fun _ _ => decides_replaced hlater) r

lemma admits_reading_perm (hclear : Clear ds) (hnodup : (ds.map (·.target)).Nodup)
    (hperm : ds.Perm es) (r : Record) :
    (reading es passes).admits r = (reading ds passes).admits r := by
  rcases eq_or_ne ds [] with rfl | hds
  · rw [hperm.nil_eq]
  have hes : es ≠ [] := by
    rintro rfl
    exact hds hperm.eq_nil
  have hclear' : Clear es :=
    hclear.of_subset fun t ht => (hperm.map _).mem_iff.mpr ht
  exact admits_reading_congr hclear' hclear hes hds
    (fun _ _ => (decides_perm hnodup hperm).symm) r

example : ∃ r, (reading [⟨none, some .info⟩, ⟨some [], none⟩] everything).admits r ≠
    (reading [⟨some [], none⟩, ⟨none, some .info⟩] everything).admits r :=
  ⟨⟨.info, [], []⟩, by decide⟩

/-- With a threshold raised, no record is kept back that passed before. -/
lemma admits_reading_raised (hclear : Clear (pre ++ d :: post)) (htarget : e.target = d.target)
    (hbelow : d.threshold.Below e.threshold)
    (h : (reading (pre ++ d :: post) passes).admits r = true) :
    (reading (pre ++ e :: post) passes).admits r = true := by
  have hclear' : Clear (pre ++ e :: post) := by
    refine hclear.of_subset fun t ht => ?_
    simpa [htarget] using ht
  rw [reading_of_ne_nil (by simp)] at h ⊢
  simp only [admits, Bool.and_eq_true] at h ⊢
  refine ⟨?_, h.2⟩
  obtain ⟨hlevel, -⟩ := h
  unfold threshold at hlevel ⊢
  rcases hx : (Filter.mk ((pre ++ d :: post).foldl put []) passes).decisive r.target with _ | x
  · rw [hx] at hlevel
    cases hlevel
  · obtain ⟨y, hy, hxy⟩ := exists_decides_raised htarget hbelow (decides_of_decisive hx)
    rw [hx] at hlevel
    rw [(decisive_eq_some_iff hclear').mpr hy]
    exact hxy.admits hlevel

/-- Of the messages only those that pass are let through. -/
lemma admits_reading_passes (ds : List Directive) (passes : Text → Bool) (r : Record) :
    (reading ds passes).admits r =
      (passes r.message && (reading ds everything).admits r) := by
  have hthreshold : (reading ds passes).threshold r.target =
      (reading ds everything).threshold r.target := rfl
  have hpasses : (reading ds passes).passes = passes := rfl
  have heverything : (reading ds everything).passes r.message = true := rfl
  rw [admits, admits, hthreshold, hpasses, heverything, Bool.and_true, Bool.and_comm]

/-- Without directives nothing but errors passes. -/
lemma level_of_admits_reading_nil (h : (reading [] passes).admits r = true) :
    r.level = .error := by
  have hthreshold : (reading [] passes).threshold r.target = some .error := rfl
  rw [admits, hthreshold, Bool.and_eq_true] at h
  cases hl : r.level <;> rw [hl] at h <;> first | rfl | cases h.1

end Filter

end RomEmbed.Log
