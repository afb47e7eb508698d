import Mathlib.Data.List.TakeWhile
import Mathlib.Tactic.Common
import RomEmbed.Proofs.Log.Deciding

/-!
How directives are written. A directive is a level, a target, or a target and what comes after a
sign of equality, and a setting lists such directives between commas, with a pattern behind a slash
if there is one. Every list of well-formed directives is read as those directives and is not
complained about. Of what else is written between commas no directive is read.
-/

namespace RomEmbed

/-! ### Splitting in one and in two -/

namespace Text

variable {c : Char} {t u v : Text}

lemma splitOn_eq_singleton_iff : t.splitOn c = [u] ↔ t = u ∧ c ∉ t := by
  by_cases hc : c ∈ t
  · obtain ⟨a, b, rfl, ha⟩ := List.eq_append_cons_of_mem hc
    rw [List.splitOn_append_cons_self_of_not_mem ha]
    have hb := List.splitOn_ne_nil c b
    simp [hc, hb]
  · rw [List.splitOn_eq_singleton hc]
    simp [hc]

lemma splitOn_eq_pair_iff : t.splitOn c = [u, v] ↔ t = u ++ c :: v ∧ c ∉ u ∧ c ∉ v := by
  constructor
  · intro h
    by_cases hc : c ∈ t
    · obtain ⟨a, b, rfl, ha⟩ := List.eq_append_cons_of_mem hc
      rw [List.splitOn_append_cons_self_of_not_mem ha] at h
      obtain ⟨rfl, hb⟩ := List.cons.inj h
      obtain ⟨rfl, hv⟩ := splitOn_eq_singleton_iff.mp hb
      exact ⟨rfl, ha, hv⟩
    · rw [List.splitOn_eq_singleton hc] at h
      cases h
  · rintro ⟨rfl, hu, hv⟩
    rw [List.splitOn_append_cons_self_of_not_mem hu, List.splitOn_eq_singleton hv]

lemma not_mem_intercalate {ts : List Text} (hts : ∀ t ∈ ts, c ∉ t) (hu : c ∉ u) :
    c ∉ u.intercalate ts := by
  induction ts with
  | nil => simp
  | cons t ts ih =>
    obtain ⟨ht, hts⟩ := List.forall_mem_cons.mp hts
    rcases ts with _ | ⟨t', ts⟩
    · simpa using ht
    · rw [List.intercalate_cons_cons]
      simp [ht, hu, ih hts]

end Text

namespace Log

open Text (trim)

variable {t : Text} {d : Directive}

/-! ### A directive -/

/-- A text gives a directive. -/
inductive Directive.Spells : Text → Directive → Prop
  | level {t : Text} {threshold : Threshold} :
      '=' ∉ t → Threshold.parse? t = some threshold → Spells t ⟨none, threshold⟩
  | target {t : Text} :
      t ≠ [] → '=' ∉ t → Threshold.parse? t = none → Spells t ⟨some t, some .trace⟩
  | unlimited {name blank : Text} :
      '=' ∉ name → '=' ∉ blank → trim blank = [] →
      Spells (name ++ '=' :: blank) ⟨some name, some .trace⟩
  | limited {name level : Text} {threshold : Threshold} :
      '=' ∉ name → '=' ∉ level → Threshold.parse? (trim level) = some threshold →
      Spells (name ++ '=' :: level) ⟨some name, threshold⟩

lemma Threshold.parse?_nil : parse? [] = none := by decide

lemma Directive.parse_of_spells (h : Spells t d) : parse t = .ok d := by
  cases h with
  | level ht hth => simp [parse, Text.splitOn_eq_singleton_iff.mpr ⟨rfl, ht⟩, hth]
  | target _ ht hth => simp [parse, Text.splitOn_eq_singleton_iff.mpr ⟨rfl, ht⟩, hth]
  | unlimited hn hb hblank =>
    simp [parse, Text.splitOn_eq_pair_iff.mpr ⟨rfl, hn, hb⟩, hblank]
  | @limited name level threshold hn hl hth =>
    have hne : trim level ≠ [] := by
      intro h0
      rw [h0, Threshold.parse?_nil] at hth
      cases hth
    simp [parse, Text.splitOn_eq_pair_iff.mpr ⟨rfl, hn, hl⟩, hth, hne]

lemma Directive.Spells.ne_nil (h : Spells t d) : t ≠ [] := by
  cases h with
  | level _ hth =>
    rintro rfl
    rw [Threshold.parse?_nil] at hth
    cases hth
  | target ht => exact ht
  | unlimited | limited => simp

/-- **The texts that give a directive are those that are read.** Only of the empty text, which
says nothing, would one be read that it does not give. -/
theorem Directive.spells_iff : Spells t d ↔ t ≠ [] ∧ parse t = .ok d := by
  refine ⟨fun h => ⟨h.ne_nil, parse_of_spells h⟩, fun ⟨hne, h⟩ => ?_⟩
  unfold parse at h
  split at h
  · next name hsplit =>
    obtain ⟨rfl, hname⟩ := Text.splitOn_eq_singleton_iff.mp hsplit
    split at h
    · next threshold hth =>
      obtain rfl := Except.ok.inj h
      exact .level hname hth
    · next hth =>
      obtain rfl := Except.ok.inj h
      exact .target hne hname hth
  · next name level hsplit =>
    obtain ⟨rfl, hname, hlevel⟩ := Text.splitOn_eq_pair_iff.mp hsplit
    dsimp only at h
    split at h
    · next hblank =>
      obtain rfl := Except.ok.inj h
      exact .unlimited hname hlevel hblank
    · split at h
      · next threshold hth =>
        obtain rfl := Except.ok.inj h
        exact .limited hname hlevel hth
      · cases h
  · cases h

/-! ### A list of directives -/

/-- A well-formed directive as it stands between two commas. -/
structure Item where
  text : Text
  directive : Directive
  comma_not_mem : ',' ∉ text
  slash_not_mem : '/' ∉ text
  spells : Directive.Spells (trim text) directive

/-- The directives with commas between them. -/
def listing (items : List Item) : Text := [','].intercalate (items.map (·.text))

variable {items : List Item}

lemma slash_not_mem_listing (items : List Item) : '/' ∉ listing items := by
  refine Text.not_mem_intercalate ?_ (by decide)
  simp only [List.forall_mem_map]
  exact fun i _ => i.slash_not_mem

namespace Setting

lemma pieces_listing (items : List Item) :
    pieces (listing items) = items.map fun i => trim i.text := by
  have hne : ∀ p ∈ items.map fun i => trim i.text, p ≠ [] := by
    simp only [List.forall_mem_map]
    exact fun i _ => i.spells.ne_nil
  rcases eq_or_ne items [] with rfl | hitems
  · decide
  · have hcomma : ∀ p ∈ items.map (·.text), ',' ∉ p := by
      simp only [List.forall_mem_map]
      exact fun i _ => i.comma_not_mem
    rw [pieces, listing, List.splitOn_intercalate ',' hcomma (by simpa using hitems),
      List.map_map, List.filter_eq_self.mpr (by simpa using hne)]
    rfl

/-- Of the pieces those are read that give a directive. -/
lemma filter_ofPieces (ps : List Text) (pattern : (Text → Bool) × List Text) :
    (ofPieces ps pattern).filter =
      .reading (ps.filterMap fun p => (Directive.parse p).toOption) pattern.1 := by
  simp only [ofPieces, Filter.reading, List.filterMap_map]
  congr 3
  funext p
  rcases hp : Directive.parse p with q | d <;> simp [hp, Except.toOption]

/-- The others are complained about, before what there is to say of the pattern. -/
lemma complaints_ofPieces {ps : List Text} (hps : ∀ p ∈ ps, ∃ d, Directive.parse p = .ok d)
    (pattern : (Text → Bool) × List Text) : (ofPieces ps pattern).complaints = pattern.2 := by
  simp only [ofPieces, List.filterMap_map, List.append_left_eq_self, List.map_eq_nil_iff,
    List.filterMap_eq_nil_iff]
  intro p hp
  obtain ⟨d, hd⟩ := hps p hp
  simp only [Function.comp, hd]

/-- **Well-formed directives are read as what they are.** -/
lemma ofPieces_listing (items : List Item) (pattern : (Text → Bool) × List Text) :
    ofPieces (pieces (listing items)) pattern =
      ⟨.reading (items.map (·.directive)) pattern.1, pattern.2⟩ := by
  have hparse (i : Item) : Directive.parse (trim i.text) = .ok i.directive :=
    Directive.parse_of_spells i.spells
  have hfilter := filter_ofPieces (pieces (listing items)) pattern
  have hcomplaints : (ofPieces (pieces (listing items)) pattern).complaints = pattern.2 := by
    refine complaints_ofPieces ?_ pattern
    simp only [pieces_listing, List.forall_mem_map]
    exact fun i _ => ⟨i.directive, hparse i⟩
  have hread : (pieces (listing items)).filterMap (fun p => (Directive.parse p).toOption) =
      items.map (·.directive) := by
    rw [pieces_listing, List.filterMap_map, ← List.filterMap_eq_map]
    congr 1
    funext i
    simp only [Function.comp, hparse]
    rfl
  rw [hread] at hfilter
  rw [← hfilter, ← hcomplaints]

variable (engine : Engine)

lemma parse_listing (items : List Item) :
    parse engine (listing items) = ⟨.reading (items.map (·.directive)) everything, []⟩ := by
  rw [parse, List.splitOn_eq_singleton (slash_not_mem_listing items)]
  exact ofPieces_listing items (everything, [])

/-- What stands behind a slash is read as a pattern. -/
lemma parse_listing_pattern (items : List Item) {pattern : Text} (hpattern : '/' ∉ pattern) :
    parse engine (listing items ++ '/' :: pattern) =
      ⟨.reading (items.map (·.directive)) (readPattern engine pattern).1,
        (readPattern engine pattern).2⟩ := by
  have hsplit : (listing items ++ '/' :: pattern).splitOn '/' = [listing items, pattern] :=
    Text.splitOn_eq_pair_iff.mpr ⟨rfl, slash_not_mem_listing items, hpattern⟩
  rw [parse, hsplit]
  exact ofPieces_listing items (readPattern engine pattern)

/-! ### Settings without directives -/

/-- There is more than one slash, or none of the pieces before the slash gives a directive. -/
def Barren (t : Text) : Prop :=
  1 < t.count '/' ∨
    ∀ p ∈ (t.takeWhile (· ≠ '/')).splitOn ',', ∀ d, ¬Directive.Spells (trim p) d

lemma filter_ofPieces_barren (h : ∀ p ∈ t.splitOn ',', ∀ d, ¬Directive.Spells (trim p) d)
    (pattern : (Text → Bool) × List Text) :
    (ofPieces (pieces t) pattern).filter = .reading [] pattern.1 := by
  have hnone : (pieces t).filterMap (fun p => (Directive.parse p).toOption) = [] := by
    rw [List.filterMap_eq_nil_iff]
    intro p hp
    obtain ⟨hp, hne⟩ := List.mem_filter.mp hp
    obtain ⟨p, hmem, rfl⟩ := List.mem_map.mp hp
    rcases hparse : Directive.parse (trim p) with q | d
    · rfl
    · exact absurd (Directive.spells_iff.mpr ⟨by simpa using hne, hparse⟩) (h p hmem d)
  rw [filter_ofPieces, hnone]

/-- **A setting without directives lets through what it would if it were empty.** -/
lemma filter_of_barren (h : Barren t) :
    ∃ passes, (parse engine t).filter = .reading [] passes := by
  unfold parse
  split
  · next list hsplit =>
    obtain ⟨rfl, hlist⟩ := Text.splitOn_eq_singleton_iff.mp hsplit
    rcases h with hcount | h
    · rw [List.count_eq_zero.mpr hlist] at hcount
      cases hcount
    · have htake : t.takeWhile (· ≠ '/') = t :=
        List.takeWhile_eq_self_iff.mpr fun c hc => by
          simpa using fun h0 : c = '/' => hlist (h0 ▸ hc)
      rw [htake] at h
      exact ⟨everything, filter_ofPieces_barren h (everything, [])⟩
  · next list pattern hsplit =>
    obtain ⟨rfl, hlist, hpattern⟩ := Text.splitOn_eq_pair_iff.mp hsplit
    rcases h with hcount | h
    · rw [List.count_append, List.count_cons_self, List.count_eq_zero.mpr hlist,
        List.count_eq_zero.mpr hpattern] at hcount
      omega
    · have htake : (list ++ '/' :: pattern).takeWhile (· ≠ '/') = list := by
        rw [List.takeWhile_append_of_pos]
        · simp
        · exact fun c hc => by simpa using fun h0 : c = '/' => hlist (h0 ▸ hc)
      rw [htake] at h
      exact ⟨_, filter_ofPieces_barren h (readPattern engine pattern)⟩
  · exact ⟨everything, rfl⟩

end Setting

end Log

end RomEmbed
