import RomEmbed.Files.Tree

/-!
Taking entries away, and moving them. What is left is a tree again: an entry is kept with the
directory it stands in, and moved with it.
-/

namespace RomEmbed.Files.Tree

/-! ### Entries that are taken away -/

/-- Keeps the entries whose places pass, with the directories they stand in. -/
def keep (t : Tree) (p : Location → Bool)
    (hp : ∀ q, p q = true → q.dropLast ≠ [] → p q.dropLast = true)
    (hcwd : t.cwd ≠ [] → p t.cwd = true) : Tree where
  cwd := t.cwd
  entries := t.entries.filter (p ·.place)
  contents := t.contents
  links := t.links
  known s hs i h := t.known s (List.mem_filter.mp hs).1 i h
  coherent := t.coherent.filter hp
  cwd_dir := Coherent.isDirIn_filter t.cwd_dir hcwd

theorem within_of_dropLast {dir place : Location} (h : within dir place.dropLast = true) :
    within dir place = true :=
  within_iff.mpr ((within_iff.mp h).trans (List.dropLast_prefix place))

/-- Without the entry at the place and all below it. The working directory is in use, so
neither that nor what leads to it is taken away. -/
def removeAll (t : Tree) (place : Location) : Except OsError Tree :=
  if h : within place t.cwd then .error .busy
  else .ok <| t.keep (fun p => !within place p)
    (fun q hq _ => by
      simp only [Bool.not_eq_true'] at hq ⊢
      exact Bool.eq_false_iff.mpr fun hd => Bool.eq_false_iff.mp hq (within_of_dropLast hd))
    (fun _ => by simpa using h)

/-- Without all entries below the place. -/
def clear (t : Tree) (place : Location) : Except OsError Tree :=
  if h : within place t.cwd ∧ place ≠ t.cwd then .error .busy
  else .ok <| t.keep (fun p => !within place p || p == place)
    (fun q hq _ => by
      simp only [Bool.or_eq_true, Bool.not_eq_true', beq_iff_eq] at hq ⊢
      refine Or.inl (Bool.eq_false_iff.mpr fun hd => ?_)
      rcases hq with hq | rfl
      · exact Bool.eq_false_iff.mp hq (within_of_dropLast hd)
      · -- no place lies within one that is longer
        have hlen := (within_iff.mp hd).length_le
        have hne : q ≠ [] := by
          rintro rfl
          contradiction
        have hpos := List.length_pos_iff.mpr hne
        rw [List.length_dropLast] at hlen
        omega)
    (fun _ => by
      simp only [Bool.or_eq_true, Bool.not_eq_true', beq_iff_eq]
      by_cases hw : within place t.cwd = true
      · exact Or.inr (Decidable.byContradiction fun hne => h ⟨hw, fun heq => hne heq.symm⟩)
      · exact Or.inl (by simpa using hw))

/-- Whether nothing lies below the place. -/
def isEmptyDir (t : Tree) (place : Location) : Bool :=
  t.entries.all fun s => !within place s.place || s.place == place

/-! ### Entries that are moved -/

/-- Where a place is once what stands at `old` stands at `new`. -/
def moved (old new place : Location) : Location :=
  if within old place then new ++ place.drop old.length else place

/-- What stands at `old` can be moved to `new`: nothing stands there or below, and it is in a
directory that is not moved itself. -/
structure Movable (t : Tree) (old new : Location) : Prop where
  old_ne : old ≠ []
  new_ne : new ≠ []
  free : ∀ s ∈ t.entries, within new s.place = false
  inDir : IsDirIn t.entries new.dropLast
  outside : within old new.dropLast = false

instance (t : Tree) (old new : Location) : Decidable (t.Movable old new) :=
  decidable_of_iff
    (old ≠ [] ∧ new ≠ [] ∧ (∀ s ∈ t.entries, within new s.place = false) ∧
      IsDirIn t.entries new.dropLast ∧ within old new.dropLast = false)
    ⟨fun h => ⟨h.1, h.2.1, h.2.2.1, h.2.2.2.1, h.2.2.2.2⟩,
      fun h => ⟨h.old_ne, h.new_ne, h.free, h.inDir, h.outside⟩⟩

namespace Movable

variable {t : Tree} {old new place : Location}

theorem moved_nil (h : t.Movable old new) : moved old new [] = [] := by
  have hold : within old [] = false := by
    rw [Bool.eq_false_iff]
    exact fun hw => h.old_ne (List.prefix_nil.mp (within_iff.mp hw))
  simp [moved, hold]

theorem moved_ne_nil (h : t.Movable old new) (hne : place ≠ []) : moved old new place ≠ [] := by
  unfold moved
  split
  · simp [h.new_ne]
  · exact hne

/-- No two entries come to stand at one place. -/
theorem moved_inj (h : t.Movable old new) {r s : Standing} (hr : r ∈ t.entries)
    (hs : s ∈ t.entries) (heq : moved old new r.place = moved old new s.place) :
    r.place = s.place := by
  have hnew (a b : Standing) (hb : b ∈ t.entries)
      (hab : new ++ a.place.drop old.length = b.place) : False := by
    have hw : within new b.place = true := within_iff.mpr (hab ▸ List.prefix_append ..)
    rw [h.free b hb] at hw
    cases hw
  unfold moved at heq
  split at heq <;> split at heq
  · next hwr hws =>
    obtain ⟨x, hx⟩ := within_iff.mp hwr
    obtain ⟨y, hy⟩ := within_iff.mp hws
    rw [← hx, ← hy] at heq ⊢
    simpa using heq
  · exact (hnew r s hs heq).elim
  · exact (hnew s r hr heq.symm).elim
  · exact heq

theorem isDirIn_moved (h : t.Movable old new) (hdir : IsDirIn t.entries place) :
    IsDirIn (t.entries.map fun s => .of (moved old new s.place) s.entry) (moved old new place) := by
  rcases hdir with rfl | hdir
  · exact Or.inl h.moved_nil
  · exact Or.inr (List.mem_map.mpr ⟨_, hdir, rfl⟩)

/-- The directory of what is moved goes with it, unless it is what stood at `old`. -/
theorem inDir_moved (h : t.Movable old new) {s : Standing} (hs : s ∈ t.entries) :
    IsDirIn (t.entries.map fun s => .of (moved old new s.place) s.entry)
      (moved old new s.place).dropLast := by
  by_cases hw : within old s.place = true
  · obtain ⟨x, hx⟩ := within_iff.mp hw
    have hmoved : moved old new s.place = new ++ x := by
      rw [moved, if_pos hw, ← hx]
      simp
    by_cases hx0 : x = []
    · have hout : moved old new new.dropLast = new.dropLast := by simp [moved, h.outside]
      rw [hmoved, hx0, List.append_nil, ← hout]
      exact h.isDirIn_moved h.inDir
    · have hdir : moved old new s.place.dropLast = (new ++ x).dropLast := by
        rw [← hx, List.dropLast_append_of_ne_nil hx0, List.dropLast_append_of_ne_nil hx0, moved,
          if_pos (within_iff.mpr (List.prefix_append ..)), List.drop_left]
      rw [hmoved, ← hdir]
      exact h.isDirIn_moved (t.coherent.inDir s hs)
  · have hw' : ¬within old s.place.dropLast = true := fun hd => hw (within_of_dropLast hd)
    have hplace : moved old new s.place = s.place := if_neg hw
    have hdir : moved old new s.place.dropLast = s.place.dropLast := if_neg hw'
    rw [hplace, ← hdir]
    exact h.isDirIn_moved (t.coherent.inDir s hs)

end Movable

/-- Moves what stands at `old`, with all below it, to `new`. The working directory goes along
if it is among that. -/
def move (t : Tree) (old new : Location) (h : t.Movable old new) : Tree where
  cwd := moved old new t.cwd
  entries := t.entries.map fun s => .of (moved old new s.place) s.entry
  contents := t.contents
  links := t.links
  known s hs i hi := by
    obtain ⟨r, hr, rfl⟩ := List.mem_map.mp hs
    exact t.known r hr i hi
  coherent :=
    { distinct := by
        rw [List.pairwise_map]
        exact t.coherent.distinct.imp_of_mem fun hr hs hne heq => hne (h.moved_inj hr hs heq)
      ne_root := by
        intro s hs
        obtain ⟨r, hr, rfl⟩ := List.mem_map.mp hs
        exact h.moved_ne_nil (t.coherent.ne_root r hr)
      inDir := by
        intro s hs
        obtain ⟨r, hr, rfl⟩ := List.mem_map.mp hs
        exact h.inDir_moved hr }
  cwd_dir := h.isDirIn_moved t.cwd_dir

end RomEmbed.Files.Tree
