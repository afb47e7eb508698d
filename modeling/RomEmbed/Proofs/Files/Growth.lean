import Mathlib.Tactic.Common
import RomEmbed.Proofs.Files.Resolution

/-!
Trees that grow by regular files. What a path leads to in a tree, it leads to in any tree
that keeps all entries and has only more files: on the way to an entry a lookup meets only
entries that stand there, and where it ends at a vacant place it has nothing left to walk.
The other way round, a lookup passes no regular file on its way, so what a path leads to
after the growth it led to before, unless that is one of the files that are new.
-/

namespace RomEmbed.Files

/-- All entries of the first tree stand in the second, and the others there are files. -/
structure Tree.GrowsTo (t u : Tree) : Prop where
  cwd : u.cwd = t.cwd
  keeps : ∀ {place e}, t.get? place = some e → u.get? place = some e
  adds : ∀ {place e}, t.get? place = none → u.get? place = some e → ∃ id, e = .file id

/-- A place that was vacant may be taken in another tree. -/
def Place.seenIn (u : Tree) : Place → Place
  | .vacant place =>
    match u.get? place with
    | some e => .entry place e
    | none => .vacant place
  | place => place

/-- What the tree says of the end of a lookup. -/
def Place.Holds (t : Tree) : Place → Prop
  | .dir place => t.get? place = some .dir
  | .entry place e => t.get? place = some e
  | .vacant place => t.Room place

lemma Place.seenIn_of_holds {u : Tree} {place : Place} (h : place.Holds u) :
    place.seenIn u = place := by
  rcases place with _ | _ | place
  · rfl
  · rfl
  · simp [seenIn, h.vacant]

namespace Tree

variable {t u v : Tree} {p q : Purpose}

/-! ### Growth -/

namespace GrowsTo

lemma refl (t : Tree) : t.GrowsTo t :=
  ⟨rfl, id, fun hn hs => by rw [hn] at hs; cases hs⟩

lemma trans (h : t.GrowsTo u) (k : u.GrowsTo v) : t.GrowsTo v where
  cwd := k.cwd.trans h.cwd
  keeps he := k.keeps (h.keeps he)
  adds {place e} hn hs := by
    cases hu : u.get? place with
    | none => exact k.adds hu hs
    | some e' =>
      obtain ⟨id, rfl⟩ := h.adds hn hu
      rw [k.keeps hu] at hs
      exact ⟨id, (Option.some.inj hs).symm⟩

lemma setContent (t : Tree) (id : FileId) (data : Bytes) : t.GrowsTo (t.setContent id data) :=
  ⟨rfl, fun he => he, fun hn hs => by rw [get?_setContent, hn] at hs; cases hs⟩

lemma addFile {place : Location} (hroom : t.Room place) (data : Bytes) :
    t.GrowsTo (t.addFile place data) where
  cwd := cwd_addFile ..
  keeps {p e} he := by
    have hp : p ≠ place := by
      rintro rfl
      rw [hroom.vacant] at he
      cases he
    rw [get?_addFile hroom, if_neg hp, he]
  adds {p e} hn hs := by
    rw [get?_addFile hroom] at hs
    split at hs
    · exact ⟨_, (Option.some.inj hs).symm⟩
    · rw [hn] at hs
      cases hs

/-- Only files are new. -/
lemma get?_before (h : t.GrowsTo u) {place : Location} {e : Entry}
    (he : u.get? place = some e) (hfile : ∀ id, e ≠ .file id) : t.get? place = some e := by
  cases ht : t.get? place with
  | none =>
    obtain ⟨id, hid⟩ := h.adds ht he
    exact absurd hid (hfile id)
  | some e' =>
    rw [h.keeps ht] at he
    exact he

end GrowsTo

/-! ### Where lookups end -/

lemma get?_start {dir : Location} (h : t.get? dir = some .dir) (path : Path) :
    t.get? (start dir path) = some .dir := by
  unfold start
  split
  · rfl
  · exact h

/-- A lookup that begins at a directory goes from directory to directory. -/
lemma Leads.holds {links : Nat} {dir : Location} {parts : List Part} {place : Place}
    (h : t.Leads p links dir parts place) (hdir : t.get? dir = some .dir) : place.Holds t := by
  induction h with
  | done => exact hdir
  | here _ ih | slash _ ih => exact ih hdir
  | up _ ih => exact ih (get?_dropLast hdir)
  | into _ he _ ih => exact ih he
  | along _ _ _ ih => exact ih (get?_start hdir _)
  | file _ he | device _ he => exact he
  | vacant _ he => exact ⟨he, by rwa [List.dropLast_concat]⟩

/-- A lookup for what is there may go where a lookup for a file to be made goes. -/
lemma Passable.weaken (hpq : q = .create → p = .create) {n : Name} {r : List Part}
    (h : Passable p n r) : Passable q n r :=
  ⟨h.length_le, fun hq => h.no_slash ⟨hpq hq.1, hq.2⟩⟩

lemma Leads.seenIn (hg : t.GrowsTo u) (hpq : q = .create → p = .create) {links : Nat}
    {dir : Location} {parts : List Part} {place : Place}
    (h : t.Leads p links dir parts place) :
    u.Leads q links dir parts (place.seenIn u) := by
  induction h with
  | done => exact .done
  | here _ ih => exact .here ih
  | slash _ ih => exact .slash ih
  | up _ ih => exact .up ih
  | into hn he _ ih => exact .into (hn.weaken hpq) (hg.keeps he) ih
  | along hn he _ ih => exact .along (hn.weaken hpq) (hg.keeps he) ih
  | file hn he => exact .file (hn.weaken hpq) (hg.keeps he)
  | device hn he => exact .device (hn.weaken hpq) (hg.keeps he)
  | @vacant links dir n hn he =>
    cases hu : u.get? (dir ++ [n]) with
    | none => simpa [Place.seenIn, hu] using Leads.vacant (hn.weaken hpq) hu
    | some e =>
      obtain ⟨id, rfl⟩ := hg.adds he hu
      simpa [Place.seenIn, hu] using Leads.file (hn.weaken hpq) hu

lemma Leads.before (hg : t.GrowsTo u) {links : Nat} {dir : Location} {parts : List Part}
    {place : Place} (h : u.Leads p links dir parts place) (hold : place.Holds t) :
    t.Leads p links dir parts place := by
  induction h with
  | done => exact .done
  | here _ ih => exact .here (ih hold)
  | slash _ ih => exact .slash (ih hold)
  | up _ ih => exact .up (ih hold)
  | into hn he _ ih => exact .into hn (hg.get?_before he (by simp)) (ih hold)
  | along hn he _ ih => exact .along hn (hg.get?_before he (by simp)) (ih hold)
  | file hn _ => exact .file hn hold
  | device hn _ => exact .device hn hold
  | vacant hn _ => exact .vacant hn hold.vacant

/-! ### The paths of calls -/

lemma lookup_read_eq_ok_iff {raw : Bytes} {place : Place} :
    (do (t.lookup p (← Path.read raw)).mapError IoError.os : Except IoError Place) = .ok place ↔
      ∃ path, Path.read raw = .ok path ∧
        t.Leads p maxLinks (start t.cwd path) path.parts place := by
  simp only [← lookup_eq_ok_iff]
  rcases Path.read raw with e | path
  · simp [bind, Except.bind]
  · rcases hl : t.lookup p path with e | place' <;>
      simp [bind, Except.bind, Except.mapError, hl]

lemma find_eq_ok_iff {raw : Bytes} {place : Place} :
    t.find raw = .ok place ↔
      ∃ path, Path.read raw = .ok path ∧
        t.Leads .find maxLinks (start t.cwd path) path.parts place :=
  lookup_read_eq_ok_iff

lemma target_eq_ok_iff {raw : Bytes} {place : Place} :
    t.target raw = .ok place ↔
      ∃ path, Path.read raw = .ok path ∧
        t.Leads .create maxLinks (start t.cwd path) path.parts place :=
  lookup_read_eq_ok_iff

lemma target_holds {raw : Bytes} {place : Place} (h : t.target raw = .ok place) :
    place.Holds t := by
  obtain ⟨path, -, hl⟩ := target_eq_ok_iff.mp h
  exact hl.holds (get?_start t.get?_cwd path)

lemma find_holds {raw : Bytes} {place : Place} (h : t.find raw = .ok place) :
    place.Holds t := by
  obtain ⟨path, -, hl⟩ := find_eq_ok_iff.mp h
  exact hl.holds (get?_start t.get?_cwd path)

lemma lookup_read_seenIn (hg : t.GrowsTo u) (hpq : q = .create → p = .create) {raw : Bytes}
    {place : Place}
    (h : (do (t.lookup p (← Path.read raw)).mapError IoError.os : Except IoError Place) =
      .ok place) :
    (do (u.lookup q (← Path.read raw)).mapError IoError.os : Except IoError Place) =
      .ok (place.seenIn u) := by
  obtain ⟨path, hread, hl⟩ := lookup_read_eq_ok_iff.mp h
  refine lookup_read_eq_ok_iff.mpr ⟨path, hread, ?_⟩
  have hstart : start u.cwd path = start t.cwd path := by rw [hg.cwd]
  rw [hstart]
  exact hl.seenIn hg hpq

lemma lookup_read_before (hg : t.GrowsTo u) {raw : Bytes} {place : Place}
    (h : (do (u.lookup p (← Path.read raw)).mapError IoError.os : Except IoError Place) =
      .ok place) (hold : place.Holds t) :
    (do (t.lookup p (← Path.read raw)).mapError IoError.os : Except IoError Place) =
      .ok place := by
  obtain ⟨path, hread, hl⟩ := lookup_read_eq_ok_iff.mp h
  refine lookup_read_eq_ok_iff.mpr ⟨path, hread, ?_⟩
  have hstart : start t.cwd path = start u.cwd path := by rw [hg.cwd]
  rw [hstart]
  exact hl.before hg hold

/-- **What is opened for writing is found again** once it has been made, in every tree that
the tree has grown to. -/
theorem find_of_target (hg : t.GrowsTo u) {raw : Bytes} {place : Place}
    (h : t.target raw = .ok place) : u.find raw = .ok (place.seenIn u) :=
  lookup_read_seenIn hg (fun hq => by cases hq) h

lemma target_of_target (hg : t.GrowsTo u) {raw : Bytes} {place : Place}
    (h : t.target raw = .ok place) : u.target raw = .ok (place.seenIn u) :=
  lookup_read_seenIn hg id h

/-- What was found is found still. -/
theorem find_entry_iff (hg : t.GrowsTo u) {raw : Bytes} {place : Location} {e : Entry}
    (he : t.get? place = some e) :
    u.find raw = .ok (.entry place e) ↔ t.find raw = .ok (.entry place e) :=
  ⟨fun h => lookup_read_before hg h he, fun h => lookup_read_seenIn hg id h⟩

/-- **A path leads where it led before**, unless that is a file that is new or a place that
was taken. -/
theorem target_eq_iff (hg : t.GrowsTo u) {raw : Bytes} {place : Place} (ht : place.Holds t)
    (hu : place.Holds u) : u.target raw = .ok place ↔ t.target raw = .ok place := by
  constructor
  · intro h
    exact lookup_read_before hg h ht
  · intro h
    have hseen := target_of_target hg h
    rwa [Place.seenIn_of_holds hu] at hseen

end Tree

end RomEmbed.Files
