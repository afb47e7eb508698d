import RomEmbed.Files.Path

/-!
A tree of files. Entries are known by where they stand, each alone at its place and in a
directory. A regular file and a symbolic link also have an identity of their own, for either
can stand in several places: the content of a file changes in all of them at once.
-/

namespace RomEmbed.Files

/-- Where an entry stands: the names from the root on. -/
abbrev Location := List Name

/-- The identity of a regular file. -/
abbrev FileId := Nat

/-- The identity of a symbolic link. -/
abbrev LinkId := Nat

inductive Device where
  /-- Takes everything and holds nothing. -/
  | null
  /-- Takes nothing, and is endless to read. -/
  | full
deriving DecidableEq

inductive Entry where
  | file (id : FileId)
  | dir
  | link (id : LinkId) (target : Bytes)
  | device (device : Device)
deriving DecidableEq

/-- An entry where it stands. -/
structure Standing where
  place : Location
  entry : Entry
  /-- How many names lead there. Two places at different depths are told apart by this. -/
  depth : Nat
  depth_eq : depth = place.length
deriving DecidableEq

namespace Standing

def of (place : Location) (entry : Entry) : Standing := ⟨place, entry, place.length, rfl⟩

theorem eq_of (s : Standing) : s = .of s.place s.entry := by
  obtain ⟨place, entry, depth, rfl⟩ := s
  rfl

/-- Whether it stands at a place, whose depth is given too. -/
def standsAt (s : Standing) (place : Location) (depth : Nat) : Bool :=
  s.depth == depth && s.place == place

@[simp] theorem standsAt_length (s : Standing) (place : Location) :
    s.standsAt place place.length = (s.place == place) := by
  by_cases h : s.place = place
  · simp [standsAt, s.depth_eq, h]
  · simp [standsAt, h]

end Standing

/-- Whether `place` is `dir` or lies below it. -/
def within (dir place : Location) : Bool := dir.isPrefixOf place

theorem within_iff {dir place : Location} : within dir place = true ↔ dir <+: place :=
  List.isPrefixOf_iff_prefix

/-! ### Entries that make up a tree -/

/-- The root is a directory, and so is what an entry says to be one. -/
def IsDirIn (entries : List Standing) (place : Location) : Prop :=
  place = [] ∨ .of place .dir ∈ entries

instance (entries : List Standing) (place : Location) : Decidable (IsDirIn entries place) :=
  inferInstanceAs (Decidable (_ ∨ _))

/-- No two entries stand at one place, none at the root, and each in a directory. -/
structure Coherent (entries : List Standing) : Prop where
  distinct : entries.Pairwise fun a b => a.place ≠ b.place
  ne_root : ∀ s ∈ entries, s.place ≠ []
  inDir : ∀ s ∈ entries, IsDirIn entries s.place.dropLast

namespace Coherent

variable {entries : List Standing} {place : Location}

theorem append_singleton (h : Coherent entries) (hne : place ≠ [])
    (hfree : ∀ s ∈ entries, s.place ≠ place) (hdir : IsDirIn entries place.dropLast)
    (e : Entry) : Coherent (entries ++ [.of place e]) where
  distinct := by
    rw [List.pairwise_append]
    refine ⟨h.distinct, List.pairwise_singleton .., fun s hs r hr => ?_⟩
    rw [List.mem_singleton.mp hr]
    exact hfree s hs
  ne_root s hs := by
    rcases List.mem_append.mp hs with hs | hs
    · exact h.ne_root s hs
    · rw [List.mem_singleton.mp hs]
      exact hne
  inDir s hs := by
    have hold (p : Location) (hp : IsDirIn entries p) : IsDirIn (entries ++ [.of place e]) p :=
      hp.imp_right (List.mem_append_left _)
    rcases List.mem_append.mp hs with hs | hs
    · exact hold _ (h.inDir s hs)
    · rw [List.mem_singleton.mp hs]
      exact hold _ hdir

/-- Two entries at one place are one. -/
theorem eq_of_place_eq (h : Coherent entries) {r s : Standing} (hr : r ∈ entries)
    (hs : s ∈ entries) (heq : r.place = s.place) : r = s := by
  have hdistinct := h.distinct
  clear h
  induction entries with
  | nil => cases hr
  | cons a l ih =>
    obtain ⟨ha, hl⟩ := List.pairwise_cons.mp hdistinct
    rcases List.mem_cons.mp hr with rfl | hr' <;> rcases List.mem_cons.mp hs with rfl | hs'
    · rfl
    · exact absurd heq (ha s hs')
    · exact absurd heq.symm (ha r hr')
    · exact ih hr' hs' hl

theorem isDirIn_filter {p : Location → Bool} {dir : Location} (hdir : IsDirIn entries dir)
    (hp : dir ≠ [] → p dir = true) : IsDirIn (entries.filter (p ·.place)) dir := by
  by_cases hroot : dir = []
  · exact Or.inl hroot
  · exact Or.inr (List.mem_filter.mpr ⟨hdir.resolve_left hroot, hp hroot⟩)

/-- Entries are kept with the directories they stand in. -/
theorem filter (h : Coherent entries) {p : Location → Bool}
    (hp : ∀ q, p q = true → q.dropLast ≠ [] → p q.dropLast = true) :
    Coherent (entries.filter (p ·.place)) where
  distinct := h.distinct.filter _
  ne_root s hs := h.ne_root s (List.mem_filter.mp hs).1
  inDir s hs := by
    obtain ⟨hs, hps⟩ := List.mem_filter.mp hs
    exact isDirIn_filter (h.inDir s hs) (hp _ hps)

end Coherent

/-! ### Trees -/

@[ext]
structure Tree where
  /-- Where paths without a slash in front begin. -/
  cwd : Location
  /-- All entries but the root. -/
  entries : List Standing
  /-- The content of the regular files by identity. -/
  contents : List Bytes
  /-- How many symbolic links have been made. -/
  links : Nat
  known : ∀ s ∈ entries, ∀ id, s.entry = .file id → id < contents.length
  coherent : Coherent entries
  cwd_dir : IsDirIn entries cwd
deriving DecidableEq

namespace Tree

/-- What stands at a place. -/
def get? (t : Tree) (place : Location) : Option Entry :=
  if place = [] then some .dir
  else
    let depth := place.length
    (t.entries.find? (·.standsAt place depth)).map (·.entry)

theorem get?_eq (t : Tree) (place : Location) :
    t.get? place =
      if place = [] then some .dir
      else (t.entries.find? (·.place == place)).map (·.entry) := by
  simp [get?]

/-- What stands at a place is the entry there. -/
theorem get?_eq_some_iff {t : Tree} {place : Location} {e : Entry} :
    t.get? place = some e ↔ place = [] ∧ e = .dir ∨ .of place e ∈ t.entries := by
  rw [get?_eq]
  by_cases hroot : place = []
  · subst hroot
    have hnone : .of [] e ∉ t.entries := fun h => t.coherent.ne_root _ h rfl
    simp [hnone, eq_comm]
  · simp only [hroot, if_false, false_and, false_or, Option.map_eq_some_iff]
    constructor
    · rintro ⟨s, hs, rfl⟩
      have hplace := List.find?_some hs
      rw [beq_iff_eq] at hplace
      rw [← hplace, ← s.eq_of]
      exact List.mem_of_find?_eq_some hs
    · intro h
      have hsome : (t.entries.find? (·.place == place)).isSome = true :=
        List.find?_isSome.mpr ⟨_, h, by simp [Standing.of]⟩
      obtain ⟨s, hs⟩ := Option.isSome_iff_exists.mp hsome
      have hplace := List.find?_some hs
      rw [beq_iff_eq] at hplace
      rw [t.coherent.eq_of_place_eq (List.mem_of_find?_eq_some hs) h hplace] at hs
      exact ⟨_, hs, rfl⟩

theorem get?_eq_none_iff {t : Tree} {place : Location} :
    t.get? place = none ↔ place ≠ [] ∧ ∀ s ∈ t.entries, s.place ≠ place := by
  rw [get?_eq]
  by_cases hroot : place = [] <;> simp [hroot]

theorem isDirIn_iff {t : Tree} {place : Location} :
    IsDirIn t.entries place ↔ t.get? place = some .dir := by
  rw [get?_eq_some_iff, and_iff_left rfl]
  rfl

/-- The working directory is there. -/
theorem get?_cwd (t : Tree) : t.get? t.cwd = some .dir := isDirIn_iff.mp t.cwd_dir

/-- Whatever stands somewhere stands in a directory. -/
theorem get?_dropLast {t : Tree} {place : Location} {e : Entry} (h : t.get? place = some e) :
    t.get? place.dropLast = some .dir := by
  rcases get?_eq_some_iff.mp h with ⟨rfl, -⟩ | h
  · rfl
  · exact isDirIn_iff.mp (t.coherent.inDir _ h)

theorem lt_of_get? {t : Tree} {place : Location} {id : FileId}
    (h : t.get? place = some (.file id)) : id < t.contents.length := by
  rcases get?_eq_some_iff.mp h with ⟨-, h⟩ | h
  · cases h
  · exact t.known _ h id rfl

def content (t : Tree) (id : FileId) : Bytes := t.contents.getD id []

/-- Replaces the content of a file. -/
def setContent (t : Tree) (id : FileId) (data : Bytes) : Tree where
  cwd := t.cwd
  entries := t.entries
  contents := t.contents.set id data
  links := t.links
  known s hs i h := by simpa using t.known s hs i h
  coherent := t.coherent
  cwd_dir := t.cwd_dir

@[simp] theorem get?_setContent (t : Tree) (id : FileId) (data : Bytes) (p : Location) :
    (t.setContent id data).get? p = t.get? p := rfl

theorem content_setContent (t : Tree) {id : FileId} (h : id < t.contents.length)
    (data : Bytes) (i : FileId) :
    (t.setContent id data).content i = if i = id then data else t.content i := by
  simp only [content, setContent, List.getD_eq_getElem?_getD, List.getElem?_set]
  by_cases hi : id = i
  · subst hi
    simp [h]
  · simp [hi, Ne.symm hi]

/-! ### New entries -/

/-- There is room for a new entry: the place is vacant, and in a directory. -/
structure Room (t : Tree) (place : Location) : Prop where
  vacant : t.get? place = none
  inDir : t.get? place.dropLast = some .dir

instance (t : Tree) (place : Location) : Decidable (t.Room place) :=
  decidable_of_iff (t.get? place = none ∧ t.get? place.dropLast = some .dir)
    ⟨fun h => ⟨h.1, h.2⟩, fun h => ⟨h.vacant, h.inDir⟩⟩

/-- Adds an entry where there is room for it. A file has to be known. -/
def add (t : Tree) (place : Location) (e : Entry) (hroom : t.Room place)
    (hknown : ∀ id, e = .file id → id < t.contents.length) : Tree where
  cwd := t.cwd
  entries := t.entries ++ [.of place e]
  contents := t.contents
  links := t.links
  known s hs i h := by
    rcases List.mem_append.mp hs with hs | hs
    · exact t.known s hs i h
    · rw [List.mem_singleton.mp hs] at h
      exact hknown i h
  coherent := by
    obtain ⟨hne, hfree⟩ := get?_eq_none_iff.mp hroom.vacant
    exact t.coherent.append_singleton hne hfree (isDirIn_iff.mpr hroom.inDir) e
  cwd_dir := t.cwd_dir.imp_right (List.mem_append_left _)

/-- Holds the content of one more file, which stands nowhere yet. -/
def hold (t : Tree) (data : Bytes) : Tree where
  cwd := t.cwd
  entries := t.entries
  contents := t.contents ++ [data]
  links := t.links
  known s hs i h := by
    rw [List.length_append]
    exact Nat.lt_add_right _ (t.known s hs i h)
  coherent := t.coherent
  cwd_dir := t.cwd_dir

/-- Adds a new file, whose identity is the next free one, if there is room. -/
def addFile (t : Tree) (place : Location) (data : Bytes) : Tree :=
  if h : t.Room place then
    (t.hold data).add place (.file t.contents.length) ⟨h.vacant, h.inDir⟩ fun id hid => by
      cases hid
      simp [hold]
  else t

@[simp] theorem cwd_addFile (t : Tree) (place : Location) (data : Bytes) :
    (t.addFile place data).cwd = t.cwd := by
  unfold addFile
  split <;> rfl

theorem entries_addFile {t : Tree} {place : Location} (h : t.Room place) (data : Bytes) :
    (t.addFile place data).entries = t.entries ++ [.of place (.file t.contents.length)] := by
  rw [addFile, dif_pos h]
  rfl

theorem contents_addFile {t : Tree} {place : Location} (h : t.Room place) (data : Bytes) :
    (t.addFile place data).contents = t.contents ++ [data] := by
  rw [addFile, dif_pos h]
  rfl

@[simp] theorem links_addFile (t : Tree) (place : Location) (data : Bytes) :
    (t.addFile place data).links = t.links := by
  unfold addFile
  split <;> rfl

theorem get?_addFile {t : Tree} {place : Location} (h : t.Room place) (data : Bytes)
    (p : Location) :
    (t.addFile place data).get? p =
      if p = place then some (.file t.contents.length) else t.get? p := by
  refine Option.ext fun e => ?_
  rw [get?_eq_some_iff, entries_addFile h, List.mem_append, ← or_assoc, ← get?_eq_some_iff,
    List.mem_singleton]
  by_cases hp : p = place
  · subst hp
    simp [h.vacant, Standing.of, eq_comm]
  · simp [hp, Standing.of]

theorem content_addFile {t : Tree} {place : Location} (h : t.Room place) (data : Bytes)
    (i : FileId) :
    (t.addFile place data).content i =
      if i = t.contents.length then data else t.content i := by
  simp only [content, contents_addFile h, List.getD_eq_getElem?_getD]
  rcases Nat.lt_trichotomy i t.contents.length with h | h | h
  · rw [List.getElem?_append_left h, if_neg (Nat.ne_of_lt h)]
  · simp [h]
  · rw [if_neg (Nat.ne_of_gt h), List.getElem?_eq_none (by simpa using Nat.succ_le_of_lt h),
      List.getElem?_eq_none (Nat.le_of_lt h)]

/-- Adds a new directory, if there is room. -/
def addDir (t : Tree) (place : Location) : Tree :=
  if h : t.Room place then t.add place .dir h nofun else t

/-- Adds a new symbolic link, whose identity is the next free one, if there is room. -/
def addLink (t : Tree) (place : Location) (target : Bytes) : Tree :=
  if h : t.Room place then
    { t.add place (.link t.links target) h nofun with links := t.links + 1 }
  else t

/-- Lets what stands at `old` stand at `new` as well, if there is room. -/
def addName (t : Tree) (old new : Location) : Tree :=
  match h : t.get? old with
  | none => t
  | some e =>
    if hroom : t.Room new then
      t.add new e hroom fun _ hid => lt_of_get? (h.trans (congrArg some hid))
    else t

/-! ### The tree at the start -/

/-- A name in ASCII. -/
def ascii (s : String) : Name := s.toList.map fun c => UInt8.ofNat c.toNat

/-- The directory of the devices, which is a volume of its own. -/
def devices : Location := [ascii "dev"]

/-- Whether two places are on one volume. -/
def sameVolume (a b : Location) : Bool := within devices a == within devices b

/-- The tree of a new working directory, with the two devices. -/
def initial : Tree where
  cwd := [ascii "tmp", ascii "work"]
  entries :=
    [.of devices .dir, .of (devices ++ [ascii "null"]) (.device .null),
      .of (devices ++ [ascii "full"]) (.device .full), .of [ascii "tmp"] .dir,
      .of [ascii "tmp", ascii "work"] .dir]
  contents := []
  links := 0
  known s hs i h := by
    simp only [List.mem_cons, List.not_mem_nil, or_false] at hs
    rcases hs with rfl | rfl | rfl | rfl | rfl <;> cases h
  coherent := ⟨by decide, by decide, by decide⟩
  cwd_dir := by decide

end Tree

end RomEmbed.Files
