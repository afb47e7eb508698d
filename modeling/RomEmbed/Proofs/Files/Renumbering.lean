import Mathlib.Tactic.Common
import Mathlib.Logic.Equiv.Basic
import RomEmbed.Files.Listing
import RomEmbed.Proofs.Files.Replacing

/-!
Trees that are alike. The identity of a new file tells only how many were made before it, so
trees in which the same files were made in another order are the same up to a permutation
of identities. Writes to two different files may change places: if one of the files was
there before, the trees are equal, and if both are new, their identities are swapped.
-/

namespace RomEmbed.Files

/-- The entry with another identity for its file. -/
def Entry.renumber (σ : FileId → FileId) : Entry → Entry
  | .file id => .file (σ id)
  | e => e

/-- At the ends of two lookups there are no two names of one file, nor one place for two
new ones. -/
def Place.Apart : Place → Place → Prop
  | .entry _ (.file i), .entry _ (.file j) => i ≠ j
  | .vacant p, .vacant q => p ≠ q
  | _, _ => True

namespace Tree

/-- The second tree is the first with other identities of files. -/
structure Renumbered (σ : Equiv.Perm FileId) (t u : Tree) : Prop where
  cwd : u.cwd = t.cwd
  get? : ∀ place, u.get? place = (t.get? place).map (Entry.renumber σ)
  content : ∀ id, u.content (σ id) = t.content id

/-- The same directories, links, devices and files with the same content stand at the same
places, and names of one file in one tree are names of one file in the other. -/
def Alike (t u : Tree) : Prop := ∃ σ, Renumbered σ t u

variable {t u : Tree}

lemma Alike.of_eq (h : u = t) : t.Alike u := by
  subst h
  refine ⟨Equiv.refl _, rfl, fun place => ?_, fun _ => rfl⟩
  rcases u.get? place with _ | _ | _ | _ | _ <;> rfl

/-- Trees that are alike show the same. -/
theorem Alike.shown (h : t.Alike u) (place : Location) :
    (u.get? place).map u.shown = (t.get? place).map t.shown := by
  obtain ⟨σ, h⟩ := h
  rw [h.get? place]
  rcases t.get? place with _ | id | _ | _ | _
  · rfl
  · simp [Entry.renumber, Tree.shown, h.content id]
  · rfl
  · rfl
  · rfl

/-! ### Two writes -/

lemma setContent_comm {i j : FileId} (hij : i ≠ j) (a b : Bytes) :
    (t.setContent i a).setContent j b = (t.setContent j b).setContent i a := by
  simp [setContent, List.set_comm a b hij]

lemma setContent_addFile {i : FileId} (hi : i < t.contents.length) {place : Location}
    (hroom : t.Room place) (a b : Bytes) :
    (t.setContent i a).addFile place b = (t.addFile place b).setContent i a := by
  have hroom' : (t.setContent i a).Room place := ⟨hroom.vacant, hroom.inDir⟩
  refine Tree.ext ?_ ?_ ?_ ?_
  · simp [setContent]
  · rw [entries_addFile hroom']
    simp [setContent, entries_addFile hroom]
  · rw [contents_addFile hroom']
    simp [setContent, contents_addFile hroom, List.set_append_left _ _ hi]
  · simp [setContent]

/-- A new file leaves room at other places. -/
lemma Room.addFile {p q : Location} (hp : t.Room p) (hq : t.Room q) (hpq : p ≠ q) (a : Bytes) :
    (t.addFile p a).Room q where
  vacant := by rw [get?_addFile hp, if_neg hpq.symm, hq.vacant]
  inDir := (GrowsTo.addFile hp a).keeps hq.inDir

/-- Two new files have each other's identity if they are made the other way round. -/
lemma renumbered_addFile {p q : Location} (hp : t.Room p) (hq : t.Room q) (hpq : p ≠ q)
    (a b : Bytes) :
    Renumbered (Equiv.swap t.contents.length (t.contents.length + 1))
      ((t.addFile p a).addFile q b) ((t.addFile q b).addFile p a) where
  cwd := by simp only [cwd_addFile]
  get? place := by
    rw [get?_addFile (hp.addFile hq hpq a), get?_addFile (hq.addFile hp hpq.symm b),
      get?_addFile hp, get?_addFile hq]
    by_cases h1 : place = p
    · subst h1
      simp [hpq, contents_addFile hq, Entry.renumber]
    by_cases h2 : place = q
    · subst h2
      simp [h1, contents_addFile hp, Entry.renumber]
    rw [if_neg h1, if_neg h2, if_neg h2, if_neg h1]
    cases he : t.get? place with
    | none => rfl
    | some e =>
      cases e with
      | file id =>
        have hid := lt_of_get? he
        have hfix : Equiv.swap t.contents.length (t.contents.length + 1) id = id :=
          Equiv.swap_apply_of_ne_of_ne (Nat.ne_of_lt hid)
            (Nat.ne_of_lt (Nat.lt_succ_of_lt hid))
        simp [Entry.renumber, hfix]
      | dir => rfl
      | link id target => rfl
      | device d => rfl
  content id := by
    have hlenp : (t.addFile p a).contents.length = t.contents.length + 1 := by
      simp [contents_addFile hp]
    have hlenq : (t.addFile q b).contents.length = t.contents.length + 1 := by
      simp [contents_addFile hq]
    simp only [content_addFile (hp.addFile hq hpq a), content_addFile (hq.addFile hp hpq.symm b),
      content_addFile hp, content_addFile hq, hlenp, hlenq]
    by_cases h1 : id = t.contents.length
    · subst h1
      simp
    by_cases h2 : id = t.contents.length + 1
    · subst h2
      simp
    rw [Equiv.swap_apply_of_ne_of_ne h1 h2]
    simp [h1, h2]

/-! ### Two lookups' ends -/

/-- Data is put into a file, into a new file, or nowhere. -/
lemma put_cases (place : Place) :
    (∃ p id, place = .entry p (.file id)) ∨ (∃ p, place = .vacant p) ∨
      ∀ t data, (put t data place).1 = t := by
  rcases place with _ | ⟨p, id | _ | _ | _ | _⟩ | p
  · exact Or.inr (Or.inr fun _ _ => rfl)
  · exact Or.inl ⟨p, id, rfl⟩
  · exact Or.inr (Or.inr fun _ _ => rfl)
  · exact Or.inr (Or.inr fun _ _ => rfl)
  · exact Or.inr (Or.inr fun _ _ => rfl)
  · exact Or.inr (Or.inr fun _ _ => rfl)
  · exact Or.inr (Or.inl ⟨p, rfl⟩)

/-- **Data put into two different files may be put the other way round.** -/
theorem put_put_alike {p q : Place} (hp : p.Holds t) (hq : q.Holds t) (hpq : p.Apart q)
    (a b : Bytes) :
    Alike ((t.put a p).1.put b q).1 ((t.put b q).1.put a p).1 := by
  rcases put_cases p with ⟨p, i, rfl⟩ | ⟨p, rfl⟩ | hp'
  · rcases put_cases q with ⟨q, j, rfl⟩ | ⟨q, rfl⟩ | hq'
    · exact .of_eq (setContent_comm hpq a b).symm
    · exact .of_eq (setContent_addFile (lt_of_get? hp) hq a b).symm
    · rw [hq', hq']
      exact .of_eq rfl
  · rcases put_cases q with ⟨q, j, rfl⟩ | ⟨q, rfl⟩ | hq'
    · exact .of_eq (setContent_addFile (lt_of_get? hq) hp b a)
    · exact ⟨_, renumbered_addFile hp hq hpq a b⟩
    · rw [hq', hq']
      exact .of_eq rfl
  · rw [hp', hp']
    exact .of_eq rfl

end Tree

end RomEmbed.Files
