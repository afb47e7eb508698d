import Mathlib.Tactic.Common
import RomEmbed.Proofs.Files.Growth
import RomEmbed.Proofs.Output.Writing

/-!
Replacing the content of a file, as one step. The steps of it are many: the file is opened
and emptied or made, what is written waits in a buffer, is handed on, and is stored when
the file is closed. `put` does all of this at once, and comes to the same.
-/

namespace RomEmbed.Files

/-- The file at the end of a lookup; at a vacant place it is the next new one. -/
def Place.fileIn (t : Tree) : Place → Option FileId
  | .entry _ (.file id) => some id
  | .vacant _ => some t.contents.length
  | _ => none

namespace Tree

variable {t : Tree}

/-- Puts data in place of what is at the end of a lookup. -/
def put (t : Tree) (data : Bytes) : Place → Tree × Except IoError Unit
  | .entry _ (.file id) => (t.setContent id data, .ok ())
  | .entry _ (.device .null) => (t, .ok ())
  | .entry _ (.device .full) => (t, .error (.os .noSpace))
  | .vacant place => (t.addFile place data, .ok ())
  | _ => (t, .error (.os .isADirectory))

/-! ### What the step changes -/

lemma put_growsTo (data : Bytes) {place : Place} (h : place.Holds t) :
    t.GrowsTo (t.put data place).1 := by
  unfold put
  split
  · exact .setContent ..
  · exact .refl t
  · exact .refl t
  · exact .addFile h data
  · exact .refl t

lemma get?_put (data : Bytes) {place : Place} (h : place.Holds t) {p : Location} {e : Entry} :
    (t.put data place).1.get? p = some e ↔
      t.get? p = some e ∨ place = .vacant p ∧ e = .file t.contents.length := by
  unfold put
  split
  · simp
  · simp
  · simp
  · next q =>
    rw [get?_addFile h]
    by_cases hp : p = q
    · subst hp
      simp [h.vacant, eq_comm]
    · simp [hp, Ne.symm hp]
  · next hvacant =>
    constructor
    · exact Or.inl
    · rintro (h' | ⟨rfl, -⟩)
      · exact h'
      · exact absurd rfl (hvacant p)

lemma content_put (data : Bytes) {place : Place} (h : place.Holds t) (id : FileId) :
    (t.put data place).1.content id =
      if place.fileIn t = some id then data else t.content id := by
  unfold put
  split
  · next p i =>
    rw [content_setContent t (lt_of_get? h)]
    simp [Place.fileIn, eq_comm]
  · simp [Place.fileIn]
  · simp [Place.fileIn]
  · rw [content_addFile h]
    simp [Place.fileIn, eq_comm]
  · rw [if_neg]
    unfold Place.fileIn
    split <;> simp_all

lemma lt_of_lt_put {data : Bytes} {place : Place} {id : FileId} (hplace : place.Holds t)
    (h : id < (t.put data place).1.contents.length) :
    id < t.contents.length ∨ place.fileIn t = some id := by
  unfold put at h
  split at h
  · exact Or.inl (by simpa [setContent] using h)
  · exact Or.inl h
  · exact Or.inl h
  · rw [contents_addFile hplace, List.length_append, List.length_singleton] at h
    rcases Nat.lt_succ_iff_lt_or_eq.mp h with h | rfl
    · exact Or.inl h
    · exact Or.inr rfl
  · exact Or.inl h

/-- Where a file is to be put the file stands afterwards. -/
lemma seenIn_put (data : Bytes) {place : Place} {id : FileId} (h : place.Holds t)
    (hfile : place.fileIn t = some id) :
    ∃ p, place.seenIn (t.put data place).1 = .entry p (.file id) := by
  unfold Place.fileIn at hfile
  split at hfile
  · next p i =>
    cases hfile
    exact ⟨p, rfl⟩
  · next p =>
    cases hfile
    have hnew : (t.put data (.vacant p)).1.get? p = some (.file t.contents.length) :=
      (get?_put data h).mpr (Or.inr ⟨rfl, rfl⟩)
    exact ⟨p, by simp [Place.seenIn, hnew]⟩
  · cases hfile

/-- What was put in place of a file is read there. -/
lemma read_put {raw data : Bytes} {place : Place} {id : FileId}
    (htarget : t.target raw = .ok place) (hfile : place.fileIn t = some id) :
    (t.put data place).1.read raw = .ok data := by
  have hholds := target_holds htarget
  have hfind := find_of_target (put_growsTo data hholds) htarget
  have hcontent := content_put data hholds id
  rw [if_pos hfile] at hcontent
  obtain ⟨p, hseen⟩ := seenIn_put data hholds hfile
  unfold read
  rw [hfind, hseen]
  simp [bind, Except.bind, hcontent]

/-- Whether data can be put somewhere is not for the tree or the data to say. -/
lemma put_result (t u : Tree) (a b : Bytes) (place : Place) :
    (t.put a place).2 = (u.put b place).2 := by
  rcases place with _ | ⟨p, id | _ | ⟨id, target⟩ | _ | _⟩ | p <;> rfl

lemma put_of_fileIn (data : Bytes) {place : Place} {id : FileId}
    (hfile : place.fileIn t = some id) : (t.put data place).2 = .ok () := by
  unfold Place.fileIn at hfile
  split at hfile
  · rfl
  · rfl
  · cases hfile

/-! ### What is emptied or made before it is written -/

lemma setContent_content (t : Tree) (id : FileId) : t.setContent id (t.content id) = t := by
  have hset : t.contents.set id (t.contents.getD id []) = t.contents := by
    rcases Nat.lt_or_ge id t.contents.length with h | h
    · rw [List.getD_eq_getElem?_getD, List.getElem?_eq_getElem h, Option.getD_some,
        List.set_getElem_self]
    · exact List.set_eq_of_length_le h
  exact Tree.ext rfl rfl hset rfl

lemma setContent_setContent (t : Tree) (id : FileId) (data data' : Bytes) :
    (t.setContent id data).setContent id data' = t.setContent id data' :=
  Tree.ext rfl rfl (List.set_set ..) rfl

lemma addFile_setContent (t : Tree) (place : Location) (data data' : Bytes) :
    (t.addFile place data).setContent t.contents.length data' = t.addFile place data' := by
  unfold addFile
  split
  · exact Tree.ext rfl rfl (by simp [setContent, add, hold]) rfl
  · exact Tree.ext rfl rfl (List.set_eq_of_length_le (Nat.le_refl _)) rfl

/-! ### Sinks of opened files -/

lemma free_sink_file (id : FileId) : (Opened.file id).sink.Free := ⟨rfl, rfl, rfl⟩

lemma free_sink_null : (Opened.device .null).sink.Free := ⟨rfl, rfl, rfl⟩

lemma refuses_sink_full : (Opened.device .full).sink.Refuses := ⟨rfl, rfl, by decide⟩

lemma sink_free_or_refuses (o : Opened) : o.sink.Free ∨ o.sink.Refuses := by
  rcases o with id | _ | _
  · exact Or.inl (free_sink_file id)
  · exact Or.inl free_sink_null
  · exact Or.inr refuses_sink_full

/-- **Writing through a buffer replaces the content in one step**, or fails without a
trace. -/
theorem overwrite_writeBuffered (t : Tree) (raw : Bytes) (capacity : Nat) {data : Bytes}
    (hdata : data ≠ []) :
    t.overwrite raw (·.writeBuffered capacity data) =
      match t.target raw with
      | .error e => (t, .error e)
      | .ok place => t.put data place := by
  unfold overwrite openEmpty
  rcases t.target raw with e | place
  · rfl
  rcases place with place | ⟨place, id | _ | ⟨id, target⟩ | _ | _⟩ | place
  · rfl
  · -- a file is emptied and written
    obtain ⟨u, hu, hs⟩ := (free_sink_file id).writeBuffered capacity data
    have hdone : u.stored.toList = data := hs
    simp only [bind, Except.bind, hu, hdone, store, put, setContent_setContent]
  · rfl
  · rfl
  · obtain ⟨u, hu, -⟩ := free_sink_null.writeBuffered capacity data
    simp only [bind, Except.bind, hu, store, put]
  · obtain ⟨u, hu⟩ := refuses_sink_full.writeBuffered capacity hdata
    simp only [bind, Except.bind, hu, store, put]
    rfl
  · -- a file is made and written
    obtain ⟨u, hu, hs⟩ := (free_sink_file t.contents.length).writeBuffered capacity data
    have hdone : u.stored.toList = data := hs
    simp only [bind, Except.bind, hu, hdone, store, put, addFile_setContent]

/-! ### Failures -/

/-- Why data cannot be written to a path: it cannot be opened, or what is opened does not
take the data. -/
inductive Unwritable (t : Tree) (raw data : Bytes) (e : IoError) : Prop where
  | unopened (h : t.openEmpty raw = .error e)
  | untaken {opened u} (h : t.openEmpty raw = .ok (opened, u))
      (hw : (opened.sink.writeAll data).2 = .error e)

lemma overwrite_error_iff {raw data : Bytes} {e : IoError} (hdata : data ≠ [])
    (capacity : Nat) :
    (t.overwrite raw (·.writeBuffered capacity data)).2 = .error e ↔
      t.Unwritable raw data e := by
  unfold overwrite
  rcases ho : t.openEmpty raw with e' | ⟨opened, u⟩
  · constructor
    · intro h
      cases h
      exact .unopened ho
    · rintro (h | h)
      · rw [ho] at h
        cases h
        rfl
      · rw [ho] at h
        cases h
  · have hsame := Sink.writeBuffered_result (sink_free_or_refuses opened) capacity hdata
    constructor
    · intro h
      exact .untaken ho (hsame.symm.trans h)
    · rintro (h | ⟨h, hw⟩)
      · rw [ho] at h
        cases h
      · rw [ho] at h
        cases h
        exact hsame.trans hw

/-- The full device takes nothing. -/
lemma unwritable_full {raw data : Bytes} (hdata : data ≠ []) {u : Tree}
    (h : t.openEmpty raw = .ok (.device .full, u)) :
    t.Unwritable raw data (.os .noSpace) := by
  refine .untaken h ?_
  rw [refuses_sink_full.writeAll hdata]
  rfl

lemma put_of_error {data : Bytes} {place : Place} {e : IoError}
    (h : (t.put data place).2 = .error e) : (t.put data place).1 = t := by
  unfold put at h ⊢
  split <;> first | rfl | cases h

/-- A failure leaves no trace. -/
theorem overwrite_of_error {raw data : Bytes} {e : IoError} (hdata : data ≠ [])
    {capacity : Nat} (h : (t.overwrite raw (·.writeBuffered capacity data)).2 = .error e) :
    (t.overwrite raw (·.writeBuffered capacity data)).1 = t := by
  rw [overwrite_writeBuffered t raw capacity hdata] at h ⊢
  cases hp : t.target raw with
  | error e' => rfl
  | ok place =>
    rw [hp] at h
    exact put_of_error h

end Tree

end RomEmbed.Files
