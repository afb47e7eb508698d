import Mathlib.Tactic.Common
import RomEmbed.Embedding
import RomEmbed.Proofs.Files.Replacing
import RomEmbed.Proofs.Text.Encoding

/-!
How an embedding ends. The image is read first, so a path that cannot be read is reported
whatever the output path is; only then is the file replaced. A failure of either leaves
the tree as it was.
-/

namespace RomEmbed

open Files (Tree Place)

variable {t : Tree} {path : Bytes} {name : Text} {rom : Rom}

/-! ### The class of an image -/

/-- Every class begins with a line break. -/
lemma ClassText.bytes_ne_nil (name : Text) (rom : Rom) : bytes name rom ≠ [] := by
  have hopening : opening ≠ [] := by decide
  exact Utf8.encode_ne_nil (List.append_ne_nil_of_left_ne_nil hopening _)

/-! ### The steps of an embedding -/

lemma Rom.load_eq_error_iff {e : EmbedError} :
    Rom.load t path = .error e ↔ ∃ c, t.read path = .error c ∧ e = .unreadable path c := by
  unfold Rom.load
  cases t.read path <;> simp [eq_comm]

namespace Embedding

/-- What becomes of the tree when the class is written, and how the writing ends. -/
def overwritten (t : Tree) (name : Text) (rom : Rom) : Tree × Except IoError Unit :=
  t.overwrite (ClassName.file name) (·.writeBuffered bufferSize (ClassText.bytes name rom))

lemma overwritten_eq (t : Tree) (name : Text) (rom : Rom) :
    overwritten t name rom =
      match t.target (ClassName.file name) with
      | .error e => (t, .error e)
      | .ok place => t.put (ClassText.bytes name rom) place :=
  t.overwrite_writeBuffered _ _ (ClassText.bytes_ne_nil name rom)

lemma overwritten_error_iff {e : IoError} :
    (overwritten t name rom).2 = .error e ↔
      t.Unwritable (ClassName.file name) (ClassText.bytes name rom) e :=
  Tree.overwrite_error_iff (ClassText.bytes_ne_nil name rom) bufferSize

lemma embed_of_unloaded {e : EmbedError} (h : Rom.load t path = .error e) :
    embed t path name = (t, failedToLoad e) := by
  simp only [embed, h]

lemma embed_of_loaded (h : Rom.load t path = .ok rom) :
    embed t path name =
      ((overwritten t name rom).1, afterWriting path name rom (overwritten t name rom).2) := by
  simp only [embed, h, overwritten]

lemma embed_of_target (hload : Rom.load t path = .ok rom) {place : Place}
    (htarget : t.target (ClassName.file name) = .ok place) :
    embed t path name =
      ((t.put (ClassText.bytes name rom) place).1,
        afterWriting path name rom (t.put (ClassText.bytes name rom) place).2) := by
  rw [embed_of_loaded hload, overwritten_eq, htarget]

/-! ### The three results -/

lemma result_of_loaded (h : Rom.load t path = .ok rom) :
    (embed t path name).2.result =
      match (overwritten t name rom).2 with
      | .error e => .error (.unwritable (ClassName.file name) e)
      | .ok () => .ok (ClassName.file name) := by
  rw [embed_of_loaded h]
  rcases (overwritten t name rom).2 with e | ⟨⟩ <;> rfl

lemma result_unreadable_iff {p : Bytes} {e : IoError} :
    (embed t path name).2.result = .error (.unreadable p e) ↔
      p = path ∧ Rom.load t path = .error (.unreadable path e) := by
  rcases h : Rom.load t path with e' | rom
  · obtain ⟨c, -, rfl⟩ := Rom.load_eq_error_iff.mp h
    rw [embed_of_unloaded h]
    simp [failedToLoad, eq_comm]
  · rw [result_of_loaded h]
    rcases (overwritten t name rom).2 with e' | ⟨⟩ <;> simp

lemma result_unwritable_iff {p : Bytes} {e : IoError} :
    (embed t path name).2.result = .error (.unwritable p e) ↔
      p = ClassName.file name ∧ ∃ rom, Rom.load t path = .ok rom ∧
        t.Unwritable (ClassName.file name) (ClassText.bytes name rom) e := by
  rcases h : Rom.load t path with e' | rom
  · obtain ⟨c, -, rfl⟩ := Rom.load_eq_error_iff.mp h
    rw [embed_of_unloaded h]
    simp [failedToLoad]
  · rw [result_of_loaded h]
    simp only [Except.ok.injEq, exists_eq_left', ← overwritten_error_iff]
    rcases (overwritten t name rom).2 with e' | ⟨⟩ <;> simp [eq_comm]

lemma result_ok_iff {p : Bytes} :
    (embed t path name).2.result = .ok p ↔
      p = ClassName.file name ∧ ∃ rom, Rom.load t path = .ok rom ∧
        ∀ e, ¬t.Unwritable (ClassName.file name) (ClassText.bytes name rom) e := by
  rcases h : Rom.load t path with e' | rom
  · rw [embed_of_unloaded h]
    simp [failedToLoad]
  · rw [result_of_loaded h]
    simp only [Except.ok.injEq, exists_eq_left', ← overwritten_error_iff]
    rcases (overwritten t name rom).2 with e' | ⟨⟩ <;> simp [eq_comm]

/-- An embedding that succeeds puts the class in place of what its path leads to. -/
lemma exists_of_result_ok {p : Bytes} (h : (embed t path name).2.result = .ok p) :
    p = ClassName.file name ∧ ∃ rom place, Rom.load t path = .ok rom ∧
      t.target (ClassName.file name) = .ok place ∧
      (embed t path name).1 = (t.put (ClassText.bytes name rom) place).1 := by
  rcases hl : Rom.load t path with e | rom
  · rw [embed_of_unloaded hl] at h
    cases h
  · rw [result_of_loaded hl] at h
    rw [embed_of_loaded hl]
    have hw := overwritten_eq t name rom
    rcases ht : t.target (ClassName.file name) with e | place
    · rw [ht] at hw
      rw [hw] at h
      cases h
    · rw [ht] at hw
      rw [hw] at h ⊢
      split at h
      · cases h
      · exact ⟨(Except.ok.inj h).symm, rom, place, rfl, rfl, rfl⟩

/-- An embedding that fails changes nothing. -/
lemma tree_of_error {e : EmbedError} (h : (embed t path name).2.result = .error e) :
    (embed t path name).1 = t := by
  rcases hl : Rom.load t path with e' | rom
  · rw [embed_of_unloaded hl]
  · rw [result_of_loaded hl] at h
    rw [embed_of_loaded hl]
    rcases ho : (overwritten t name rom).2 with e' | ⟨⟩
    · exact Tree.overwrite_of_error (ClassText.bytes_ne_nil name rom) ho
    · rw [ho] at h
      cases h

/-- **Failures are told apart, reported in order, and leave no trace.** An unreadable image
is reported whatever the name; with a readable one a failure to open or to write the output
is; without either the path of the output is returned. -/
theorem result_classified (t : Tree) (path : Bytes) (name : Text) :
    (∀ p e, (embed t path name).2.result = .error (.unreadable p e) ↔
      p = path ∧ Rom.load t path = .error (.unreadable path e)) ∧
    (∀ p e, (embed t path name).2.result = .error (.unwritable p e) ↔
      p = Utf8.encode (name ++ ".js".toList) ∧ ∃ rom, Rom.load t path = .ok rom ∧
        t.Unwritable (Utf8.encode (name ++ ".js".toList)) (ClassText.bytes name rom) e) ∧
    (∀ p, (embed t path name).2.result = .ok p ↔
      p = Utf8.encode (name ++ ".js".toList) ∧ ∃ rom, Rom.load t path = .ok rom ∧
        ∀ e, ¬t.Unwritable (Utf8.encode (name ++ ".js".toList)) (ClassText.bytes name rom) e) ∧
    (∀ rom u, t.openEmpty (Utf8.encode (name ++ ".js".toList)) = .ok (.device .full, u) →
      t.Unwritable (Utf8.encode (name ++ ".js".toList)) (ClassText.bytes name rom)
        (.os .noSpace)) ∧
    (∀ e, (embed t path name).2.result = .error e → (embed t path name).1 = t) :=
  ⟨fun _ _ => result_unreadable_iff, fun _ _ => result_unwritable_iff,
    fun _ => result_ok_iff,
    fun rom _ h => Tree.unwritable_full (ClassText.bytes_ne_nil name rom) h,
    fun _ => tree_of_error⟩

end Embedding

end RomEmbed
