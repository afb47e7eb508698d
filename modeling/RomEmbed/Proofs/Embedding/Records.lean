import Mathlib.Tactic.Common
import RomEmbed.Proofs.Embedding.Fidelity
import RomEmbed.Proofs.Output.Grammar
import RomEmbed.Proofs.Output.PlainNames

/-!
What an embedding tells of itself. Each step is told after it is done: that the image was
loaded, that the name is not plain, that the class was written. A listener with a threshold
hears what passes it of what any listener hears, and nothing else depends on who listens. The
counts told are those of the octets that were read, which are the tokens of the class.
-/

namespace RomEmbed

open Files (Tree Place FileId)

variable {t : Tree} {path : Bytes} {name : Text} {rom : Rom}

/-! ### Listening -/

/-- Of records told one by one, those are written down that pass. -/
lemma Log.Journal.foldl_tell (j : Log.Journal) (rs : List Log.Record) :
    rs.foldl Log.Journal.tell j = ⟨j.threshold, j.entries ++ Log.upTo j.threshold rs⟩ := by
  induction rs generalizing j with
  | nil => simp [Log.upTo]
  | cons r rs ih =>
    rw [List.foldl_cons, ih]
    by_cases h : j.threshold.admits r.level = true
    · simp [Log.Journal.tell, Log.upTo, h]
    · simp [Log.Journal.tell, Log.upTo, h]

namespace Embedding

/-- An embedding that is listened to is the same embedding, and its records are told in their
order. -/
lemma embedTelling_eq (j : Log.Journal) (t : Tree) (path : Bytes) (name : Text) :
    embedTelling j t path name =
      ((embed t path name).1, (embed t path name).2.result,
        (embed t path name).2.records.foldl Log.Journal.tell j) := by
  rcases hl : Rom.load t path with e | rom
  · rw [embed_of_unloaded hl]
    simp only [embedTelling, Rom.loadTelling, hl]
    rfl
  · have hw : t.overwrite (ClassName.file name)
        (·.writeBuffered bufferSize (ClassText.bytes name rom)) = overwritten t name rom := rfl
    rw [embed_of_loaded hl]
    simp only [embedTelling, Rom.loadTelling, hl, hw]
    rcases overwritten t name rom with ⟨u, e | ⟨⟩⟩ <;>
      cases hplain : ClassName.isPlain name <;> simp [afterWriting, hplain]

lemma tree_embedTelling (j : Log.Journal) (t : Tree) (path : Bytes) (name : Text) :
    (embedTelling j t path name).1 = (embed t path name).1 := by
  rw [embedTelling_eq]

lemma result_embedTelling (j : Log.Journal) (t : Tree) (path : Bytes) (name : Text) :
    (embedTelling j t path name).2.1 = (embed t path name).2.result := by
  rw [embedTelling_eq]

lemma entries_embedTelling (most : Log.Threshold) (t : Tree) (path : Bytes) (name : Text) :
    (embedTelling ⟨most, []⟩ t path name).2.2.entries =
      Log.upTo most (embed t path name).2.records := by
  rw [embedTelling_eq, Log.Journal.foldl_tell]
  rfl

/-- The records of an embedding whose image is loaded. -/
lemma records_of_loaded (h : Rom.load t path = .ok rom) :
    (embed t path name).2.records =
      loaded path rom :: ((if name ∈ ClassName.plain.matches' then [] else [notPlain name]) ++
        match (embed t path name).2.result with
        | .ok _ => [wrote name rom]
        | .error _ => []) := by
  rw [embed_of_loaded h, if_congr ClassName.isPlain_iff.symm rfl rfl]
  rcases (overwritten t name rom).2 with e | ⟨⟩
  · simp [afterWriting]
  · simp [afterWriting]

/-- **What is told of an embedding**, to a listener with any threshold. Of what a listener for
everything hears it hears what passes, and the outcome is the same. Nothing is told if there
is no image; else that it was loaded, that the name is not plain if it is not, and that the
class was written if it was. The count in it is that of the octets read, and of the tokens in
the class, which is what its file holds afterwards. -/
theorem embedTelling_records (t : Tree) (path : Bytes) (name : Text) (most : Log.Threshold) :
    let all := embedTelling ⟨some .trace, []⟩ t path name
    let heard := embedTelling ⟨most, []⟩ t path name
    (heard.1 = all.1 ∧ heard.2.1 = all.2.1 ∧
      heard.2.2.entries = all.2.2.entries.filter (most.admits ·.level)) ∧
    (∀ e, Rom.load t path = .error e → all.2.2.entries = []) ∧
    ∀ rom, Rom.load t path = .ok rom →
      all.2.2.entries =
        [⟨.debug, "romgen::rom::loader".toList,
          "Loaded ".toList ++ Text.ofNat rom.bytes.length ++ " bytes from ".toList ++
            Utf8.lossy path⟩] ++
        (if name ∈ ClassName.plain.matches' then [] else
          [⟨.warn, "romgen".toList, '\'' ::
            (name ++ "' is not a plain identifier, the generated class will not parse".toList)⟩]) ++
        (match all.2.1 with
          | .ok _ => [⟨.info, "romgen".toList,
              "Wrote ".toList ++ Text.ofNat rom.bytes.length ++ " bytes of ROM as class ".toList ++
                name ++ " to ".toList ++ Utf8.lossy (ClassName.file name)⟩]
          | .error _ => []) ∧
      ∃ literal tokens, ArrayLiteral.Canonical literal tokens ∧
        tokens.length = rom.bytes.length ∧
        ClassText.bytes name rom = Utf8.encode (ClassText.mk name literal).render ∧
        ∀ place id, t.target (ClassName.file name) = .ok place → place.fileIn t = some id →
          all.1.read (ClassName.file name) =
            .ok (Utf8.encode (ClassText.mk name literal).render) := by
  intro all heard
  have hall : all.2.2.entries = (embed t path name).2.records :=
    (entries_embedTelling (some .trace) t path name).trans (Log.upTo_trace _)
  have htree : all.1 = (embed t path name).1 := tree_embedTelling ..
  have hresult : all.2.1 = (embed t path name).2.result := result_embedTelling ..
  refine ⟨⟨?_, ?_, ?_⟩, ?_, ?_⟩
  · exact (tree_embedTelling ..).trans htree.symm
  · exact (result_embedTelling ..).trans hresult.symm
  · rw [hall]
    exact entries_embedTelling most t path name
  · intro e hload
    rw [hall, embed_of_unloaded hload]
    rfl
  · intro rom hload
    refine ⟨?_, ArrayLiteral.render rom.bytes, rom.bytes.map ArrayLiteral.token,
      ArrayLiteral.canonical_render _, List.length_map _, rfl, ?_⟩
    · rw [hall, hresult, records_of_loaded hload]
      rfl
    · intro place id htarget hfile
      rw [htree]
      exact read_of_loaded hload htarget hfile

end Embedding

end RomEmbed
