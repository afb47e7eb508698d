import Mathlib.Tactic.Common
import RomEmbed.Files.Listing
import RomEmbed.Proofs.Embedding.Fidelity
import RomEmbed.Proofs.Output.Size
import RomEmbed.Proofs.Output.Structure

/-!
How large the file of a class is. The array and the frame are ASCII throughout, so they take an
octet for each character, and only the name may take more. What does not vary in a class comes
to 253 octets.
-/

namespace RomEmbed

open Files (Tree Place Entry)

variable {t : Tree} {path p : Bytes} {name : Text}

lemma ArrayLiteral.length_encode_render (bs : Bytes) :
    (Utf8.encode (render bs)).length = (render bs).length :=
  Utf8.length_encode_of_ascii (ascii_render bs)

/-- A beginning of an array takes no more octets than the array. -/
lemma ArrayLiteral.length_encode_le_of_prefix {part : Text} {bs : Bytes} (h : part <+: render bs) :
    (Utf8.encode part).length ≤ (render bs).length := by
  obtain ⟨rest, hrest⟩ := h
  have hsplit : (Utf8.encode part).length + (Utf8.encode rest).length = (render bs).length := by
    rw [← List.length_append, ← Utf8.encode_append, hrest, length_encode_render]
  omega

namespace ClassText

lemma length_encode_frame : (Utf8.encode frame).length = 253 := by
  rw [Utf8.length_encode_of_ascii frame_characters.1]
  decide +kernel

lemma length_bytes (name : Text) (rom : Rom) :
    (bytes name rom).length =
      253 + (Utf8.encode name).length + (Utf8.encode (ArrayLiteral.render rom.bytes)).length := by
  rw [← length_encode_frame]
  simp only [bytes, render_embedding, frame, Utf8.encode_append, List.length_append]
  omega

end ClassText

namespace Embedding

/-- The file of a class, read through its path and as it is listed. -/
lemma content_embed (hok : (embed t path name).2.result = .ok p) {place : Place}
    (htarget : t.target (ClassName.file name) = .ok place) {id : Files.FileId}
    (hfile : place.fileIn t = some id) :
    ∃ rom, Rom.load t path = .ok rom ∧
      (embed t path name).1.read p = .ok (ClassText.bytes name rom) ∧
      (embed t path name).1.content id = ClassText.bytes name rom := by
  obtain ⟨rfl, rom, -, hload, -, -⟩ := exists_of_result_ok hok
  refine ⟨rom, hload, read_of_loaded hload htarget hfile, ?_⟩
  rw [embed_of_target hload htarget, Tree.content_put _ (Tree.target_holds htarget), if_pos hfile]

/-- **The size of what is written is known beforehand.** An array without octets takes two octets,
and else each octet of it takes five, or six if it has two digits; nothing that is written of it
outgrows what is set aside for it at the start. The file of a class takes the array, the name and
a constant, which is more than the image. -/
theorem extent_of_class :
    (∀ bs : Bytes, (Utf8.encode (ArrayLiteral.render bs)).length =
      if bs = [] then 2 else 5 * bs.length + bs.countP (16 ≤ ·.toNat)) ∧
    (∀ (bs : Bytes) (part : Text), part <+: ArrayLiteral.render bs →
      (Utf8.encode part).length ≤ 2 + bs.length * (4 + 2)) ∧
    (∀ (t : Tree) (path : Bytes) (name : Text) (p : Bytes),
      (embed t path name).2.result = .ok p →
      ∀ place id, t.target (ClassName.file name) = .ok place → place.fileIn t = some id →
      ∃ rom size, Rom.load t path = .ok rom ∧
        size = 253 + (Utf8.encode name).length +
          (Utf8.encode (ArrayLiteral.render rom.bytes)).length ∧
        (embed t path name).1.read p = .ok ((embed t path name).1.content id) ∧
        (embed t path name).1.shown (.file id) = .file size ∧ rom.size < size) := by
  refine ⟨fun bs => ?_, fun bs part hpart => ?_, ?_⟩
  · rw [ArrayLiteral.length_encode_render]
    by_cases h : bs = []
    · subst h
      rfl
    · rw [if_neg h]
      exact ArrayLiteral.length_render h
  · exact (ArrayLiteral.length_encode_le_of_prefix hpart).trans (ArrayLiteral.length_render_le bs)
  · intro t path name p hok place id htarget hfile
    obtain ⟨rom, hload, hread, hcontent⟩ := content_embed hok htarget hfile
    refine ⟨rom, _, hload, rfl, hcontent ▸ hread, ?_, ?_⟩
    · rw [Tree.shown, hcontent, ClassText.length_bytes]
    · rw [← ClassText.length_bytes]
      exact ClassText.size_lt_length_bytes name rom

/-- The image has two octets, one of which is written with two digits. -/
theorem extent_of_linked :
    (embed linked (Tree.ascii "R") ['S']).2.result = .ok (Tree.ascii "S.js") ∧
    linked.target (ClassName.file ['S']) =
      .ok (.entry (Tree.initial.cwd ++ [Tree.ascii "Q"]) (.file 0)) ∧
    (Place.entry (Tree.initial.cwd ++ [Tree.ascii "Q"]) (.file 0)).fileIn linked = some 0 ∧
    Rom.load linked (Tree.ascii "R") = .ok ⟨[0, 255]⟩ ∧
    (embed linked (Tree.ascii "R") ['S']).1.shown (.file 0) = .file (253 + 1 + (5 * 2 + 1)) := by
  have hok : (embed linked (Tree.ascii "R") ['S']).2.result = .ok (Tree.ascii "S.js") := by
    decide +kernel
  have htarget : linked.target (ClassName.file ['S']) =
      .ok (.entry (Tree.initial.cwd ++ [Tree.ascii "Q"]) (.file 0)) := by
    decide +kernel
  have hload : Rom.load linked (Tree.ascii "R") = .ok ⟨[0, 255]⟩ := by
    decide +kernel
  obtain ⟨rom, size, hrom, hsize, -, hshown, -⟩ :=
    extent_of_class.2.2 linked (Tree.ascii "R") ['S'] _ hok _ 0 htarget rfl
  obtain rfl : rom = ⟨[0, 255]⟩ := Except.ok.inj (hrom.symm.trans hload)
  exact ⟨hok, htarget, rfl, hload, hshown.trans (congrArg _ hsize)⟩

end Embedding

end RomEmbed
