import Mathlib.Tactic.Common
import RomEmbed.Proofs.Embedding.Outcome
import RomEmbed.Proofs.Output.Decoding

/-!
What an embedding writes is found under the path it returns, and holds the image: reading
that path and taking the class apart gives the name and the octets that were read before,
whatever the file held and whether or not it was the image itself.
-/

namespace RomEmbed

open Files (Tree Place FileId)

variable {t : Tree} {path : Bytes} {name : Text} {rom : Rom}

namespace Embedding

/-- The class that was written is read in the file, also where this held the image. -/
lemma read_of_loaded (hload : Rom.load t path = .ok rom) {place : Place}
    (htarget : t.target (ClassName.file name) = .ok place) {id : FileId}
    (hfile : place.fileIn t = some id) :
    (embed t path name).1.read (ClassName.file name) = .ok (ClassText.bytes name rom) := by
  rw [embed_of_target hload htarget]
  exact Tree.read_put htarget hfile

/-- **The image survives the embedding.** Where an embedding succeeds and the output path
leads to a regular file or to a place for one, the path returned is that of the class, and
in the tree that results it is read back to the name and to the octets that the image path
held before. -/
theorem load_embed {p : Bytes} (hok : (embed t path name).2.result = .ok p) {place : Place}
    (htarget : t.target (Utf8.encode name ++ Utf8.encode ".js".toList) = .ok place)
    {id : FileId} (hfile : place.fileIn t = some id) :
    p = Utf8.encode name ++ Utf8.encode ".js".toList ∧
      ∃ rom out, Rom.load t path = .ok rom ∧ Rom.load (embed t path name).1 p = .ok out ∧
        (Utf8.decode? out.bytes).bind ClassText.decode? = some (name, rom) := by
  rw [← Utf8.encode_append] at htarget ⊢
  obtain ⟨rfl, rom, -, hload, -, -⟩ := exists_of_result_ok hok
  refine ⟨rfl, rom, ⟨ClassText.bytes name rom⟩, hload, ?_, ?_⟩
  · rw [Rom.load, read_of_loaded hload htarget hfile]
  · rw [ClassText.bytes, Utf8.decode?_encode, Option.bind_some, ClassText.decode?_render]

/-- An image that has a second name, which a link under the name of its class leads to. -/
def linked : Tree :=
  ((Tree.initial.addFile (Tree.initial.cwd ++ [Tree.ascii "R"]) [0, 255]).addName
    (Tree.initial.cwd ++ [Tree.ascii "R"]) (Tree.initial.cwd ++ [Tree.ascii "Q"])).addLink
      (Tree.initial.cwd ++ [Tree.ascii "S.js"]) (Tree.ascii "./Q")

/-- The image is its own output, by way of both. -/
theorem load_embed_linked :
    (embed linked (Tree.ascii "R") ['S']).2.result = .ok (Tree.ascii "S.js") ∧
    linked.target (Utf8.encode ['S'] ++ Utf8.encode ".js".toList) =
      .ok (.entry (Tree.initial.cwd ++ [Tree.ascii "Q"]) (.file 0)) ∧
    (Place.entry (Tree.initial.cwd ++ [Tree.ascii "Q"]) (.file 0)).fileIn linked = some 0 ∧
    Tree.ascii "S.js" = Utf8.encode ['S'] ++ Utf8.encode ".js".toList ∧
    ∃ rom out, Rom.load linked (Tree.ascii "R") = .ok rom ∧
      Rom.load (embed linked (Tree.ascii "R") ['S']).1 (Tree.ascii "S.js") = .ok out ∧
      (Utf8.decode? out.bytes).bind ClassText.decode? = some (['S'], rom) := by
  have hok : (embed linked (Tree.ascii "R") ['S']).2.result = .ok (Tree.ascii "S.js") := by
    decide +kernel
  have htarget : linked.target (Utf8.encode ['S'] ++ Utf8.encode ".js".toList) =
      .ok (.entry (Tree.initial.cwd ++ [Tree.ascii "Q"]) (.file 0)) := by
    decide +kernel
  exact ⟨hok, htarget, rfl, load_embed hok htarget rfl⟩

end Embedding

end RomEmbed
