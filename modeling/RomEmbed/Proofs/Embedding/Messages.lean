import Mathlib.Tactic.Common
import RomEmbed.Proofs.Embedding.Outcome
import RomEmbed.Proofs.Text.IllFormed

/-!
What a failure tells. Its path is kept as it is, and shown in the message with a replacement
character for each part of it that is no text. Slashes and quotes are ASCII, so each name in a
path is shown by itself. A path that comes from a name is a text, and is shown as it is.
-/

namespace RomEmbed

open Files (Tree)

lemma EmbedError.message_unreadable (path : Bytes) (e : IoError) :
    (unreadable path e).message =
      "Failed to read ROM '".toList ++ Utf8.lossy path ++ "': ".toList ++ e.text := rfl

lemma EmbedError.message_unwritable (path : Bytes) (e : IoError) :
    (unwritable path e).message =
      "Failed to write '".toList ++ Utf8.lossy path ++ "': ".toList ++ e.text := rfl

namespace Embedding

/-- What cannot be written is the file of the class, and the message shows its path unchanged. -/
lemma message_of_unwritable {t : Tree} {path p : Bytes} {name : Text} {e : IoError}
    (h : (embed t path name).2.result = .error (.unwritable p e)) :
    p = Utf8.encode (name ++ ".js".toList) ∧
      (EmbedError.unwritable p e).message =
        "Failed to write '".toList ++ (name ++ ".js".toList) ++ "': ".toList ++ e.text := by
  obtain ⟨rfl, -⟩ := result_unwritable_iff.mp h
  have hfile : ClassName.file name = Utf8.encode (name ++ ".js".toList) := rfl
  exact ⟨hfile, by rw [EmbedError.message_unwritable, hfile, Utf8.lossy_encode]⟩

/-- **A failure tells its path as far as it is a text.** The message shows each ill-formed part as
one replacement character, and nothing else of the path is changed; so what stands before and after
an octet of ASCII is shown apart, a path is shown exactly if it is well-formed, what is shown is
shown as it is from then on, and it has no more characters than the path has octets. The path of a
class that cannot be written is always shown exactly. -/
theorem failure_told :
    (∀ (path : Bytes) (e : IoError),
      (EmbedError.unreadable path e).path = path ∧
      (EmbedError.unreadable path e).message =
        "Failed to read ROM '".toList ++ Utf8.lossy path ++ "': ".toList ++ e.text ∧
      (EmbedError.unwritable path e).path = path ∧
      (EmbedError.unwritable path e).message =
        "Failed to write '".toList ++ Utf8.lossy path ++ "': ".toList ++ e.text) ∧
    (∀ (bs : Bytes) (t : Text), Utf8.Shows bs t ↔ t = Utf8.lossy bs) ∧
    (∀ (as bs : Bytes) (b : UInt8), b.toNat < 0x80 →
      Utf8.lossy (as ++ [b] ++ bs) =
        Utf8.lossy as ++ [Char.ofNat b.toNat] ++ Utf8.lossy bs ∧
      Utf8.lossy as = [Char.ofNat b.toNat].intercalate ((as.splitOn b).map Utf8.lossy)) ∧
    (∀ bs : Bytes, Utf8.encode (Utf8.lossy bs) = bs ↔ bs.toByteArray.IsValidUTF8) ∧
    (∀ bs : Bytes, Utf8.lossy (Utf8.encode (Utf8.lossy bs)) = Utf8.lossy bs) ∧
    (∀ bs : Bytes, (Utf8.lossy bs).length ≤ bs.length) ∧
    (∀ (t : Tree) (path : Bytes) (name : Text) (p : Bytes) (e : IoError),
      (embed t path name).2.result = .error (.unwritable p e) →
      p = Utf8.encode (name ++ ".js".toList) ∧
      (EmbedError.unwritable p e).message =
        "Failed to write '".toList ++ (name ++ ".js".toList) ++ "': ".toList ++ e.text) := by
  refine ⟨fun path e => ⟨rfl, EmbedError.message_unreadable path e, rfl,
      EmbedError.message_unwritable path e⟩,
    fun bs t => Utf8.shows_iff, fun as bs b hb => ⟨?_, ?_⟩,
    fun bs => Utf8.encode_lossy_iff, fun bs => Utf8.lossy_encode _,
    fun bs => (Utf8.shows_lossy bs).length_le, fun _ _ _ _ _ => message_of_unwritable⟩
  · simpa using Utf8.lossy_append_ascii as bs hb
  · rw [← Utf8.lossy_intercalate hb, List.intercalate_splitOn]

/-- A class that is to be put into a directory that is not there. -/
theorem failure_told_astray :
    let t := Tree.initial.addFile (Tree.initial.cwd ++ [Tree.ascii "R"]) [0]
    let e := EmbedError.unwritable (Utf8.encode "é/S.js".toList) (.os .noEntry)
    (embed t (Tree.ascii "R") "é/S".toList).2.result = .error e ∧
    e.message = "Failed to write '".toList ++ ("é/S".toList ++ ".js".toList) ++ "': ".toList ++
      (IoError.os .noEntry).text ∧
    (0x2F : UInt8).toNat < 0x80 ∧
    Utf8.lossy ([0xC3] ++ [0x2F] ++ Tree.ascii "S") =
      Utf8.lossy [0xC3] ++ ['/'] ++ Utf8.lossy (Tree.ascii "S") := by
  intro t e
  have hfails : (embed t (Tree.ascii "R") "é/S".toList).2.result = .error e := by
    decide +kernel
  have hslash : (0x2F : UInt8).toNat < 0x80 := by decide
  obtain ⟨-, -, happend, -, -, -, htold⟩ := failure_told
  exact ⟨hfails, (htold _ _ _ _ _ hfails).2, hslash, (happend [0xC3] _ 0x2F hslash).1⟩

-- a sequence cut short, an overlong one, a surrogate and a value that is too large
example :
    Utf8.lossy [0xE2, 0x82, 0x2F, 0xC0, 0x80, 0x2F, 0xED, 0xA0, 0x80, 0x2F, 0xF4, 0x90, 0x80,
        0x80] =
      "\uFFFD/\uFFFD\uFFFD/\uFFFD\uFFFD\uFFFD/\uFFFD\uFFFD\uFFFD\uFFFD".toList := by
  decide +kernel

end Embedding

end RomEmbed
