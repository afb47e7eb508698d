import Mathlib.Order.Monotone.Basic
import Mathlib.Tactic.Common
import RomEmbed.Proofs.Embedding.Fidelity
import RomEmbed.Proofs.Embedding.Sources
import RomEmbed.Proofs.Output.Size

/-!
The same request again. Where image and output are two files, the image is still there, the
same class is written a second time, and nothing changes. Where they are one file, the
image is by then the class that was written before, and since a class is longer than its
image the file grows with every request.
-/

namespace RomEmbed.Embedding

open Files (Tree Place Location Entry FileId)
open CommandLine (Request)

/-- The tree that is left behind by so many requests of one kind. -/
def repeated (t : Tree) (q : Request) (n : Nat) : Tree := run t (List.replicate n q)

lemma repeated_succ (t : Tree) (q : Request) (n : Nat) :
    repeated t q (n + 1) = after (repeated t q n) q := by
  simp [repeated, run, List.replicate_succ']

variable {t : Tree} {q : Request} {id i : FileId} {rom : Rom}

/-! ### A request that writes a file -/

lemma Writes.unique (h : Writes t q id) (hi : Writes t q i) : i = id := by
  obtain ⟨-, place, ht, hfile⟩ := h
  rw [hi.fileIn ht] at hfile
  exact Option.some.inj hfile

lemma Writes.exists_load (h : Writes t q id) : ∃ rom, Rom.load t q.rom = .ok rom := by
  obtain ⟨rom, -, hload, -⟩ := h.success.after
  exact ⟨rom, hload⟩

lemma Writes.outcome (h : Writes t q id) (hload : Rom.load t q.rom = .ok rom) :
    (embed t q.rom q.name).2 = afterWriting q.rom q.name rom (.ok ()) := by
  obtain ⟨-, place, ht, hfile⟩ := h
  rw [embed_of_target hload ht, Tree.put_of_fileIn _ hfile]

lemma Writes.content (h : Writes t q id) (hload : Rom.load t q.rom = .ok rom) :
    (after t q).content id = ClassText.bytes q.name rom := by
  obtain ⟨rom', hload', hcontent⟩ := content_of_writes h
  rw [hload] at hload'
  cases hload'
  exact hcontent

/-- What was written once is there to be written again. -/
lemma Writes.target_after (h : Writes t q id) :
    ∃ p, (after t q).target (ClassName.file q.name) = .ok (.entry p (.file id)) := by
  obtain ⟨rom, place, -, ht, hholds, htree⟩ := h.success.after
  obtain ⟨p, hseen⟩ := Tree.seenIn_put (ClassText.bytes q.name rom) hholds (h.fileIn ht)
  have htarget := Tree.target_of_target (after_growsTo t q) ht
  rw [htree, hseen] at htarget
  exact ⟨p, htree ▸ htarget⟩

lemma Writes.reads_after_iff (h : Writes t q id) : Reads (after t q) q i ↔ Reads t q i := by
  have hg := after_growsTo t q
  obtain ⟨rom, hload⟩ := h.exists_load
  obtain ⟨place, e, hfind, -⟩ := Rom.load_eq_ok_iff.mp hload
  constructor
  · rintro ⟨p, hp⟩
    rw [(Tree.find_entry_iff hg (Tree.find_holds hfind)).mpr hfind] at hp
    cases hp
    exact ⟨place, hfind⟩
  · rintro ⟨p, hp⟩
    exact ⟨p, (Tree.find_entry_iff hg (Tree.find_holds hp)).mpr hp⟩

/-- An image in a file of its own is found unchanged. -/
lemma Writes.load_after_of_not_reads (h : Writes t q id) (hr : ¬Reads t q id)
    (hload : Rom.load t q.rom = .ok rom) : Rom.load (after t q) q.rom = .ok rom := by
  refine load_of_growsTo (after_growsTo t q) hload fun i hi => content_of_not_writes fun hw => ?_
  rw [h.unique hw] at hi
  exact hr hi

/-- An image in the file that is written is afterwards the class. -/
lemma Writes.load_after_of_reads (h : Writes t q id) (hr : Reads t q id) :
    Rom.load (after t q) q.rom = .ok ⟨(after t q).content id⟩ :=
  load_of_reads (h.reads_after_iff.mpr hr)

lemma Writes.again (h : Writes t q id) : Writes (after t q) q id := by
  obtain ⟨p, ht⟩ := h.target_after
  obtain ⟨rom, hload⟩ : ∃ rom, Rom.load (after t q) q.rom = .ok rom := by
    by_cases hr : Reads t q id
    · exact ⟨_, h.load_after_of_reads hr⟩
    · obtain ⟨rom, hload⟩ := h.exists_load
      exact ⟨rom, h.load_after_of_not_reads hr hload⟩
  exact writes_of_target hload ht

/-- With an image in a file of its own the same class is written in place of itself. -/
lemma Writes.embed_after_of_not_reads (h : Writes t q id) (hr : ¬Reads t q id) :
    embed (after t q) q.rom q.name = (after t q, (embed t q.rom q.name).2) := by
  obtain ⟨rom, hload⟩ := h.exists_load
  obtain ⟨p, ht⟩ := h.target_after
  have hsame : (after t q).setContent id (ClassText.bytes q.name rom) = after t q := by
    rw [← h.content hload, Tree.setContent_content]
  rw [h.outcome hload, embed_of_target (h.load_after_of_not_reads hr hload) ht, Tree.put, hsame]

/-! ### Request after request -/

lemma Writes.repeated (h : Writes t q id) (n : Nat) : Writes (repeated t q n) q id := by
  induction n with
  | zero => exact h
  | succ n ih =>
    rw [repeated_succ]
    exact ih.again

lemma Writes.reads_repeated_iff (h : Writes t q id) (n : Nat) :
    Reads (Embedding.repeated t q n) q id ↔ Reads t q id := by
  induction n with
  | zero => exact Iff.rfl
  | succ n ih => rw [repeated_succ, (h.repeated n).reads_after_iff, ih]

lemma Writes.embed_repeated (h : Writes t q id) (hr : ¬Reads t q id) (n : Nat) :
    embed (Embedding.repeated t q (n + 1)) q.rom q.name =
      (after t q, (embed t q.rom q.name).2) := by
  induction n with
  | zero => exact h.embed_after_of_not_reads hr
  | succ n ih =>
    have htree : Embedding.repeated t q (n + 2) = after t q := by
      rw [repeated_succ]
      exact congrArg Prod.fst ih
    rw [htree]
    exact h.embed_after_of_not_reads hr

/-- A file that is its own image holds the class of what it held. -/
lemma Writes.content_repeated (h : Writes t q id) (hr : Reads t q id) (n : Nat) :
    (Embedding.repeated t q (n + 1)).content id =
      ClassText.bytes q.name ⟨(Embedding.repeated t q n).content id⟩ := by
  rw [repeated_succ]
  exact (h.repeated n).content (load_of_reads ((h.reads_repeated_iff n).mpr hr))

lemma Writes.strictMono (h : Writes t q id) (hr : Reads t q id) :
    StrictMono fun n => ((Embedding.repeated t q n).content id).length := by
  refine strictMono_nat_of_lt_succ fun n => ?_
  rw [h.content_repeated hr n]
  exact ClassText.size_lt_length_bytes q.name ⟨(Embedding.repeated t q n).content id⟩

/-- **A request may be repeated without effect if and only if its image and its output are
two files.** A request that succeeds in writing a file succeeds again and again, with the
same path. If its image is in another file, no later request changes anything, and all make
the same records. If it is in the file that is written, each request embeds what the one
before it wrote, and the file grows every time. -/
theorem repeated_iff (h : Writes t q id) :
    (∀ n, (embed (repeated t q n) q.rom q.name).2.result = .ok (ClassName.file q.name)) ∧
    (¬Reads t q id → ∀ n, embed (repeated t q (n + 1)) q.rom q.name =
      (repeated t q 1, (embed t q.rom q.name).2)) ∧
    (Reads t q id → ∀ n,
      Rom.load (repeated t q n) q.rom = .ok ⟨(repeated t q n).content id⟩ ∧
      (repeated t q (n + 1)).content id =
        ClassText.bytes q.name ⟨(repeated t q n).content id⟩) ∧
    (Reads t q id → StrictMono fun n => ((repeated t q n).content id).length) ∧
    ((repeated t q 2).content id = (repeated t q 1).content id ↔ ¬Reads t q id) := by
  refine ⟨fun n => (h.repeated n).success.result, h.embed_repeated, fun hr n => ?_, h.strictMono,
    ?_⟩
  · exact ⟨load_of_reads ((h.reads_repeated_iff n).mpr hr), h.content_repeated hr n⟩
  · constructor
    · intro heq hr
      have hgrows := h.strictMono hr (show 1 < 2 by decide)
      dsimp only at hgrows
      rw [heq] at hgrows
      exact Nat.lt_irrefl _ hgrows
    · intro hr
      have htree : repeated t q 2 = repeated t q 1 := by
        rw [repeated_succ]
        exact congrArg Prod.fst (h.embed_repeated hr 0)
      rw [htree]

/-- Its output is a link to another name of its image. -/
def ofItself : Request := ⟨Tree.ascii "R", ['S']⟩

theorem repeated_iff_linked :
    Writes linked ofItself 0 ∧ Reads linked ofItself 0 ∧
    (StrictMono fun n => ((repeated linked ofItself n).content 0).length) ∧
    (repeated linked ofItself 2).content 0 ≠ (repeated linked ofItself 1).content 0 := by
  have hok : (embed linked ofItself.rom ofItself.name).2.result =
      .ok (ClassName.file ofItself.name) := by
    decide +kernel
  have ht : linked.target (ClassName.file ofItself.name) =
      .ok (.entry (Tree.initial.cwd ++ [Tree.ascii "Q"]) (.file 0)) := by
    decide +kernel
  have hf : linked.find ofItself.rom =
      .ok (.entry (Tree.initial.cwd ++ [Tree.ascii "R"]) (.file 0)) := by
    decide +kernel
  have hw : Writes linked ofItself 0 := ⟨⟨_, hok⟩, _, ht, rfl⟩
  have hr : Reads linked ofItself 0 := ⟨_, hf⟩
  obtain ⟨-, -, -, hgrows, hiff⟩ := repeated_iff hw
  exact ⟨hw, hr, hgrows hr, fun heq => hiff.mp heq hr⟩

end RomEmbed.Embedding
