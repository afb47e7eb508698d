import Mathlib.Tactic.Common
import RomEmbed.Proofs.Embedding.Fidelity
import RomEmbed.Proofs.Embedding.Sources
import RomEmbed.Proofs.Files.Renumbering

/-!
Requests that do not meddle with each other's files may change places. A new file changes
where paths lead: a link that dangled leads to it, a missing name is there. But a lookup
passes no regular file on its way, so a path that leads anywhere else than to the new file
has led there before it was made, and leads there when it is made later.
-/

namespace RomEmbed.Embedding

open Files (Tree Place Location Entry FileId)
open CommandLine (Request)

/-- Neither request writes a file that the other one reads or writes. The second request
finds its files in the tree that the first one leaves behind. -/
structure Independent (t : Tree) (q₁ q₂ : Request) : Prop where
  outputs : ∀ id, Writes t q₁ id → ¬Writes (after t q₁) q₂ id
  image₁ : ∀ id, Reads t q₁ id → ¬Writes (after t q₁) q₂ id
  image₂ : ∀ id, Reads (after t q₁) q₂ id → ¬Writes t q₁ id

variable {t : Tree} {q q₁ q₂ : Request} {place place₁ place₂ : Place} {rom : Rom} {id : FileId}

/-! ### What a request leaves as it was -/

lemma Creates.writes {p : Location} (h : Creates t q p id) : Writes t q id :=
  ⟨h.success, _, h.output, by rw [h.fresh]; rfl⟩

/-- A name of a file that the request does not write was there before. -/
lemma get?_of_not_writes {p : Location} (h : (after t q).get? p = some (.file id))
    (hw : ¬Writes t q id) : t.get? p = some (.file id) := by
  rcases get?_after.mp h with h | ⟨i, hc, he⟩
  · exact h
  · cases he
    exact absurd hc.writes hw

/-! ### The other order -/

section

variable (hi : Independent t q₁ q₂)
  (hs₁ : Succeeds t q₁) (hs₂ : Succeeds (after t q₁) q₂)
  (ht₁ : t.target (ClassName.file q₁.name) = .ok place₁)
  (ht₂ : (after t q₁).target (ClassName.file q₂.name) = .ok place₂)

include hi

lemma Independent.load₂ (h : Rom.load (after t q₁) q₂.rom = .ok rom) :
    Rom.load t q₂.rom = .ok rom := by
  refine load_before (after_growsTo t q₁) h fun p id hfind => ?_
  have hw : ¬Writes t q₁ id := hi.image₂ id ⟨p, hfind⟩
  exact ⟨get?_of_not_writes (Tree.find_holds hfind) hw, content_of_not_writes hw⟩

include hs₂ ht₂

/-- The output of the second request is not what the first one made. -/
lemma Independent.holds₂ : place₂.Holds t := by
  have hg := after_growsTo t q₁
  have hholds := Tree.target_holds ht₂
  rcases place₂ with p | ⟨p, e⟩ | p
  · exact hg.get?_before hholds (by simp)
  · by_cases hfile : ∃ id, e = .file id
    · obtain ⟨id, rfl⟩ := hfile
      have hw : Writes (after t q₁) q₂ id := ⟨hs₂, _, ht₂, rfl⟩
      exact get?_of_not_writes hholds fun hw₁ => hi.outputs id hw₁ hw
    · exact hg.get?_before hholds fun id he => hfile ⟨id, he⟩
  · refine ⟨?_, hg.get?_before hholds.inDir (by simp)⟩
    by_contra hne
    obtain ⟨e, he⟩ := Option.ne_none_iff_exists'.mp hne
    have hv := hholds.vacant
    rw [hg.keeps he] at hv
    cases hv

lemma Independent.target₂ : t.target (ClassName.file q₂.name) = .ok place₂ :=
  (Tree.target_eq_iff (after_growsTo t q₁) (hi.holds₂ hs₂ ht₂) (Tree.target_holds ht₂)).mp ht₂

lemma Independent.load₁ (h : Rom.load t q₁.rom = .ok rom) :
    Rom.load (after t q₂) q₁.rom = .ok rom := by
  refine load_of_growsTo (after_growsTo t q₂) h fun id hr => content_of_not_writes fun hw => ?_
  have hfile := hw.fileIn (hi.target₂ hs₂ ht₂)
  -- the image was there before, so it is not a new file of the second request
  unfold Place.fileIn at hfile
  split at hfile
  · cases hfile
    exact hi.image₁ id hr ⟨hs₂, _, ht₂, rfl⟩
  · cases hfile
    exact absurd hr.lt (Nat.lt_irrefl _)
  · cases hfile

include hs₁ ht₁

lemma Independent.apart : place₁.Apart place₂ := by
  unfold Place.Apart
  split
  · -- two names of one file
    next p i p' j =>
    rintro rfl
    exact hi.outputs i ⟨hs₁, _, ht₁, rfl⟩ ⟨hs₂, _, ht₂, rfl⟩
  · -- the first request takes its place, so it is not vacant for the second
    next p p' =>
    rintro rfl
    have hc : Creates t q₁ p t.contents.length := ⟨hs₁, ht₁, rfl⟩
    have hnew := get?_after.mpr (Or.inr ⟨_, hc, rfl⟩)
    rw [(Tree.target_holds ht₂).vacant] at hnew
    cases hnew
  · trivial

/-- The output of the first request is not what the second one makes. -/
lemma Independent.holds₁ : place₁.Holds (after t q₂) := by
  have hg := after_growsTo t q₂
  have hholds := Tree.target_holds ht₁
  rcases place₁ with p | ⟨p, e⟩ | p
  · exact hg.keeps hholds
  · exact hg.keeps hholds
  · refine ⟨?_, hg.keeps hholds.inDir⟩
    by_contra hne
    obtain ⟨e, he⟩ := Option.ne_none_iff_exists'.mp hne
    rcases get?_after.mp he with he | ⟨id, hc, -⟩
    · rw [hholds.vacant] at he
      cases he
    · have hp := hc.output
      rw [hi.target₂ hs₂ ht₂] at hp
      cases hp
      exact hi.apart hs₁ hs₂ ht₁ ht₂ rfl

lemma Independent.target₁ : (after t q₂).target (ClassName.file q₁.name) = .ok place₁ :=
  (Tree.target_eq_iff (after_growsTo t q₂) (Tree.target_holds ht₁)
    (hi.holds₁ hs₁ hs₂ ht₁ ht₂)).mpr ht₁

end

/-- **Independent requests commute.** If two requests succeed one after the other, and
neither writes a file that the other reads or writes, then they succeed in the other order
with the same outcomes, records and all, and the trees that result are alike. -/
theorem embed_comm {p₁ p₂ : Bytes} (h₁ : (embed t q₁.rom q₁.name).2.result = .ok p₁)
    (h₂ : (embed (after t q₁) q₂.rom q₂.name).2.result = .ok p₂) (hi : Independent t q₁ q₂) :
    (embed t q₂.rom q₂.name).2 = (embed (after t q₁) q₂.rom q₂.name).2 ∧
    (embed (after t q₂) q₁.rom q₁.name).2 = (embed t q₁.rom q₁.name).2 ∧
    (run t [q₁, q₂]).Alike (run t [q₂, q₁]) ∧
    ∀ place, ((run t [q₂, q₁]).get? place).map (run t [q₂, q₁]).shown =
      ((run t [q₁, q₂]).get? place).map (run t [q₁, q₂]).shown := by
  have hs₁ : Succeeds t q₁ := ⟨p₁, h₁⟩
  have hs₂ : Succeeds (after t q₁) q₂ := ⟨p₂, h₂⟩
  obtain ⟨rfl, rom₁, place₁, hl₁, ht₁, htree₁⟩ := exists_of_result_ok h₁
  obtain ⟨rfl, rom₂, place₂, hl₂, ht₂, htree₂⟩ := exists_of_result_ok h₂
  have e₁ := embed_of_target hl₁ ht₁
  have e₂ := embed_of_target hl₂ ht₂
  have e₂' := embed_of_target (hi.load₂ hl₂) (hi.target₂ hs₂ ht₂)
  have e₁' := embed_of_target (hi.load₁ hs₂ ht₂ hl₁) (hi.target₁ hs₁ hs₂ ht₁ ht₂)
  have halike : (run t [q₁, q₂]).Alike (run t [q₂, q₁]) := by
    have hput := Tree.put_put_alike (Tree.target_holds ht₁) (hi.holds₂ hs₂ ht₂)
      (hi.apart hs₁ hs₂ ht₁ ht₂) (ClassText.bytes q₁.name rom₁) (ClassText.bytes q₂.name rom₂)
    have r₁ : run t [q₁, q₂] =
        ((t.put (ClassText.bytes q₁.name rom₁) place₁).1.put
          (ClassText.bytes q₂.name rom₂) place₂).1 := by
      rw [← congrArg Prod.fst e₁]
      exact congrArg Prod.fst e₂
    have r₂ : run t [q₂, q₁] =
        ((t.put (ClassText.bytes q₂.name rom₂) place₂).1.put
          (ClassText.bytes q₁.name rom₁) place₁).1 := by
      rw [← congrArg Prod.fst e₂']
      exact congrArg Prod.fst e₁'
    rw [r₁, r₂]
    exact hput
  refine ⟨?_, ?_, halike, halike.shown⟩
  · rw [e₂, e₂', Tree.put_result t (after t q₁)]
  · rw [e₁, e₁', Tree.put_result t (after t q₂)]

/-- An image under two names, and a link that leads to a file that is not there yet. -/
def dangling : Tree := linked.addLink (Tree.initial.cwd ++ [Tree.ascii "A.js"]) (Tree.ascii "N")

/-- Its output is made at the end of the link. -/
def alongLink : Request := ⟨Tree.ascii "R", ['A']⟩

/-- It finds the same image under the other name. -/
def besideLink : Request := ⟨Tree.ascii "Q", ['B']⟩

/-- Both requests make a new file. -/
theorem embed_comm_dangling :
    (embed dangling alongLink.rom alongLink.name).2.result = .ok (Tree.ascii "A.js") ∧
    (embed (after dangling alongLink) besideLink.rom besideLink.name).2.result =
      .ok (Tree.ascii "B.js") ∧
    Independent dangling alongLink besideLink ∧
    (run dangling [alongLink, besideLink]).Alike (run dangling [besideLink, alongLink]) := by
  have h₁ : (embed dangling alongLink.rom alongLink.name).2.result =
      .ok (Tree.ascii "A.js") := by
    decide +kernel
  have h₂ : (embed (after dangling alongLink) besideLink.rom besideLink.name).2.result =
      .ok (Tree.ascii "B.js") := by
    decide +kernel
  have ht₁ : dangling.target (ClassName.file alongLink.name) =
      .ok (.vacant (Tree.initial.cwd ++ [Tree.ascii "N"])) := by
    decide +kernel
  have ht₂ : (after dangling alongLink).target (ClassName.file besideLink.name) =
      .ok (.vacant (Tree.initial.cwd ++ [Tree.ascii "B.js"])) := by
    decide +kernel
  have hf₁ : dangling.find alongLink.rom =
      .ok (.entry (Tree.initial.cwd ++ [Tree.ascii "R"]) (.file 0)) := by
    decide +kernel
  have hf₂ : (after dangling alongLink).find besideLink.rom =
      .ok (.entry (Tree.initial.cwd ++ [Tree.ascii "Q"]) (.file 0)) := by
    decide +kernel
  have hlen₁ : dangling.contents.length = 1 := by decide +kernel
  have hlen₂ : (after dangling alongLink).contents.length = 2 := by decide +kernel
  -- the image is file 0, and the outputs are files 1 and 2
  have hw₁ : ∀ id, Writes dangling alongLink id → id = 1 := by
    intro id hw
    have hfile := hw.fileIn ht₁
    rw [Place.fileIn, hlen₁] at hfile
    exact (Option.some.inj hfile).symm
  have hw₂ : ∀ id, Writes (after dangling alongLink) besideLink id → id = 2 := by
    intro id hw
    have hfile := hw.fileIn ht₂
    rw [Place.fileIn, hlen₂] at hfile
    exact (Option.some.inj hfile).symm
  have hi : Independent dangling alongLink besideLink := by
    refine ⟨fun id h h' => ?_, fun id h h' => ?_, fun id h h' => ?_⟩
    · exact absurd ((hw₁ id h).symm.trans (hw₂ id h')) (by decide)
    · obtain ⟨p, hp⟩ := h
      rw [hf₁] at hp
      cases hp
      exact absurd (hw₂ 0 h') (by decide)
    · obtain ⟨p, hp⟩ := h
      rw [hf₂] at hp
      cases hp
      exact absurd (hw₁ 0 h') (by decide)
  exact ⟨h₁, h₂, hi, (embed_comm h₁ h₂ hi).2.2.1⟩

end RomEmbed.Embedding
