import Mathlib.Tactic.Common
import RomEmbed.Proofs.Embedding.Runs

/-!
Where the image of a request comes from. It is the content of a file or of the null device,
and a request finds the same image in two trees of which one grew to the other, unless the
file is new in the second or holds something else there.
-/

namespace RomEmbed

open Files (Tree Place Location Entry FileId)
open CommandLine (Request)

/-- What is read from an entry, if that is a file that can be read to its end. -/
def Files.Tree.image? (t : Tree) : Entry → Option Bytes
  | .file id => some (t.content id)
  | .device .null => some []
  | _ => none

variable {t u : Tree} {rom : Rom}

lemma Files.Tree.image?_congr {e : Entry} (h : ∀ id, e = .file id → u.content id = t.content id) :
    u.image? e = t.image? e := by
  rcases e with id | _ | ⟨id, target⟩ | _ | _
  · simp only [Tree.image?, h id rfl]
  all_goals rfl

lemma Rom.load_eq_ok_iff {path : Bytes} :
    Rom.load t path = .ok rom ↔
      ∃ place e, t.find path = .ok (.entry place e) ∧ t.image? e = some rom.bytes := by
  obtain ⟨bytes⟩ := rom
  unfold Rom.load Tree.read
  rcases t.find path with e | place
  · simp [bind, Except.bind]
  rcases place with place | ⟨place, id | _ | ⟨id, target⟩ | _ | _⟩ | place <;>
    simp [bind, Except.bind, Tree.image?]

namespace Embedding

/-- The image path of the request leads to the file. -/
def Reads (t : Tree) (q : Request) (id : FileId) : Prop :=
  ∃ place, t.find q.rom = .ok (.entry place (.file id))

variable {q : Request} {place : Place} {id : FileId}

lemma Writes.fileIn (h : Writes t q id) (ht : t.target (ClassName.file q.name) = .ok place) :
    place.fileIn t = some id := by
  obtain ⟨-, place', ht', hfile⟩ := h
  rw [ht] at ht'
  cases ht'
  exact hfile

lemma load_of_reads (h : Reads t q id) : Rom.load t q.rom = .ok ⟨t.content id⟩ := by
  obtain ⟨place, hfind⟩ := h
  exact Rom.load_eq_ok_iff.mpr ⟨place, _, hfind, rfl⟩

lemma Reads.lt (h : Reads t q id) : id < t.contents.length := by
  obtain ⟨place, hfind⟩ := h
  exact Tree.lt_of_get? (Tree.find_holds hfind)

/-- An image that was found is found where the tree has grown. -/
lemma load_of_growsTo (hg : t.GrowsTo u) (h : Rom.load t q.rom = .ok rom)
    (hkeep : ∀ id, Reads t q id → u.content id = t.content id) :
    Rom.load u q.rom = .ok rom := by
  obtain ⟨place, e, hfind, himage⟩ := Rom.load_eq_ok_iff.mp h
  have hfind' := (Tree.find_entry_iff hg (Tree.find_holds hfind)).mpr hfind
  refine Rom.load_eq_ok_iff.mpr ⟨place, e, hfind', ?_⟩
  rw [← himage]
  refine Tree.image?_congr fun id he => hkeep id ⟨place, ?_⟩
  rw [hfind, he]

/-- An image that is found where the tree has grown was found before, if its file was. -/
lemma load_before (hg : t.GrowsTo u) (h : Rom.load u q.rom = .ok rom)
    (hkeep : ∀ place id, u.find q.rom = .ok (.entry place (.file id)) →
      t.get? place = some (.file id) ∧ u.content id = t.content id) :
    Rom.load t q.rom = .ok rom := by
  obtain ⟨place, e, hfind, himage⟩ := Rom.load_eq_ok_iff.mp h
  have hold : t.get? place = some e := by
    by_cases hfile : ∃ id, e = .file id
    · obtain ⟨id, rfl⟩ := hfile
      exact (hkeep place id hfind).1
    · exact hg.get?_before (Tree.find_holds hfind) fun id he => hfile ⟨id, he⟩
  refine Rom.load_eq_ok_iff.mpr ⟨place, e, (Tree.find_entry_iff hg hold).mp hfind, ?_⟩
  rw [← himage]
  refine (Tree.image?_congr fun id he => ?_).symm
  subst he
  exact (hkeep place id hfind).2

end Embedding

end RomEmbed
