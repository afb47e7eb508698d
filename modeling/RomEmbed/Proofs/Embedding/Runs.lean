import Mathlib.Tactic.Common
import RomEmbed.CommandLine.Parse
import RomEmbed.Proofs.Embedding.Fidelity

/-!
Requests carried out one after the other, on one tree. Outputs may be images of later
requests and may be one file under several names, so what a run writes is followed by the
identity of files and not by paths: a file holds what the last request wrote to it, or what
it held at the start, and nothing else in the tree changes.
-/

namespace RomEmbed.Embedding

open Files (Tree Place Location Entry FileId)
open CommandLine (Request)

/-- The tree that a request leaves behind. -/
def after (t : Tree) (q : Request) : Tree := (embed t q.rom q.name).1

/-- The tree that is left behind by all requests in order. -/
def run (t : Tree) (qs : List Request) : Tree := qs.foldl after t

@[simp] lemma run_nil (t : Tree) : run t [] = t := rfl

@[simp] lemma run_cons (t : Tree) (q : Request) (qs : List Request) :
    run t (q :: qs) = run (after t q) qs := rfl

/-- The request succeeds. -/
def Succeeds (t : Tree) (q : Request) : Prop := ∃ p, (embed t q.rom q.name).2.result = .ok p

/-- The request succeeds, and its output path leads to the file, which may be a new one. -/
structure Writes (t : Tree) (q : Request) (id : FileId) : Prop where
  success : Succeeds t q
  output : ∃ place, t.target (ClassName.file q.name) = .ok place ∧ place.fileIn t = some id

/-- The request succeeds, and its output path leads to a vacant place, where the next new
file is made. -/
structure Creates (t : Tree) (q : Request) (place : Location) (id : FileId) : Prop where
  success : Succeeds t q
  output : t.target (ClassName.file q.name) = .ok (.vacant place)
  fresh : id = t.contents.length

/-- None of the requests writes the file. -/
def Untouched (t : Tree) (qs : List Request) (id : FileId) : Prop :=
  ∀ before q later, qs = before ++ q :: later → ¬Writes (run t before) q id

/-! ### One request -/

variable {t : Tree} {q : Request} {id : FileId}

/-- A request that succeeds returns the path of its output. -/
lemma Succeeds.result (h : Succeeds t q) :
    (embed t q.rom q.name).2.result = .ok (ClassName.file q.name) := by
  obtain ⟨p, hp⟩ := h
  rw [hp, (result_ok_iff.mp hp).1]

lemma Succeeds.after (h : Succeeds t q) :
    ∃ rom place, Rom.load t q.rom = .ok rom ∧ t.target (ClassName.file q.name) = .ok place ∧
      place.Holds t ∧ after t q = (t.put (ClassText.bytes q.name rom) place).1 := by
  obtain ⟨-, rom, place, hload, ht, htree⟩ := exists_of_result_ok h.result
  exact ⟨rom, place, hload, ht, Tree.target_holds ht, htree⟩

lemma after_cases (t : Tree) (q : Request) :
    (after t q = t ∧ ¬Succeeds t q) ∨ Succeeds t q := by
  rcases hr : (embed t q.rom q.name).2.result with e | p
  · refine Or.inl ⟨tree_of_error hr, fun ⟨p, hp⟩ => ?_⟩
    rw [hr] at hp
    cases hp
  · exact Or.inr ⟨p, hr⟩

lemma after_growsTo (t : Tree) (q : Request) : t.GrowsTo (after t q) := by
  rcases after_cases t q with ⟨h, -⟩ | h
  · rw [h]
    exact .refl t
  · obtain ⟨rom, place, -, -, hholds, ht⟩ := h.after
    rw [ht]
    exact Tree.put_growsTo _ hholds

lemma get?_after {place : Location} {e : Entry} :
    (after t q).get? place = some e ↔
      t.get? place = some e ∨ ∃ id, Creates t q place id ∧ e = .file id := by
  rcases after_cases t q with ⟨ht, hfail⟩ | hs
  · rw [ht]
    constructor
    · exact Or.inl
    · rintro (h | ⟨id, hc, -⟩)
      · exact h
      · exact absurd hc.success hfail
  · obtain ⟨rom, place', -, ht, hholds, htree⟩ := hs.after
    rw [htree, Tree.get?_put _ hholds]
    refine or_congr_right ⟨?_, ?_⟩
    · rintro ⟨rfl, rfl⟩
      exact ⟨_, ⟨hs, ht, rfl⟩, rfl⟩
    · rintro ⟨id, ⟨-, hc, rfl⟩, rfl⟩
      exact ⟨Except.ok.inj (ht.symm.trans hc), rfl⟩

lemma content_of_writes (h : Writes t q id) :
    ∃ rom, Rom.load t q.rom = .ok rom ∧
      (after t q).content id = ClassText.bytes q.name rom := by
  obtain ⟨rom, place, hload, ht, hholds, htree⟩ := h.success.after
  obtain ⟨place', ht', hfile⟩ := h.output
  obtain rfl : place = place' := Except.ok.inj (ht.symm.trans ht')
  refine ⟨rom, hload, ?_⟩
  rw [htree, Tree.content_put _ hholds, if_pos hfile]

lemma content_of_not_writes (h : ¬Writes t q id) : (after t q).content id = t.content id := by
  rcases after_cases t q with ⟨ht, -⟩ | hs
  · rw [ht]
  · obtain ⟨rom, place, -, ht, hholds, htree⟩ := hs.after
    rw [htree, Tree.content_put _ hholds, if_neg fun hfile => h ⟨hs, place, ht, hfile⟩]

lemma lt_of_lt_after (h : id < (after t q).contents.length) :
    id < t.contents.length ∨ Writes t q id := by
  rcases after_cases t q with ⟨ht, -⟩ | hs
  · exact Or.inl (by rwa [ht] at h)
  · obtain ⟨rom, place, -, ht, hholds, htree⟩ := hs.after
    rw [htree] at h
    exact (Tree.lt_of_lt_put hholds h).imp_right fun hfile => ⟨hs, place, ht, hfile⟩

lemma writes_of_target {rom : Rom} (hload : Rom.load t q.rom = .ok rom) {p : Location}
    (ht : t.target (ClassName.file q.name) = .ok (.entry p (.file id))) : Writes t q id := by
  refine ⟨⟨ClassName.file q.name, ?_⟩, _, ht, rfl⟩
  rw [embed_of_target hload ht]
  rfl

/-! ### Requests in order -/

variable {qs : List Request} {place : Location}

/-- The file is made at the place at some moment of the run. -/
def Created (t : Tree) (qs : List Request) (place : Location) (id : FileId) : Prop :=
  ∃ before q later, qs = before ++ q :: later ∧ Creates (run t before) q place id

/-- The last request of the run to write the file has the name, and finds the image. -/
def LastWrite (t : Tree) (qs : List Request) (id : FileId) (name : Text) (rom : Rom) : Prop :=
  ∃ before q later, qs = before ++ q :: later ∧ Writes (run t before) q id ∧
    Untouched (run t (before ++ [q])) later id ∧
    q.name = name ∧ Rom.load (run t before) q.rom = .ok rom

lemma untouched_nil (t : Tree) (id : FileId) : Untouched t [] id := by
  intro before q later h
  simp at h

lemma untouched_cons :
    Untouched t (q :: qs) id ↔ ¬Writes t q id ∧ Untouched (after t q) qs id := by
  constructor
  · intro h
    refine ⟨h [] q qs rfl, fun before q' later hqs => ?_⟩
    exact h (q :: before) q' later (by rw [hqs, List.cons_append])
  · rintro ⟨hq, h⟩ before q' later hqs
    rcases List.cons_eq_append_iff.mp hqs with ⟨rfl, heq⟩ | ⟨before', rfl, heq⟩
    · obtain ⟨rfl, rfl⟩ := List.cons.inj heq
      exact hq
    · exact h before' q' later heq

lemma created_cons :
    Created t (q :: qs) place id ↔ Creates t q place id ∨ Created (after t q) qs place id := by
  constructor
  · rintro ⟨before, q', later, hqs, hc⟩
    rcases List.cons_eq_append_iff.mp hqs with ⟨rfl, heq⟩ | ⟨before', rfl, heq⟩
    · obtain ⟨rfl, rfl⟩ := List.cons.inj heq
      exact Or.inl hc
    · exact Or.inr ⟨before', q', later, heq, hc⟩
  · rintro (hc | ⟨before, q', later, rfl, hc⟩)
    · exact ⟨[], q, qs, rfl, hc⟩
    · exact ⟨q :: before, q', later, rfl, hc⟩

variable {name name' : Text} {rom rom' : Rom}

lemma lastWrite_cons :
    LastWrite t (q :: qs) id name rom ↔
      LastWrite (after t q) qs id name rom ∨
        Writes t q id ∧ Untouched (after t q) qs id ∧ q.name = name ∧
          Rom.load t q.rom = .ok rom := by
  constructor
  · rintro ⟨before, q', later, hqs, h⟩
    rcases List.cons_eq_append_iff.mp hqs with ⟨rfl, heq⟩ | ⟨before', rfl, heq⟩
    · obtain ⟨rfl, rfl⟩ := List.cons.inj heq
      exact Or.inr h
    · exact Or.inl ⟨before', q', later, heq, h⟩
  · rintro (⟨before, q', later, rfl, h⟩ | h)
    · exact ⟨q :: before, q', later, rfl, h⟩
    · exact ⟨[], q, qs, rfl, h⟩

lemma LastWrite.not_untouched (h : LastWrite t qs id name rom) : ¬Untouched t qs id := by
  obtain ⟨before, q, later, hqs, hw, -⟩ := h
  exact fun hu => hu before q later hqs hw

/-- There is only one last write to a file. -/
lemma LastWrite.unique (h : LastWrite t qs id name rom) (h' : LastWrite t qs id name' rom') :
    name = name' ∧ rom = rom' := by
  induction qs generalizing t with
  | nil =>
    obtain ⟨before, q, later, hqs, -⟩ := h
    simp at hqs
  | cons q qs ih =>
    rcases lastWrite_cons.mp h with h | ⟨-, hu, hname, hload⟩ <;>
      rcases lastWrite_cons.mp h' with h' | ⟨-, hu', hname', hload'⟩
    · exact ih h h'
    · exact absurd hu' h.not_untouched
    · exact absurd hu h'.not_untouched
    · rw [hload] at hload'
      exact ⟨hname.symm.trans hname', Except.ok.inj hload'⟩

lemma run_growsTo (t : Tree) (qs : List Request) : t.GrowsTo (run t qs) := by
  induction qs generalizing t with
  | nil => exact .refl t
  | cons q qs ih => exact (after_growsTo t q).trans (ih (after t q))

lemma Created.vacant (h : Created t qs place id) : t.get? place = none := by
  obtain ⟨before, q, later, -, hc⟩ := h
  have hv := (Tree.target_holds hc.output).vacant
  cases he : t.get? place with
  | none => rfl
  | some e =>
    rw [(run_growsTo t before).keeps he] at hv
    cases hv

lemma get?_run {e : Entry} :
    (run t qs).get? place = some e ↔
      t.get? place = some e ∨ ∃ id, Created t qs place id ∧ e = .file id := by
  induction qs generalizing t with
  | nil => simp [Created]
  | cons q qs ih =>
    rw [run_cons, ih, get?_after, or_assoc]
    simp only [created_cons, or_and_right, exists_or]

/-- A file holds what it held at the start, or the class that was last written to it. -/
lemma content_run (h : id < (run t qs).contents.length) :
    (id < t.contents.length ∧ Untouched t qs id ∧ (run t qs).content id = t.content id) ∨
      ∃ name rom, LastWrite t qs id name rom ∧
        (run t qs).content id = ClassText.bytes name rom := by
  induction qs generalizing t with
  | nil => exact Or.inl ⟨h, untouched_nil t id, rfl⟩
  | cons q qs ih =>
    rw [run_cons] at h ⊢
    rcases ih h with ⟨hid, hu, hc⟩ | ⟨name, rom, hl, hc⟩
    · -- no later request writes the file, so it is for this one to say what it holds
      by_cases hq : Writes t q id
      · obtain ⟨rom, hload, hcontent⟩ := content_of_writes hq
        exact Or.inr ⟨q.name, rom, ⟨[], q, qs, rfl, hq, hu, rfl, hload⟩, hc.trans hcontent⟩
      · refine Or.inl ⟨(lt_of_lt_after hid).resolve_right hq, untouched_cons.mpr ⟨hq, hu⟩, ?_⟩
        exact hc.trans (content_of_not_writes hq)
    · exact Or.inr ⟨name, rom, lastWrite_cons.mpr (Or.inl hl), hc⟩

/-- **What a run leaves behind.** The entries at the end are those of the start, where they
stood, and the files made at vacant places that the output path of a successful request led
to. A file holds what it held at the start if no successful request wrote it, and else the
class of the last one that did, with the image that its path led to at that moment. -/
theorem run_frame_lastWrite (t : Tree) (qs : List Request) :
    (run t qs).cwd = t.cwd ∧
    (∀ place e, (run t qs).get? place = some e ↔
      t.get? place = some e ∨
        t.get? place = none ∧ ∃ id, Created t qs place id ∧ e = .file id) ∧
    (∀ id < (run t qs).contents.length,
      (id < t.contents.length ∧ Untouched t qs id ∧ (run t qs).content id = t.content id) ∨
        ∃ name rom, LastWrite t qs id name rom ∧
          (run t qs).content id = ClassText.bytes name rom) := by
  refine ⟨(run_growsTo t qs).cwd, fun place e => ?_, fun id h => content_run h⟩
  rw [get?_run]
  constructor
  · rintro (h | ⟨id, hc, he⟩)
    · exact Or.inl h
    · exact Or.inr ⟨hc.vacant, id, hc, he⟩
  · rintro (h | ⟨-, h⟩)
    · exact Or.inl h
    · exact Or.inr h

/-- One file under several names, among them two that classes are written to. -/
def aliased : Tree :=
  linked.addLink (Tree.initial.cwd ++ [Tree.ascii "U.js"]) (Tree.ascii "S.js")

/-- A class in a new file, one in place of the image, and one of that in place of itself. -/
def turns : List Request :=
  [⟨Tree.ascii "R", ['T']⟩, ⟨Tree.ascii "R", ['S']⟩, ⟨Tree.ascii "S.js", ['U']⟩]

theorem run_frame_lastWrite_aliased :
    Created aliased turns (Tree.initial.cwd ++ [Tree.ascii "T.js"]) 1 ∧
    (run aliased turns).get? (Tree.initial.cwd ++ [Tree.ascii "T.js"]) = some (.file 1) ∧
    LastWrite aliased turns 0 ['U'] ⟨ClassText.bytes ['S'] ⟨[0, 255]⟩⟩ ∧
    (run aliased turns).content 0 =
      ClassText.bytes ['U'] ⟨ClassText.bytes ['S'] ⟨[0, 255]⟩⟩ := by
  set q₁ : Request := ⟨Tree.ascii "R", ['T']⟩
  set q₂ : Request := ⟨Tree.ascii "R", ['S']⟩
  set q₃ : Request := ⟨Tree.ascii "S.js", ['U']⟩
  have hcreates : Creates aliased q₁ (Tree.initial.cwd ++ [Tree.ascii "T.js"]) 1 :=
    ⟨⟨ClassName.file ['T'], by decide +kernel⟩, by decide +kernel, by decide +kernel⟩
  have hcreated : Created aliased turns (Tree.initial.cwd ++ [Tree.ascii "T.js"]) 1 :=
    ⟨[], q₁, [q₂, q₃], rfl, hcreates⟩
  -- what the names of the one file lead to at the start they lead to later
  have hnames : ∀ n ∈ [['S'], ['U']], aliased.target (ClassName.file n) =
      .ok (.entry (Tree.initial.cwd ++ [Tree.ascii "Q"]) (.file 0)) := by
    decide +kernel
  have hlater : ∀ n ∈ [['S'], ['U']], ∀ qs, (run aliased qs).target (ClassName.file n) =
      .ok (.entry (Tree.initial.cwd ++ [Tree.ascii "Q"]) (.file 0)) :=
    fun n hn qs => Tree.target_of_target (run_growsTo aliased qs) (hnames n hn)
  have hload₂ : Rom.load (run aliased [q₁]) q₂.rom = .ok ⟨[0, 255]⟩ := by decide +kernel
  have ht₂ := hlater ['S'] (by simp) [q₁]
  have hload₃ : Rom.load (run aliased [q₁, q₂]) q₃.rom =
      .ok ⟨ClassText.bytes ['S'] ⟨[0, 255]⟩⟩ := by
    have hrom : q₃.rom = ClassName.file ['S'] := by decide
    have htree : run aliased [q₁, q₂] = (embed (run aliased [q₁]) q₂.rom q₂.name).1 := rfl
    rw [Rom.load, hrom, htree, read_of_loaded hload₂ ht₂ rfl]
  have hwrites₃ := writes_of_target hload₃ (hlater ['U'] (by simp) [q₁, q₂])
  have hlast : LastWrite aliased turns 0 ['U'] ⟨ClassText.bytes ['S'] ⟨[0, 255]⟩⟩ :=
    ⟨[q₁, q₂], q₃, [], rfl, hwrites₃, untouched_nil _ _, rfl, hload₃⟩
  obtain ⟨-, hentries, hcontents⟩ := run_frame_lastWrite aliased turns
  have hlt : 0 < (run aliased turns).contents.length :=
    Tree.lt_of_get? (Tree.target_holds (hlater ['S'] (by simp) turns))
  refine ⟨hcreated, (hentries _ _).mpr (Or.inr ⟨hcreated.vacant, 1, hcreated, rfl⟩), hlast, ?_⟩
  rcases hcontents 0 hlt with ⟨-, huntouched, -⟩ | ⟨name, rom, hlast', hcontent⟩
  · exact absurd huntouched hlast.not_untouched
  · obtain ⟨rfl, rfl⟩ := hlast.unique hlast'
    exact hcontent

end RomEmbed.Embedding
