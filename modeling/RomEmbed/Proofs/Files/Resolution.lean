import Mathlib.Tactic.Common
import RomEmbed.Files.Open

/-!
Where paths lead, as a relation. `Leads` has one rule for each way a lookup gets past a
part of a path, and holds of exactly the lookups that end somewhere; what is true of the
ends of lookups is proved by induction on it.
-/

namespace RomEmbed.Files.Tree

variable {t u v : Tree} {p q : Purpose}

/-- A lookup may look the name up that stands before the rest of a path. -/
structure Passable (p : Purpose) (n : Name) (rest : List Part) : Prop where
  length_le : n.length ≤ Path.maxName
  no_slash : ¬(p = .create ∧ rest = [.slash])

/-- From a directory the parts lead to a place, over at most so many links. -/
inductive Leads (t : Tree) (p : Purpose) : Nat → Location → List Part → Place → Prop where
  | done {links dir} : Leads t p links dir [] (.dir dir)
  | here {links dir r place} (h : Leads t p links dir r place) :
      Leads t p links dir (.here :: r) place
  | slash {links dir r place} (h : Leads t p links dir r place) :
      Leads t p links dir (.slash :: r) place
  | up {links dir r place} (h : Leads t p links dir.dropLast r place) :
      Leads t p links dir (.up :: r) place
  | into {links dir n r place} (hn : Passable p n r) (he : t.get? (dir ++ [n]) = some .dir)
      (h : Leads t p links (dir ++ [n]) r place) : Leads t p links dir (.name n :: r) place
  | along {links dir n r place id target} (hn : Passable p n r)
      (he : t.get? (dir ++ [n]) = some (.link id target))
      (h : Leads t p links (start dir (Path.parse target)) ((Path.parse target).parts ++ r)
        place) : Leads t p (links + 1) dir (.name n :: r) place
  | file {links dir n id} (hn : Passable p n [])
      (he : t.get? (dir ++ [n]) = some (.file id)) :
      Leads t p links dir [.name n] (.entry (dir ++ [n]) (.file id))
  | device {links dir n d} (hn : Passable p n [])
      (he : t.get? (dir ++ [n]) = some (.device d)) :
      Leads t p links dir [.name n] (.entry (dir ++ [n]) (.device d))
  | vacant {links dir n} (hn : Passable p n []) (he : t.get? (dir ++ [n]) = none) :
      Leads t p links dir [.name n] (.vacant (dir ++ [n]))

/-! ### Lookups and the relation -/

/-- What a walk does at a link. -/
def follow (t : Tree) (p : Purpose) : Nat → Location → Bytes → List Part → Except OsError Place
  | 0, _, _, _ => .error .linkLoop
  | links + 1, dir, target, r =>
    t.walk p links (start dir (Path.parse target)) ((Path.parse target).parts ++ r)

lemma walk_eq (t : Tree) (p : Purpose) (links : Nat) :
    t.walk p links = t.walkWith p (t.follow p links) := by
  cases links <;> rfl

lemma walkWith_name {f : Location → Bytes → List Part → Except OsError Place} {dir : Location}
    {n : Name} {r : List Part} (hn : Passable p n r) :
    t.walkWith p f dir (.name n :: r) =
      match t.get? (dir ++ [n]) with
      | none => if r = [] then .ok (.vacant (dir ++ [n])) else .error .noEntry
      | some .dir => t.walkWith p f (dir ++ [n]) r
      | some (.link _ target) => f dir target r
      | some e => if r = [] then .ok (.entry (dir ++ [n]) e) else .error .notADirectory := by
  simp only [walkWith, child?, if_neg hn.no_slash, if_neg (Nat.not_lt.mpr hn.length_le)]
  rcases t.get? (dir ++ [n]) with _ | _ | _ | _ | _ <;> rfl

lemma passable_of_walkWith {f : Location → Bytes → List Part → Except OsError Place}
    {dir : Location} {n : Name} {r : List Part} {place : Place}
    (h : t.walkWith p f dir (.name n :: r) = .ok place) : Passable p n r := by
  simp only [walkWith, child?] at h
  split at h
  · cases h
  · next hs =>
    by_cases hlen : n.length > Path.maxName
    · simp [hlen] at h
    · exact ⟨Nat.not_lt.mp hlen, hs⟩

lemma leads_of_walk {links : Nat} {dir : Location} {parts : List Part} {place : Place}
    (h : t.walk p links dir parts = .ok place) : t.Leads p links dir parts place := by
  induction links using Nat.strongRecOn generalizing dir parts with
  | _ links ihl =>
  rw [walk_eq] at h
  induction parts generalizing dir with
  | nil =>
    obtain rfl : .dir dir = place := by simpa [walkWith] using h
    exact .done
  | cons part r ih =>
    cases part with
    | here => exact .here (ih h)
    | slash => exact .slash (ih h)
    | up => exact .up (ih h)
    | name n =>
      have hn := passable_of_walkWith h
      rw [walkWith_name hn] at h
      split at h
      · next he =>
        split at h
        · next hr => cases h; subst hr; exact .vacant hn he
        · cases h
      · next he => exact .into hn he (ih h)
      · next id target he =>
        cases links with
        | zero => cases h
        | succ links => exact .along hn he (ihl links (Nat.lt_succ_self _) h)
      · next e hdir hlink he =>
        split at h
        · next hr =>
          cases h
          subst hr
          cases e with
          | file id => exact .file hn he
          | device d => exact .device hn he
          | dir => exact absurd rfl hdir
          | link id target => exact absurd rfl (hlink id target)
        · cases h

lemma Leads.walk {links : Nat} {dir : Location} {parts : List Part} {place : Place}
    (h : t.Leads p links dir parts place) : t.walk p links dir parts = .ok place := by
  induction h with
  | done => rw [walk_eq]; rfl
  | here _ ih => rw [walk_eq] at ih ⊢; exact ih
  | slash _ ih => rw [walk_eq] at ih ⊢; exact ih
  | up _ ih => rw [walk_eq] at ih ⊢; exact ih
  | into hn he _ ih => rw [walk_eq, walkWith_name hn, he, ← walk_eq]; exact ih
  | along hn he _ ih => rw [walk_eq, walkWith_name hn, he]; exact ih
  | file hn he => rw [walk_eq, walkWith_name hn, he]; rfl
  | device hn he => rw [walk_eq, walkWith_name hn, he]; rfl
  | vacant hn he => rw [walk_eq, walkWith_name hn, he]; rfl

/-- **A lookup ends exactly where the path leads.** -/
theorem lookup_eq_ok_iff {path : Path} {place : Place} :
    t.lookup p path = .ok place ↔ t.Leads p maxLinks (start t.cwd path) path.parts place :=
  ⟨leads_of_walk, Leads.walk⟩

end RomEmbed.Files.Tree
