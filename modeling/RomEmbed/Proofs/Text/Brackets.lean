import Mathlib.Data.List.Infix
import Mathlib.Tactic.Common
import RomEmbed.Text.Basic

/-!
Texts whose brackets are properly matched and nested. Such a text is read with a stack of the
brackets that are still to come; it leaves every stack as it was, and it alone does. The height
of the stack is the depth, the number of brackets that are open.
-/

namespace RomEmbed.Text

variable {c d o : Char} {p q r s t u front rest st st' : Text}

/-! ### Matching and nesting -/

/-- The bracket that closes one that opens. -/
def closing? : Char → Option Char
  | '(' => some ')'
  | '[' => some ']'
  | '{' => some '}'
  | _ => none

def opens (c : Char) : Bool := (closing? c).isSome

def closes (c : Char) : Bool := c ∈ [')', ']', '}']

def isBracket (c : Char) : Bool := opens c || closes c

/-- Every bracket has its counterpart, and what stands between the two is balanced too. -/
inductive Balanced : Text → Prop
  | nil : Balanced []
  | other {c : Char} {t : Text} : isBracket c = false → Balanced t → Balanced (c :: t)
  | pair {o c : Char} {t u : Text} :
      closing? o = some c → Balanced t → Balanced u → Balanced (o :: (t ++ c :: u))

lemma closes_of_closing? (h : closing? o = some c) : closes c = true ∧ closing? c = none := by
  unfold closing? at h
  split at h <;> cases h <;> decide

lemma isBracket_eq_false_iff : isBracket c = false ↔ closing? c = none ∧ closes c = false := by
  rw [isBracket, Bool.or_eq_false_iff, opens, Option.isSome_eq_false_iff, Option.isNone_iff_eq_none]

/-- There is no bracket in the text. -/
def Bare (t : Text) : Prop := ∀ c ∈ t, isBracket c = false

-- with an instance of its own, as the one for all characters tries them all
instance : DecidablePred Bare := fun t =>
  decidable_of_iff (t.all (!isBracket ·) = true) (by simp [Bare])

lemma bare_append_iff : Bare (s ++ t) ↔ Bare s ∧ Bare t := List.forall_mem_append

lemma Bare.not_mem (h : Bare t) (hc : isBracket c = true) : c ∉ t :=
  fun hmem => Bool.false_ne_true ((h c hmem).symm.trans hc)

lemma Bare.balanced (h : Bare t) : Balanced t := by
  induction t with
  | nil => exact .nil
  | cons c r ih =>
    obtain ⟨hc, hr⟩ := List.forall_mem_cons.mp h
    exact .other hc (ih hr)

/-! ### Reading with a stack -/

/-- The brackets still to come, the next one first, after one more character. -/
def await (st : Text) (c : Char) : Option Text :=
  match closing? c with
  | some d => some (d :: st)
  | none => if closes c then [c].isPrefixOf? st else some st

/-- The brackets still to come after a text, if none in it came out of turn. -/
def awaited (st t : Text) : Option Text := t.foldlM await st

lemma await_cases (h : await st c = some st') :
    (∃ d, closing? c = some d ∧ st' = d :: st) ∨
      (closes c = true ∧ st = c :: st') ∨ (isBracket c = false ∧ st' = st) := by
  unfold await at h
  split at h
  · next d hd => exact Or.inl ⟨d, hd, (Option.some.inj h).symm⟩
  · next hnone =>
    split at h
    · next hcloses =>
      exact Or.inr (Or.inl ⟨hcloses, (List.isPrefixOf?_eq_some_iff_append_eq.mp h).symm⟩)
    · next hcloses =>
      have hc : isBracket c = false :=
        isBracket_eq_false_iff.mpr ⟨hnone, Bool.eq_false_iff.mpr hcloses⟩
      exact Or.inr (Or.inr ⟨hc, (Option.some.inj h).symm⟩)

lemma await_of_closing? (h : closing? o = some c) : await st o = some (c :: st) := by
  simp only [await, h]

lemma await_closing (h : closing? o = some c) : await (c :: st) c = some st := by
  obtain ⟨hcloses, hnone⟩ := closes_of_closing? h
  simp only [await, hnone, if_pos hcloses]
  exact List.isPrefixOf?_eq_some_iff_append_eq.mpr rfl

lemma await_other (h : isBracket c = false) : await st c = some st := by
  obtain ⟨hnone, hcloses⟩ := isBracket_eq_false_iff.mp h
  simp [await, hnone, hcloses]

lemma awaited_append : awaited st (s ++ t) = (awaited st s).bind fun st' => awaited st' t :=
  List.foldlM_append

lemma awaited_cons : awaited st (c :: t) = (await st c).bind fun st' => awaited st' t :=
  List.foldlM_cons

/-- A balanced text leaves every stack as it was. -/
lemma Balanced.awaited (h : Balanced t) (st : Text) : awaited st t = some st := by
  induction h generalizing st with
  | nil => rfl
  | other hc _ ih => rw [awaited_cons, await_other hc, Option.bind_some, ih]
  | pair hclosing _ _ iht ihu =>
    rw [awaited_cons, await_of_closing? hclosing, Option.bind_some, awaited_append, iht,
      Option.bind_some, awaited_cons, await_closing hclosing, Option.bind_some, ihu]

/-- The brackets of the stack come in turn, with balanced texts before and after each. -/
def Completes : Text → Text → Prop
  | [], t => Balanced t
  | c :: st, t => ∃ u v, t = u ++ c :: v ∧ Balanced u ∧ Completes st v

/-- What keeps balanced texts balanced when put before them does no harm here either. -/
lemma Completes.append (hs : ∀ u, Balanced u → Balanced (s ++ u)) (h : Completes st t) :
    Completes st (s ++ t) := by
  cases st with
  | nil => exact hs t h
  | cons c st =>
    obtain ⟨u, v, rfl, hu, hv⟩ := h
    exact ⟨s ++ u, v, (List.append_assoc ..).symm, hs u hu, hv⟩

lemma completes_of_awaited (h : awaited st t = some []) : Completes st t := by
  induction t generalizing st with
  | nil =>
    obtain rfl : st = [] := Option.some.inj h
    exact Balanced.nil
  | cons c r ih =>
    rw [awaited_cons, Option.bind_eq_some_iff] at h
    obtain ⟨st', hawait, hr⟩ := h
    rcases await_cases hawait with ⟨d, hd, rfl⟩ | ⟨-, rfl⟩ | ⟨hc, rfl⟩
    · -- the bracket that closes this one comes first, and makes a pair with it
      obtain ⟨u, v, rfl, hu, hv⟩ := ih hr
      have hpair : ∀ w, Balanced w → Balanced ((c :: (u ++ [d])) ++ w) := by
        intro w hw
        simpa using Balanced.pair hd hu hw
      simpa using hv.append hpair
    · exact ⟨[], r, rfl, .nil, ih hr⟩
    · have hskip : ∀ w, Balanced w → Balanced ([c] ++ w) := fun _ hw => .other hc hw
      exact (ih hr).append hskip

/-- **A text is balanced if its brackets empty the stack that they fill**, and not else. -/
theorem balanced_iff : Balanced t ↔ awaited [] t = some [] :=
  ⟨fun h => h.awaited [], completes_of_awaited⟩

instance : DecidablePred Balanced := fun _ => decidable_of_iff _ balanced_iff.symm

example : Balanced "a(b[0], [])".toList ∧ ¬Balanced "a(b[0)]".toList := by decide

lemma balanced_append_iff_of_left (h : Balanced s) : Balanced (s ++ t) ↔ Balanced t := by
  rw [balanced_iff, awaited_append, h.awaited, Option.bind_some, balanced_iff]

lemma balanced_append_iff_of_right (h : Balanced t) : Balanced (s ++ t) ↔ Balanced s := by
  have hkeep : (fun st => awaited st t) = some := funext h.awaited
  rw [balanced_iff, awaited_append, hkeep, Option.bind_fun_some, balanced_iff]

/-! ### Depth -/

/-- How many brackets are open after a text. -/
def depth (t : Text) : Int := t.countP opens - t.countP closes

lemma depth_append (s t : Text) : depth (s ++ t) = depth s + depth t := by
  simp only [depth, List.countP_append]
  omega

lemma depth_cons (c : Char) (t : Text) : depth (c :: t) = depth [c] + depth t :=
  depth_append [c] t

lemma depth_opening (h : closing? o = some c) : depth [o] = 1 := by
  unfold closing? at h
  split at h <;> cases h <;> decide

lemma depth_closing (h : closes c = true) : depth [c] = -1 := by
  have hc : c = ')' ∨ c = ']' ∨ c = '}' := by simpa [closes] using h
  rcases hc with rfl | rfl | rfl <;> decide

lemma depth_other (h : isBracket c = false) : depth [c] = 0 := by
  obtain ⟨hopens, hcloses⟩ := Bool.or_eq_false_iff.mp h
  simp [depth, hopens, hcloses]

/-- The depth is by how much the stack grows. -/
lemma length_of_awaited (h : awaited st t = some st') :
    (st'.length : Int) = st.length + depth t := by
  induction t generalizing st with
  | nil =>
    obtain rfl : st = st' := Option.some.inj h
    exact (Int.add_zero _).symm
  | cons c r ih =>
    rw [awaited_cons, Option.bind_eq_some_iff] at h
    obtain ⟨mid, hawait, hr⟩ := h
    have hmid := ih hr
    rw [depth_cons]
    rcases await_cases hawait with ⟨d, hd, rfl⟩ | ⟨hcloses, rfl⟩ | ⟨hc, rfl⟩
    · rw [List.length_cons] at hmid
      rw [depth_opening hd]
      omega
    · rw [List.length_cons, depth_closing hcloses]
      omega
    · rw [depth_other hc]
      omega

lemma Balanced.depth_eq_zero (h : Balanced t) : depth t = 0 := by
  have hlength := length_of_awaited (h.awaited [])
  omega

/-- Nowhere in a balanced text has more been closed than opened. -/
lemma Balanced.depth_nonneg (h : Balanced (p ++ q)) : 0 ≤ depth p := by
  have hread := h.awaited []
  rw [awaited_append, Option.bind_eq_some_iff] at hread
  obtain ⟨st, hp, -⟩ := hread
  have hlength := length_of_awaited hp
  simp only [List.length_nil] at hlength
  omega

/-- A place in a text is before a given character of it or after. -/
lemma split_cases (h : p ++ q = s ++ c :: t) :
    (∃ m, s = p ++ m ∧ q = m ++ c :: t) ∨ ∃ m, p = s ++ c :: m ∧ m ++ q = t := by
  rcases List.append_eq_append_iff.mp h with ⟨m, hs, hq⟩ | ⟨m, hp, hm⟩
  · exact Or.inl ⟨m, hs, hq⟩
  · rcases List.cons_eq_append_iff.mp hm with ⟨rfl, hq⟩ | ⟨m, rfl, ht⟩
    · exact Or.inl ⟨[], by rw [hp, List.append_nil, List.append_nil], hq⟩
    · exact Or.inr ⟨m, hp, ht.symm⟩

/-- A balanced text in curly brackets, with no bracket before and after: nothing is open before
the first bracket and after the last one, and something is everywhere between. -/
lemma depth_eq_zero_iff_of_enclosed (hfront : Bare front) (ht : Balanced t) (hrest : Bare rest)
    (hpq : p ++ q = front ++ '{' :: (t ++ '}' :: rest)) :
    depth p = 0 ↔ '{' ∉ p ∨ '}' ∉ q := by
  have hopen : depth ['{'] = 1 := depth_opening rfl
  have hclose : depth ['}'] = -1 := depth_closing rfl
  have hzero : depth front = 0 := hfront.balanced.depth_eq_zero
  rcases split_cases hpq with ⟨m, rfl, -⟩ | ⟨p, rfl, hp⟩
  · -- before the first bracket
    obtain ⟨hbare, -⟩ := bare_append_iff.mp hfront
    exact iff_of_true hbare.balanced.depth_eq_zero (Or.inl (hbare.not_mem rfl))
  rw [depth_append, depth_cons, hzero, hopen]
  rcases split_cases hp with ⟨m, rfl, rfl⟩ | ⟨m, rfl, rfl⟩
  · have hnonneg := ht.depth_nonneg
    exact iff_of_false (by omega) (by simp)
  · -- after the last bracket
    obtain ⟨hm, hq⟩ := bare_append_iff.mp hrest
    rw [depth_append, depth_cons, ht.depth_eq_zero, hclose, hm.balanced.depth_eq_zero]
    exact iff_of_true rfl (Or.inr (hq.not_mem rfl))

end RomEmbed.Text
