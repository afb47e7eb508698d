import Mathlib.Tactic.Common
import RomEmbed.Proofs.Text.Scanning

/-!
Octets that are no text, shown as one. Where no character stands, the longest part that begins
one is shown as a single replacement character, or a single octet if none begins there. The scan
finds exactly these parts: it leaves a character off at the first octet that no character has
there, for it has met no ill-formed part before that octet, and a character of which one octet was
refused is not read at all.

An octet of ASCII is never within such a part, so the texts before and after it are shown each by
itself.
-/

namespace RomEmbed.Utf8

variable {bs begun part rest : Bytes} {b : UInt8} {p : Pending} {t : Text}
  {r : List (Option Char)}

/-! ### What is to be shown -/

/-- No character begins here, and `part` is the longest beginning of one, or a single octet. -/
structure IllFormed (part rest : Bytes) : Prop where
  ne_nil : part ≠ []
  not_prefix : ∀ c, ¬encodeChar c <+: part ++ rest
  begins : part.length = 1 ∨ ∃ c, part <+: encodeChar c
  longest : ∀ longer c, longer <+: part ++ rest → longer <+: encodeChar c →
    longer.length ≤ part.length

/-- A text shows octets: characters as they are, and ill-formed parts as one replacement
character each. -/
inductive Shows : Bytes → Text → Prop
  | nil : Shows [] []
  | char (c : Char) {rest : Bytes} {t : Text} :
      Shows rest t → Shows (encodeChar c ++ rest) (c :: t)
  | part {part rest : Bytes} {t : Text} :
      IllFormed part rest → Shows rest t → Shows (part ++ rest) ('\uFFFD' :: t)

/-- The ill-formed part at the front of octets is the only one. -/
lemma IllFormed.unique {part' rest' : Bytes} (h : IllFormed part rest)
    (h' : IllFormed part' rest') (heq : part ++ rest = part' ++ rest') :
    part = part' ∧ rest = rest' := by
  have length_le {a b c d : Bytes} (ha : IllFormed a b) (hc : IllFormed c d)
      (he : c ++ d = a ++ b) : c.length ≤ a.length := by
    have hone : 1 ≤ a.length := List.length_pos_iff.mpr ha.ne_nil
    rcases hc.begins with hc1 | ⟨x, hx⟩
    · omega
    · exact ha.longest c x (he ▸ List.prefix_append c d) hx
  exact List.append_inj heq (Nat.le_antisymm (length_le h' h heq) (length_le h h' heq.symm))

lemma Shows.length_le (h : Shows bs t) : t.length ≤ bs.length := by
  induction h with
  | nil => exact Nat.le_refl 0
  | char c _ ih =>
    have hone := List.length_pos_iff.mpr (encodeChar_ne_nil c)
    rw [List.length_append, List.length_cons]
    omega
  | part hpart _ ih =>
    have hone := List.length_pos_iff.mpr hpart.ne_nil
    rw [List.length_append, List.length_cons]
    omega

/-! ### Where the scan breaks a character off -/

lemma subset_run (s : State) (bs : Bytes) : s.pieces ⊆ (run s bs).pieces := by
  induction bs generalizing s with
  | nil => exact List.Subset.refl _
  | cons b bs ih => exact List.Subset.trans (subset_step s b) (ih _)

/-- Octets that are read with an ill-formed part begin no character. -/
lemma not_prefix_encodeChar (h : none ∈ (run init bs).pieces) (c : Char) :
    ¬bs <+: encodeChar c := by
  rintro ⟨rest, hrest⟩
  have hmem := subset_run (run init bs) rest h
  rw [← run_append, hrest, init, run_encodeChar] at hmem
  simp at hmem

lemma illFormed_of_scan (hne : part ≠ [])
    (hbegins : part.length = 1 ∨ ∃ c, part <+: encodeChar c)
    (hscan : scan (part ++ rest) = none :: r)
    (hstop : ∀ b rest', rest = b :: rest' → none ∈ (run init (part ++ [b])).pieces) :
    IllFormed part rest := by
  refine ⟨hne, ?_, hbegins, ?_⟩
  · rintro c ⟨rest', hrest'⟩
    rw [← hrest', scan_encodeChar_append] at hscan
    cases hscan
  · intro longer c hlonger hc
    by_contra hlt
    -- one octet more than the part would be read without an ill-formed part
    obtain ⟨more, rfl⟩ : part <+: longer :=
      List.prefix_of_prefix_length_le (List.prefix_append part rest) hlonger (by omega)
    rcases more with _ | ⟨b, more⟩
    · simp at hlt
    · obtain ⟨rest', hrest'⟩ := (List.prefix_append_right_inj part).mp hlonger
      have hpart : part ++ [b] <+: encodeChar c := by
        refine List.IsPrefix.trans ?_ hc
        exact (List.prefix_append_right_inj part).mpr ⟨more, rfl⟩
      exact not_prefix_encodeChar (hstop b _ hrest'.symm) c hpart

/-- The octets `begun` are read as the beginning `p` of a character, and leave one open. -/
structure Reached (begun : Bytes) (p : Pending) : Prop where
  run_eq : run init begun = ⟨[], some p⟩
  underway : Underway begun p
  low_le_high : p.low ≤ p.high

lemma step_lead_eq {b : UInt8} (hascii : ¬b.toNat < 0x80) (hlead : lead? b.toNat = some p)
    (ps : List (Option Char)) : step ⟨ps, none⟩ b = ⟨ps, some p⟩ := by
  simp [step, start, hascii, hlead]

lemma Reached.lead (hascii : ¬b.toNat < 0x80) (hlead : lead? b.toNat = some p) :
    Reached [b] p := by
  refine ⟨step_lead_eq hascii hlead [], underway_lead hlead, ?_⟩
  unfold lead? at hlead
  split_ifs at hlead <;> obtain rfl := Option.some.inj hlead <;> simp only <;> omega

lemma Reached.inner (h : Reached begun p) (hbounds : p.low ≤ b.toNat ∧ b.toNat ≤ p.high)
    (hneed : p.need ≠ 1) :
    Reached (begun ++ [b]) ⟨p.bits * 64 + (b.toNat - 0x80), p.need - 1, 0x80, 0xBF⟩ := by
  refine ⟨?_, h.underway.inner hbounds.1 hbounds.2 hneed, by simp only; omega⟩
  rw [run_append, h.run_eq, run_cons, run_nil]
  simp [step, hbounds, hneed]

lemma Reached.ne_nil (h : Reached begun p) : begun ≠ [] := by
  rintro rfl
  have hrun := h.run_eq
  rw [run_nil] at hrun
  cases hrun

/-- The lowest octet that may come next goes on with some character. -/
lemma Reached.exists_prefix (h : Reached begun p) : ∃ c, begun <+: encodeChar c := by
  obtain ⟨n, hn⟩ := Nat.exists_eq_add_one_of_ne_zero h.underway.need
  have hlow := h.underway.low
  have hle := h.low_le_high
  have hhigh := h.underway.high
  set x := p.low - 0x80 with hx
  set v := (p.bits * 64 + x) * 64 ^ n with hv
  have hdiv : v / 64 ^ n = p.bits * 64 + x := Nat.mul_div_cancel _ (Nat.pow_pos (by omega))
  have hbits : v / 64 ^ p.need = p.bits := by
    rw [hn, Nat.pow_succ, ← Nat.div_div_eq_div_mul, hdiv]
    omega
  have hnext : 0x80 + v / 64 ^ (p.need - 1) % 64 = p.low := by
    rw [hn, Nat.add_one_sub_one, hdiv]
    omega
  exact ⟨Char.ofNat v, trailing p.need v,
    (h.underway.encodeChar_eq v hbits (by omega) (by omega)).symm⟩

/-- With a character under way, either it is completed, or it is broken off and is ill-formed. -/
lemma Reached.cases (h : Reached begun p) (bs : Bytes) :
    (∃ c rest, begun ++ bs = encodeChar c ++ rest) ∨
    ∃ part rest, begun ++ bs = part ++ rest ∧ IllFormed part rest ∧
      scan (begun ++ bs) = none :: scan rest := by
  induction bs generalizing begun p with
  | nil =>
    have hscan : scan (begun ++ []) = [none] := by
      rw [List.append_nil, scan, h.run_eq]
      rfl
    exact Or.inr ⟨begun, [], rfl,
      illFormed_of_scan h.ne_nil (Or.inr h.exists_prefix) hscan (by simp), hscan⟩
  | cons b bs ih =>
    by_cases hbounds : p.low ≤ b.toNat ∧ b.toNat ≤ p.high
    · by_cases hneed : p.need = 1
      · have hlast := h.underway.last hbounds.1 hbounds.2 hneed
        exact Or.inl ⟨_, bs, by rw [hlast, List.append_assoc]; rfl⟩
      · rw [← List.singleton_append, ← List.append_assoc]
        exact ih (h.inner hbounds hneed)
    · have hstep : step ⟨[], some p⟩ b = start [none] b := by simp [step, hbounds]
      have hstart := start_pieces_append [] [none] b
      rw [List.nil_append] at hstart
      have hstop : none ∈ (run init (begun ++ [b])).pieces := by
        rw [run_append, h.run_eq, run_cons, run_nil, hstep]
        exact subset_start _ _ (List.mem_singleton.mpr rfl)
      have hscan : scan (begun ++ b :: bs) = none :: scan (b :: bs) := by
        rw [scan, run_append, h.run_eq, run_cons, hstep, hstart, finish_run_append]
        rfl
      refine Or.inr ⟨begun, b :: bs, rfl, ?_, hscan⟩
      refine illFormed_of_scan h.ne_nil (Or.inr h.exists_prefix) hscan fun b' rest' heq => ?_
      rw [← (List.cons.inj heq).1]
      exact hstop

/-- **The front of any octets** is a character, or an ill-formed part that is read as one. -/
lemma scan_cases (hne : bs ≠ []) :
    (∃ c rest, bs = encodeChar c ++ rest) ∨
    ∃ part rest, bs = part ++ rest ∧ IllFormed part rest ∧ scan bs = none :: scan rest := by
  obtain ⟨b, bs, rfl⟩ := List.exists_cons_of_ne_nil hne
  by_cases hascii : b.toNat < 0x80
  · exact Or.inl ⟨_, bs, by rw [encodeChar_ofNat hascii]; rfl⟩
  rcases hlead : lead? b.toNat with _ | p
  · -- an octet that begins no character
    have hstep : step init b = ⟨[none], none⟩ := by simp [step, start, init, hascii, hlead]
    have hscan : scan (b :: bs) = none :: scan bs := by
      rw [scan, run_cons, hstep, finish_run_none]
      rfl
    refine Or.inr ⟨[b], bs, rfl, illFormed_of_scan (by simp) (Or.inl rfl) hscan ?_, hscan⟩
    intro b' rest' _
    rw [List.singleton_append, run_cons, hstep]
    exact subset_run _ _ (List.mem_singleton.mpr rfl)
  · exact (Reached.lead hascii hlead).cases bs

lemma scan_of_illFormed (h : IllFormed part rest) : scan (part ++ rest) = none :: scan rest := by
  rcases scan_cases (List.append_ne_nil_of_left_ne_nil h.ne_nil rest) with
    ⟨c, rest', heq⟩ | ⟨part', rest', heq, h', hscan⟩
  · exact absurd ⟨rest', heq.symm⟩ (h.not_prefix c)
  · obtain ⟨rfl, rfl⟩ := h.unique h' heq
    exact hscan

/-! ### What is shown -/

lemma lossy_encodeChar_append (c : Char) (bs : Bytes) :
    lossy (encodeChar c ++ bs) = c :: lossy bs := by
  rw [lossy, scan_encodeChar_append]
  rfl

lemma lossy_of_illFormed (h : IllFormed part rest) :
    lossy (part ++ rest) = '\uFFFD' :: lossy rest := by
  rw [lossy, scan_of_illFormed h]
  rfl

lemma shows_lossy (bs : Bytes) : Shows bs (lossy bs) := by
  induction hn : bs.length using Nat.strongRecOn generalizing bs with
  | _ n ih =>
  by_cases hne : bs = []
  · subst hne
    exact .nil
  rcases scan_cases hne with ⟨c, rest, rfl⟩ | ⟨part, rest, rfl, hpart, -⟩
  · have hone := List.length_pos_iff.mpr (encodeChar_ne_nil c)
    rw [lossy_encodeChar_append]
    exact .char c (ih rest.length (by rw [← hn, List.length_append]; omega) rest rfl)
  · have hone := List.length_pos_iff.mpr hpart.ne_nil
    rw [lossy_of_illFormed hpart]
    exact .part hpart (ih rest.length (by rw [← hn, List.length_append]; omega) rest rfl)

/-- **Octets are shown in one way only**, and that is the one of `lossy`. -/
theorem shows_iff : Shows bs t ↔ t = lossy bs := by
  constructor
  · intro h
    induction h with
    | nil => rfl
    | char c _ ih => rw [lossy_encodeChar_append, ih]
    | part hpart _ ih => rw [lossy_of_illFormed hpart, ih]
  · rintro rfl
    exact shows_lossy bs

/-! ### Octets of ASCII -/

/-- No octet of ASCII goes on with a character. -/
lemma low_of_pending (h : (run init bs).pending = some p) : 0x80 ≤ p.low := by
  have hstart (ps : List (Option Char)) (b : UInt8) (hp : (start ps b).pending = some p) :
      0x80 ≤ p.low := by
    unfold start at hp
    split at hp
    · cases hp
    · split at hp
      · next hlead =>
        obtain rfl := Option.some.inj hp
        exact (underway_lead hlead).low
      · cases hp
  induction bs using List.reverseRecOn with
  | nil => cases h
  | append_singleton as b ih =>
    rw [run_append, run_cons, run_nil] at h
    unfold step at h
    split at h
    · exact hstart _ _ h
    · split at h
      · dsimp only at h
        split at h
        · cases h
        · obtain rfl := Option.some.inj h
          exact Nat.le_refl _
      · exact hstart _ _ h

/-- At an octet of ASCII what is under way ends. -/
lemma step_run_ascii (as : Bytes) (hb : b.toNat < 0x80) :
    step (run init as) b = ⟨some (Char.ofNat b.toNat) :: (scan as).reverse, none⟩ := by
  have hlow : ∀ p, (run init as).pending = some p → 0x80 ≤ p.low := fun _ => low_of_pending
  rw [scan]
  rcases hs : run init as with ⟨pieces, _ | p⟩
  · simp [step, start, finish, hb]
  · have hbounds : ¬(p.low ≤ b.toNat ∧ b.toNat ≤ p.high) := by
      have := hlow p (by rw [hs])
      omega
    simp [step, start, finish, hb, hbounds]

/-- **What stands before an octet of ASCII and what comes after it are shown apart.** -/
theorem lossy_append_ascii (as bs : Bytes) (hb : b.toNat < 0x80) :
    lossy (as ++ b :: bs) = lossy as ++ Char.ofNat b.toNat :: lossy bs := by
  have hscan : scan (as ++ b :: bs) = scan as ++ some (Char.ofNat b.toNat) :: scan bs := by
    rw [scan, run_append, run_cons, step_run_ascii as hb, finish_run_none]
    simp
  rw [lossy, hscan, List.map_append, List.map_cons]
  rfl

lemma lossy_intercalate (hb : b.toNat < 0x80) (parts : List Bytes) :
    lossy ([b].intercalate parts) = [Char.ofNat b.toNat].intercalate (parts.map lossy) := by
  induction parts with
  | nil => rfl
  | cons part parts ih =>
    rcases parts with _ | ⟨part', parts⟩
    · simp
    · rw [List.intercalate_cons_cons, List.append_assoc, List.singleton_append,
        lossy_append_ascii _ _ hb, ih]
      simp [List.intercalate_cons_cons]

/-! ### Octets that are a text -/

/-- Nothing of a text is replaced, and what is replaced is no text. -/
lemma encode_lossy_iff : encode (lossy bs) = bs ↔ bs.toByteArray.IsValidUTF8 := by
  rw [isValidUTF8_iff]
  constructor
  · intro h
    exact ⟨lossy bs, decode?_eq_some_iff.mpr h.symm⟩
  · rintro ⟨t, ht⟩
    obtain rfl := decode?_eq_some_iff.mp ht
    rw [lossy_encode]

end RomEmbed.Utf8
