import Mathlib.Algebra.Group.Nat.Defs
import Mathlib.Tactic.Common
import Mathlib.Data.List.Induction
import RomEmbed.Proofs.Text.Encoding

/-!
Octets that read as a text are the encoding of that text. While a character is under way, its
first octets leave open only which octets are to complete it: whatever value they make up, if
the next of them is within the bounds, the value is that of a character, and its encoding
begins with the octets read. So a scan without ill-formed parts has read the encoding of its
pieces, and of the beginning of at most one more character.
-/

namespace RomEmbed.Utf8

variable {bs : Bytes} {b : UInt8} {h low high : Nat} {p : Pending} {s : State} {t : Text}

/-! ### A character under way -/

lemma toNat_ofNat {n : Nat} (h : n.isValidChar) : (Char.ofNat n).toNat = n := by
  unfold Char.ofNat
  rw [dif_pos h]
  rfl

/-- An octet of ASCII is a character by itself. -/
lemma encodeChar_ofNat (h : b.toNat < 0x80) : encodeChar (Char.ofNat b.toNat) = [b] := by
  have hn : (Char.ofNat b.toNat).toNat = b.toNat := toNat_ofNat (Or.inl (by omega))
  simp only [encodeChar, hn, if_pos h, UInt8.ofNat_toNat]

lemma mem_encodeChar_iff {c : Char} (hb : b.toNat < 0x80) :
    b ∈ encodeChar c ↔ c = Char.ofNat b.toNat := by
  constructor
  · intro h
    have hvalid := toNat_valid c
    unfold encodeChar at h
    dsimp only at h
    split_ifs at h
    · obtain rfl := List.mem_singleton.mp h
      rw [toNat_octet (by omega), Char.ofNat_toNat]
    -- of several octets each is from `80` on
    all_goals simp only [List.mem_cons, List.not_mem_nil, or_false] at h
    · rcases h with rfl | rfl <;> rw [toNat_octet (by omega)] at hb <;> omega
    · rcases h with rfl | rfl | rfl <;> rw [toNat_octet (by omega)] at hb <;> omega
    · rcases h with rfl | rfl | rfl | rfl <;> rw [toNat_octet (by omega)] at hb <;> omega
  · rintro rfl
    simp [encodeChar_ofNat hb]

/-- An octet of ASCII is found in an encoding only where its character is in the text. -/
lemma mem_encode_iff (hb : b.toNat < 0x80) : b ∈ encode t ↔ Char.ofNat b.toNat ∈ t := by
  simp [encode, mem_encodeChar_iff hb]

/-- The last `n` octets of a value, six bits in each. -/
def trailing : Nat → Nat → Bytes
  | 0, _ => []
  | n + 1, v => UInt8.ofNat (0x80 + v / 64 ^ n % 64) :: trailing n v

/-- The octets `bs` begin exactly the characters that `p` waits for the rest of. -/
structure Underway (bs : Bytes) (p : Pending) : Prop where
  need : p.need ≠ 0
  low : 0x80 ≤ p.low
  high : p.high ≤ 0xBF
  encodeChar_eq : ∀ v, v / 64 ^ p.need = p.bits →
    p.low ≤ 0x80 + v / 64 ^ (p.need - 1) % 64 → 0x80 + v / 64 ^ (p.need - 1) % 64 ≤ p.high →
    encodeChar (Char.ofNat v) = bs ++ trailing p.need v

lemma underway_two (hb : b.toNat = 0xC0 + h) (hl : 2 ≤ h) (hh : h < 0x20) :
    Underway [b] ⟨h, 1, 0x80, 0xBF⟩ := by
  refine ⟨Nat.one_ne_zero, Nat.le_refl _, Nat.le_refl _, fun v hv _ _ => ?_⟩
  simp only [Nat.pow_one] at hv
  have hn : (Char.ofNat v).toNat = v := toNat_ofNat (Or.inl (by omega))
  have hlead : UInt8.ofNat (0xC0 + v / 64) = b := by rw [hv, ← hb, UInt8.ofNat_toNat]
  simp only [encodeChar, hn, if_neg (show ¬v < 0x80 by omega), if_pos (show v < 0x800 by omega),
    hlead, trailing, Nat.pow_zero, Nat.div_one, List.cons_append, List.nil_append]

lemma underway_three (hb : b.toNat = 0xE0 + h) (hh : h < 0x10) (hlow : 0x80 ≤ low)
    (hhigh : high ≤ 0xBF) (hlong : h = 0 → 0xA0 ≤ low) (hsurrogate : h = 0xD → high ≤ 0x9F) :
    Underway [b] ⟨h, 2, low, high⟩ := by
  refine ⟨Nat.succ_ne_zero 1, hlow, hhigh, fun v hv hl hu => ?_⟩
  simp only [Nat.reducePow, Nat.reduceSub, Nat.pow_one] at hv hl hu
  have hn : (Char.ofNat v).toNat = v := toNat_ofNat (by unfold Nat.isValidChar; omega)
  have hlead : UInt8.ofNat (0xE0 + v / 4096) = b := by rw [hv, ← hb, UInt8.ofNat_toNat]
  simp only [encodeChar, hn, if_neg (show ¬v < 0x80 by omega),
    if_neg (show ¬v < 0x800 by omega), if_pos (show v < 0x10000 by omega), hlead, trailing,
    Nat.pow_zero, Nat.pow_one, Nat.div_one, List.cons_append, List.nil_append]

lemma underway_four (hb : b.toNat = 0xF0 + h) (hh : h ≤ 4) (hlow : 0x80 ≤ low)
    (hhigh : high ≤ 0xBF) (hlong : h = 0 → 0x90 ≤ low) (hlast : h = 4 → high ≤ 0x8F) :
    Underway [b] ⟨h, 3, low, high⟩ := by
  refine ⟨Nat.succ_ne_zero 2, hlow, hhigh, fun v hv hl hu => ?_⟩
  simp only [Nat.reducePow, Nat.reduceSub] at hv hl hu
  have hn : (Char.ofNat v).toNat = v := toNat_ofNat (by unfold Nat.isValidChar; omega)
  have hlead : UInt8.ofNat (0xF0 + v / 262144) = b := by rw [hv, ← hb, UInt8.ofNat_toNat]
  simp only [encodeChar, hn, if_neg (show ¬v < 0x80 by omega),
    if_neg (show ¬v < 0x800 by omega), if_neg (show ¬v < 0x10000 by omega), hlead, trailing,
    Nat.reducePow, Nat.pow_zero, Nat.pow_one, Nat.div_one, List.cons_append, List.nil_append]

lemma underway_lead (hlead : lead? b.toNat = some p) : Underway [b] p := by
  unfold lead? at hlead
  split_ifs at hlead <;> obtain rfl := Option.some.inj hlead
  · exact underway_two (by omega) (by omega) (by omega)
  · exact underway_three (by omega) (by omega) (by omega) (by omega) (by omega) (by omega)
  · exact underway_three (by omega) (by omega) (by omega) (by omega) (by omega) (by omega)
  · exact underway_three (by omega) (by omega) (by omega) (by omega) (by omega) (by omega)
  · exact underway_four (by omega) (by omega) (by omega) (by omega) (by omega) (by omega)
  · exact underway_four (by omega) (by omega) (by omega) (by omega) (by omega) (by omega)
  · exact underway_four (by omega) (by omega) (by omega) (by omega) (by omega) (by omega)

/-- An octet within the bounds that is not the last one. -/
lemma Underway.inner (h : Underway bs p) (hl : p.low ≤ b.toNat) (hh : b.toNat ≤ p.high)
    (hneed : p.need ≠ 1) :
    Underway (bs ++ [b]) ⟨p.bits * 64 + (b.toNat - 0x80), p.need - 1, 0x80, 0xBF⟩ := by
  obtain ⟨bits, need, low, high⟩ := p
  obtain ⟨h0, hlow, hhigh, hencode⟩ := h
  simp only at h0 hlow hhigh hl hh hneed
  obtain ⟨n, rfl⟩ : ∃ n, need = n + 2 := ⟨need - 2, by omega⟩
  refine ⟨Nat.succ_ne_zero n, Nat.le_refl _, Nat.le_refl _, fun v hv _ _ => ?_⟩
  simp only [Nat.add_one_sub_one] at hv hencode ⊢
  have hnext : v / 64 ^ (n + 1) % 64 = b.toNat - 0x80 := by omega
  have hbits : v / 64 ^ (n + 2) = bits := by
    rw [Nat.pow_succ, ← Nat.div_div_eq_div_mul]
    omega
  have hoctet : UInt8.ofNat (0x80 + v / 64 ^ (n + 1) % 64) = b := by
    rw [hnext, Nat.add_sub_of_le (by omega), UInt8.ofNat_toNat]
  rw [hencode v hbits (by omega) (by omega), trailing, hoctet, List.append_assoc]
  rfl

/-- The last octet. -/
lemma Underway.last (h : Underway bs p) (hl : p.low ≤ b.toNat) (hh : b.toNat ≤ p.high)
    (hneed : p.need = 1) :
    encodeChar (Char.ofNat (p.bits * 64 + (b.toNat - 0x80))) = bs ++ [b] := by
  obtain ⟨bits, need, low, high⟩ := p
  obtain ⟨-, hlow, hhigh, hencode⟩ := h
  simp only at hlow hhigh hl hh hneed
  subst hneed
  simp only [Nat.sub_self, Nat.pow_zero, Nat.pow_one, Nat.div_one] at hencode
  have hnext : 0x80 + (bits * 64 + (b.toNat - 0x80)) % 64 = b.toNat := by omega
  dsimp only
  rw [hencode _ (by omega) (by omega) (by omega), trailing, Nat.pow_zero, Nat.div_one, hnext,
    UInt8.ofNat_toNat]
  rfl

/-! ### The scan -/

/-- The octets are those of the pieces and of the character under way. -/
def Covers (bs : Bytes) (s : State) : Prop :=
  ∃ t begun, s.pieces = (t.map some).reverse ∧ bs = encode t ++ begun ∧
    (s.pending = none ∧ begun = [] ∨ ∃ p, s.pending = some p ∧ Underway begun p)

lemma subset_start (ps : List (Option Char)) (b : UInt8) : ps ⊆ (start ps b).pieces := by
  unfold start
  split
  · exact List.subset_cons_self _ _
  · split
    · exact List.Subset.refl _
    · exact List.subset_cons_self _ _

lemma subset_step (s : State) (b : UInt8) : s.pieces ⊆ (step s b).pieces := by
  unfold step
  split
  · exact subset_start _ _
  · split
    · dsimp only
      split
      · exact List.subset_cons_self _ _
      · exact List.Subset.refl _
    · exact List.Subset.trans (List.subset_cons_self _ _) (subset_start _ _)

lemma covers_start (hno : none ∉ (start (t.map some).reverse b).pieces) :
    Covers (encode t ++ [b]) (start (t.map some).reverse b) := by
  by_cases hascii : b.toNat < 0x80
  · have hencode := encodeChar_ofNat hascii
    refine ⟨t ++ [Char.ofNat b.toNat], [], ?_, ?_, Or.inl ⟨?_, rfl⟩⟩
    · simp [start, hascii]
    · simp [encode_append, hencode]
    · simp [start, hascii]
  · rcases hlead : lead? b.toNat with _ | p
    · simp [start, hascii, hlead] at hno
    · refine ⟨t, [b], ?_, rfl, Or.inr ⟨p, ?_, underway_lead hlead⟩⟩
      · simp [start, hascii, hlead]
      · simp [start, hascii, hlead]

/-- One octet more. -/
lemma Covers.step (h : Covers bs s) (hno : none ∉ (step s b).pieces) :
    Covers (bs ++ [b]) (step s b) := by
  obtain ⟨pieces, pending⟩ := s
  obtain ⟨t, begun, hpieces, rfl, ⟨hpending, rfl⟩ | ⟨p, hpending, hunderway⟩⟩ := h
  · obtain rfl : pending = none := hpending
    obtain rfl : pieces = (t.map some).reverse := hpieces
    rw [List.append_nil]
    exact covers_start hno
  · obtain rfl : pending = some p := hpending
    obtain rfl : pieces = (t.map some).reverse := hpieces
    by_cases hbounds : p.low ≤ b.toNat ∧ b.toNat ≤ p.high
    · by_cases hneed : p.need = 1
      · have hlast := hunderway.last hbounds.1 hbounds.2 hneed
        refine ⟨t ++ [Char.ofNat (p.bits * 64 + (b.toNat - 0x80))], [], ?_, ?_,
          Or.inl ⟨?_, rfl⟩⟩
        · simp [Utf8.step, hbounds, hneed]
        · simp [encode_append, hlast]
        · simp [Utf8.step, hbounds, hneed]
      · refine ⟨t, begun ++ [b], ?_, List.append_assoc _ _ _,
          Or.inr ⟨_, ?_, hunderway.inner hbounds.1 hbounds.2 hneed⟩⟩
        · simp [Utf8.step, hbounds, hneed]
        · simp [Utf8.step, hbounds, hneed]
    · -- the character is broken off, which is an ill-formed part
      refine absurd ?_ hno
      simp only [Utf8.step, if_neg hbounds]
      exact subset_start _ _ (List.mem_cons_self ..)

lemma covers_run (hno : none ∉ (run init bs).pieces) : Covers bs (run init bs) := by
  induction bs using List.reverseRecOn with
  | nil => exact ⟨[], [], rfl, rfl, Or.inl ⟨rfl, rfl⟩⟩
  | append_singleton as b ih =>
    rw [run_append, run_cons, run_nil] at hno ⊢
    exact (ih fun hmem => hno (subset_step _ _ hmem)).step hno

lemma exists_encode_of_scan (hno : none ∉ scan bs) : ∃ t, bs = encode t := by
  have hpieces : none ∉ (run init bs).pieces := by
    unfold scan finish at hno
    split at hno <;> simp_all
  obtain ⟨t, begun, -, hbs, ⟨-, rfl⟩ | ⟨p, hpending, -⟩⟩ := covers_run hpieces
  · exact ⟨t, by simpa using hbs⟩
  · simp [scan, finish, hpending] at hno

/-- **What reads as a text is the encoding of that text, and nothing else is.** -/
theorem decode?_eq_some_iff : decode? bs = some t ↔ bs = encode t := by
  constructor
  · intro h
    have hno : none ∉ scan bs := by
      intro hmem
      simp [decode?, hmem] at h
    obtain ⟨u, rfl⟩ := exists_encode_of_scan hno
    rw [decode?_encode] at h
    rw [Option.some.inj h]
  · rintro rfl
    exact decode?_encode t

/-! ### The encoding of strings -/

/-- Characters are encoded as strings hold them. -/
lemma encodeChar_eq (c : Char) : encodeChar c = String.utf8EncodeChar c := by
  have hvalid := toNat_valid c
  have hval : c.val.toNat = c.toNat := rfl
  unfold encodeChar String.utf8EncodeChar
  rw [hval]
  dsimp only
  generalize c.toNat = n at hvalid
  by_cases h1 : n < 0x80
  · rw [if_pos h1, if_pos (by omega)]
  by_cases h2 : n < 0x800
  · rw [if_neg h1, if_pos h2, if_neg (by omega), if_pos (by omega),
      Nat.mod_eq_of_lt (show n / 64 < 0x20 by omega), Nat.add_comm (n / 64),
      Nat.add_comm (n % 64)]
  by_cases h3 : n < 0x10000
  · rw [if_neg h1, if_neg h2, if_pos h3, if_neg (by omega), if_neg (by omega),
      if_pos (by omega), Nat.mod_eq_of_lt (show n / 4096 < 0x10 by omega),
      Nat.add_comm (n / 4096), Nat.add_comm (n / 64 % 64), Nat.add_comm (n % 64)]
  · rw [if_neg h1, if_neg h2, if_neg h3, if_neg (by omega), if_neg (by omega),
      if_neg (by omega), Nat.mod_eq_of_lt (show n / 262144 < 0x08 by omega),
      Nat.add_comm (n / 262144), Nat.add_comm (n / 4096 % 64), Nat.add_comm (n / 64 % 64),
      Nat.add_comm (n % 64)]

/-- What reads as a text is what a string can hold. -/
lemma isValidUTF8_iff : bs.toByteArray.IsValidUTF8 ↔ ∃ t, decode? bs = some t := by
  have hencode (t : Text) : encode t = t.flatMap String.utf8EncodeChar := by
    rw [encode, funext encodeChar_eq]
  have hiff : bs.toByteArray.IsValidUTF8 ↔ ∃ t : Text, bs.toByteArray = t.utf8Encode := by
    constructor
    · rintro ⟨t, ht⟩
      exact ⟨t, ht⟩
    · rintro ⟨t, ht⟩
      exact ⟨t, ht⟩
  simp only [hiff, decode?_eq_some_iff, hencode, List.utf8Encode, List.toByteArray_inj]

end RomEmbed.Utf8
