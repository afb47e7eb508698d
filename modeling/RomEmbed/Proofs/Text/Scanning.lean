import Mathlib.Tactic.Common
import RomEmbed.Proofs.Text.Decoding

/-!
The first piece of a scan. What was read before does not change how the rest is read, so a
scan comes apart at the end of a character. Its first piece is a character exactly if the
octets begin with the encoding of that character: no other octets are ever read as it.
-/

namespace RomEmbed.Utf8

variable {bs begun : Bytes} {c : Char} {p : Pending} {r : List (Option Char)}

/-! ### Pieces read before -/

lemma start_pieces_append (ps qs : List (Option Char)) (b : UInt8) :
    start (ps ++ qs) b = ⟨(start ps b).pieces ++ qs, (start ps b).pending⟩ := by
  unfold start
  split
  · rfl
  · split <;> rfl

lemma step_pieces_append (s : State) (ps : List (Option Char)) (b : UInt8) :
    step ⟨s.pieces ++ ps, s.pending⟩ b = ⟨(step s b).pieces ++ ps, (step s b).pending⟩ := by
  obtain ⟨pieces, _ | p⟩ := s
  · exact start_pieces_append pieces ps b
  · simp only [step]
    split
    · split <;> rfl
    · exact start_pieces_append (none :: pieces) ps b

lemma run_pieces_append (s : State) (ps : List (Option Char)) (bs : Bytes) :
    run ⟨s.pieces ++ ps, s.pending⟩ bs = ⟨(run s bs).pieces ++ ps, (run s bs).pending⟩ := by
  induction bs generalizing s with
  | nil => rfl
  | cons b bs ih => rw [run_cons, run_cons, step_pieces_append, ih]

lemma finish_pieces_append (s : State) (ps : List (Option Char)) :
    finish ⟨s.pieces ++ ps, s.pending⟩ = ps.reverse ++ finish s := by
  obtain ⟨pieces, _ | p⟩ := s <;> simp [finish]

/-- The pieces that were there come first, whatever is read after them. -/
lemma finish_run_append (s : State) (ps : List (Option Char)) (bs : Bytes) :
    finish (run ⟨s.pieces ++ ps, s.pending⟩ bs) = ps.reverse ++ finish (run s bs) := by
  rw [run_pieces_append, finish_pieces_append]

lemma finish_run_none (ps : List (Option Char)) (bs : Bytes) :
    finish (run ⟨ps, none⟩ bs) = ps.reverse ++ scan bs :=
  finish_run_append init ps bs

/-! ### The first character -/

lemma scan_encodeChar_append (c : Char) (bs : Bytes) :
    scan (encodeChar c ++ bs) = some c :: scan bs := by
  rw [scan, run_append, init, run_encodeChar, finish_run_none]
  rfl

/-- A character that is read while one is under way is that one. -/
lemma exists_of_underway (h : Underway begun p) (hr : finish (run ⟨[], some p⟩ bs) = some c :: r) :
    ∃ rest, begun ++ bs = encodeChar c ++ rest := by
  induction bs generalizing begun p with
  | nil => simp [finish] at hr
  | cons b bs ih =>
    rw [run_cons] at hr
    by_cases hbounds : p.low ≤ b.toNat ∧ b.toNat ≤ p.high
    · by_cases hneed : p.need = 1
      · -- the last octet completes it
        have hlast := h.last hbounds.1 hbounds.2 hneed
        simp only [step, if_pos hbounds, if_pos hneed] at hr
        rw [finish_run_none] at hr
        obtain ⟨rfl, -⟩ : Char.ofNat (p.bits * 64 + (b.toNat - 0x80)) = c ∧ scan bs = r := by
          simpa using hr
        exact ⟨bs, by rw [hlast, List.append_assoc]; rfl⟩
      · simp only [step, if_pos hbounds, if_neg hneed] at hr
        obtain ⟨rest, hrest⟩ := ih (h.inner hbounds.1 hbounds.2 hneed) hr
        exact ⟨rest, by rw [← hrest, List.append_assoc]; rfl⟩
    · -- it is broken off, so the first piece is an ill-formed part
      simp only [step, if_neg hbounds] at hr
      have hstart := start_pieces_append [] [none] b
      rw [List.nil_append] at hstart
      rw [hstart, finish_run_append] at hr
      cases hr

lemma exists_of_scan (h : scan bs = some c :: r) : ∃ rest, bs = encodeChar c ++ rest := by
  rcases bs with _ | ⟨b, bs⟩
  · cases h
  · rw [scan, run_cons, init] at h
    by_cases hascii : b.toNat < 0x80
    · have hstep : step ⟨[], none⟩ b = ⟨[some (Char.ofNat b.toNat)], none⟩ := by
        simp [step, start, hascii]
      rw [hstep, finish_run_none] at h
      obtain ⟨rfl, -⟩ : Char.ofNat b.toNat = c ∧ scan bs = r := by simpa using h
      exact ⟨bs, by rw [encodeChar_ofNat hascii]; rfl⟩
    · rcases hlead : lead? b.toNat with _ | p
      · have hstep : step ⟨[], none⟩ b = ⟨[none], none⟩ := by
          simp [step, start, hascii, hlead]
        rw [hstep, finish_run_none] at h
        cases h
      · have hstep : step ⟨[], none⟩ b = ⟨[], some p⟩ := by
          simp [step, start, hascii, hlead]
        rw [hstep] at h
        exact exists_of_underway (underway_lead hlead) h

/-- **A scan begins with a character exactly if the octets begin with its encoding.** -/
theorem scan_eq_some_cons_iff :
    scan bs = some c :: r ↔ ∃ rest, bs = encodeChar c ++ rest ∧ r = scan rest := by
  constructor
  · intro h
    obtain ⟨rest, rfl⟩ := exists_of_scan h
    rw [scan_encodeChar_append] at h
    exact ⟨rest, rfl, (List.cons.inj h).2.symm⟩
  · rintro ⟨rest, rfl, rfl⟩
    exact scan_encodeChar_append c rest

end RomEmbed.Utf8
