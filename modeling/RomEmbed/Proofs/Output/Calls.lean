import Mathlib.Tactic.Common
import Mathlib.Algebra.Order.Floor.Div
import RomEmbed.Proofs.Output.Draining

/-!
How many calls it takes to write a text. The calls that are not interrupted take a chunk each
of what fits, and one more meets the full sink if not all fits. Interruptions come at fixed
numbers of the count of all calls, so this count tells how many calls were not interrupted;
and since the last call never is, it can be told from them in turn.
-/

namespace RomEmbed.Sink

variable {stalled : IoError} {s u : Sink} {left rest : Bytes} {us : List Sink}
  {r : Except IoError Unit}

/-! ### What a call has done -/

lemma write_eq_ok {k : Nat} (h : s.write left = (u, .ok k)) :
    s.counted.interrupted = false ∧ s.full = false ∧ k = s.quota left.length ∧
      u = s.storing (left.take k) := by
  rcases write_cases s left with ⟨-, hw⟩ | ⟨-, -, hw⟩ | ⟨hi, hf, hw⟩ <;> rw [hw] at h <;> cases h
  exact ⟨hi, hf, rfl, rfl⟩

/-- A call that fails for good has met the full sink. -/
lemma write_eq_error {e : IoError} (h : s.write left = (u, .error e))
    (he : e.kind ≠ .interrupted) :
    s.counted.interrupted = false ∧ s.full = true ∧ u = s.counted := by
  rcases write_cases s left with ⟨-, hw⟩ | ⟨hi, hf, hw⟩ | ⟨-, -, hw⟩ <;> rw [hw] at h <;> cases h
  · exact absurd rfl he
  · exact ⟨hi, hf, rfl⟩

/-- A call that is to be made again was interrupted. -/
lemma Steady.write_eq_again (hs : s.Steady) {e : IoError} (h : s.write left = (u, .error e))
    (he : e.kind = .interrupted) : s.counted.interrupted = true ∧ u = s.counted := by
  rcases write_cases s left with ⟨hi, hw⟩ | ⟨-, hf, hw⟩ | ⟨-, -, hw⟩ <;> rw [hw] at h <;> cases h
  · exact ⟨hi, rfl⟩
  · exact absurd he (hs.failure (limit_ne_none_of_full hf))

/-- Whatever comes of a call, it is counted. -/
lemma write_calls {o : Except IoError Nat} (h : s.write left = (u, o)) :
    u.calls = s.calls + 1 ∧ u.interruptEvery = s.interruptEvery := by
  rcases write_cases s left with ⟨-, hw⟩ | ⟨-, -, hw⟩ | ⟨-, -, hw⟩ <;> rw [hw] at h <;> cases h
  · exact ⟨rfl, rfl⟩
  · exact ⟨rfl, rfl⟩
  · exact ⟨rfl, rfl⟩

/-! ### Calls that are not interrupted -/

/-- How many of the calls so far were not interrupted. -/
def served (s : Sink) : Nat :=
  match s.interruptEvery with
  | none => s.calls
  | some n => s.calls - s.calls / n

lemma served_of_interrupted (h : s.counted.interrupted = true) :
    s.counted.served = s.served := by
  rcases hn : s.interruptEvery with _ | n
  · simp [interrupted, counted, hn] at h
  · have hdvd : n ∣ s.calls + 1 := by
      simpa [interrupted, counted, hn, Nat.dvd_iff_mod_eq_zero] using h
    have hle := Nat.div_le_self s.calls n
    have hnext : (s.calls + 1) / n = s.calls / n + 1 := by rw [Nat.succ_div, if_pos hdvd]
    simp only [served, counted, hn, hnext]
    omega

lemma served_of_not_interrupted (h : s.counted.interrupted = false) :
    s.counted.served = s.served + 1 := by
  rcases hn : s.interruptEvery with _ | n
  · simp only [served, counted, hn]
  · have hndvd : ¬n ∣ s.calls + 1 := by
      simpa [interrupted, counted, hn, Nat.dvd_iff_mod_eq_zero] using h
    have hle := Nat.div_le_self s.calls n
    have hnext : (s.calls + 1) / n = s.calls / n := by
      rw [Nat.succ_div, if_neg hndvd, Nat.add_zero]
    simp only [served, counted, hn, hnext]
    omega

/-- The number of a call that is not interrupted, out of that of such calls. -/
lemma calls_eq_of_served {n : Nat} (hn : s.interruptEvery = some n) (h2 : 2 ≤ n)
    (hi : s.interrupted = false) : s.calls = s.served + (s.served - 1) / (n - 1) := by
  have hmod : s.calls % n ≠ 0 := by simpa [interrupted, hn] using hi
  have hlt := Nat.mod_lt s.calls (show n > 0 by omega)
  have hdiv := Nat.div_add_mod s.calls n
  simp only [served, hn]
  obtain ⟨m, rfl⟩ : ∃ m, n = m + 1 := ⟨n - 1, by omega⟩
  set q := s.calls / (m + 1)
  set t := s.calls % (m + 1)
  have hserved : s.calls - q = m * q + t := by
    rw [Nat.succ_mul] at hdiv
    omega
  have hquotient : (m * q + t - 1) / m = q := by
    rw [show m * q + t - 1 = t - 1 + m * q by omega, Nat.add_mul_div_left _ _ (by omega),
      Nat.div_eq_of_lt (by omega), Nat.zero_add]
  rw [hserved, Nat.add_sub_cancel, hquotient, ← hdiv, Nat.succ_mul]
  omega

/-! ### How many are needed -/

/-- Calls to take what fits of `n` octets, and to meet the full sink if not all of them fit. -/
def callsNeeded (s : Sink) (n : Nat) : Nat :=
  s.fits n ⌈/⌉ s.chunk.getD n + if s.fits n < n then 1 else 0

lemma callsNeeded_zero (s : Sink) : s.callsNeeded 0 = 0 := by
  have hfits : s.fits 0 = 0 := Nat.le_zero.mp (s.fits_le 0)
  simp [callsNeeded, hfits]

lemma callsNeeded_of_full (h : s.full = true) {n : Nat} (hn : n ≠ 0) : s.callsNeeded n = 1 := by
  simp [callsNeeded, fits_of_full h, Nat.pos_of_ne_zero hn]

/-- The first chunk takes all, or leaves a number of octets less by itself. -/
lemma ceilDiv_eq_succ {f c : Nat} (hf : f ≠ 0) (hc : c ≠ 0) :
    f ⌈/⌉ c = (f - min c f) ⌈/⌉ c + 1 := by
  have hfirst : f ⌈/⌉ c = (f - 1) / c + 1 := by
    rw [Nat.ceilDiv_eq_add_pred_div, show f + c - 1 = f - 1 + c by omega,
      Nat.add_div_right _ (Nat.pos_of_ne_zero hc)]
  have hleft : (f - min c f) ⌈/⌉ c = (f - 1) / c := by
    rw [Nat.ceilDiv_eq_add_pred_div]
    rcases Nat.le_total f c with hle | hle
    · rw [Nat.min_eq_right hle, Nat.div_eq_of_lt (by omega), Nat.div_eq_of_lt (by omega)]
    · rw [Nat.min_eq_left hle, Nat.sub_add_cancel hle]
  rw [hfirst, hleft]

/-- A call that takes octets leaves one call less to be made. -/
lemma callsNeeded_storing (hc : s.chunk ≠ some 0) (hf : s.full = false) {n : Nat} (hn : n ≠ 0)
    {bs : Bytes} (h : bs.length = s.quota n) :
    s.callsNeeded n = (s.storing bs).callsNeeded (n - bs.length) + 1 := by
  have hfits := fits_storing h
  have hne := fits_ne_zero hf hn
  have hle := s.fits_le n
  have hquota := s.quota_le n
  have hfull : s.fits n < n ↔ (s.storing bs).fits (n - bs.length) < n - bs.length := by omega
  have hchunks : s.fits n ⌈/⌉ s.chunk.getD n =
      (s.storing bs).fits (n - bs.length) ⌈/⌉ (s.storing bs).chunk.getD (n - bs.length) + 1 := by
    have hleft : (s.storing bs).fits (n - bs.length) = s.fits n - bs.length := by omega
    have hchunk : (s.storing bs).chunk = s.chunk := rfl
    rw [hleft, hchunk, h, quota]
    rcases hs : s.chunk with _ | c
    · -- all that fits is taken at once
      rw [Option.getD_none, Option.getD_none, ceilDiv_eq_succ hne hn, Nat.min_eq_right hle,
        Nat.sub_self, zero_ceilDiv, zero_ceilDiv]
    · have hc0 : c ≠ 0 := fun h0 => hc (by rw [hs, h0])
      exact ceilDiv_eq_succ hne hc0
  unfold callsNeeded
  rw [hchunks, if_congr hfull rfl rfl]
  omega

/-! ### Call after call -/

/-- The calls made are all counted. -/
lemma Offering.calls (h : Offering stalled s left us rest r) :
    (us.getLastD s).calls = s.calls + us.length ∧
      (us.getLastD s).interruptEvery = s.interruptEvery := by
  induction h with
  | done s => exact ⟨rfl, rfl⟩
  | stalled _ hw => exact write_calls hw
  | failed _ hw _ => exact write_calls hw
  | taken _ hw _ _ ih | again _ hw _ _ ih =>
    obtain ⟨hcalls, hevery⟩ := write_calls hw
    rw [hcalls, hevery] at ih
    rw [List.getLastD_cons, List.length_cons, ih.1, ih.2]
    exact ⟨by omega, rfl⟩

/-- The last call is not interrupted. -/
lemma Offering.interrupted_last (h : Offering stalled s left us rest r) (hne : left ≠ []) :
    (us.getLastD s).interrupted = false := by
  induction h with
  | done s => exact absurd rfl hne
  | stalled _ hw =>
    obtain ⟨hi, -, -, rfl⟩ := write_eq_ok hw
    exact hi
  | failed _ hw he =>
    obtain ⟨hi, -, rfl⟩ := write_eq_error hw he
    exact hi
  | @taken s u left rest k us r _ hw _ hrest ih =>
    rw [List.getLastD_cons]
    by_cases hdrop : left.drop k = []
    · rw [hdrop] at hrest
      obtain ⟨hi, -, -, rfl⟩ := write_eq_ok hw
      cases hrest with
      | done => exact hi
      | stalled hnil | failed hnil | taken hnil | again hnil => exact absurd rfl hnil
    · exact ih hdrop
  | again _ _ _ _ ih =>
    rw [List.getLastD_cons]
    exact ih hne

/-- The calls that are not interrupted are those that are needed. -/
lemma Offering.served (h : Offering stalled s left us rest r) (hs : s.Steady)
    (hc : s.chunk ≠ some 0) :
    (us.getLastD s).served = s.served + s.callsNeeded left.length := by
  induction h with
  | done s => rw [List.getLastD_nil, List.length_nil, callsNeeded_zero, Nat.add_zero]
  | stalled hne hw =>
    obtain ⟨-, hf, hk, -⟩ := write_eq_ok hw
    exact absurd hk.symm (quota_ne_zero hc hf (mt List.length_eq_zero_iff.mp hne))
  | failed hne hw he =>
    obtain ⟨hi, hf, rfl⟩ := write_eq_error hw he
    rw [List.getLastD_cons, List.getLastD_nil, served_of_not_interrupted hi,
      callsNeeded_of_full hf (mt List.length_eq_zero_iff.mp hne)]
  | @taken s u left rest k us r hne hw _ _ ih =>
    obtain ⟨hi, hf, rfl, rfl⟩ := write_eq_ok hw
    have hlength : left.length ≠ 0 := mt List.length_eq_zero_iff.mp hne
    have htake : (left.take (s.quota left.length)).length = s.quota left.length :=
      List.length_take_of_le (s.quota_le _)
    have hserved : (s.storing (left.take (s.quota left.length))).served = s.served + 1 :=
      served_of_not_interrupted hi
    rw [List.getLastD_cons, ih (hs.storing _) hc, hserved, List.length_drop,
      callsNeeded_storing hc hf hlength htake, htake]
    omega
  | again _ hw he _ ih =>
    obtain ⟨hi, rfl⟩ := hs.write_eq_again hw he
    rw [List.getLastD_cons, ih hs.counted hc, served_of_interrupted hi]
    rfl

/-! ### Writing all -/

/-- Writing to a new sink takes the calls that are needed, and the interrupted ones before the
last of them. -/
lemma Steady.calls_writeAll (hs : s.Steady) (hc : s.chunk ≠ some 0) {bs : Bytes}
    (hbs : bs ≠ []) (hnew : s.calls = 0) {k : Nat} (hk : s.callsNeeded bs.length = k) :
    (∃ us rest, Offering stalledWriting s bs us rest (s.writeAll bs).2 ∧
      us.length = (s.writeAll bs).1.calls) ∧
    (s.interruptEvery = none → (s.writeAll bs).1.calls = k) ∧
    ∀ n ∈ s.interruptEvery, (s.writeAll bs).1.calls = k + (k - 1) / (n - 1) := by
  obtain ⟨⟨us, rest, hoffering, hlast⟩, -, -⟩ := hs.writeAll bs
  obtain ⟨hcalls, hevery⟩ := hoffering.calls
  have hnone : s.served = 0 := by
    unfold served
    split <;> simp [hnew]
  have hserved : (us.getLastD s).served = k := by
    rw [hoffering.served hs hc, hnone, hk, Nat.zero_add]
  rw [← hlast]
  refine ⟨⟨us, rest, hoffering, by rw [hcalls, hnew, Nat.zero_add]⟩, fun hn => ?_, fun n hn => ?_⟩
  · rw [← hserved, Sink.served, hevery, hn]
  · have hn' : (us.getLastD s).interruptEvery = some n := hevery.trans hn
    have hi := hoffering.interrupted_last hbs
    rw [calls_eq_of_served hn' (hs.interruptEvery n hn) hi, hserved]

/-- **The number of calls that writing a class takes.** Without interruptions there is one for
each chunk of what fits, and one more that meets the full sink if not all fits; interruptions
add those that fall between these calls. A sink that takes everything at once is called
once. -/
theorem writeAll_calls (name : Text) (rom : Rom) (chunk limit interruptEvery : Option Nat)
    (failure : IoError) (hchunk : ∀ c ∈ chunk, 1 ≤ c)
    (hinterrupt : ∀ n ∈ interruptEvery, 2 ≤ n) (hfailure : failure.kind ≠ .interrupted) :
    let text := ClassText.bytes name rom
    let sink : Sink := { chunk, limit, interruptEvery, failure }
    let done := (sink.writeAll text).2
    let calls := (sink.writeAll text).1.calls
    let c := chunk.getD text.length
    (∃ us rest, Offering stalledWriting sink text us rest done ∧ us.length = calls) ∧
    ((∀ l ∈ limit, text.length ≤ l) →
      let w := text.length ⌈/⌉ c
      done = .ok () ∧ (interruptEvery = none → calls = w) ∧
        ∀ n ∈ interruptEvery, calls = w + (w - 1) / (n - 1)) ∧
    (∀ l ∈ limit, l < text.length →
      let w := l ⌈/⌉ c
      done = .error failure ∧ (interruptEvery = none → calls = w + 1) ∧
        ∀ n ∈ interruptEvery, calls = w + 1 + w / (n - 1)) ∧
    (chunk = none → limit = none → calls = 1) := by
  intro text sink done calls c
  have hsteady : sink.Steady := ⟨hinterrupt, fun _ => hfailure⟩
  have hc : sink.chunk ≠ some 0 := fun h0 => absurd (hchunk 0 h0) (by omega)
  have hlength : text.length ≠ 0 :=
    Nat.ne_of_gt (Nat.zero_lt_of_lt (ClassText.size_lt_length_bytes name rom))
  have hne : text ≠ [] := mt List.length_eq_zero_iff.mpr hlength
  have hneeded : sink.callsNeeded text.length =
    sink.fits text.length ⌈/⌉ c + if sink.fits text.length < text.length then 1 else 0 := rfl
  obtain ⟨-, hdone, -⟩ := hsteady.writeAll text
  change done = _ at hdone
  rw [verdict_of_chunk_ne_zero hc] at hdone
  have hcalls := fun k => hsteady.calls_writeAll hc hne rfl (k := k)
  have hall : (∀ l ∈ limit, text.length ≤ l) → sink.fits text.length = text.length := by
    intro hlimit
    rcases limit with _ | l
    · rfl
    · exact Nat.min_eq_left (hlimit l rfl)
  refine ⟨(hcalls _ rfl).1, fun hlimit => ?_, fun l hl hlt => ?_, ?_⟩
  · rw [hall hlimit, if_neg (Nat.lt_irrefl _)] at hneeded hdone
    exact ⟨hdone, (hcalls _ hneeded).2⟩
  · obtain rfl : limit = some l := hl
    have hfits : sink.fits text.length = l := Nat.min_eq_right (Nat.le_of_lt hlt)
    rw [hfits, if_pos hlt] at hneeded hdone
    exact ⟨hdone, (hcalls _ hneeded).2⟩
  · rintro rfl rfl
    have hone : sink.callsNeeded text.length = 1 := by
      rw [hneeded, hall (by simp), if_neg (Nat.lt_irrefl _), Nat.add_zero]
      calc text.length ⌈/⌉ text.length = 0 ⌈/⌉ text.length + 1 := by
            rw [ceilDiv_eq_succ hlength hlength, Nat.min_self, Nat.sub_self]
        _ = 1 := by rw [zero_ceilDiv]
    obtain ⟨-, hquiet, hbroken⟩ := hcalls 1 hone
    rcases hevery : interruptEvery with _ | n
    · exact hquiet hevery
    · have hcount : calls = 1 + (1 - 1) / (n - 1) := hbroken n hevery
      rw [hcount, Nat.sub_self, Nat.zero_div]

/-- A class in calls of seven octets, every third of them interrupted, to a sink that is full
at the end of a chunk. -/
theorem writeAll_calls_seven :
    (∀ c ∈ some 7, 1 ≤ c) ∧ (∀ n ∈ some 3, 2 ≤ n) ∧ (IoError.os .noSpace).kind ≠ .interrupted ∧
      28 < (ClassText.bytes "é".toList ⟨[255]⟩).length ∧
      let sink : Sink :=
        { chunk := some 7, limit := some 28, interruptEvery := some 3, failure := .os .noSpace }
      (sink.writeAll (ClassText.bytes "é".toList ⟨[255]⟩)).2 = .error (.os .noSpace) ∧
      (sink.writeAll (ClassText.bytes "é".toList ⟨[255]⟩)).1.calls = 7 := by
  have hchunk : ∀ c ∈ some 7, 1 ≤ c := by simp
  have hinterrupt : ∀ n ∈ some 3, 2 ≤ n := by simp
  have hfailure : (IoError.os .noSpace).kind ≠ .interrupted := by decide
  have hlength : 28 < (ClassText.bytes "é".toList ⟨[255]⟩).length :=
    calc 28 < ClassText.assignment.length + (ArrayLiteral.render [255]).length := by decide
      _ ≤ (ClassText.embedding "é".toList ⟨[255]⟩).render.length := by
        simp only [ClassText.render, ClassText.embedding, List.length_append]
        omega
      _ ≤ _ := Utf8.length_le_length_encode _
  obtain ⟨-, -, hcut, -⟩ := writeAll_calls "é".toList ⟨[255]⟩ (some 7) (some 28) (some 3)
    (.os .noSpace) hchunk hinterrupt hfailure
  obtain ⟨hdone, -, hcalls⟩ := hcut 28 rfl hlength
  exact ⟨hchunk, hinterrupt, hfailure, hlength, hdone, hcalls 3 rfl⟩

end RomEmbed.Sink
