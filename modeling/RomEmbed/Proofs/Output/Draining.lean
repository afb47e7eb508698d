import Mathlib.Tactic.Common
import RomEmbed.Output.Sink
import RomEmbed.Proofs.Output.Size

/-!
Writing a whole text to a sink that takes it piecemeal. A call is interrupted, or it meets a
full sink, or it takes a beginning of what it is offered. So after every call what is stored
is a beginning of the text, and what is left is the rest of it.

Of two calls in a row at most one is interrupted, if not every call is, and of the others each
stores an octet or is the last. This bounds the calls, and leaves the outcome to depend on how
much fits, not on the pieces in which it is taken.
-/

namespace RomEmbed.Sink

variable {stalled : IoError} {s u : Sink} {left rest : Bytes} {us : List Sink}
  {r : Except IoError Unit}

/-! ### One call -/

/-- The sink after a call that stores nothing. -/
def counted (s : Sink) : Sink := { s with calls := s.calls + 1 }

/-- The sink after a call that stores what is given. -/
def storing (s : Sink) (bs : Bytes) : Sink := { s.counted with stored := s.stored ++ bs }

@[simp] lemma stored_counted (s : Sink) : s.counted.stored = s.stored := rfl

@[simp] lemma stored_storing (s : Sink) (bs : Bytes) :
    (s.storing bs).stored.toList = s.stored.toList ++ bs := by
  simp [storing]

/-- How many of `n` octets still fit. -/
def fits (s : Sink) (n : Nat) : Nat :=
  match s.limit with
  | none => n
  | some l => min n (l - s.stored.size)

/-- How many of `n` octets one call takes. -/
def quota (s : Sink) (n : Nat) : Nat := min (s.chunk.getD n) (s.fits n)

lemma fits_le (s : Sink) (n : Nat) : s.fits n ≤ n := by
  unfold fits
  split <;> omega

lemma quota_le (s : Sink) (n : Nat) : s.quota n ≤ n := by
  have := s.fits_le n
  unfold quota
  omega

lemma portion_eq_take (s : Sink) (left : Bytes) :
    s.portion left = left.take (s.quota left.length) := by
  rcases hc : s.chunk with _ | c <;> rcases hl : s.limit with _ | l <;>
    simp only [portion, quota, fits, hc, hl, Option.getD_none, Option.getD_some, List.take_take,
      List.take_eq_take_iff, Nat.min_self, List.take_length]
  all_goals omega

/-- **What can come of one call.** -/
lemma write_cases (s : Sink) (left : Bytes) :
    (s.counted.interrupted = true ∧
      s.write left = (s.counted, .error (.plain .interrupted))) ∨
    (s.counted.interrupted = false ∧ s.full = true ∧
      s.write left = (s.counted, .error s.failure)) ∨
    (s.counted.interrupted = false ∧ s.full = false ∧
      s.write left =
        (s.storing (left.take (s.quota left.length)), .ok (s.quota left.length))) := by
  have hfull : s.counted.full = s.full := rfl
  have hportion : s.counted.portion left = left.take (s.quota left.length) :=
    portion_eq_take s.counted left
  have hwrite : s.write left =
      if s.counted.interrupted then (s.counted, .error (.plain .interrupted))
      else if s.counted.full then (s.counted, .error s.failure)
      else (s.storing (s.counted.portion left), .ok (s.counted.portion left).length) := rfl
  rw [hwrite, hfull, hportion, List.length_take_of_le (s.quota_le _)]
  by_cases hi : s.counted.interrupted = true
  · exact Or.inl ⟨hi, by rw [if_pos hi]⟩
  by_cases hf : s.full = true
  · exact Or.inr (Or.inl ⟨by simpa using hi, hf, by rw [if_neg hi, if_pos hf]⟩)
  · exact Or.inr (Or.inr ⟨by simpa using hi, by simpa using hf, by rw [if_neg hi, if_neg hf]⟩)

lemma stored_of_write_error {e : IoError} (h : s.write left = (u, .error e)) :
    u.stored = s.stored := by
  rcases write_cases s left with ⟨-, hw⟩ | ⟨-, -, hw⟩ | ⟨-, -, hw⟩ <;> rw [hw] at h <;> cases h
  · rfl
  · rfl

lemma stored_of_write_ok {k : Nat} (h : s.write left = (u, .ok k)) :
    u.stored.toList = s.stored.toList ++ left.take k := by
  rcases write_cases s left with ⟨-, hw⟩ | ⟨-, -, hw⟩ | ⟨-, -, hw⟩ <;> rw [hw] at h <;> cases h
  exact stored_storing _ _

/-! ### Call after call -/

/-- The calls that offer octets to a sink until none are left: the sink after each call, the
octets left in the end, and how it ended. Nothing bounds their number. -/
inductive Offering (stalled : IoError) :
    Sink → Bytes → List Sink → Bytes → Except IoError Unit → Prop
  | done (s : Sink) : Offering stalled s [] [] [] (.ok ())
  | stalled {s u : Sink} {left : Bytes} :
      left ≠ [] → s.write left = (u, .ok 0) →
      Offering stalled s left [u] left (.error stalled)
  | failed {s u : Sink} {left : Bytes} {e : IoError} :
      left ≠ [] → s.write left = (u, .error e) → e.kind ≠ .interrupted →
      Offering stalled s left [u] left (.error e)
  | taken {s u : Sink} {left rest : Bytes} {k : Nat} {us : List Sink}
      {r : Except IoError Unit} :
      left ≠ [] → s.write left = (u, .ok k) → k ≠ 0 →
      Offering stalled u (left.drop k) us rest r → Offering stalled s left (u :: us) rest r
  | again {s u : Sink} {left rest : Bytes} {e : IoError} {us : List Sink}
      {r : Except IoError Unit} :
      left ≠ [] → s.write left = (u, .error e) → e.kind = .interrupted →
      Offering stalled u left us rest r → Offering stalled s left (u :: us) rest r

/-- What has been stored is a beginning of what was offered. -/
lemma Offering.stored (h : Offering stalled s left us rest r) :
    ∀ u ∈ us, ∃ taken, taken <+: left ∧ u.stored.toList = s.stored.toList ++ taken := by
  induction h with
  | done s => simp
  | stalled _ hw =>
    intro v hv
    rw [List.mem_singleton.mp hv]
    exact ⟨_, List.take_prefix _ _, stored_of_write_ok hw⟩
  | failed _ hw _ =>
    intro v hv
    rw [List.mem_singleton.mp hv]
    exact ⟨[], List.nil_prefix, by rw [stored_of_write_error hw, List.append_nil]⟩
  | @taken s u left _ k _ _ _ hw _ _ ih =>
    intro v hv
    rcases List.mem_cons.mp hv with rfl | hv
    · exact ⟨_, List.take_prefix _ _, stored_of_write_ok hw⟩
    · obtain ⟨bs, hbs, hstored⟩ := ih v hv
      refine ⟨left.take k ++ bs, ?_, ?_⟩
      · have := (List.prefix_append_right_inj (left.take k)).mpr hbs
        rwa [List.take_append_drop] at this
      · rw [hstored, stored_of_write_ok hw, List.append_assoc]
  | again _ hw _ _ ih =>
    intro v hv
    rcases List.mem_cons.mp hv with rfl | hv
    · exact ⟨[], List.nil_prefix, by rw [stored_of_write_error hw, List.append_nil]⟩
    · rw [← stored_of_write_error hw]
      exact ih v hv

/-- No octet is lost, repeated or moved: what is stored in the end and what is left make up
what was offered. -/
lemma Offering.stored_append_rest (h : Offering stalled s left us rest r) :
    (us.getLastD s).stored.toList ++ rest = s.stored.toList ++ left := by
  induction h with
  | done s => rfl
  | stalled _ hw =>
    rw [List.getLastD_cons, List.getLastD_nil, stored_of_write_ok hw, List.take_zero,
      List.append_nil]
  | failed _ hw _ =>
    rw [List.getLastD_cons, List.getLastD_nil, stored_of_write_error hw]
  | taken _ hw _ _ ih =>
    rw [List.getLastD_cons, ih, stored_of_write_ok hw, List.append_assoc, List.take_append_drop]
  | again _ hw _ _ ih =>
    rw [List.getLastD_cons, ih, stored_of_write_error hw]

/-- An interruption is never how it ends. -/
lemma Offering.kind_ne_interrupted (h : Offering stalled s left us rest r)
    (hstalled : stalled.kind ≠ .interrupted) :
    ∀ e, r = .error e → e.kind ≠ .interrupted := by
  induction h with
  | done s => simp
  | stalled _ _ =>
    rintro e ⟨⟩
    exact hstalled
  | failed _ _ he =>
    rintro e ⟨⟩
    exact he
  | taken _ _ _ _ ih => exact ih
  | again _ _ _ _ ih => exact ih

@[simp] lemma drain_nil (stalled : IoError) (n : Nat) (s : Sink) :
    s.drain stalled n [] = (s, [], .ok ()) := by
  cases n <;> rfl

/-- A bound on the calls that is high enough changes nothing. -/
lemma Offering.drain (h : Offering stalled s left us rest r) :
    ∀ n, us.length ≤ n → s.drain stalled n left = (us.getLastD s, rest, r) := by
  induction h with
  | done s => intro n _; exact drain_nil stalled n s
  | stalled hne hw =>
    intro n hn
    obtain ⟨n, rfl⟩ := Nat.exists_eq_add_one.mpr hn
    obtain ⟨b, bs, rfl⟩ := List.exists_cons_of_ne_nil hne
    simp only [Sink.drain, hw, List.getLastD_cons, List.getLastD_nil]
  | failed hne hw he =>
    intro n hn
    obtain ⟨n, rfl⟩ := Nat.exists_eq_add_one.mpr hn
    obtain ⟨b, bs, rfl⟩ := List.exists_cons_of_ne_nil hne
    simp only [Sink.drain, hw, if_neg he, List.getLastD_cons, List.getLastD_nil]
  | @taken _ _ _ _ k _ _ hne hw hk _ ih =>
    intro n hn
    rw [List.length_cons] at hn
    obtain ⟨n, rfl⟩ := Nat.exists_eq_add_one.mpr (Nat.zero_lt_of_lt hn)
    obtain ⟨b, bs, rfl⟩ := List.exists_cons_of_ne_nil hne
    obtain ⟨k, rfl⟩ := Nat.exists_eq_succ_of_ne_zero hk
    simp only [Sink.drain, hw]
    rw [List.getLastD_cons]
    exact ih n (Nat.le_of_succ_le_succ hn)
  | again hne hw he _ ih =>
    intro n hn
    rw [List.length_cons] at hn
    obtain ⟨n, rfl⟩ := Nat.exists_eq_add_one.mpr (Nat.zero_lt_of_lt hn)
    obtain ⟨b, bs, rfl⟩ := List.exists_cons_of_ne_nil hne
    simp only [Sink.drain, hw, if_pos he]
    rw [List.getLastD_cons]
    exact ih n (Nat.le_of_succ_le_succ hn)

/-! ### Sinks that come to an end -/

/-- Not every call is interrupted, and the error of a sink that can be full is no
interruption. -/
structure Steady (s : Sink) : Prop where
  interruptEvery : ∀ n ∈ s.interruptEvery, 2 ≤ n
  failure : s.limit ≠ none → s.failure.kind ≠ .interrupted

lemma Steady.counted (h : s.Steady) : s.counted.Steady := ⟨h.interruptEvery, h.failure⟩

lemma Steady.storing (h : s.Steady) (bs : Bytes) : (s.storing bs).Steady :=
  ⟨h.interruptEvery, h.failure⟩

/-- The call after an interrupted one is not interrupted. -/
lemma Steady.interrupted_counted (h : s.Steady) (hi : s.interrupted = true) :
    s.counted.interrupted = false := by
  rcases hn : s.interruptEvery with _ | n
  · simp [interrupted, hn] at hi
  · have h2 : 2 ≤ n := h.interruptEvery n (by rw [hn]; rfl)
    have hdvd : n ∣ s.calls := by
      simpa [interrupted, hn, Nat.dvd_iff_mod_eq_zero] using hi
    have hndvd : ¬n ∣ s.calls + 1 := by
      intro hd
      have h1 : n ∣ 1 := (Nat.dvd_add_right hdvd).mp hd
      have := Nat.le_of_dvd Nat.one_pos h1
      omega
    simpa [interrupted, Sink.counted, hn, Nat.dvd_iff_mod_eq_zero] using hndvd

/-- Calls enough for so many octets: two for each, and one if the next is interrupted. -/
def callsEnough (s : Sink) (n : Nat) : Nat := 2 * n + if s.counted.interrupted then 1 else 0

lemma callsEnough_le_callBound (s : Sink) (bs : Bytes) :
    s.callsEnough bs.length ≤ callBound bs := by
  unfold callsEnough callBound
  split <;> omega

lemma Steady.callsEnough_counted (h : s.Steady) (hi : s.counted.interrupted = true) (n : Nat) :
    s.counted.callsEnough n < s.callsEnough n := by
  have hnext := h.counted.interrupted_counted hi
  simp [callsEnough, hi, hnext]

lemma callsEnough_storing (hi : s.counted.interrupted = false) (bs : Bytes) {n k : Nat}
    (hk : k ≠ 0) (hn : n ≠ 0) : (s.storing bs).callsEnough (n - k) < s.callsEnough n := by
  simp only [callsEnough, hi]
  split <;> omega

/-! ### How it ends -/

/-- How many of `n` octets are stored in the end. -/
def accepted (s : Sink) (n : Nat) : Nat := if s.chunk = some 0 then 0 else s.fits n

/-- How the offering of `n` octets ends. -/
def verdict (stalled : IoError) (s : Sink) (n : Nat) : Except IoError Unit :=
  if s.chunk = some 0 ∧ s.full = false ∧ n ≠ 0 then .error stalled
  else if s.fits n < n then .error s.failure
  else .ok ()

lemma limit_ne_none_of_full (h : s.full = true) : s.limit ≠ none := by
  intro hl
  simp [full, hl] at h

lemma fits_of_full (h : s.full = true) (n : Nat) : s.fits n = 0 := by
  rcases hl : s.limit with _ | l
  · exact absurd hl (limit_ne_none_of_full h)
  · have : l ≤ s.stored.size := by simpa [full, hl] using h
    simp only [fits, hl]
    omega

lemma fits_ne_zero (h : s.full = false) {n : Nat} (hn : n ≠ 0) : s.fits n ≠ 0 := by
  rcases hl : s.limit with _ | l
  · simpa [fits, hl] using hn
  · have : s.stored.size < l := by simpa [full, hl] using h
    simp only [fits, hl]
    omega

lemma accepted_of_full (h : s.full = true) (n : Nat) : s.accepted n = 0 := by
  simp [accepted, fits_of_full h]

lemma verdict_of_full (h : s.full = true) {n : Nat} (hn : n ≠ 0) :
    s.verdict stalled n = .error s.failure := by
  simp [verdict, h, fits_of_full h, Nat.pos_of_ne_zero hn]

lemma accepted_of_chunk_zero (h : s.chunk = some 0) (n : Nat) : s.accepted n = 0 := if_pos h

lemma verdict_of_chunk_zero (h : s.chunk = some 0) (hf : s.full = false) {n : Nat}
    (hn : n ≠ 0) : s.verdict stalled n = .error stalled := if_pos ⟨h, hf, hn⟩

lemma accepted_of_chunk_ne_zero (h : s.chunk ≠ some 0) (n : Nat) : s.accepted n = s.fits n :=
  if_neg h

lemma verdict_of_chunk_ne_zero (h : s.chunk ≠ some 0) (n : Nat) :
    s.verdict stalled n = if s.fits n < n then .error s.failure else .ok () :=
  if_neg fun hc => h hc.1

lemma quota_ne_zero (hc : s.chunk ≠ some 0) (hf : s.full = false) {n : Nat} (hn : n ≠ 0) :
    s.quota n ≠ 0 := by
  have hchunk : s.chunk.getD n ≠ 0 := by
    rcases hs : s.chunk with _ | c
    · exact hn
    · rintro rfl
      exact hc hs
  have hfits := fits_ne_zero hf hn
  unfold quota
  omega

/-- What is stored takes up its place, and no more than that. -/
lemma fits_storing {bs : Bytes} {n : Nat} (h : bs.length = s.quota n) :
    s.fits n = bs.length + (s.storing bs).fits (n - bs.length) := by
  have hquota := s.quota_le n
  have hfits : bs.length ≤ s.fits n := by
    rw [h]
    exact Nat.min_le_right _ _
  rcases hl : s.limit with _ | l
  · have hl' : (s.storing bs).limit = none := hl
    simp only [fits, hl, hl']
    omega
  · have hl' : (s.storing bs).limit = some l := hl
    have hsize : (s.storing bs).stored.size = s.stored.size + bs.length := by
      rw [← Array.length_toList, stored_storing, List.length_append, Array.length_toList]
    simp only [fits, hl, hl', hsize] at hfits ⊢
    omega

lemma accepted_storing (hc : s.chunk ≠ some 0) {bs : Bytes} {n : Nat}
    (h : bs.length = s.quota n) :
    s.accepted n = bs.length + (s.storing bs).accepted (n - bs.length) := by
  have hc' : (s.storing bs).chunk ≠ some 0 := hc
  rw [accepted_of_chunk_ne_zero hc, accepted_of_chunk_ne_zero hc', fits_storing h]

lemma verdict_storing (hc : s.chunk ≠ some 0) {bs : Bytes} {n : Nat}
    (h : bs.length = s.quota n) :
    s.verdict stalled n = (s.storing bs).verdict stalled (n - bs.length) := by
  have hc' : (s.storing bs).chunk ≠ some 0 := hc
  have hfits := fits_storing h
  have hquota := s.quota_le n
  have hiff : s.fits n < n ↔ (s.storing bs).fits (n - bs.length) < n - bs.length := by omega
  simp only [verdict_of_chunk_ne_zero hc, verdict_of_chunk_ne_zero hc', hiff]
  rfl

/-- **A steady sink is offered all octets in the end**, in a number of calls that is bounded,
and what it stores depends on what fits alone. -/
theorem Steady.offering (h : s.Steady) (stalled : IoError) (left : Bytes) :
    ∃ us, Offering stalled s left us (left.drop (s.accepted left.length))
        (s.verdict stalled left.length) ∧
      us.length ≤ s.callsEnough left.length := by
  induction hm : s.callsEnough left.length using Nat.strongRecOn generalizing s left with
  | _ m ih =>
  by_cases hne : left = []
  · subst hne
    refine ⟨[], ?_, by simp⟩
    simpa [verdict] using Offering.done s
  have hlength : left.length ≠ 0 := fun h0 => hne (List.length_eq_zero_iff.mp h0)
  rcases write_cases s left with ⟨hi, hw⟩ | ⟨hi, hf, hw⟩ | ⟨hi, hf, hw⟩
  · -- interrupted: the next call is not, and the sink is otherwise the same
    have hlt := h.callsEnough_counted hi left.length
    obtain ⟨us, hus, hle⟩ := ih _ (hm ▸ hlt) h.counted left rfl
    exact ⟨s.counted :: us, .again hne hw rfl hus, by rw [List.length_cons]; omega⟩
  · -- full
    refine ⟨[s.counted], ?_, ?_⟩
    · rw [accepted_of_full hf, List.drop_zero, verdict_of_full hf hlength]
      exact .failed hne hw (h.failure (limit_ne_none_of_full hf))
    · rw [← hm, callsEnough]
      simp only [List.length_singleton]
      omega
  by_cases hc : s.chunk = some 0
  · -- nothing is ever taken
    have hquota : s.quota left.length = 0 := by simp [quota, hc]
    rw [hquota] at hw
    refine ⟨[s.storing (left.take 0)], ?_, ?_⟩
    · rw [accepted_of_chunk_zero hc, verdict_of_chunk_zero hc hf hlength, List.drop_zero]
      exact .stalled hne hw
    · rw [← hm, callsEnough]
      simp only [List.length_singleton]
      omega
  · -- some octets are taken, and the rest is offered
    have hk := quota_ne_zero hc hf hlength
    set k := s.quota left.length with hkdef
    have hlen : (left.take k).length = k := List.length_take_of_le (s.quota_le _)
    have hlt := callsEnough_storing hi (left.take k) hk hlength
    have hlt' : (s.storing (left.take k)).callsEnough (left.drop k).length < m := by
      rw [List.length_drop, ← hm]
      exact hlt
    obtain ⟨us, hus, hle⟩ := ih _ hlt' (h.storing _) _ rfl
    refine ⟨s.storing (left.take k) :: us, ?_, by rw [List.length_cons]; omega⟩
    rw [accepted_storing hc (hlen.trans hkdef), verdict_storing hc (hlen.trans hkdef), hlen]
    rw [List.drop_drop, List.length_drop] at hus
    exact .taken hne hw hk hus

/-- The bound on the calls is never what ends the draining to a steady sink. -/
theorem Steady.drain (h : s.Steady) (stalled : IoError) (bs : Bytes) :
    ∃ us, Offering stalled s bs us (bs.drop (s.accepted bs.length))
        (s.verdict stalled bs.length) ∧
      s.drain stalled (callBound bs) bs =
        (us.getLastD s, bs.drop (s.accepted bs.length), s.verdict stalled bs.length) ∧
      (us.getLastD s).stored.toList = s.stored.toList ++ bs.take (s.accepted bs.length) := by
  obtain ⟨us, hus, hle⟩ := h.offering stalled bs
  have hsplit : s.stored.toList ++ bs =
      s.stored.toList ++ bs.take (s.accepted bs.length) ++ bs.drop (s.accepted bs.length) := by
    rw [List.append_assoc, List.take_append_drop]
  exact ⟨us, hus, hus.drain _ (Nat.le_trans hle (s.callsEnough_le_callBound bs)),
    List.append_cancel_right (hus.stored_append_rest.trans hsplit)⟩

/-! ### Writing all -/

/-- How a writing ends when the sink takes nothing of what it is offered. -/
def stalledWriting : IoError := .custom .writeZero "failed to write whole buffer".toList

lemma writeAll_of_drain {bs : Bytes}
    (h : s.drain stalledWriting (callBound bs) bs = (u, rest, r)) : s.writeAll bs = (u, r) := by
  unfold Sink.writeAll
  rw [← stalledWriting, h]

lemma Steady.writeAll (h : s.Steady) (bs : Bytes) :
    (∃ us rest, Offering stalledWriting s bs us rest (s.writeAll bs).2 ∧
      us.getLastD s = (s.writeAll bs).1) ∧
    (s.writeAll bs).2 = s.verdict stalledWriting bs.length ∧
    (s.writeAll bs).1.stored.toList = s.stored.toList ++ bs.take (s.accepted bs.length) := by
  obtain ⟨us, hus, hdrain, hstored⟩ := h.drain stalledWriting bs
  rw [writeAll_of_drain hdrain]
  exact ⟨⟨us, _, hus, rfl⟩, rfl, hstored⟩

/-- **Writing a class to a sink by a script.** However the sink breaks up the calls and
interrupts them, the calls come to an end, what is stored after each of them is a beginning of
the class, and no interruption is reported. If nothing fits, the writing fails with the error
of the sink; else, if calls take nothing, as stalled; else it succeeds with the whole class
stored if that fits, and fails with the error of the sink and what fits stored if not. -/
theorem writeAll_scripted (name : Text) (rom : Rom) (chunk limit interruptEvery : Option Nat)
    (failure : IoError) (hinterrupt : ∀ n ∈ interruptEvery, 2 ≤ n)
    (hfailure : failure.kind ≠ .interrupted) :
    let text := ClassText.bytes name rom
    let sink : Sink := { chunk, limit, interruptEvery, failure }
    let done := (sink.writeAll text).2
    let stored := (sink.writeAll text).1.stored.toList
    (∃ us rest, Offering stalledWriting sink text us rest done ∧
      us.getLastD sink = (sink.writeAll text).1 ∧ ∀ u ∈ us, u.stored.toList <+: text) ∧
    (∀ e, done = .error e → e.kind ≠ .interrupted) ∧
    (limit = some 0 → done = .error failure ∧ stored = []) ∧
    (limit ≠ some 0 → chunk = some 0 → done = .error stalledWriting ∧ stored = []) ∧
    (limit ≠ some 0 → chunk ≠ some 0 → (∀ l ∈ limit, text.length ≤ l) →
      done = .ok () ∧ stored = text) ∧
    (∀ l ∈ limit, l ≠ 0 → chunk ≠ some 0 → l < text.length →
      done = .error failure ∧ stored = text.take l) := by
  intro text sink done stored
  have hsteady : sink.Steady := ⟨hinterrupt, fun _ => hfailure⟩
  have hlength : text.length ≠ 0 :=
    Nat.ne_of_gt (Nat.zero_lt_of_lt (ClassText.size_lt_length_bytes name rom))
  obtain ⟨⟨us, rest, hoffering, hlast⟩, hdone, hstored⟩ := hsteady.writeAll text
  change done = _ at hdone
  change stored = [] ++ _ at hstored
  rw [List.nil_append] at hstored
  refine ⟨⟨us, rest, hoffering, hlast, ?_⟩, ?_, ?_, ?_, ?_, ?_⟩
  · intro u hu
    obtain ⟨taken, htaken, heq⟩ := hoffering.stored u hu
    rwa [heq]
  · exact hoffering.kind_ne_interrupted (by decide)
  · rintro rfl
    have hfull : sink.full = true := rfl
    rw [hdone, hstored, verdict_of_full hfull hlength, accepted_of_full hfull, List.take_zero]
    exact ⟨rfl, rfl⟩
  · rintro hlimit hchunk
    have hfull : sink.full = false := by
      rcases limit with _ | l
      · rfl
      · simpa [full, sink] using fun h0 : l = 0 => hlimit (h0 ▸ rfl)
    rw [hdone, hstored, verdict_of_chunk_zero hchunk hfull hlength,
      accepted_of_chunk_zero hchunk, List.take_zero]
    exact ⟨rfl, rfl⟩
  · intro _ hchunk hlimit
    have hfits : sink.fits text.length = text.length := by
      rcases limit with _ | l
      · rfl
      · exact Nat.min_eq_left (hlimit l rfl)
    rw [hdone, hstored, verdict_of_chunk_ne_zero hchunk, accepted_of_chunk_ne_zero hchunk, hfits,
      if_neg (Nat.lt_irrefl _), List.take_length]
    exact ⟨rfl, rfl⟩
  · rintro l hl - hchunk hlt
    obtain rfl : limit = some l := hl
    have hfits : sink.fits text.length = l := Nat.min_eq_right (Nat.le_of_lt hlt)
    rw [hdone, hstored, verdict_of_chunk_ne_zero hchunk, accepted_of_chunk_ne_zero hchunk, hfits,
      if_pos hlt]
    exact ⟨rfl, rfl⟩

/-- A limit that cuts a character of the name in two, met in calls of three octets of which
every other is interrupted. -/
theorem writeAll_scripted_split :
    (∀ n ∈ some 2, 2 ≤ n) ∧ (IoError.os .noSpace).kind ≠ .interrupted ∧
      8 < (ClassText.bytes "é".toList ⟨[255]⟩).length ∧
      let sink : Sink :=
        { chunk := some 3, limit := some 8, interruptEvery := some 2, failure := .os .noSpace }
      (sink.writeAll (ClassText.bytes "é".toList ⟨[255]⟩)).2 = .error (.os .noSpace) ∧
      (sink.writeAll (ClassText.bytes "é".toList ⟨[255]⟩)).1.stored.toList =
        (ClassText.bytes "é".toList ⟨[255]⟩).take 8 := by
  have hinterrupt : ∀ n ∈ some 2, 2 ≤ n := by simp
  have hfailure : (IoError.os .noSpace).kind ≠ .interrupted := by decide
  have hlength : 8 < (ClassText.bytes "é".toList ⟨[255]⟩).length :=
    calc 8 < ClassText.opening.length + (ArrayLiteral.render [255]).length := by decide
      _ ≤ (ClassText.embedding "é".toList ⟨[255]⟩).render.length := by
        simp only [ClassText.render, ClassText.embedding, List.length_append]
        omega
      _ ≤ _ := Utf8.length_le_length_encode _
  obtain ⟨-, -, -, -, -, hcut⟩ := writeAll_scripted "é".toList ⟨[255]⟩ (some 3) (some 8) (some 2)
    (.os .noSpace) hinterrupt hfailure
  exact ⟨hinterrupt, hfailure, hlength, hcut 8 rfl (by decide) (by decide) hlength⟩

end RomEmbed.Sink
