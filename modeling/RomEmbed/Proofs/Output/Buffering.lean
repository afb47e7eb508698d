import Mathlib.Tactic.Common
import RomEmbed.Proofs.Output.Draining

/-!
A buffer before a sink. Octets that fill the buffer are offered to the sink at once, and others
when the writer is flushed. Either way all of them are offered, call after call, so how much is
stored and how it ends is for the sink alone to decide.

What a flush leaves in the buffer had no room in the sink, or is refused by it. It has none when
the writer is closed either, so that the octets offered a second time are not stored.
-/

namespace RomEmbed.Sink

variable {stalled : IoError} {s u : Sink} {left rest bs : Bytes} {us : List Sink}
  {r : Except IoError Unit}

/-! ### What no call changes -/

/-- The two sinks differ in what they have stored and in their calls alone. -/
structure SameScript (s u : Sink) : Prop where
  chunk : u.chunk = s.chunk
  limit : u.limit = s.limit
  interruptEvery : u.interruptEvery = s.interruptEvery
  failure : u.failure = s.failure

lemma SameScript.trans {v : Sink} (h : SameScript s u) (h' : SameScript u v) : SameScript s v :=
  ⟨h'.chunk.trans h.chunk, h'.limit.trans h.limit, h'.interruptEvery.trans h.interruptEvery,
    h'.failure.trans h.failure⟩

lemma SameScript.steady (h : SameScript s u) (hs : s.Steady) : u.Steady := by
  refine ⟨fun n hn => hs.interruptEvery n ?_, fun hl => ?_⟩
  · rwa [← h.interruptEvery]
  · rw [h.failure]
    exact hs.failure (h.limit ▸ hl)

lemma sameScript_of_write {k : Except IoError Nat} (h : s.write left = (u, k)) :
    SameScript s u := by
  rcases write_cases s left with ⟨-, hw⟩ | ⟨-, -, hw⟩ | ⟨-, -, hw⟩ <;> rw [hw] at h <;> cases h <;>
    exact ⟨rfl, rfl, rfl, rfl⟩

lemma Offering.sameScript (h : Offering stalled s left us rest r) :
    SameScript s (us.getLastD s) := by
  induction h with
  | done s => exact ⟨rfl, rfl, rfl, rfl⟩
  | stalled _ hw => exact sameScript_of_write hw
  | failed _ hw _ => exact sameScript_of_write hw
  | taken _ hw _ _ ih =>
    rw [List.getLastD_cons]
    exact (sameScript_of_write hw).trans ih
  | again _ hw _ _ ih =>
    rw [List.getLastD_cons]
    exact (sameScript_of_write hw).trans ih

/-! ### How it ends, whatever a stall is called -/

/-- The error of a stalled offering is all that it does not have from the sink. -/
lemma verdict_cases (s : Sink) (n : Nat) :
    (∀ stalled, s.verdict stalled n = .ok ()) ∨
    (∀ stalled, s.verdict stalled n = .error s.failure) ∨
    (∀ stalled, s.verdict stalled n = .error stalled) := by
  unfold verdict
  by_cases hstall : s.chunk = some 0 ∧ s.full = false ∧ n ≠ 0
  · exact Or.inr (Or.inr fun _ => if_pos hstall)
  · simp only [if_neg hstall]
    by_cases hfits : s.fits n < n
    · exact Or.inr (Or.inl fun _ => if_pos hfits)
    · exact Or.inl fun _ => if_neg hfits

/-! ### What is offered a second time -/

/-- Of octets that found no room none is stored later. -/
lemma accepted_rest (h : SameScript s u)
    (hstored : u.stored.toList = s.stored.toList ++ bs.take (s.accepted bs.length)) :
    u.accepted (bs.drop (s.accepted bs.length)).length = 0 := by
  by_cases hc : s.chunk = some 0
  · exact accepted_of_chunk_zero (h.chunk.trans hc) _
  have hc' : u.chunk ≠ some 0 := fun hu => hc (h.chunk.symm.trans hu)
  rw [accepted_of_chunk_ne_zero hc] at hstored ⊢
  rw [accepted_of_chunk_ne_zero hc', List.length_drop]
  rcases hl : s.limit with _ | l
  · have hall : s.fits bs.length = bs.length := by simp [fits, hl]
    rw [hall, Nat.sub_self]
    exact Nat.le_zero.mp (u.fits_le 0)
  · have hl' : u.limit = some l := h.limit.trans hl
    have hsize : u.stored.size = s.stored.size + s.fits bs.length := by
      rw [← Array.length_toList, hstored, List.length_append, Array.length_toList,
        List.length_take_of_le (s.fits_le _)]
    simp only [fits, hl, hl'] at hsize ⊢
    omega

/-! ### Behind a buffer -/

/-- How a flush ends when the sink takes nothing of what it is offered. -/
def stalledFlushing : IoError :=
  .custom .writeZero "failed to write the buffered data".toList

lemma flush_of_drain (capacity : Nat)
    (h : s.drain stalledFlushing (callBound bs) bs = (u, rest, r)) :
    Buffered.flush ⟨capacity, s, bs⟩ = (⟨capacity, u, rest⟩, r) := by
  unfold Buffered.flush
  rw [← stalledFlushing, h]

lemma flush_nil (s : Sink) (capacity : Nat) :
    Buffered.flush ⟨capacity, s, []⟩ = (⟨capacity, s, []⟩, .ok ()) :=
  flush_of_drain capacity (drain_nil ..)

lemma close_nil (s : Sink) (capacity : Nat) : Buffered.close ⟨capacity, s, []⟩ = s := by
  rw [Buffered.close, flush_nil]

/-- Octets that do not fill the buffer are held. -/
lemma writeAll_of_lt (s : Sink) {capacity : Nat} (h : bs.length < capacity) :
    Buffered.writeAll ⟨capacity, s, []⟩ bs = (⟨capacity, s, bs⟩, .ok ()) := by
  unfold Buffered.writeAll
  rw [if_pos (by simpa [Buffered.room] using h)]
  rfl

/-- Octets that fill the buffer go to the sink directly. -/
lemma writeAll_of_ge (s : Sink) {capacity : Nat} (h : capacity ≤ bs.length) :
    Buffered.writeAll ⟨capacity, s, []⟩ bs =
      (⟨capacity, (s.writeAll bs).1, []⟩, (s.writeAll bs).2) := by
  unfold Buffered.writeAll
  rw [if_neg (by simpa [Buffered.room] using h)]
  simp only [flush_nil, ite_self, if_pos h]

lemma writeBuffered_of_lt (s : Sink) {capacity : Nat} (h : bs.length < capacity) :
    s.writeBuffered capacity bs =
      ((Buffered.flush ⟨capacity, s, bs⟩).1.close, (Buffered.flush ⟨capacity, s, bs⟩).2) := by
  unfold Sink.writeBuffered
  rw [writeAll_of_lt s h]

lemma writeBuffered_of_ge (s : Sink) {capacity : Nat} (h : capacity ≤ bs.length) :
    s.writeBuffered capacity bs = s.writeAll bs := by
  unfold Sink.writeBuffered
  rw [writeAll_of_ge s h]
  rcases hdone : s.writeAll bs with ⟨u, done | done⟩ <;> simp only [flush_nil, close_nil]

/-- A flush, and a closing after it that stores nothing more. -/
lemma Steady.flush (h : s.Steady) (capacity : Nat) (bs : Bytes) :
    (Buffered.flush ⟨capacity, s, bs⟩).2 = s.verdict stalledFlushing bs.length ∧
    (Buffered.flush ⟨capacity, s, bs⟩).1.sink.stored.toList =
      s.stored.toList ++ bs.take (s.accepted bs.length) ∧
    (Buffered.flush ⟨capacity, s, bs⟩).1.close.stored =
      (Buffered.flush ⟨capacity, s, bs⟩).1.sink.stored := by
  obtain ⟨us, hoffering, hdrain, hstored⟩ := h.drain stalledFlushing bs
  have hscript := hoffering.sameScript
  obtain ⟨vs, -, hdrain', hstored'⟩ := (hscript.steady h).drain stalledFlushing
    (bs.drop (s.accepted bs.length))
  rw [accepted_rest hscript hstored, List.take_zero, List.append_nil] at hstored'
  rw [flush_of_drain capacity hdrain, Buffered.close, flush_of_drain capacity hdrain']
  exact ⟨rfl, hstored, Array.toList_inj.mp hstored'⟩

/-- Whatever was written, the closing after a flush stores nothing more. -/
lemma Steady.close_flushed (h : s.Steady) (capacity : Nat) (bs : Bytes) :
    (Buffered.writeAll ⟨capacity, s, []⟩ bs).1.flush.1.close.stored =
      (Buffered.writeAll ⟨capacity, s, []⟩ bs).1.flush.1.sink.stored := by
  rcases Nat.lt_or_ge bs.length capacity with hlt | hge
  · rw [writeAll_of_lt s hlt]
    exact (h.flush capacity bs).2.2
  · rw [writeAll_of_ge s hge, flush_nil, close_nil]

/-- **Writing through a buffer comes to what the sink decides**, as writing without one does. -/
theorem Steady.writeBuffered (h : s.Steady) (capacity : Nat) (bs : Bytes) :
    (∃ stalled ∈ [stalledWriting, stalledFlushing],
      (s.writeBuffered capacity bs).2 = s.verdict stalled bs.length) ∧
    (s.writeBuffered capacity bs).1.stored.toList =
      s.stored.toList ++ bs.take (s.accepted bs.length) := by
  rcases Nat.lt_or_ge bs.length capacity with hlt | hge
  · obtain ⟨hdone, hstored, hclose⟩ := h.flush capacity bs
    rw [writeBuffered_of_lt s hlt]
    exact ⟨⟨stalledFlushing, by simp, hdone⟩, by rw [hclose, hstored]⟩
  · obtain ⟨-, hdone, hstored⟩ := h.writeAll bs
    rw [writeBuffered_of_ge s hge]
    exact ⟨⟨stalledWriting, by simp, hdone⟩, hstored⟩

/-- **A buffer changes nothing**, whatever its capacity and however the sink breaks up the calls,
interrupts them and runs full. The writing succeeds exactly if it does without the buffer, and the
same octets are stored. If it fails, so does it without the buffer, with an error of the same kind
and, unless the sink took nothing, of the same text and number. The closing of the writer stores
nothing that was not stored before, and what is stored is a beginning of the class. -/
theorem writeBuffered_transparent (name : Text) (rom : Rom) (capacity : Nat)
    (chunk limit interruptEvery : Option Nat) (failure : IoError)
    (hinterrupt : ∀ n ∈ interruptEvery, 2 ≤ n) (hfailure : failure.kind ≠ .interrupted) :
    let text := ClassText.bytes name rom
    let sink : Sink := { chunk, limit, interruptEvery, failure }
    let buffered := sink.writeBuffered capacity text
    let direct := sink.writeAll text
    let flushed := (Buffered.writeAll ⟨capacity, sink, []⟩ text).1.flush.1
    (buffered.2 = .ok () ↔ direct.2 = .ok ()) ∧
    buffered.1.stored = direct.1.stored ∧
    (∀ e, buffered.2 = .error e → ∃ e', direct.2 = .error e' ∧ e.kind = e'.kind ∧
      (e.kind ≠ .writeZero → e.text = e'.text ∧ e.number? = e'.number?)) ∧
    flushed.close.stored = flushed.sink.stored ∧ buffered.1.stored.toList <+: text := by
  intro text sink buffered direct flushed
  have hsteady : sink.Steady := ⟨hinterrupt, fun _ => hfailure⟩
  obtain ⟨⟨stalled, hstalled, hbuffered⟩, hstored⟩ := hsteady.writeBuffered capacity text
  obtain ⟨-, hdirect, hstored'⟩ := hsteady.writeAll text
  change buffered.2 = _ at hbuffered
  change direct.2 = _ at hdirect
  change buffered.1.stored.toList = [] ++ _ at hstored
  rw [List.nil_append] at hstored
  have hsame : buffered.1.stored = direct.1.stored :=
    Array.toList_inj.mp (hstored.trans hstored'.symm)
  have hprefix : buffered.1.stored.toList <+: text := hstored ▸ List.take_prefix _ _
  have hclose := hsteady.close_flushed capacity text
  rcases sink.verdict_cases text.length with hv | hv | hv <;> rw [hv] at hbuffered hdirect <;>
    rw [hbuffered, hdirect]
  · exact ⟨Iff.rfl, hsame, nofun, hclose, hprefix⟩
  · refine ⟨Iff.rfl, hsame, ?_, hclose, hprefix⟩
    rintro e ⟨⟩
    exact ⟨_, rfl, rfl, fun _ => ⟨rfl, rfl⟩⟩
  · -- the sink took nothing, and the two errors differ in their texts
    refine ⟨⟨nofun, nofun⟩, hsame, ?_, hclose, hprefix⟩
    rintro e ⟨⟩
    have hkind : stalled.kind = .writeZero := by
      rcases List.mem_cons.mp hstalled with rfl | h
      · rfl
      · rw [List.mem_singleton.mp h]
        rfl
    exact ⟨_, rfl, hkind, fun hne => absurd hkind hne⟩

/-- A buffer that holds the whole class before a sink that takes three octets at every other call
and has room for eight. -/
theorem writeBuffered_transparent_held :
    (∀ n ∈ some 2, 2 ≤ n) ∧ (IoError.os .noSpace).kind ≠ .interrupted ∧
      let text := ClassText.bytes "é".toList ⟨[255]⟩
      let sink : Sink :=
        { chunk := some 3, limit := some 8, interruptEvery := some 2, failure := .os .noSpace }
      text.length < 8192 ∧ (sink.writeBuffered 8192 text).1.stored.size = 8 ∧
      (sink.writeBuffered 8192 text).1.stored = (sink.writeAll text).1.stored ∧
      (sink.writeBuffered 8192 text).2 = .error (.os .noSpace) ∧
      ∃ e', (sink.writeAll text).2 = .error e' ∧ IoError.Kind.storageFull = e'.kind := by
  have hinterrupt : ∀ n ∈ some 2, 2 ≤ n := by simp
  have hfailure : (IoError.os .noSpace).kind ≠ .interrupted := by decide
  obtain ⟨-, hstored, herror, -⟩ := writeBuffered_transparent "é".toList ⟨[255]⟩ 8192 (some 3)
    (some 8) (some 2) (.os .noSpace) hinterrupt hfailure
  have hfails : (Sink.writeBuffered 8192
      { chunk := some 3, limit := some 8, interruptEvery := some 2, failure := .os .noSpace }
      (ClassText.bytes "é".toList ⟨[255]⟩)).2 = .error (.os .noSpace) := by
    decide +kernel
  obtain ⟨e', hdirect, hkind, -⟩ := herror _ hfails
  exact ⟨hinterrupt, hfailure, by decide +kernel, by decide +kernel, hstored, hfails, e', hdirect,
    hkind⟩

end RomEmbed.Sink
