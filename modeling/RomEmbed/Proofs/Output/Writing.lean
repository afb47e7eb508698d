import Mathlib.Tactic.Common
import RomEmbed.Proofs.Output.Buffering

/-!
Writing to the two kinds of sinks that files have: one that takes everything at once, and
one that is full from the start. The first ends up with exactly the octets written, and the
second refuses any octets; and with a buffer before them they do the same.
-/

namespace RomEmbed.Sink

/-- The sink takes all that one call offers. -/
structure Free (s : Sink) : Prop where
  chunk : s.chunk = none
  limit : s.limit = none
  interruptEvery : s.interruptEvery = none

/-- The sink refuses every call with an error that is no interruption. -/
structure Refuses (s : Sink) : Prop where
  limit : s.limit = some 0
  interruptEvery : s.interruptEvery = none
  failure : s.failure.kind ≠ .interrupted

lemma Free.steady {s : Sink} (h : s.Free) : s.Steady :=
  ⟨by simp [h.interruptEvery], fun hl => absurd h.limit hl⟩

lemma Refuses.steady {s : Sink} (h : s.Refuses) : s.Steady :=
  ⟨by simp [h.interruptEvery], fun _ => h.failure⟩

/-! ### What they decide -/

lemma Free.accepted {s : Sink} (h : s.Free) (n : Nat) : s.accepted n = n := by
  have hchunk : s.chunk ≠ some 0 := by simp [h.chunk]
  rw [accepted_of_chunk_ne_zero hchunk]
  simp [fits, h.limit]

lemma Free.verdict {s : Sink} (h : s.Free) (stalled : IoError) (n : Nat) :
    s.verdict stalled n = .ok () := by
  have hchunk : s.chunk ≠ some 0 := by simp [h.chunk]
  rw [verdict_of_chunk_ne_zero hchunk]
  simp [fits, h.limit]

lemma Refuses.verdict {s : Sink} (h : s.Refuses) (stalled : IoError) {bs : Bytes}
    (hbs : bs ≠ []) : s.verdict stalled bs.length = .error s.failure := by
  have hfull : s.full = true := by simp [full, h.limit]
  exact verdict_of_full hfull fun h0 => hbs (List.length_eq_zero_iff.mp h0)

/-! ### Behind a buffer, and without one -/

theorem Free.writeBuffered {s : Sink} (h : s.Free) (capacity : Nat) (bs : Bytes) :
    ∃ u : Sink, s.writeBuffered capacity bs = (u, .ok ()) ∧
      u.stored.toList = s.stored.toList ++ bs := by
  obtain ⟨⟨stalled, -, hdone⟩, hstored⟩ := h.steady.writeBuffered capacity bs
  rw [h.verdict] at hdone
  rw [h.accepted, List.take_length] at hstored
  exact ⟨_, Prod.ext rfl hdone, hstored⟩

theorem Refuses.writeBuffered {s : Sink} (h : s.Refuses) (capacity : Nat) {bs : Bytes}
    (hbs : bs ≠ []) :
    ∃ u : Sink, s.writeBuffered capacity bs = (u, .error s.failure) := by
  obtain ⟨⟨stalled, -, hdone⟩, -⟩ := h.steady.writeBuffered capacity bs
  rw [h.verdict stalled hbs] at hdone
  exact ⟨_, Prod.ext rfl hdone⟩

lemma Refuses.writeAll {s : Sink} (h : s.Refuses) {bs : Bytes} (hbs : bs ≠ []) :
    (s.writeAll bs).2 = .error s.failure := by
  rw [(h.steady.writeAll bs).2.1, h.verdict stalledWriting hbs]

/-- A buffer before a sink of either kind does not change how writing ends. -/
theorem writeBuffered_result {s : Sink} (h : s.Free ∨ s.Refuses) (capacity : Nat)
    {bs : Bytes} (hbs : bs ≠ []) : (s.writeBuffered capacity bs).2 = (s.writeAll bs).2 := by
  rcases h with h | h
  · obtain ⟨u, hb, -⟩ := h.writeBuffered capacity bs
    rw [hb, (h.steady.writeAll bs).2.1, h.verdict]
  · obtain ⟨u, hb⟩ := h.writeBuffered capacity hbs
    rw [hb, h.writeAll hbs]

end RomEmbed.Sink
