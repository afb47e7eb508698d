import RomEmbed.IoError

/-!
A sink takes octets in calls of its own measure: it may take only part of what it is
offered, be interrupted, run full and fail. `writeAll` offers a text until all of it is
taken; a `Buffered` writer collects what is written and hands it on in one go.
-/

namespace RomEmbed

/-- What a sink does at each call, the number of calls so far, and what it has stored. -/
structure Sink where
  /-- The most octets that one call takes. -/
  chunk : Option Nat := none
  /-- The octets that fit; a call on a full sink fails. -/
  limit : Option Nat := none
  /-- Every call whose number this divides is interrupted. -/
  interruptEvery : Option Nat := none
  /-- The error of a full sink. -/
  failure : IoError := default
  calls : Nat := 0
  stored : Array UInt8 := #[]

namespace Sink

/-- Whether the call just counted is interrupted. -/
def interrupted (s : Sink) : Bool :=
  match s.interruptEvery with
  | none => false
  | some n => s.calls % n == 0

def full (s : Sink) : Bool :=
  match s.limit with
  | none => false
  | some n => n ≤ s.stored.size

/-- The part of the offered octets that one call takes. -/
def portion (s : Sink) (offered : Bytes) : Bytes :=
  let offered := match s.chunk with
    | none => offered
    | some n => offered.take n
  match s.limit with
  | none => offered
  | some n => offered.take (n - s.stored.size)

/-- One call: how many of the offered octets are stored. -/
def write (s : Sink) (offered : Bytes) : Sink × Except IoError Nat :=
  let s := { s with calls := s.calls + 1 }
  if s.interrupted then (s, .error (.plain .interrupted))
  else if s.full then (s, .error s.failure)
  else
    let taken := s.portion offered
    ({ s with stored := s.stored ++ taken }, .ok taken.length)

/-- Calls the sink with what is left until nothing is, passing over interruptions; a call
that takes nothing ends it with the error `stalled`. The first argument bounds the calls.
Returns what is left. -/
def drain (stalled : IoError) : Nat → Sink → Bytes → Sink × Bytes × Except IoError Unit
  | _, s, [] => (s, [], .ok ())
  | 0, s, left => (s, left, .error (.plain .interrupted))
  | n + 1, s, left =>
    match s.write left with
    | (s, .ok 0) => (s, left, .error stalled)
    | (s, .ok k) => drain stalled n s (left.drop k)
    | (s, .error e) =>
      if e.kind = .interrupted then drain stalled n s left else (s, left, .error e)

/-- Calls enough for any sink that stores an octet at every second call. -/
def callBound (bs : Bytes) : Nat := 2 * bs.length + 1

def writeAll (s : Sink) (bs : Bytes) : Sink × Except IoError Unit :=
  let (s, _, done) :=
    s.drain (.custom .writeZero "failed to write whole buffer".toList) (callBound bs) bs
  (s, done)

end Sink

/-- A writer that holds back less than `capacity` octets before its sink. -/
structure Buffered where
  capacity : Nat
  sink : Sink
  held : Bytes := []

namespace Buffered

/-- Hands on what is held; what the sink did not take stays held. -/
def flush (w : Buffered) : Buffered × Except IoError Unit :=
  let (sink, left, done) :=
    w.sink.drain (.custom .writeZero "failed to write the buffered data".toList)
      (Sink.callBound w.held) w.held
  ({ w with sink := sink, held := left }, done)

def room (w : Buffered) : Nat := w.capacity - w.held.length

/-- Holds what there is room for. Else what is held goes first, and octets that would fill
the whole buffer go to the sink directly. -/
def writeAll (w : Buffered) (bs : Bytes) : Buffered × Except IoError Unit :=
  if bs.length < w.room then ({ w with held := w.held ++ bs }, .ok ())
  else
    let (w, flushed) := if bs.length > w.room then w.flush else (w, .ok ())
    match flushed with
    | .error e => (w, .error e)
    | .ok () =>
      if bs.length ≥ w.capacity then
        let (sink, done) := w.sink.writeAll bs
        ({ w with sink := sink }, done)
      else ({ w with held := w.held ++ bs }, .ok ())

/-- Closing tries once more to hand on what is held, whatever comes of it. -/
def close (w : Buffered) : Sink := w.flush.1.sink

end Buffered

/-- Writes through a buffer of the given capacity: all octets, a flush if that went well,
and the closing of the writer in any case. -/
def Sink.writeBuffered (capacity : Nat) (s : Sink) (bs : Bytes) : Sink × Except IoError Unit :=
  let (w, written) := Buffered.writeAll ⟨capacity, s, []⟩ bs
  match written with
  | .error e => (w.close, .error e)
  | .ok () =>
    let (w, flushed) := w.flush
    (w.close, flushed)

end RomEmbed
