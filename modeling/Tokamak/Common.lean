import Tokamak.Outcome
import Tokamak.Store

/-! Time and aborts, as the whole program uses them. A time point and a duration are whole
nanoseconds of the steady clock, kept unbounded. A clock is read through the state of the world it
belongs to: reading a real clock moves that world on, reading a fake one leaves it alone. -/

namespace Tokamak

abbrev TimePoint := Int

abbrev Duration := Int

/-- The aborts of a backend and of the clock it drives: the `panic()` calls of the mock backend, the
assertion of `FakeClock::advance`, and whatever another backend may die of. -/
inductive BackendPanic where
  | decodeUnknownHandle
  | releaseUnknownHandle
  | configureEosUnknownHandle
  | negativeAdvance
  | other (message : String)
  deriving DecidableEq, Repr

/-- Every way an operation can take the process down. -/
inductive Panic where
  | illegalTransition
  | firstTokenOutsideDecoding
  | tokenBudgetExceeded
  /-- `std::out_of_range`, thrown by `at()` on a missing key and caught nowhere. -/
  | outOfRange
  /-- `outcomes[i]` past the end of a backend's answer. -/
  | missingOutcome
  /-- `token_ids[i]` past the end of a request's output. -/
  | missingToken
  /-- `std::terminate`: a joinable `std::thread` is assigned to. -/
  | threadOverwritten
  /-- `std::terminate`: `dump()` of the JSON library has thrown, and nobody catches it. -/
  | uncaughtDump
  | backend (p : BackendPanic)
  deriving DecidableEq, Repr

def BackendPanic.message : BackendPanic → String
  | .decodeUnknownHandle =>
      "decode() called with unknown or already-released SequenceHandle"
  | .releaseUnknownHandle =>
      "release() called with unknown or already-released SequenceHandle"
  | .configureEosUnknownHandle =>
      "configure_eos() called with unknown or already-released SequenceHandle"
  | .negativeAdvance => "Fake must advance monotonically (non-negative duration"
  | .other message => message

/-- The text the process dies with; the library's own aborts have none in the source. -/
def Panic.message : Panic → String
  | .illegalTransition => "illegal request statet transition attempted"
  | .firstTokenOutsideDecoding => "record_first_token() called outside Decoding state."
  | .tokenBudgetExceeded => "emit_token() called after max_output_tokens already reached"
  | .outOfRange | .missingOutcome | .missingToken | .threadOverwritten | .uncaughtDump => ""
  | .backend p => p.message

/-- A call into the backend or the fake clock: its aborts are aborts of the caller. -/
def callBackend {α : Type} (x : Except BackendPanic α) : Except Panic α :=
  match x with
  | .ok value => .ok value
  | .error p => .error (.backend p)

open Outcome in
theorem ensures_callBackend {α : Type} {x : Except BackendPanic α} {fails : Panic → Prop}
    {post : α → Prop} :
    Ensures (callBackend x) fails post ↔ Ensures x (fun p => fails (.backend p)) post := by
  cases x <;> rfl

theorem callBackend_eq_ok {α : Type} {x : Except BackendPanic α} {value : α} :
    callBackend x = .ok value ↔ x = .ok value := by
  cases x <;> simp [callBackend]

/-- `Clock::now()`: the time read, and the world after the reading. -/
class Clock (ω : Type) where
  now : ω → TimePoint × ω

/-- `FakeClock`: time moves only when `advance` is called. -/
structure FakeClock where
  current : TimePoint
  deriving DecidableEq, Repr

namespace FakeClock

def now (c : FakeClock) : TimePoint := c.current

/-- The assertion is taken as compiled in, as it is without `NDEBUG`. -/
def advance (c : FakeClock) (d : Duration) : Except BackendPanic FakeClock :=
  if 0 ≤ d then .ok ⟨c.current + d⟩ else .error .negativeAdvance

theorem advance_ok {c c' : FakeClock} {d : Duration} (h : c.advance d = .ok c') :
    0 ≤ d ∧ c'.current = c.current + d := by
  unfold advance at h
  split_ifs at h with hd
  cases h
  exact ⟨hd, rfl⟩

end FakeClock

end Tokamak
