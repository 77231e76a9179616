import Tokamak.Common

/-! The request state machine: ten states, the legal edges between them, and the timestamps a
transition records. An illegal transition aborts the process. -/

namespace Tokamak

inductive RequestState where
  | received
  | admitted
  | waitingPrefill
  | prefilling
  | waitingDecode
  | decoding
  | completed
  | rejected
  | cancelled
  | failed
  deriving DecidableEq, Repr

namespace RequestState

def toString : RequestState → String
  | received => "Received"
  | admitted => "Admitted"
  | waitingPrefill => "WaitingPrefill"
  | prefilling => "Prefilling"
  | waitingDecode => "WaitingDecode"
  | decoding => "Decoding"
  | completed => "Completed"
  | rejected => "Rejected"
  | cancelled => "Cancelled"
  | failed => "Failed"

def isTerminal : RequestState → Bool
  | completed | rejected | cancelled | failed => true
  | _ => false

end RequestState

open RequestState in
def isValidTransition : RequestState → RequestState → Bool
  | received, target => target == admitted || target == rejected || target == cancelled
  | admitted, target => target == waitingPrefill || target == cancelled
  | waitingPrefill, target => target == prefilling || target == cancelled
  | prefilling, target => target == waitingDecode || target == failed || target == cancelled
  | waitingDecode, target => target == decoding || target == cancelled
  | decoding, target => target == completed || target == failed || target == cancelled
  | completed, _ | rejected, _ | cancelled, _ | failed, _ => false

theorem isValidTransition_of_isTerminal {s : RequestState} (h : s.isTerminal = true)
    (target : RequestState) : isValidTransition s target = false := by
  cases s <;> simp [RequestState.isTerminal] at h <;> rfl

structure RequestLifecycle where
  state : RequestState
  enteredAt : TimePoint
  admittedAt : Option TimePoint
  firstTokenAt : Option TimePoint
  completedAt : Option TimePoint
  stateEnteredAt : FinMap RequestState TimePoint

namespace RequestLifecycle

/-- A fresh lifecycle whose constructor read the clock at `t`. -/
def new (t : TimePoint) : RequestLifecycle :=
  ⟨.received, t, none, none, none, ∅⟩

/-- What `transition_to` stores once the edge has been found legal and the clock read. -/
def enter (lc : RequestLifecycle) (target : RequestState) (t : TimePoint) : RequestLifecycle :=
  { lc with
    state := target
    enteredAt := t
    stateEnteredAt := lc.stateEnteredAt.insert target t
    admittedAt := if target = .admitted then some t else lc.admittedAt
    completedAt := if target = .completed then some t else lc.completedAt }

variable {ω : Type} [Clock ω]

def transitionTo (lc : RequestLifecycle) (target : RequestState) (w : ω) :
    Except Panic (RequestLifecycle × ω) :=
  if isValidTransition lc.state target then
    .ok (lc.enter target (Clock.now w).1, (Clock.now w).2)
  else .error .illegalTransition

/-- Idempotent: a terminal lifecycle is left as it is. -/
def cancel (lc : RequestLifecycle) (w : ω) : Except Panic (RequestLifecycle × ω) :=
  if lc.state.isTerminal then .ok (lc, w) else lc.transitionTo .cancelled w

def stampFirstToken (lc : RequestLifecycle) (t : TimePoint) : RequestLifecycle :=
  { lc with firstTokenAt := some t }

/-- Only the first token stores the time, and only then is the clock read. -/
def firstToken (lc : RequestLifecycle) (w : ω) : RequestLifecycle × ω :=
  if lc.firstTokenAt.isNone then (lc.stampFirstToken (Clock.now w).1, (Clock.now w).2)
  else (lc, w)

/-- A milestone within `decoding`, not a transition. -/
def recordFirstToken (lc : RequestLifecycle) (w : ω) : Except Panic (RequestLifecycle × ω) :=
  if lc.state ≠ .decoding then .error .firstTokenOutsideDecoding else .ok (lc.firstToken w)

/-- `entered_at(state)`: when the state was entered, if it ever was. -/
def enteredAtState (lc : RequestLifecycle) (state : RequestState) : Option TimePoint :=
  lc.stateEnteredAt.find state

@[simp] theorem state_enter (lc : RequestLifecycle) (target : RequestState) (t : TimePoint) :
    (lc.enter target t).state = target := rfl

@[simp] theorem firstTokenAt_enter (lc : RequestLifecycle) (target : RequestState) (t : TimePoint) :
    (lc.enter target t).firstTokenAt = lc.firstTokenAt := rfl

@[simp] theorem admittedAt_enter (lc : RequestLifecycle) (target : RequestState) (t : TimePoint) :
    (lc.enter target t).admittedAt = if target = .admitted then some t else lc.admittedAt := rfl

@[simp] theorem completedAt_enter (lc : RequestLifecycle) (target : RequestState) (t : TimePoint) :
    (lc.enter target t).completedAt = if target = .completed then some t else lc.completedAt := rfl

@[simp] theorem enteredAtState_enter (lc : RequestLifecycle) (target state : RequestState)
    (t : TimePoint) : (lc.enter target t).enteredAtState state =
      if state = target then some t else lc.enteredAtState state :=
  FinMap.find_insert lc.stateEnteredAt target state t

@[simp] theorem enteredAtState_stampFirstToken (lc : RequestLifecycle) (state : RequestState)
    (t : TimePoint) : (lc.stampFirstToken t).enteredAtState state = lc.enteredAtState state := rfl

@[simp] theorem admittedAt_stampFirstToken (lc : RequestLifecycle) (t : TimePoint) :
    (lc.stampFirstToken t).admittedAt = lc.admittedAt := rfl

@[simp] theorem firstTokenAt_stampFirstToken (lc : RequestLifecycle) (t : TimePoint) :
    (lc.stampFirstToken t).firstTokenAt = some t := rfl

@[simp] theorem state_firstToken (lc : RequestLifecycle) (w : ω) :
    (lc.firstToken w).1.state = lc.state := by
  unfold firstToken
  split_ifs <;> rfl

@[simp] theorem admittedAt_firstToken (lc : RequestLifecycle) (w : ω) :
    (lc.firstToken w).1.admittedAt = lc.admittedAt := by
  unfold firstToken
  split_ifs <;> rfl

@[simp] theorem completedAt_firstToken (lc : RequestLifecycle) (w : ω) :
    (lc.firstToken w).1.completedAt = lc.completedAt := by
  unfold firstToken
  split_ifs <;> rfl

theorem recordFirstToken_of_decoding {lc : RequestLifecycle} (h : lc.state = .decoding) (w : ω) :
    lc.recordFirstToken w = .ok (lc.firstToken w) := if_neg (not_not.mpr h)

theorem transitionTo_of_valid {lc : RequestLifecycle} {target : RequestState}
    (h : isValidTransition lc.state target = true) (w : ω) :
    lc.transitionTo target w = .ok (lc.enter target (Clock.now w).1, (Clock.now w).2) := if_pos h

end RequestLifecycle

end Tokamak
