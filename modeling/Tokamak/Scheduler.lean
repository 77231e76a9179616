import Tokamak.Backend

/-! The FIFO scheduler. It owns every request it was ever given, in an arena that is never emptied;
its two queues hold pointers into that arena, and a map from request ids to backend handles is kept
beside them. Backend and clock are references in the source, so the world they refer to is part of
the scheduler's state here. -/

namespace Tokamak

abbrev RequestPtr := Nat

structure TickReport where
  timestamp : TimePoint
  expiredCount : Nat := 0
  prefillAttempted : Nat := 0
  prefillSucceeded : Nat := 0
  prefillFailed : Nat := 0
  prefillTokens : Nat := 0
  decodeAttempted : Nat := 0
  decodeTokens : Nat := 0
  decodeCompleted : Nat := 0
  decodeFailed : Nat := 0
  deriving DecidableEq, Repr

/-- The report of a tick that ended at `stop`, put together from those of its three phases. -/
def TickReport.merge (stop : TimePoint) (expire prefill decode : TickReport) : TickReport :=
  { timestamp := stop
    expiredCount := expire.expiredCount
    prefillAttempted := prefill.prefillAttempted
    prefillSucceeded := prefill.prefillSucceeded
    prefillFailed := prefill.prefillFailed
    prefillTokens := prefill.prefillTokens
    decodeAttempted := decode.decodeAttempted
    decodeCompleted := decode.decodeCompleted
    decodeFailed := decode.decodeFailed
    decodeTokens := decode.decodeTokens }

structure FifoScheduler (ω : Type) where
  world : ω
  requests : Arena Request
  waiting : List RequestPtr
  decoding : List RequestPtr
  handles : FinMap RequestId SequenceHandle

/-- `for (i = 0; i < pending.size(); ++i)` reading `outcomes[i]`: an answer that is too short is
read past its end. -/
def forEachOutcome {σ O : Type} (body : σ → RequestPtr → O → Except Panic σ) :
    σ → List RequestPtr → List O → Except Panic σ
  | s, [], _ => .ok s
  | _, _ :: _, [] => .error .missingOutcome
  | s, r :: rest, outcome :: outcomes => do
      let s ← body s r outcome
      forEachOutcome body s rest outcomes

namespace FifoScheduler

variable {ω : Type}

def new (w : ω) : FifoScheduler ω := ⟨w, Arena.empty, [], [], ∅⟩

def request (s : FifoScheduler ω) (r : RequestPtr) : Request := s.requests.cell r

def state (s : FifoScheduler ω) (r : RequestPtr) : RequestState := (s.request r).state

def requestId (s : FifoScheduler ω) (r : RequestPtr) : RequestId := (s.request r).id

def waitingCount (s : FifoScheduler ω) : Nat := s.waiting.length

def decodingCount (s : FifoScheduler ω) : Nat := s.decoding.length

/-- `request` as it stands after a member function changed it and read the clock. -/
def store (s : FifoScheduler ω) (r : RequestPtr) (q : Request) (w : ω) : FifoScheduler ω :=
  { s with world := w, requests := s.requests.write r q }

section Operations

variable [Clock ω]

/-- `req->lifecycle().transition_to(target)`. -/
def transitionTo (s : FifoScheduler ω) (r : RequestPtr) (target : RequestState) :
    Except Panic (FifoScheduler ω) := do
  let moved ← (s.request r).lifecycle.transitionTo target s.world
  .ok (s.store r { s.request r with lifecycle := moved.1 } moved.2)

/-- `req->emit_token(tokenId)`. -/
def emitToken (s : FifoScheduler ω) (r : RequestPtr) (tokenId : UInt32) :
    Except Panic (FifoScheduler ω) := do
  let moved ← (s.request r).emitToken tokenId s.world
  .ok (s.store r moved.1 moved.2)

def submit (s : FifoScheduler ω) (q : Request) : Except Panic (FifoScheduler ω × RequestPtr) := do
  let raw := s.requests.next
  let s := { s with requests := s.requests.alloc q }
  let s ← s.transitionTo raw .admitted
  let s ← s.transitionTo raw .waitingPrefill
  .ok ({ s with waiting := s.waiting ++ [raw] }, raw)

/-- The requests of a queue whose deadline has passed; the clock is read once per request. -/
def collectExpired (s : FifoScheduler ω) : List RequestPtr → ω → List RequestPtr × ω
  | [], w => ([], w)
  | r :: rest, w =>
      let read := Clock.now w
      let tail := s.collectExpired rest read.2
      if (s.request r).deadlineAt < read.1 then (r :: tail.1, tail.2) else tail

variable [InferenceBackend ω]

/-- The part of `retire` that gives the handle stored under the request's id back. -/
def releaseHandle (s : FifoScheduler ω) (r : RequestPtr) : Except Panic (FifoScheduler ω) :=
  match s.handles.find (s.requestId r) with
  | none => .ok s
  | some handle => do
      let w ← callBackend (InferenceBackend.release s.world handle)
      .ok { s with world := w, handles := s.handles.erase (s.requestId r) }

def retire (s : FifoScheduler ω) (r : RequestPtr) (terminalState : RequestState) :
    Except Panic (FifoScheduler ω) := do
  let s ← s.transitionTo r terminalState
  let s ← s.releaseHandle r
  .ok { s with waiting := s.waiting.erase r, decoding := s.decoding.erase r }

/-- There is no edge from `waitingPrefill` to `failed`: the request stops over at `prefilling`. -/
def failWaiting (s : FifoScheduler ω) (r : RequestPtr) : Except Panic (FifoScheduler ω) := do
  let s ← s.transitionTo r .prefilling
  s.retire r .failed

def failDecoding (s : FifoScheduler ω) (r : RequestPtr) : Except Panic (FifoScheduler ω) :=
  s.retire r .failed

def expireDeadlines (s : FifoScheduler ω) : Except Panic (FifoScheduler ω × TickReport) := do
  let start := Clock.now s.world
  let expiredWaiting := s.collectExpired s.waiting start.2
  let expiredDecoding := s.collectExpired s.decoding expiredWaiting.2
  let s := { s with world := expiredDecoding.2 }
  let s ← expiredWaiting.1.foldlM failWaiting s
  let s ← expiredDecoding.1.foldlM failDecoding s
  .ok (s, { timestamp := start.1,
            expiredCount := expiredWaiting.1.length + expiredDecoding.1.length })

/-- A prefilled request goes straight through to `decoding`. `emplace` keeps the handle an equal id
already has; `std::erase` removes every occurrence. -/
def promote (s : FifoScheduler ω) (r : RequestPtr) (handle : SequenceHandle) :
    Except Panic (FifoScheduler ω) := do
  let s := { s with handles := s.handles.emplace (s.requestId r) handle }
  let s ← s.transitionTo r .prefilling
  let s ← s.transitionTo r .waitingDecode
  let s ← s.transitionTo r .decoding
  .ok { s with waiting := s.waiting.filter (· ≠ r), decoding := s.decoding ++ [r] }

def prefillOutcome (s : FifoScheduler ω × TickReport) (r : RequestPtr) :
    Except BackendError PrefillOutcome → Except Panic (FifoScheduler ω × TickReport)
  | .ok outcome => do
      let next ← s.1.promote r outcome.handle
      .ok (next, { s.2 with prefillSucceeded := s.2.prefillSucceeded + 1 })
  | .error _ => do
      let next ← s.1.failWaiting r
      .ok (next, { s.2 with prefillFailed := s.2.prefillFailed + 1 })

def prefillBatch (s : FifoScheduler ω) (pending : List RequestPtr) : PrefillBatch :=
  ⟨pending.map fun r => ⟨⟨(s.request r).promptTokenIds⟩⟩⟩

def prefillPhase (s : FifoScheduler ω) : Except Panic (FifoScheduler ω × TickReport) := do
  let start := Clock.now s.world
  let pending := s.waiting
  let report : TickReport :=
    { timestamp := start.1
      prefillTokens := (pending.map fun r => (s.request r).promptTokenIds.length).sum
      prefillAttempted := pending.length }
  let answer ← callBackend (InferenceBackend.prefill start.2 (s.prefillBatch pending))
  forEachOutcome prefillOutcome ({ s with world := answer.1 }, report) pending answer.2.outcomes

/-- `DecodeRequest{handles_.at(req->id())}`. -/
def decodeRequest (s : FifoScheduler ω) (r : RequestPtr) : Except Panic DecodeRequest :=
  match s.handles.find (s.requestId r) with
  | none => .error .outOfRange
  | some handle => .ok ⟨handle⟩

def decodeOutcome (s : FifoScheduler ω × TickReport) (r : RequestPtr) :
    Except BackendError DecodedToken → Except Panic (FifoScheduler ω × TickReport)
  | .ok token => do
      let next ← s.1.emitToken r token.tokenId
      let exhausted := decide
        ((next.request r).maxOutputTokens ≤ (next.request r).outputTokensEmitted)
      if token.finished || exhausted then
        let next ← next.retire r .completed
        .ok (next, { s.2 with decodeCompleted := s.2.decodeCompleted + 1 })
      else .ok (next, s.2)
  | .error _ => do
      let next ← s.1.failDecoding r
      .ok (next, { s.2 with decodeFailed := s.2.decodeFailed + 1 })

def decodePhase (s : FifoScheduler ω) : Except Panic (FifoScheduler ω × TickReport) := do
  let start := Clock.now s.world
  let pending := s.decoding
  let batch ← pending.mapM s.decodeRequest
  let report : TickReport :=
    { timestamp := start.1, decodeTokens := pending.length, decodeAttempted := pending.length }
  let answer ← callBackend (InferenceBackend.decode start.2 ⟨batch⟩)
  forEachOutcome decodeOutcome ({ s with world := answer.1 }, report) pending answer.2.outcomes

def tick (s : FifoScheduler ω) : Except Panic (FifoScheduler ω × TickReport) := do
  let expire ← s.expireDeadlines
  let prefill ← expire.1.prefillPhase
  let decode ← prefill.1.decodePhase
  let stop := Clock.now decode.1.world
  .ok ({ decode.1 with world := stop.2 },
    TickReport.merge stop.1 expire.2 prefill.2 decode.2)

/-- Retires the first request of a queue with the given id, if there is one. -/
def cancelFirst (s : FifoScheduler ω) (queue : List RequestPtr) (id : RequestId) :
    Except Panic (FifoScheduler ω) :=
  match queue.find? (fun r => s.requestId r = id) with
  | some r => s.retire r .cancelled
  | none => .ok s

def cancel (s : FifoScheduler ω) (id : RequestId) : Except Panic (FifoScheduler ω) := do
  let s ← s.cancelFirst s.waiting id
  s.cancelFirst s.decoding id

end Operations

end FifoScheduler

/-- One call of a client of the scheduler, or something that happens to its world in between.
`submit` takes what the caller gives the `Request` constructor. -/
inductive SchedulerOp (ω : Type) [Environment ω] where
  | submit (id : RequestId) (deadlineFromNow : Duration) (maxOutputTokens : Nat)
      (promptTokenIds : List UInt32) (priority : Int)
  | cancel (id : RequestId)
  | tick
  | event (e : Environment.Event ω)

namespace FifoScheduler

variable {ω : Type} [Clock ω] [InferenceBackend ω] [Environment ω]

def apply (s : FifoScheduler ω) : SchedulerOp ω → Except Panic (FifoScheduler ω)
  | .submit id deadlineFromNow maxOutputTokens promptTokenIds priority => do
      let made := Request.construct id s.world deadlineFromNow maxOutputTokens promptTokenIds priority
      let done ← { s with world := made.2 }.submit made.1
      .ok done.1
  | .cancel id => s.cancel id
  | .tick => do
      let done ← s.tick
      .ok done.1
  | .event e => do
      let w ← callBackend (Environment.occur s.world e)
      .ok { s with world := w }

end FifoScheduler

end Tokamak
