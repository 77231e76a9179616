import Tokamak.Scheduler
import Tokamak.TokenChannel

/-! The engine: a scheduler driven by a thread of its own, fed by clients through two vectors under
one mutex, and streaming to consumers through token channels.

The system is a step function over the actions of all parties. A critical section is one step, so is
each call on a channel; work of the engine thread on state no other thread sees (a loop body of
`drain_submissions`, a tick) is one step too. The order in which a loop visits `active_` is the hash
map's, so it is left to the action. `start` is one step as well: no `stop` is called between its exchange
of `running_` and its new thread, as only `submit` and `cancel` are for any thread to call. The two waits
carry no state: `wait_for` returns by its timeout at the latest, and a blocked `pop` is a step that
changes nothing. The last five fields are history that no step reads. -/

namespace Tokamak

abbrev ChannelPtr := Nat

structure Submission where
  id : RequestId
  promptTokenIds : List UInt32
  maxTokens : Nat
  deadline : Duration
  channel : ChannelPtr
  deriving DecidableEq, Repr

structure ActiveEntry where
  request : RequestPtr
  channel : ChannelPtr
  lastSeenTokens : Nat := 0
  backpressureSince : Option TimePoint := none
  deriving DecidableEq, Repr

namespace ActiveEntry

/-- `last_seen_tokens = i + 1; backpressure_since = nullopt`. -/
def sent (entry : ActiveEntry) : ActiveEntry :=
  { entry with lastSeenTokens := entry.lastSeenTokens + 1, backpressureSince := none }

/-- `if (!backpressure_since) backpressure_since = steady_clock::now()`. -/
def blocked (entry : ActiveEntry) (steadyNow : TimePoint) : ActiveEntry :=
  { entry with backpressureSince := some (entry.backpressureSince.getD steadyNow) }

end ActiveEntry

/-- Where the engine thread stands in `run`. A list is what is left of the batch or of the loop. -/
inductive EnginePc where
  | exited
  | loopTest
  | awake
  | drainSubmissions
  | admitting (batch : List Submission)
  | drainCancels
  | cancelling (batch : List RequestId)
  | tick
  | pushTokens (todo : List RequestId)
  | pushing (id : RequestId) (todo : List RequestId)
  | checkBackpressure
  | expelling (toCancel : List RequestId)
  | reapTerminal
  | reaping (toReap : List RequestId)
  deriving DecidableEq, Repr

/-- The three places that close a channel. -/
inductive Closer where
  | cancel
  | backpressure
  | reap
  deriving DecidableEq, Repr

/-- A call the engine made on a channel; `accepted` is what `try_push` returned. -/
inductive ChannelCall where
  | tryPush (channel : ChannelPtr) (event : TokenEvent) (accepted : Bool)
  | close (channel : ChannelPtr) (closer : Closer)
  deriving DecidableEq, Repr

structure Engine (ω : Type) where
  backpressureTimeout : Duration
  scheduler : FifoScheduler ω
  running : Bool
  /-- `thread_.joinable()` -/
  joinable : Bool
  /-- A `stop()` has flipped the flag and waits in `join()`. -/
  stopping : Bool
  pc : EnginePc
  pendingSubmissions : List Submission
  pendingCancels : List RequestId
  active : FinMap RequestId ActiveEntry
  channels : ChannelPtr → TokenChannel
  /-- Calls of `submit` that have passed the `running_` test and not yet pushed. -/
  entering : List Submission
  /-- Submissions in the order they were pushed. -/
  accepted : List Submission
  /-- Cancels in the order they were pushed. -/
  cancels : List RequestId
  /-- Cancels `drain_cancels` has dealt with. -/
  handled : List RequestId
  calls : List ChannelCall
  /-- A call of `stop` has returned since the last start. -/
  stopped : Bool

inductive EngineAction (ω : Type) [Environment ω] where
  | start
  | stop
  | join
  /-- The test of `running_` in `submit`. -/
  | submit (submission : Submission)
  /-- The push of the `k`-th call of `submit` that has passed the test. -/
  | push (k : Nat)
  | cancel (id : RequestId)
  | pop (channel : ChannelPtr)
  | close (channel : ChannelPtr)
  | event (e : Environment.Event ω)
  /-- The next step of the engine thread: `choice` is the hash map's, `steadyNow` the steady clock's. -/
  | engine (choice : Nat) (steadyNow : TimePoint)

/-- An element of what is left of a loop over a hash map. -/
def pick {α : Type} (todo : List α) (choice : Nat) : Option α := todo[choice % todo.length]?

/-- The reason sent along with the `i`-th token. -/
def finishReason (q : Request) (i : Nat) : FinishReason :=
  if q.state.isTerminal && i == q.outputTokensEmitted - 1 then
    if q.maxOutputTokens ≤ q.outputTokensEmitted then .length else .stop
  else .none

namespace Engine

variable {ω : Type}

def new (w : ω) (backpressureTimeout : Duration) (channels : ChannelPtr → TokenChannel) : Engine ω :=
  ⟨backpressureTimeout, .new w, false, false, false, .exited, [], [], ∅, channels, [], [], [], [], [],
    false⟩

/-- `entry.channel->close(); active_.erase(id)`. -/
def closeEntry (g : Engine ω) (id : RequestId) (entry : ActiveEntry) (closer : Closer) : Engine ω :=
  { g with
    channels := Function.update g.channels entry.channel (g.channels entry.channel).close
    active := g.active.erase id
    calls := g.calls ++ [ChannelCall.close entry.channel closer] }

/-- The `try_push` of `push_tokens` and what follows from its result. -/
def pushEvent (g : Engine ω) (id : RequestId) (entry : ActiveEntry) (event : TokenEvent)
    (todo : List RequestId) (steadyNow : TimePoint) : Engine ω :=
  let pushed := (g.channels entry.channel).tryPush event
  let g := { g with
    channels := Function.update g.channels entry.channel pushed.2
    calls := g.calls ++ [ChannelCall.tryPush entry.channel event pushed.1] }
  if pushed.1 then { g with active := g.active.replace id entry.sent }
  else { g with active := g.active.replace id (entry.blocked steadyNow), pc := .pushTokens todo }

/-- One turn of the inner loop of `push_tokens`. The loop variable is always `last_seen_tokens`. -/
def pushToken (g : Engine ω) (id : RequestId) (todo : List RequestId) (steadyNow : TimePoint) :
    Except Panic (Engine ω) :=
  match g.active.find id with
  | none => .ok { g with pc := .pushTokens todo }
  | some entry =>
      let q := g.scheduler.request entry.request
      if q.outputTokensEmitted ≤ entry.lastSeenTokens then .ok { g with pc := .pushTokens todo }
      else
        match q.outputTokenIds[entry.lastSeenTokens]? with
        | none => .error .missingToken
        | some tokenId =>
            .ok (g.pushEvent id entry ⟨tokenId, finishReason q entry.lastSeenTokens⟩ todo steadyNow)

/-- The entry has waited for room since `backpressureTimeout` ago or longer. -/
def isOverdue (g : Engine ω) (steadyNow : TimePoint) (entry : ActiveEntry) : Bool :=
  match entry.backpressureSince with
  | none => false
  | some since => decide (g.backpressureTimeout ≤ steadyNow - since)

/-- The request is terminal and its channel has accepted every token. -/
def isDelivered (g : Engine ω) (entry : ActiveEntry) : Bool :=
  (g.scheduler.state entry.request).isTerminal &&
    decide ((g.scheduler.request entry.request).outputTokensEmitted ≤ entry.lastSeenTokens)

/-- The ids of the active entries that pass a test. -/
def select (g : Engine ω) (test : ActiveEntry → Bool) : List RequestId :=
  g.active.keys.filter fun id => (g.active.find id).any test

section Operations

variable [Clock ω]

/-- The loop body of `drain_submissions`. -/
def admitSubmission (g : Engine ω) (sub : Submission) : Except Panic (Engine ω) := do
  let made := Request.construct sub.id g.scheduler.world sub.deadline sub.maxTokens
    sub.promptTokenIds 0
  let done ← { g.scheduler with world := made.2 }.submit made.1
  .ok { g with
    scheduler := done.1
    active := g.active.emplace sub.id ⟨done.2, sub.channel, 0, none⟩ }

variable [InferenceBackend ω]

/-- The loop body of `drain_cancels`. -/
def cancelRequest (g : Engine ω) (id : RequestId) : Except Panic (Engine ω) := do
  let scheduler ← g.scheduler.cancel id
  let g := { g with scheduler := scheduler, handled := g.handled ++ [id] }
  match g.active.find id with
  | some entry => .ok (g.closeEntry id entry .cancel)
  | none => .ok g

/-- The second loop body of `check_backpressure`. -/
def expel (g : Engine ω) (id : RequestId) : Except Panic (Engine ω) := do
  let scheduler ← g.scheduler.cancel id
  let g := { g with scheduler := scheduler }
  match g.active.find id with
  | some entry => .ok (g.closeEntry id entry .backpressure)
  | none => .error .outOfRange

/-- The second loop body of `reap_terminal`. -/
def reap (g : Engine ω) (id : RequestId) : Except Panic (Engine ω) :=
  match g.active.find id with
  | some entry => .ok (g.closeEntry id entry .reap)
  | none => .error .outOfRange

/-- The next step of `run`. -/
def engineStep (g : Engine ω) (choice : Nat) (steadyNow : TimePoint) : Except Panic (Engine ω) :=
  match g.pc with
  | .exited => .ok g
  | .loopTest => .ok { g with pc := if g.running then .awake else .exited }
  | .awake => .ok { g with pc := if g.running then .drainSubmissions else .exited }
  | .drainSubmissions =>
      .ok { g with pc := .admitting g.pendingSubmissions, pendingSubmissions := [] }
  | .admitting [] => .ok { g with pc := .drainCancels }
  | .admitting (sub :: rest) => do
      let g ← g.admitSubmission sub
      .ok { g with pc := .admitting rest }
  | .drainCancels => .ok { g with pc := .cancelling g.pendingCancels, pendingCancels := [] }
  | .cancelling [] => .ok { g with pc := .tick }
  | .cancelling (id :: rest) => do
      let g ← g.cancelRequest id
      .ok { g with pc := .cancelling rest }
  | .tick =>
      if g.active.keys = [] then .ok { g with pc := .loopTest }
      else do
        let done ← g.scheduler.tick
        .ok { g with scheduler := done.1, pc := .pushTokens g.active.keys }
  | .pushTokens todo =>
      match pick todo choice with
      | none => .ok { g with pc := .checkBackpressure }
      | some id => .ok { g with pc := .pushing id (todo.erase id) }
  | .pushing id todo => g.pushToken id todo steadyNow
  | .checkBackpressure => .ok { g with pc := .expelling (g.select (g.isOverdue steadyNow)) }
  | .expelling toCancel =>
      match pick toCancel choice with
      | none => .ok { g with pc := .reapTerminal }
      | some id => do
          let g ← g.expel id
          .ok { g with pc := .expelling (toCancel.erase id) }
  | .reapTerminal => .ok { g with pc := .reaping (g.select g.isDelivered) }
  | .reaping toReap =>
      match pick toReap choice with
      | none => .ok { g with pc := .loopTest }
      | some id => do
          let g ← g.reap id
          .ok { g with pc := .reaping (toReap.erase id) }

variable [Environment ω]

def step (g : Engine ω) : EngineAction ω → Except Panic (Engine ω)
  | .start =>
      if g.running then .ok g
      else if g.joinable then .error .threadOverwritten
      else .ok { g with running := true, joinable := true, pc := .loopTest, stopped := false }
  | .stop =>
      .ok (if g.running then { g with running := false, stopping := true }
        else { g with stopped := true })
  | .join =>
      .ok (if g.stopping = true ∧ g.pc = .exited then
          { g with stopping := false, joinable := false, stopped := true }
        else g)
  | .submit sub => .ok (if g.running then { g with entering := g.entering ++ [sub] } else g)
  | .push k =>
      match g.entering[k]? with
      | none => .ok g
      | some sub => .ok { g with
          entering := g.entering.eraseIdx k
          pendingSubmissions := g.pendingSubmissions ++ [sub]
          accepted := g.accepted ++ [sub] }
  | .cancel id =>
      .ok { g with pendingCancels := g.pendingCancels ++ [id], cancels := g.cancels ++ [id] }
  | .pop channel =>
      match (g.channels channel).pop with
      | none => .ok g
      | some (_, rest) => .ok { g with channels := Function.update g.channels channel rest }
  | .close channel =>
      .ok { g with channels := Function.update g.channels channel (g.channels channel).close }
  | .event e => do
      let w ← callBackend (Environment.occur g.scheduler.world e)
      .ok { g with scheduler := { g.scheduler with world := w } }
  | .engine choice steadyNow => g.engineStep choice steadyNow

end Operations

end Engine

end Tokamak
