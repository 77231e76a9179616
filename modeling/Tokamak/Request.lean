import Tokamak.Lifecycle

/-! A client request: its lifecycle, its deadline and its output budget. -/

namespace Tokamak

abbrev RequestId := String

structure Request where
  id : RequestId
  lifecycle : RequestLifecycle
  deadlineAt : TimePoint
  maxOutputTokens : Nat
  outputTokensEmitted : Nat
  promptTokenIds : List UInt32
  priority : Int
  outputTokenIds : List UInt32

instance requestInhabited : Inhabited Request := ⟨⟨"", .new 0, 0, 0, 0, [], 0, []⟩⟩

namespace Request

variable {ω : Type} [Clock ω]

/-- The constructor with a prompt. The clock is read twice: by the lifecycle, then for the
deadline. -/
def construct (id : RequestId) (w : ω) (deadlineFromNow : Duration) (maxOutputTokens : Nat)
    (promptTokenIds : List UInt32) (priority : Int) : Request × ω :=
  let created := Clock.now w
  let deadline := Clock.now created.2
  (⟨id, .new created.1, deadline.1 + deadlineFromNow, maxOutputTokens, 0, promptTokenIds,
    priority, []⟩, deadline.2)

def state (q : Request) : RequestState := q.lifecycle.state

/-- What `emit_token` stores once the first token has been recorded and the budget checked. -/
def emitted (q : Request) (lc : RequestLifecycle) (tokenId : UInt32) : Request :=
  { q with
    lifecycle := lc
    outputTokensEmitted := q.outputTokensEmitted + 1
    outputTokenIds := q.outputTokenIds ++ [tokenId] }

/-- The request after its lifecycle entered `target` at `t`. -/
def enter (q : Request) (target : RequestState) (t : TimePoint) : Request :=
  { q with lifecycle := q.lifecycle.enter target t }

def emitToken (q : Request) (tokenId : UInt32) (w : ω) : Except Panic (Request × ω) := do
  let first ← q.lifecycle.recordFirstToken w
  if q.maxOutputTokens ≤ q.outputTokensEmitted then .error .tokenBudgetExceeded
  else .ok (q.emitted first.1 tokenId, first.2)

section Fields

variable (q : Request) (target : RequestState) (t : TimePoint) (lc : RequestLifecycle)
  (tokenId : UInt32)

@[simp] theorem state_enter : (q.enter target t).state = target := rfl

@[simp] theorem lifecycle_enter : (q.enter target t).lifecycle = q.lifecycle.enter target t := rfl

@[simp] theorem id_enter : (q.enter target t).id = q.id := rfl

@[simp] theorem deadlineAt_enter : (q.enter target t).deadlineAt = q.deadlineAt := rfl

@[simp] theorem maxOutputTokens_enter :
    (q.enter target t).maxOutputTokens = q.maxOutputTokens := rfl

@[simp] theorem outputTokensEmitted_enter :
    (q.enter target t).outputTokensEmitted = q.outputTokensEmitted := rfl

@[simp] theorem outputTokenIds_enter :
    (q.enter target t).outputTokenIds = q.outputTokenIds := rfl

@[simp] theorem promptTokenIds_enter :
    (q.enter target t).promptTokenIds = q.promptTokenIds := rfl

@[simp] theorem state_emitted : (q.emitted lc tokenId).state = lc.state := rfl

@[simp] theorem lifecycle_emitted : (q.emitted lc tokenId).lifecycle = lc := rfl

@[simp] theorem id_emitted : (q.emitted lc tokenId).id = q.id := rfl

@[simp] theorem deadlineAt_emitted : (q.emitted lc tokenId).deadlineAt = q.deadlineAt := rfl

@[simp] theorem maxOutputTokens_emitted :
    (q.emitted lc tokenId).maxOutputTokens = q.maxOutputTokens := rfl

@[simp] theorem outputTokensEmitted_emitted :
    (q.emitted lc tokenId).outputTokensEmitted = q.outputTokensEmitted + 1 := rfl

@[simp] theorem outputTokenIds_emitted :
    (q.emitted lc tokenId).outputTokenIds = q.outputTokenIds ++ [tokenId] := rfl

@[simp] theorem promptTokenIds_emitted :
    (q.emitted lc tokenId).promptTokenIds = q.promptTokenIds := rfl

end Fields

end Request

end Tokamak
