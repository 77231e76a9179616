import Tokamak.Backend

/-! The deterministic backend of tests and simulation. It owns the fake clock it advances: prefill
costs time per prompt token, decode costs a flat amount per call. Injected errors are consumed one
per sequence, in batch order. -/

namespace Tokamak

/-- `MockBackend::SequenceState`; no EOS bound means the sequence never ends by itself. -/
structure SequenceState where
  tokensEmitted : UInt32
  finishedAfterTokens : Option UInt32
  deriving DecidableEq, Repr

namespace SequenceState

/-- One more token: the counter is 32 bits wide and wraps. -/
def step (state : SequenceState) : SequenceState :=
  { state with tokensEmitted := state.tokensEmitted + 1 }

def finished (state : SequenceState) : Bool :=
  match state.finishedAfterTokens with
  | some bound => bound ≤ state.tokensEmitted
  | none => false

end SequenceState

structure MockBackend where
  clock : FakeClock
  perTokenPrefillCost : Duration
  perDecodeCost : Duration
  nextSequenceId : Nat
  sequences : FinMap Nat SequenceState
  pendingPrefillErrors : List BackendError
  pendingDecodeErrors : List BackendError

namespace MockBackend

def new (clock : FakeClock) (perTokenPrefillCost perDecodeCost : Duration) : MockBackend :=
  ⟨clock, perTokenPrefillCost, perDecodeCost, 0, ∅, [], []⟩

def advance (b : MockBackend) (d : Duration) : Except BackendPanic MockBackend := do
  let clock ← b.clock.advance d
  .ok { b with clock := clock }

/-- A new sequence, numbered by the running counter. -/
def mint (b : MockBackend) : MockBackend :=
  { b with
    nextSequenceId := b.nextSequenceId + 1
    sequences := b.sequences.emplace b.nextSequenceId ⟨0, none⟩ }

/-- The body of the loop of `prefill`: the clock moves before an injected error is looked for. -/
def prefillSequence (b : MockBackend) (request : PrefillRequest) :
    Except BackendPanic (MockBackend × Except BackendError PrefillOutcome) := do
  let b ← b.advance (b.perTokenPrefillCost * request.prompt.tokenIds.length)
  match b.pendingPrefillErrors with
  | error :: rest => .ok ({ b with pendingPrefillErrors := rest }, .error error)
  | [] => .ok (b.mint, .ok ⟨⟨b.nextSequenceId⟩⟩)

def prefillSequences (b : MockBackend) : List PrefillRequest →
    Except BackendPanic (MockBackend × List (Except BackendError PrefillOutcome))
  | [] => .ok (b, [])
  | request :: rest => do
      let head ← b.prefillSequence request
      let tail ← head.1.prefillSequences rest
      .ok (tail.1, head.2 :: tail.2)

def prefill (b : MockBackend) (batch : PrefillBatch) : Except BackendPanic (MockBackend × PrefillResult) := do
  let done ← b.prefillSequences batch.sequences
  .ok (done.1, ⟨done.2⟩)

/-- The body of the loop of `decode`. An injected error is reported without looking the handle up. -/
def decodeSequence (b : MockBackend) (request : DecodeRequest) :
    Except BackendPanic (MockBackend × Except BackendError DecodedToken) :=
  match b.pendingDecodeErrors with
  | error :: rest => .ok ({ b with pendingDecodeErrors := rest }, .error error)
  | [] =>
      match b.sequences.find request.handle.id with
      | none => .error .decodeUnknownHandle
      | some state =>
          .ok ({ b with sequences := b.sequences.replace request.handle.id state.step },
            .ok ⟨state.step.tokensEmitted, state.step.finished⟩)

def decodeSequences (b : MockBackend) : List DecodeRequest →
    Except BackendPanic (MockBackend × List (Except BackendError DecodedToken))
  | [] => .ok (b, [])
  | request :: rest => do
      let head ← b.decodeSequence request
      let tail ← head.1.decodeSequences rest
      .ok (tail.1, head.2 :: tail.2)

/-- The clock moves once per call, however wide the batch is. -/
def decode (b : MockBackend) (batch : DecodeBatch) : Except BackendPanic (MockBackend × DecodeResult) := do
  let b ← b.advance b.perDecodeCost
  let done ← b.decodeSequences batch.sequences
  .ok (done.1, ⟨done.2⟩)

def release (b : MockBackend) (sequence : SequenceHandle) : Except BackendPanic MockBackend :=
  if sequence.id ∈ b.sequences then .ok { b with sequences := b.sequences.erase sequence.id }
  else .error .releaseUnknownHandle

def configureEos (b : MockBackend) (handle : SequenceHandle) (afterTokens : UInt32) :
    Except BackendPanic MockBackend :=
  match b.sequences.find handle.id with
  | none => .error .configureEosUnknownHandle
  | some state => .ok { b with
      sequences := b.sequences.replace handle.id
        { state with finishedAfterTokens := some afterTokens } }

def failNextPrefill (b : MockBackend) (error : BackendError) : MockBackend :=
  { b with pendingPrefillErrors := b.pendingPrefillErrors ++ [error] }

def failNextDecode (b : MockBackend) (error : BackendError) : MockBackend :=
  { b with pendingDecodeErrors := b.pendingDecodeErrors ++ [error] }

/-- What a test may do to the backend, or to the fake clock it shares, between two calls. -/
inductive Event where
  | failNextPrefill (error : BackendError)
  | failNextDecode (error : BackendError)
  | configureEos (handle : SequenceHandle) (afterTokens : UInt32)
  | advanceClock (d : Duration)

def occur (b : MockBackend) : Event → Except BackendPanic MockBackend
  | .failNextPrefill error => .ok (b.failNextPrefill error)
  | .failNextDecode error => .ok (b.failNextDecode error)
  | .configureEos handle afterTokens => b.configureEos handle afterTokens
  | .advanceClock d => b.advance d

instance : Clock MockBackend := ⟨fun b => (b.clock.now, b)⟩

instance : InferenceBackend MockBackend := ⟨prefill, decode, release⟩

instance : Environment MockBackend := ⟨Event, occur⟩

@[simp] theorem now_eq (b : MockBackend) : Clock.now b = (b.clock.current, b) := rfl

end MockBackend

end Tokamak
