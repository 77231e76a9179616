import Tokamak.Request

/-! The backend boundary. A scheduler sees a world that answers `prefill`, `decode` and `release`;
what else can happen to that world between two scheduler calls (a test injecting an error, a fake
clock being advanced) is its `Event`. -/

namespace Tokamak

inductive BackendErrorCategory where
  | invalidRequest
  | outOfMemory
  | invalidState
  | unavailable
  deriving DecidableEq, Repr

structure BackendError where
  category : BackendErrorCategory
  message : String
  deriving DecidableEq, Repr

structure TokenizedPrompt where
  tokenIds : List UInt32
  deriving DecidableEq, Repr

structure SequenceHandle where
  id : Nat
  deriving DecidableEq, Repr

structure PrefillRequest where
  prompt : TokenizedPrompt
  deriving DecidableEq, Repr

structure PrefillBatch where
  sequences : List PrefillRequest
  deriving DecidableEq, Repr

structure PrefillOutcome where
  handle : SequenceHandle
  deriving DecidableEq, Repr

/-- `outcomes[i]` belongs to `batch.sequences[i]`. -/
structure PrefillResult where
  outcomes : List (Except BackendError PrefillOutcome)

structure DecodeRequest where
  handle : SequenceHandle
  deriving DecidableEq, Repr

structure DecodeBatch where
  sequences : List DecodeRequest
  deriving DecidableEq, Repr

structure DecodedToken where
  tokenId : UInt32
  finished : Bool
  deriving DecidableEq, Repr

structure DecodeResult where
  outcomes : List (Except BackendError DecodedToken)

class InferenceBackend (ω : Type) where
  prefill : ω → PrefillBatch → Except BackendPanic (ω × PrefillResult)
  decode : ω → DecodeBatch → Except BackendPanic (ω × DecodeResult)
  release : ω → SequenceHandle → Except BackendPanic ω

/-- What may happen to the world outside the scheduler's own calls. -/
class Environment (ω : Type) where
  Event : Type
  occur : ω → Event → Except BackendPanic ω

/-- The backend answers every element of a batch, once. -/
class AlignedBackend (ω : Type) [InferenceBackend ω] : Prop where
  prefill_length : ∀ (w w' : ω) (batch : PrefillBatch) (result : PrefillResult),
    InferenceBackend.prefill w batch = .ok (w', result) →
      result.outcomes.length = batch.sequences.length
  decode_length : ∀ (w w' : ω) (batch : DecodeBatch) (result : DecodeResult),
    InferenceBackend.decode w batch = .ok (w', result) →
      result.outcomes.length = batch.sequences.length

end Tokamak
