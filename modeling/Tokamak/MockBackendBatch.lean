import Tokamak.MockBackendSpec

/-! The mock backend's answers, position by position. Both loops spend the queued errors on the first
elements of the batch and serve the rest; the scheduler reads the answers by position and relies on
nothing else. The state is arbitrary throughout, and so is the batch: a handle may occur in it several
times, and each occurrence that is served is one token. -/

open Outcome

namespace Tokamak.MockBackend

/-! ### The two calls -/

/-- What a prefill call leaves behind, in any state. -/
structure PrefillAligned (b : MockBackend) (requests : List PrefillRequest) (b' : MockBackend)
    (outcomes : List (Except BackendError PrefillOutcome)) : Prop where
  length : outcomes.length = requests.length
  outcomes_eq : outcomes =
    (b.pendingPrefillErrors.take requests.length).map .error ++
      (List.range' b.nextSequenceId (requests.length - b.pendingPrefillErrors.length)).map
        (fun k => .ok ⟨⟨k⟩⟩)
  pendingPrefillErrors : b'.pendingPrefillErrors = b.pendingPrefillErrors.drop requests.length
  clock : b'.clock.current = b.clock.current + b.perTokenPrefillCost * promptTokens requests
  nextSequenceId : b'.nextSequenceId =
    b.nextSequenceId + (requests.length - b.pendingPrefillErrors.length)
  find : ∀ k, b'.sequences.find k =
    (b.sequences.find k).or (if k ∈ mintedIds outcomes then some ⟨0, none⟩ else none)
  pendingDecodeErrors : b'.pendingDecodeErrors = b.pendingDecodeErrors
  perTokenPrefillCost : b'.perTokenPrefillCost = b.perTokenPrefillCost
  perDecodeCost : b'.perDecodeCost = b.perDecodeCost

theorem mintedIds_prefillAnswers (b : MockBackend) (n : Nat) :
    mintedIds (b.prefillAnswers n) =
      List.range' b.nextSequenceId (n - b.pendingPrefillErrors.length) := by
  unfold prefillAnswers
  rw [mintedIds, List.filterMap_append, ← mintedIds, ← mintedIds, mintedIds_errors, mintedIds_ok,
    List.nil_append]

theorem prefillAligned_afterPrefill (b : MockBackend) (requests : List PrefillRequest) :
    PrefillAligned b requests (b.afterPrefill requests) (b.prefillAnswers requests.length) where
  length := length_prefillAnswers b _
  outcomes_eq := rfl
  pendingPrefillErrors := rfl
  clock := rfl
  nextSequenceId := rfl
  find k := by
    rw [mintedIds_prefillAnswers]
    exact find_numbered _ _ k
  pendingDecodeErrors := rfl
  perTokenPrefillCost := rfl
  perDecodeCost := rfl

theorem prefill_aligned (b : MockBackend) (batch : PrefillBatch) :
    Ensures (b.prefill batch)
      (fun p => p = .negativeAdvance ∧ b.perTokenPrefillCost < 0 ∧ 0 < promptTokens batch.sequences)
      (fun answer => PrefillAligned b batch.sequences answer.1 answer.2.outcomes) := by
  refine Ensures.bind (prefillSequences_closed batch.sequences b) (fun done hdone => ?_)
  rw [hdone.1]
  exact prefillAligned_afterPrefill b batch.sequences

theorem decode_aligned (b : MockBackend) (batch : DecodeBatch) :
    Ensures (b.decode batch)
      (fun p => (p = .negativeAdvance ∧ b.perDecodeCost < 0) ∨
        (p = .decodeUnknownHandle ∧
          ∃ d ∈ batch.sequences.drop b.pendingDecodeErrors.length, d.handle.id ∉ b.sequences))
      (fun answer => DecodeAligned { b with clock := ⟨b.clock.current + b.perDecodeCost⟩ }
        batch.sequences answer.1 answer.2.outcomes) := by
  unfold decode
  cases hadvance : b.advance b.perDecodeCost with
  | error p => exact .inl (advance_error hadvance)
  | ok ticked =>
      obtain ⟨-, rfl⟩ := advance_ok hadvance
      rw [ok_bind]
      refine Ensures.bind ((decodeSequences_aligned batch.sequences _).mono (fun _ h => .inr h)
        (fun _ h => h)) (fun done hdone => ?_)
      exact hdone

/-! ### Runs of the backend -/

/-- Everything that can happen to the backend. -/
inductive Call where
  | prefill (batch : PrefillBatch)
  | decode (batch : DecodeBatch)
  | release (handle : SequenceHandle)
  | event (e : Event)

def call (b : MockBackend) : Call → Except BackendPanic MockBackend
  | .prefill batch => do
      let answer ← b.prefill batch
      .ok answer.1
  | .decode batch => do
      let answer ← b.decode batch
      .ok answer.1
  | .release handle => b.release handle
  | .event e => b.occur e

/-- The numbers a call hands out. -/
def minted (b : MockBackend) : Call → List Nat
  | .prefill batch =>
      match b.prefill batch with
      | .ok answer => mintedIds answer.2.outcomes
      | .error _ => []
  | _ => []

/-- The numbers a sequence of calls hands out. -/
def mintedIn (b : MockBackend) (calls : List Call) : List Nat := history call minted b calls

/-- A call hands out the next numbers of the counter. -/
theorem call_minted (b : MockBackend) (c : Call) :
    Ensures (b.call c) (fun _ => b.minted c = []) (fun b' => ∃ n,
      b.minted c = List.range' b.nextSequenceId n ∧ b'.nextSequenceId = b.nextSequenceId + n) := by
  cases c with
  | prefill batch =>
      unfold call minted
      simp only
      cases hprefill : b.prefill batch with
      | error p => rfl
      | ok answer =>
          have haligned := (prefill_aligned b batch).ok hprefill
          have hnumbers : mintedIds answer.2.outcomes = mintedIds (b.prefillAnswers _) :=
            congrArg mintedIds haligned.outcomes_eq
          exact ⟨_, hnumbers.trans (mintedIds_prefillAnswers b _), haligned.nextSequenceId⟩
  | decode batch =>
      refine Ensures.bind ((decode_aligned b batch).mono (fun _ _ => rfl) (fun _ h => h))
        (fun answer h => ⟨0, rfl, h.toSameSequences.nextSequenceId⟩)
  | release handle =>
      unfold call release
      simp only
      split_ifs
      · exact ⟨0, rfl, rfl⟩
      · rfl
  | event e =>
      exact (occur_ensures b e).mono (fun _ _ => rfl) (fun b' h => ⟨0, rfl, h.nextSequenceId⟩)

/-- So does a sequence of calls. -/
theorem mintedIn_eq (calls : List Call) :
    ∀ b : MockBackend, ∃ n, b.mintedIn calls = List.range' b.nextSequenceId n := by
  induction calls with
  | nil => exact fun _ => ⟨0, rfl⟩
  | cons c rest ih =>
      intro b
      have hcall := call_minted b c
      unfold mintedIn
      rw [history]
      cases hnext : b.call c with
      | error p => exact ⟨0, by rw [hcall.error hnext]; rfl⟩
      | ok b' =>
          obtain ⟨m, hminted, hcounter⟩ := hcall.ok hnext
          obtain ⟨n, hrest⟩ := ih b'
          refine ⟨m + n, ?_⟩
          rw [hminted]
          change _ ++ b'.mintedIn rest = _
          rw [hrest, hcounter, List.range'_append_1]

theorem call_fresh {b : MockBackend} (h : b.Fresh) (c : Call) :
    Ensures (b.call c) (fun _ => True) Fresh := by
  have hsame : ∀ {b' : MockBackend}, SameSequences b b' → b'.Fresh := by
    intro b' hb' k hk
    rw [hb'.nextSequenceId]
    exact h k ((hb'.mem k).mp hk)
  cases c with
  | prefill batch =>
      exact Ensures.bind ((prefill_ensures h batch).mono (fun _ _ => trivial) (fun _ h => h))
        (fun answer hanswer => hanswer.fresh h)
  | decode batch =>
      refine Ensures.bind ((decode_aligned b batch).mono (fun _ _ => trivial) (fun _ h => h))
        (fun answer hanswer => hsame ⟨hanswer.mem, hanswer.toSameSequences.nextSequenceId⟩)
  | release handle =>
      unfold call release
      simp only
      split_ifs
      · exact fun k hk => h k (AList.mem_erase.mp hk).2
      · trivial
  | event e => exact (occur_ensures b e).mono (fun _ _ => trivial) (fun _ => hsame)

/-- **A batch is answered position by position.** For every state of the backend and every batch: a call
aborts only on a negative cost or on a handle that is not live at a position that is served; otherwise
the answers, the clock, the error queues, the counter and the map are those of `PrefillAligned` and
`DecodeAligned`. The numbers handed out in a run grow, so no number is handed out twice as long as the
counter has not gone around its 64 bits, and none of them is in use. -/
theorem batch_answered (b : MockBackend) :
    (∀ batch : PrefillBatch, Ensures (b.prefill batch)
      (fun p => p = .negativeAdvance ∧ b.perTokenPrefillCost < 0 ∧ 0 < promptTokens batch.sequences)
      (fun answer => PrefillAligned b batch.sequences answer.1 answer.2.outcomes)) ∧
    (∀ batch : DecodeBatch, Ensures (b.decode batch)
      (fun p => (p = .negativeAdvance ∧ b.perDecodeCost < 0) ∨
        (p = .decodeUnknownHandle ∧
          ∃ d ∈ batch.sequences.drop b.pendingDecodeErrors.length, d.handle.id ∉ b.sequences))
      (fun answer => DecodeAligned { b with clock := ⟨b.clock.current + b.perDecodeCost⟩ }
        batch.sequences answer.1 answer.2.outcomes)) ∧
    ∀ calls : List Call,
      (b.mintedIn calls).Pairwise (· < ·) ∧ (∀ k ∈ b.mintedIn calls, b.nextSequenceId ≤ k) ∧
      ((∀ k ∈ b.mintedIn calls, k < 2 ^ 64) → ((b.mintedIn calls).map UInt64.ofNat).Nodup) ∧
      (b.Fresh → (∀ k ∈ b.mintedIn calls, k ∉ b.sequences) ∧
        ∀ b', run call b calls = .ok b' → b'.Fresh) := by
  refine ⟨prefill_aligned b, decode_aligned b, fun calls => ?_⟩
  obtain ⟨n, hminted⟩ := mintedIn_eq calls b
  rw [hminted]
  have hle : ∀ k ∈ List.range' b.nextSequenceId n, b.nextSequenceId ≤ k :=
    fun k hk => (List.mem_range'_1.mp hk).1
  refine ⟨List.pairwise_lt_range', hle, fun hbound => ?_, fun hfresh => ⟨?_, ?_⟩⟩
  · refine List.Nodup.map_on (fun k hk l hl heq => ?_) List.nodup_range'
    have hnat := congrArg UInt64.toNat heq
    rwa [UInt64.toNat_ofNat_of_lt' (hbound k hk), UInt64.toNat_ofNat_of_lt' (hbound l hl)] at hnat
  · exact fun k hk hmem => not_lt.mpr (hle k hk) (hfresh k hmem)
  · intro b' hrun
    exact (run_ensures (fun b c h => call_fresh h c) b hfresh calls).ok hrun

/-- Two sequences, the second bounded by two tokens, and one error queued for the next decode. -/
def twoSequences : MockBackend where
  clock := ⟨100⟩
  perTokenPrefillCost := 2
  perDecodeCost := 5
  nextSequenceId := 7
  sequences := (FinMap.emplace ∅ 3 ⟨4, none⟩).emplace 6 ⟨0, some 2⟩
  pendingPrefillErrors := []
  pendingDecodeErrors := [⟨.outOfMemory, "no pages"⟩]

/-- The first of three occurrences of 6 meets the error: the other two are its tokens 1 and 2. -/
def sixThrice : DecodeBatch := ⟨[⟨⟨6⟩⟩, ⟨⟨6⟩⟩, ⟨⟨3⟩⟩, ⟨⟨6⟩⟩]⟩

theorem batch_answered_sixThrice :
    ∃ answer, twoSequences.decode sixThrice = .ok answer ∧ answer.1.clock.current = 105 ∧
      answer.1.sequences.find 6 = some ⟨2, some 2⟩ ∧ answer.1.sequences.find 3 = some ⟨5, none⟩ ∧
      answer.2.outcomes.take 1 = [.error ⟨.outOfMemory, "no pages"⟩] := by
  have hdecode := (batch_answered twoSequences).2.1 sixThrice
  obtain ⟨answer, hanswer, -⟩ := exists_of_map_ok (x := twoSequences.decode sixThrice)
    (f := fun _ => ()) (b := ()) (by decide +kernel)
  have haligned := hdecode.ok hanswer
  refine ⟨answer, hanswer, ?_, ?_, ?_, ?_⟩
  · rw [haligned.clock]
    rfl
  · rw [haligned.find]
    decide +kernel
  · rw [haligned.find]
    decide +kernel
  · exact haligned.failed

end Tokamak.MockBackend
