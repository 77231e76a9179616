import Tokamak.MockBackend

/-! The mock backend's calls in closed form. A prefill batch consumes the queued errors first and then
mints consecutive numbers; a decode batch keeps every sequence and counts one token for each occurrence
of a handle that no error meets; a release removes one. Minted numbers lie above every number in use, so
a number that was released never comes back. -/

open Outcome

namespace Tokamak

namespace SequenceState

variable {state : SequenceState} {m n : Nat} {token : DecodedToken}

/-- The state `n` tokens later. -/
def emit (state : SequenceState) (n : Nat) : SequenceState :=
  { state with tokensEmitted := state.tokensEmitted + UInt32.ofNat n }

@[simp] theorem emit_zero (state : SequenceState) : state.emit 0 = state := by
  change { state with tokensEmitted := state.tokensEmitted + 0 } = state
  rw [UInt32.add_zero]

theorem emit_emit (state : SequenceState) (m n : Nat) : (state.emit m).emit n = state.emit (m + n) := by
  unfold emit
  simp only [UInt32.ofNat_add, UInt32.add_assoc]

/-- The `n`-th token after `state`: it is numbered by the counter, and the sequence is finished if and
only if it has a bound and the counter has reached it. -/
def Emitted (state : SequenceState) (n : Nat) (token : DecodedToken) : Prop :=
  token.tokenId = state.tokensEmitted + UInt32.ofNat n ∧
    (token.finished = true ↔
      ∃ bound, state.finishedAfterTokens = some bound ∧ bound ≤ state.tokensEmitted + UInt32.ofNat n)

theorem finished_iff (state : SequenceState) :
    state.finished = true ↔
      ∃ bound, state.finishedAfterTokens = some bound ∧ bound ≤ state.tokensEmitted := by
  unfold finished
  cases state.finishedAfterTokens with
  | none => simp
  | some bound => simp

theorem emitted_step (state : SequenceState) :
    state.Emitted 1 ⟨state.step.tokensEmitted, state.step.finished⟩ :=
  ⟨rfl, finished_iff state.step⟩

theorem Emitted.of_emit (h : (state.emit m).Emitted n token) : state.Emitted (m + n) token := by
  unfold Emitted at h ⊢
  rw [UInt32.ofNat_add, ← UInt32.add_assoc]
  exact h

end SequenceState

namespace MockBackend

/-- Every live sequence was numbered by the counter. -/
def Fresh (b : MockBackend) : Prop := ∀ k ∈ b.sequences, k < b.nextSequenceId

theorem fresh_new (clock : FakeClock) (prefillCost decodeCost : Duration) :
    (new clock prefillCost decodeCost).Fresh := by
  intro k hk
  exact absurd hk (AList.notMem_empty k)

theorem advance_ok {b b' : MockBackend} {d : Duration} (h : b.advance d = .ok b') :
    0 ≤ d ∧ b' = { b with clock := ⟨b.clock.current + d⟩ } := by
  obtain ⟨clock, hclock, h⟩ := bind_eq_ok.mp h
  obtain ⟨hd, hcurrent⟩ := FakeClock.advance_ok hclock
  cases h
  refine ⟨hd, ?_⟩
  rw [← hcurrent]

theorem advance_error {b : MockBackend} {d : Duration} {p : BackendPanic}
    (h : b.advance d = .error p) : p = .negativeAdvance ∧ d < 0 := by
  unfold advance FakeClock.advance at h
  split_ifs at h with hd
  · cases h
  · cases h
    exact ⟨rfl, not_le.mp hd⟩

/-! ### A batch of prompts -/

/-- The tokens of all prompts of a batch. -/
def promptTokens (requests : List PrefillRequest) : Nat :=
  (requests.map fun request => request.prompt.tokenIds.length).sum

/-- What a prefill call leaves behind: the queued errors come first, then fresh numbers in order. -/
structure Prefilled (b : MockBackend) (requests : List PrefillRequest) (b' : MockBackend)
    (outcomes : List (Except BackendError PrefillOutcome)) : Prop where
  outcomes_eq : outcomes =
    (b.pendingPrefillErrors.take requests.length).map .error ++
      (List.range' b.nextSequenceId (requests.length - b.pendingPrefillErrors.length)).map
        (fun k => .ok ⟨⟨k⟩⟩)
  nextSequenceId : b'.nextSequenceId =
    b.nextSequenceId + (requests.length - b.pendingPrefillErrors.length)
  find : ∀ k, b'.sequences.find k =
    if b.nextSequenceId ≤ k ∧ k < b'.nextSequenceId then some ⟨0, none⟩ else b.sequences.find k
  clock : b'.clock.current =
    b.clock.current + b.perTokenPrefillCost * promptTokens requests
  clock_le : b.clock.current ≤ b'.clock.current
  pendingPrefillErrors : b'.pendingPrefillErrors = b.pendingPrefillErrors.drop requests.length
  pendingDecodeErrors : b'.pendingDecodeErrors = b.pendingDecodeErrors
  perTokenPrefillCost : b'.perTokenPrefillCost = b.perTokenPrefillCost
  perDecodeCost : b'.perDecodeCost = b.perDecodeCost

/-- The map after numbering several sequences. A number in use stays as it is. -/
def numbered (sequences : FinMap Nat SequenceState) (numbers : List Nat) : FinMap Nat SequenceState :=
  numbers.foldl (fun m k => m.emplace k ⟨0, none⟩) sequences

theorem find_numbered (sequences : FinMap Nat SequenceState) (numbers : List Nat) (k : Nat) :
    (numbered sequences numbers).find k =
      (sequences.find k).or (if k ∈ numbers then some ⟨0, none⟩ else none) := by
  induction numbers generalizing sequences with
  | nil => simp [numbered]
  | cons number rest ih =>
      rw [numbered, List.foldl_cons, ← numbered, ih, FinMap.find_emplace]
      by_cases hk : k = number
      · subst hk
        cases sequences.find k <;> simp
      · rw [if_neg hk]
        simp [hk]

/-- The state a prefill call leaves behind. -/
def afterPrefill (b : MockBackend) (requests : List PrefillRequest) : MockBackend :=
  { b with
    clock := ⟨b.clock.current + b.perTokenPrefillCost * promptTokens requests⟩
    nextSequenceId := b.nextSequenceId + (requests.length - b.pendingPrefillErrors.length)
    sequences := numbered b.sequences
      (List.range' b.nextSequenceId (requests.length - b.pendingPrefillErrors.length))
    pendingPrefillErrors := b.pendingPrefillErrors.drop requests.length }

/-- The outcomes of a batch of `n` prompts. -/
def prefillAnswers (b : MockBackend) (n : Nat) : List (Except BackendError PrefillOutcome) :=
  (b.pendingPrefillErrors.take n).map .error ++
    (List.range' b.nextSequenceId (n - b.pendingPrefillErrors.length)).map (fun k => .ok ⟨⟨k⟩⟩)

section Loop

variable {b : MockBackend} {request : PrefillRequest} {rest : List PrefillRequest}

theorem promptTokens_cons (request : PrefillRequest) (rest : List PrefillRequest) :
    promptTokens (request :: rest) = request.prompt.tokenIds.length + promptTokens rest := by
  unfold promptTokens
  rw [List.map_cons, List.sum_cons]

/-- The clock after the head of a batch. -/
def ticked (b : MockBackend) (request : PrefillRequest) : MockBackend :=
  { b with clock := ⟨b.clock.current + b.perTokenPrefillCost * request.prompt.tokenIds.length⟩ }

theorem ticked_clock (b : MockBackend) (request : PrefillRequest) (rest : List PrefillRequest) :
    (b.ticked request).clock.current + b.perTokenPrefillCost * promptTokens rest =
      b.clock.current + b.perTokenPrefillCost * promptTokens (request :: rest) := by
  rw [promptTokens_cons]
  unfold ticked
  push_cast
  ring

/-- The head of a batch that meets a queued error. -/
theorem afterPrefill_cons_error {error : BackendError} {errors : List BackendError}
    (herrors : b.pendingPrefillErrors = error :: errors) :
    ({ b.ticked request with pendingPrefillErrors := errors } : MockBackend).afterPrefill rest =
      b.afterPrefill (request :: rest) := by
  unfold afterPrefill
  rw [herrors, ← ticked_clock b request rest]
  simp only [List.length_cons, Nat.add_sub_add_right, List.drop_succ_cons]
  rfl

/-- The head of a batch that is prefilled. -/
theorem afterPrefill_cons_ok (herrors : b.pendingPrefillErrors = []) :
    ({ b.ticked request with pendingPrefillErrors := [] } : MockBackend).mint.afterPrefill rest =
      b.afterPrefill (request :: rest) := by
  unfold afterPrefill
  rw [herrors, ← ticked_clock b request rest]
  unfold mint numbered
  simp only [List.length_nil, Nat.sub_zero, List.length_cons, List.drop_nil, List.range'_succ,
    List.foldl_cons]
  rw [Nat.add_assoc, Nat.add_comm 1]
  rfl

end Loop

/-- A prefill call fails only on a negative cost, and otherwise leaves behind `afterPrefill`. -/
theorem prefillSequences_closed (requests : List PrefillRequest) :
    ∀ (b : MockBackend), Ensures (b.prefillSequences requests)
      (fun p => p = .negativeAdvance ∧ b.perTokenPrefillCost < 0 ∧ 0 < promptTokens requests)
      (fun done => done = (b.afterPrefill requests, b.prefillAnswers requests.length) ∧
        0 ≤ b.perTokenPrefillCost * promptTokens requests) := by
  induction requests with
  | nil =>
      intro b
      have hstay : b.afterPrefill [] = b := by
        simp [afterPrefill, promptTokens, numbered]
      refine ⟨?_, by simp [promptTokens]⟩
      rw [hstay]
      simp [prefillAnswers]
  | cons request rest ih =>
      intro b
      unfold prefillSequences
      unfold prefillSequence
      cases hadvance : b.advance (b.perTokenPrefillCost * request.prompt.tokenIds.length) with
      | error p =>
          obtain ⟨rfl, hcost⟩ := advance_error hadvance
          have hneg : b.perTokenPrefillCost < 0 := neg_of_mul_neg_left hcost (Int.natCast_nonneg _)
          refine ⟨rfl, hneg, ?_⟩
          rw [promptTokens_cons]
          rcases Nat.eq_zero_or_pos request.prompt.tokenIds.length with hzero | hpos
          · rw [hzero] at hcost
            simp at hcost
          · exact Nat.add_pos_left hpos _
      | ok ticked =>
          obtain ⟨hcost, rfl⟩ := advance_ok hadvance
          have hfails : ∀ p : BackendPanic,
              (p = .negativeAdvance ∧ b.perTokenPrefillCost < 0 ∧ 0 < promptTokens rest) →
                p = .negativeAdvance ∧ b.perTokenPrefillCost < 0 ∧ 0 < promptTokens (request :: rest) := by
            rintro p ⟨hp, hneg, hpos⟩
            exact ⟨hp, hneg, by rw [promptTokens_cons]; exact Nat.add_pos_right _ hpos⟩
          have hsum (h : 0 ≤ b.perTokenPrefillCost * (promptTokens rest : Int)) :
              0 ≤ b.perTokenPrefillCost * (promptTokens (request :: rest) : Int) := by
            rw [promptTokens_cons, Nat.cast_add, mul_add]
            exact add_nonneg hcost h
          simp only [ok_bind]
          cases herrors : b.pendingPrefillErrors with
          | cons error errors =>
              simp only [ok_bind]
              refine Ensures.bind ((ih _).mono hfails (fun _ h => h)) (fun tail htail => ?_)
              obtain ⟨rfl, hrest⟩ := htail
              refine ⟨Prod.ext (afterPrefill_cons_error herrors) ?_, hsum hrest⟩
              simp [prefillAnswers, herrors]
          | nil =>
              simp only [ok_bind]
              refine Ensures.bind ((ih _).mono hfails (fun _ h => h)) (fun tail htail => ?_)
              obtain ⟨rfl, hrest⟩ := htail
              refine ⟨Prod.ext ?_ ?_, hsum hrest⟩
              · exact afterPrefill_cons_ok herrors
              · simp [prefillAnswers, mint, herrors, List.range'_succ]

/-- Where every live sequence was numbered by the counter, the new numbers are new. -/
theorem prefilled_afterPrefill {b : MockBackend} (hfresh : b.Fresh) {requests : List PrefillRequest}
    (hcost : 0 ≤ b.perTokenPrefillCost * (promptTokens requests : Int)) :
    Prefilled b requests (b.afterPrefill requests) (b.prefillAnswers requests.length) where
  outcomes_eq := rfl
  nextSequenceId := rfl
  find k := by
    have hfind := find_numbered b.sequences (List.range' b.nextSequenceId
      (requests.length - b.pendingPrefillErrors.length)) k
    rw [if_congr List.mem_range'_1 rfl rfl] at hfind
    refine hfind.trans ?_
    by_cases hrange : b.nextSequenceId ≤ k ∧
        k < b.nextSequenceId + (requests.length - b.pendingPrefillErrors.length)
    · rw [FinMap.find_eq_none.mpr fun hmem => not_lt.mpr hrange.1 (hfresh k hmem)]
      exact (if_pos hrange).trans (if_pos hrange).symm
    · rw [if_neg hrange, Option.or_none]
      exact (if_neg hrange).symm
  clock := rfl
  clock_le := le_add_of_nonneg_right hcost
  pendingPrefillErrors := rfl
  pendingDecodeErrors := rfl
  perTokenPrefillCost := rfl
  perDecodeCost := rfl

theorem prefillSequences_ensures (requests : List PrefillRequest) (b : MockBackend) (hfresh : b.Fresh) :
    Ensures (b.prefillSequences requests) (fun p => p = .negativeAdvance)
      (fun done => Prefilled b requests done.1 done.2) := by
  refine (prefillSequences_closed requests b).mono (fun _ h => h.1) (fun done hdone => ?_)
  rw [hdone.1]
  exact prefilled_afterPrefill hfresh hdone.2

theorem Prefilled.fresh {b b' : MockBackend} {requests : List PrefillRequest}
    {outcomes : List (Except BackendError PrefillOutcome)} (h : Prefilled b requests b' outcomes)
    (hfresh : b.Fresh) : b'.Fresh := by
  intro k hk
  obtain ⟨state, hstate⟩ := FinMap.exists_find_of_mem hk
  rw [h.find k] at hstate
  split_ifs at hstate with hrange
  · exact hrange.2
  · have hlt := hfresh k (FinMap.mem_of_find hstate)
    have hnext := h.nextSequenceId
    omega

/-- The numbers a prefill call hands out, in batch order. -/
def mintedIds (outcomes : List (Except BackendError PrefillOutcome)) : List Nat :=
  outcomes.filterMap fun
    | .ok out => some out.handle.id
    | .error _ => none

theorem mintedIds_errors (errors : List BackendError) : mintedIds (errors.map .error) = [] := by
  simp [mintedIds]

theorem mintedIds_ok (numbers : List Nat) :
    mintedIds (numbers.map fun k => .ok ⟨⟨k⟩⟩) = numbers := by
  simp [mintedIds, List.filterMap_map]

theorem Prefilled.mintedIds_eq {b b' : MockBackend} {requests : List PrefillRequest}
    {outcomes : List (Except BackendError PrefillOutcome)} (h : Prefilled b requests b' outcomes) :
    mintedIds outcomes =
      List.range' b.nextSequenceId (requests.length - b.pendingPrefillErrors.length) := by
  rw [h.outcomes_eq, mintedIds, List.filterMap_append, ← mintedIds, ← mintedIds, mintedIds_errors,
    mintedIds_ok, List.nil_append]

theorem Prefilled.mem_mintedIds {b b' : MockBackend} {requests : List PrefillRequest}
    {outcomes : List (Except BackendError PrefillOutcome)} (h : Prefilled b requests b' outcomes)
    (k : Nat) : k ∈ mintedIds outcomes ↔ b.nextSequenceId ≤ k ∧ k < b'.nextSequenceId := by
  rw [h.mintedIds_eq, List.mem_range'_1, h.nextSequenceId]

/-- After a prefill call the live numbers are the old ones and those handed out. -/
theorem Prefilled.mem_sequences {b b' : MockBackend} {requests : List PrefillRequest}
    {outcomes : List (Except BackendError PrefillOutcome)} (h : Prefilled b requests b' outcomes)
    (k : Nat) : k ∈ b'.sequences ↔ k ∈ b.sequences ∨ k ∈ mintedIds outcomes := by
  rw [h.mem_mintedIds, FinMap.mem_iff_find, FinMap.mem_iff_find, h.find k]
  split_ifs with hrange
  · simp [hrange]
  · simp only [hrange, or_false]

/-! ### A batch of handles -/

/-- The same sequences are live and the counter stands where it stood. -/
structure SameSequences (b b' : MockBackend) : Prop where
  mem : ∀ k, k ∈ b'.sequences ↔ k ∈ b.sequences
  nextSequenceId : b'.nextSequenceId = b.nextSequenceId

/-- What a decode call leaves alone. -/
structure Decoded (b b' : MockBackend) : Prop extends SameSequences b b' where
  clock : b'.clock = b.clock
  pendingPrefillErrors : b'.pendingPrefillErrors = b.pendingPrefillErrors
  perTokenPrefillCost : b'.perTokenPrefillCost = b.perTokenPrefillCost
  perDecodeCost : b'.perDecodeCost = b.perDecodeCost

theorem Decoded.refl (b : MockBackend) : Decoded b b :=
  ⟨⟨fun _ => Iff.rfl, rfl⟩, rfl, rfl, rfl, rfl⟩

theorem Decoded.trans {a b c : MockBackend} (hab : Decoded a b) (hbc : Decoded b c) : Decoded a c :=
  ⟨⟨fun k => (hbc.mem k).trans (hab.mem k), hbc.nextSequenceId.trans hab.nextSequenceId⟩,
    hbc.clock.trans hab.clock, hbc.pendingPrefillErrors.trans hab.pendingPrefillErrors,
    hbc.perTokenPrefillCost.trans hab.perTokenPrefillCost,
    hbc.perDecodeCost.trans hab.perDecodeCost⟩

/-- How often a sequence occurs in a batch. -/
def occurrences (k : Nat) (requests : List DecodeRequest) : Nat :=
  (requests.map fun d => d.handle.id).count k

theorem occurrences_cons (k : Nat) (request : DecodeRequest) (rest : List DecodeRequest) :
    occurrences k (request :: rest) = occurrences k [request] + occurrences k rest := by
  unfold occurrences
  rw [List.map_cons, List.map_singleton, ← List.singleton_append, List.count_append]

/-- What the loop of `decode` leaves behind, in any state: the queued errors first, then a token for
each occurrence, counted from the first position that is served. -/
structure DecodeAligned (b : MockBackend) (requests : List DecodeRequest) (b' : MockBackend)
    (outcomes : List (Except BackendError DecodedToken)) : Prop extends Decoded b b' where
  length : outcomes.length = requests.length
  failed : outcomes.take b.pendingDecodeErrors.length =
    (b.pendingDecodeErrors.take requests.length).map .error
  served : ∀ i d, b.pendingDecodeErrors.length ≤ i → requests[i]? = some d →
    ∃ state token, b.sequences.find d.handle.id = some state ∧ outcomes[i]? = some (.ok token) ∧
      state.Emitted (occurrences d.handle.id
        ((requests.take (i + 1)).drop b.pendingDecodeErrors.length)) token
  find : ∀ k, b'.sequences.find k = (b.sequences.find k).map fun state =>
    state.emit (occurrences k (requests.drop b.pendingDecodeErrors.length))
  pendingDecodeErrors : b'.pendingDecodeErrors = b.pendingDecodeErrors.drop requests.length

section Loop

variable {b b' : MockBackend} {request : DecodeRequest} {rest : List DecodeRequest}
  {outcomes : List (Except BackendError DecodedToken)}

theorem decodeAligned_nil (b : MockBackend) : DecodeAligned b [] b [] where
  toDecoded := Decoded.refl b
  length := rfl
  failed := by simp
  served i d _ h := by cases h
  find k := by simp [occurrences]
  pendingDecodeErrors := by simp

/-- The head of a batch that meets a queued error. -/
theorem DecodeAligned.cons_error {error : BackendError} {errors : List BackendError}
    (herrors : b.pendingDecodeErrors = error :: errors)
    (h : DecodeAligned { b with pendingDecodeErrors := errors } rest b' outcomes) :
    DecodeAligned b (request :: rest) b' (.error error :: outcomes) where
  toDecoded := ⟨⟨h.mem, h.toSameSequences.nextSequenceId⟩, h.clock, h.pendingPrefillErrors,
    h.perTokenPrefillCost, h.perDecodeCost⟩
  length := congrArg (· + 1) h.length
  failed := by
    rw [herrors, List.length_cons, List.take_succ_cons, List.length_cons, List.take_succ_cons,
      List.map_cons]
    exact congrArg _ h.failed
  served i d hi hd := by
    rw [herrors, List.length_cons] at hi ⊢
    cases i with
    | zero => cases hi
    | succ i =>
        rw [List.take_succ_cons, List.drop_succ_cons]
        exact h.served i d (Nat.le_of_succ_le_succ hi) hd
  find k := by
    rw [herrors, List.length_cons, List.drop_succ_cons]
    exact h.find k
  pendingDecodeErrors := by
    rw [herrors, List.length_cons, List.drop_succ_cons]
    exact h.pendingDecodeErrors

/-- One step of one sequence. -/
theorem find_replace_step {state : SequenceState}
    (hstate : b.sequences.find request.handle.id = some state) (k : Nat) :
    FinMap.find (b.sequences.replace request.handle.id state.step) k =
      (b.sequences.find k).map fun s => s.emit (occurrences k [request]) := by
  rw [FinMap.find_replace (FinMap.mem_of_find hstate)]
  split_ifs with hk
  · subst hk
    rw [hstate, Option.map_some, occurrences, List.map_singleton, List.count_singleton_self]
    rfl
  · have hnone : occurrences k [request] = 0 := by
      rw [occurrences, List.map_singleton, List.count_singleton, if_neg (by simpa using Ne.symm hk)]
    simp [hnone]

/-- The head of a batch that is served. -/
theorem DecodeAligned.cons_ok {state : SequenceState} (herrors : b.pendingDecodeErrors = [])
    (hstate : b.sequences.find request.handle.id = some state)
    (h : DecodeAligned { b with
      sequences := b.sequences.replace request.handle.id state.step } rest b' outcomes) :
    DecodeAligned b (request :: rest) b'
      (.ok ⟨state.step.tokensEmitted, state.step.finished⟩ :: outcomes) where
  toDecoded := by
    have hhead : Decoded b { b with
        sequences := b.sequences.replace request.handle.id state.step } :=
      ⟨⟨fun _ => AList.mem_replace, rfl⟩, rfl, rfl, rfl, rfl⟩
    exact hhead.trans h.toDecoded
  length := congrArg (· + 1) h.length
  failed := by simp [herrors]
  served i d hi hd := by
    rw [herrors, List.length_nil, List.drop_zero, List.take_succ_cons, occurrences_cons]
    cases i with
    | zero =>
        cases hd
        refine ⟨state, _, hstate, rfl, ?_⟩
        have hone : occurrences request.handle.id [request] = 1 := List.count_singleton_self
        rw [hone, List.take_zero]
        exact state.emitted_step
    | succ i =>
        have hserved := h.served i d
        simp only [herrors, List.length_nil, List.drop_zero] at hserved
        obtain ⟨stepped, token, hstepped, htoken, hemitted⟩ := hserved (Nat.zero_le i) hd
        rw [find_replace_step hstate] at hstepped
        obtain ⟨before, hbefore, rfl⟩ := Option.map_eq_some_iff.mp hstepped
        exact ⟨before, token, hbefore, htoken, hemitted.of_emit⟩
  find k := by
    rw [h.find k, find_replace_step hstate, Option.map_map]
    simp only [herrors, List.length_nil, List.drop_zero, occurrences_cons k request rest]
    congr 1
    funext s
    exact s.emit_emit _ _
  pendingDecodeErrors := by
    rw [h.pendingDecodeErrors]
    simp [herrors]

end Loop

/-- The loop of `decode` aborts only on a handle that is not live, at a position that is served. -/
theorem decodeSequences_aligned (requests : List DecodeRequest) :
    ∀ (b : MockBackend), Ensures (b.decodeSequences requests)
      (fun p => p = .decodeUnknownHandle ∧
        ∃ d ∈ requests.drop b.pendingDecodeErrors.length, d.handle.id ∉ b.sequences)
      (fun done => DecodeAligned b requests done.1 done.2) := by
  induction requests with
  | nil =>
      intro b
      exact decodeAligned_nil b
  | cons request rest ih =>
      intro b
      unfold decodeSequences
      unfold decodeSequence
      cases herrors : b.pendingDecodeErrors with
      | cons error errors =>
          simp only [ok_bind]
          refine Ensures.bind ((ih _).mono (fun p h => ?_) (fun _ h => h)) (fun tail htail => ?_)
          · rw [List.length_cons, List.drop_succ_cons]
            exact h
          · exact htail.cons_error herrors
      | nil =>
          simp only
          cases hstate : b.sequences.find request.handle.id with
          | none =>
              refine ⟨rfl, request, List.mem_cons_self, ?_⟩
              exact FinMap.find_eq_none.mp hstate
          | some state =>
              simp only [ok_bind]
              refine Ensures.bind ((ih _).mono (fun p h => ?_) (fun _ h => h)) (fun tail htail => ?_)
              · obtain ⟨hp, d, hd, hdead⟩ := h
                refine ⟨hp, d, List.mem_cons_of_mem _ hd, fun hmem => hdead ?_⟩
                exact AList.mem_replace.mpr hmem
              · rw [← herrors] at htail
                exact htail.cons_ok herrors hstate

/-- A decode batch of live handles never aborts. -/
theorem decodeSequences_ensures (requests : List DecodeRequest) (b : MockBackend)
    (hlive : ∀ d ∈ requests, d.handle.id ∈ b.sequences) :
    Ensures (b.decodeSequences requests) (fun _ => False) (fun done => Decoded b done.1) := by
  refine (decodeSequences_aligned requests b).mono (fun p h => ?_) (fun _ h => h.toDecoded)
  obtain ⟨-, d, hd, hdead⟩ := h
  exact hdead (hlive d (List.mem_of_mem_drop hd))

/-! ### The two calls -/

theorem prefill_ensures {b : MockBackend} (hfresh : b.Fresh) (batch : PrefillBatch) :
    Ensures (InferenceBackend.prefill b batch) (fun p => p = .negativeAdvance)
      (fun answer => Prefilled b batch.sequences answer.1 answer.2.outcomes) :=
  (prefillSequences_ensures batch.sequences b hfresh).bind (fun _ hdone => hdone)

theorem decode_ensures {b : MockBackend} {batch : DecodeBatch}
    (hlive : ∀ d ∈ batch.sequences, d.handle.id ∈ b.sequences) :
    Ensures (InferenceBackend.decode b batch) (fun p => p = .negativeAdvance) (fun answer =>
      0 ≤ b.perDecodeCost ∧
        Decoded { b with clock := ⟨b.clock.current + b.perDecodeCost⟩ } answer.1) := by
  change Ensures (decode b batch) _ _
  unfold decode
  cases hadvance : b.advance b.perDecodeCost with
  | error p => exact (advance_error hadvance).1
  | ok ticked =>
      obtain ⟨hcost, rfl⟩ := advance_ok hadvance
      rw [ok_bind]
      refine Ensures.bind ((decodeSequences_ensures batch.sequences _ ?_).mono
        (fun _ h => h.elim) (fun _ h => h)) (fun done hdone => ⟨hcost, hdone⟩)
      exact hlive

theorem length_prefillAnswers (b : MockBackend) (n : Nat) : (b.prefillAnswers n).length = n := by
  unfold prefillAnswers
  rw [List.length_append, List.length_map, List.length_map, List.length_take, List.length_range']
  omega

instance : AlignedBackend MockBackend where
  prefill_length b b' batch result h := by
    obtain ⟨done, hdone, h⟩ := bind_eq_ok.mp h
    cases h
    have hanswers := ((prefillSequences_closed batch.sequences b).ok hdone).1
    rw [hanswers]
    exact length_prefillAnswers b _
  decode_length b b' batch result h := by
    obtain ⟨ticked, -, h⟩ := bind_eq_ok.mp h
    obtain ⟨done, hdone, h⟩ := bind_eq_ok.mp h
    cases h
    exact ((decodeSequences_aligned batch.sequences ticked).ok hdone).length

/-! ### Decode steps, sequence by sequence -/

/-- What a decode call did for the sequence `k` of its batch: an injected error was spent on it, or it
made one step and its token was handed out. -/
inductive DecodeAnswer (b b' : MockBackend) (k : Nat) : Except BackendError DecodedToken → Prop
  | failed (e : BackendError) (hpending : b.pendingDecodeErrors ≠ [])
      (hfind : b'.sequences.find k = b.sequences.find k) : DecodeAnswer b b' k (.error e)
  | emitted (state : SequenceState) (hbefore : b.sequences.find k = some state)
      (hafter : b'.sequences.find k = some state.step) :
      DecodeAnswer b b' k (.ok ⟨state.step.tokensEmitted, state.step.finished⟩)

/-- A decode call steps the sequences of its batch, each by itself. -/
structure Stepped (b : MockBackend) (requests : List DecodeRequest) (b' : MockBackend)
    (outcomes : List (Except BackendError DecodedToken)) : Prop where
  answers : List.Forall₂ (fun d => DecodeAnswer b b' d.handle.id) requests outcomes
  others : ∀ k, k ∉ requests.map (fun d => d.handle.id) →
    b'.sequences.find k = b.sequences.find k
  pendingDecodeErrors : b.pendingDecodeErrors = [] → b'.pendingDecodeErrors = []

/-- The body of the loop touches one sequence. -/
theorem decodeSequence_stepped {b b' : MockBackend} {request : DecodeRequest}
    {outcome : Except BackendError DecodedToken} (h : b.decodeSequence request = .ok (b', outcome)) :
    DecodeAnswer b b' request.handle.id outcome ∧
      (∀ k, k ≠ request.handle.id → b'.sequences.find k = b.sequences.find k) ∧
      (b.pendingDecodeErrors = [] → b'.pendingDecodeErrors = []) := by
  unfold decodeSequence at h
  cases herrors : b.pendingDecodeErrors with
  | cons error rest =>
      rw [herrors] at h
      cases h
      exact ⟨.failed error (by rw [herrors]; simp) rfl, fun _ _ => rfl, fun hnone => by cases hnone⟩
  | nil =>
      rw [herrors] at h
      simp only at h
      cases hfind : b.sequences.find request.handle.id with
      | none =>
          rw [hfind] at h
          cases h
      | some state =>
          rw [hfind] at h
          cases h
          have hafter := FinMap.find_replace (FinMap.mem_of_find hfind)
          refine ⟨.emitted state hfind ?_, ?_, fun _ => rfl⟩
          · rw [hafter, if_pos rfl]
          · intro k hk
            rw [hafter, if_neg hk]

/-- A batch of distinct handles: no sequence is stepped twice. -/
theorem decodeSequences_stepped {requests : List DecodeRequest}
    (hnodup : (requests.map fun d => d.handle.id).Nodup) {b b' : MockBackend}
    {outcomes : List (Except BackendError DecodedToken)}
    (h : b.decodeSequences requests = .ok (b', outcomes)) : Stepped b requests b' outcomes := by
  induction requests generalizing b outcomes with
  | nil =>
      cases h
      exact ⟨.nil, fun _ _ => rfl, fun h => h⟩
  | cons request rest ih =>
      obtain ⟨head, hhead, h⟩ := bind_eq_ok.mp h
      obtain ⟨tail, htail, h⟩ := bind_eq_ok.mp h
      cases h
      obtain ⟨hnotMem, hnodup⟩ := List.nodup_cons.mp hnodup
      obtain ⟨hanswer, hothers, hpending⟩ := decodeSequence_stepped hhead
      have hrest := ih hnodup htail
      refine ⟨.cons ?_ ?_, ?_, fun h => hrest.pendingDecodeErrors (hpending h)⟩
      · -- the rest of the batch leaves the head's sequence alone
        have hkeep := hrest.others _ hnotMem
        generalize hout : head.2 = outcome at hanswer
        cases hanswer with
        | failed e hne hfind => exact .failed e hne (hkeep.trans hfind)
        | emitted state hbefore hafter => exact .emitted state hbefore (hkeep.trans hafter)
      · refine forall₂_imp_of_mem hrest.answers (fun d hd outcome h => ?_)
        have hne : d.handle.id ≠ request.handle.id :=
          fun heq => hnotMem (List.mem_map.mpr ⟨d, hd, heq⟩)
        cases h with
        | failed e hne' hfind =>
            exact .failed e (fun h => hne' (hpending h)) (hfind.trans (hothers _ hne))
        | emitted state hbefore hafter =>
            exact .emitted state ((hothers _ hne).symm.trans hbefore) hafter
      · intro k hk
        rw [List.map_cons, List.mem_cons, not_or] at hk
        rw [hrest.others k hk.2, hothers k hk.1]

theorem decode_stepped {b : MockBackend} {batch : List DecodeRequest}
    (hnodup : (batch.map fun d => d.handle.id).Nodup) {answer : MockBackend × DecodeResult}
    (h : InferenceBackend.decode b ⟨batch⟩ = .ok answer) :
    Stepped { b with clock := ⟨b.clock.current + b.perDecodeCost⟩ } batch answer.1
      answer.2.outcomes := by
  obtain ⟨ticked, hticked, h⟩ := bind_eq_ok.mp h
  obtain ⟨done, hdone, h⟩ := bind_eq_ok.mp h
  cases h
  obtain ⟨-, rfl⟩ := advance_ok hticked
  exact decodeSequences_stepped hnodup hdone

/-- Nothing a test does between two calls mints or frees a sequence. -/
theorem occur_ensures (b : MockBackend) (e : Event) :
    Ensures (b.occur e) (fun p => p = .negativeAdvance ∨ p = .configureEosUnknownHandle)
      (SameSequences b) := by
  cases e with
  | failNextPrefill error => exact ⟨fun _ => Iff.rfl, rfl⟩
  | failNextDecode error => exact ⟨fun _ => Iff.rfl, rfl⟩
  | configureEos handle afterTokens =>
      unfold occur configureEos
      simp only
      split
      · exact .inr rfl
      · exact ⟨fun _ => AList.mem_replace, rfl⟩
  | advanceClock d =>
      unfold occur
      simp only
      cases hadvance : b.advance d with
      | error p => exact .inl (advance_error hadvance).1
      | ok b' =>
          obtain ⟨-, rfl⟩ := advance_ok hadvance
          exact ⟨fun _ => Iff.rfl, rfl⟩

/-- Nor does it step one. -/
theorem occur_counts {b b' : MockBackend} {e : Event} (h : b.occur e = .ok b') {k : Nat}
    {state : SequenceState} (hfind : b.sequences.find k = some state) :
    ∃ state', b'.sequences.find k = some state' ∧ state'.tokensEmitted = state.tokensEmitted := by
  cases e with
  | failNextPrefill error =>
      cases h
      exact ⟨state, hfind, rfl⟩
  | failNextDecode error =>
      cases h
      exact ⟨state, hfind, rfl⟩
  | configureEos handle afterTokens =>
      unfold occur configureEos at h
      simp only at h
      cases hother : b.sequences.find handle.id with
      | none =>
          rw [hother] at h
          cases h
      | some other =>
          rw [hother] at h
          cases h
          have hafter := FinMap.find_replace (FinMap.mem_of_find hother) k
            { other with finishedAfterTokens := some afterTokens }
          by_cases hk : k = handle.id
          · rw [hk, hother] at hfind
            cases hfind
            rw [if_pos hk] at hafter
            exact ⟨_, hafter, rfl⟩
          · rw [if_neg hk, hfind] at hafter
            exact ⟨state, hafter, rfl⟩
  | advanceClock d =>
      obtain ⟨-, rfl⟩ := advance_ok h
      exact ⟨state, hfind, rfl⟩

theorem release_of_live {b : MockBackend} {handle : SequenceHandle}
    (hlive : handle.id ∈ b.sequences) :
    InferenceBackend.release b handle =
      .ok { b with sequences := b.sequences.erase handle.id } := if_pos hlive

end MockBackend

end Tokamak
