import Tokamak.SchedulerBudget
import Tokamak.SchedulerIsolation

/-! A tick in closed form, over a mock backend that nobody disturbs. No error is injected and no
sequence ends by itself, so every prefill succeeds and every decode step emits a token. What a tick does
to a request then depends on the request and on three times: when the tick starts, when its prefill
batch is done, and when its decode batch is done. -/

open Outcome

namespace Tokamak

namespace MockBackend

/-- No injected error is pending and no sequence has an end of its own. -/
structure Quiet (prefillCost decodeCost : Duration) (b : MockBackend) : Prop where
  prefillCost : b.perTokenPrefillCost = prefillCost
  decodeCost : b.perDecodeCost = decodeCost
  prefillErrors : b.pendingPrefillErrors = []
  decodeErrors : b.pendingDecodeErrors = []
  endless : ∀ k state, b.sequences.find k = some state → state.finishedAfterTokens = none

theorem quiet_new (clock : FakeClock) (prefillCost decodeCost : Duration) :
    (new clock prefillCost decodeCost).Quiet prefillCost decodeCost :=
  ⟨rfl, rfl, rfl, rfl, fun k state h => by simp [new] at h⟩

theorem advance_of_nonneg {b : MockBackend} {d : Duration} (h : 0 ≤ d) :
    b.advance d = .ok { b with clock := ⟨b.clock.current + d⟩ } := by
  unfold advance FakeClock.advance
  rw [if_pos h]
  rfl

/-- With a cost that is not negative no prefill call aborts. -/
theorem prefillSequences_total (requests : List PrefillRequest) :
    ∀ b : MockBackend, 0 ≤ b.perTokenPrefillCost → ∃ done, b.prefillSequences requests = .ok done := by
  induction requests with
  | nil => exact fun b _ => ⟨(b, []), rfl⟩
  | cons request rest ih =>
      intro b hcost
      have hadvance : 0 ≤ b.perTokenPrefillCost * (request.prompt.tokenIds.length : Int) :=
        mul_nonneg hcost (Int.natCast_nonneg _)
      unfold prefillSequences prefillSequence
      rw [advance_of_nonneg hadvance, ok_bind]
      cases herrors : b.pendingPrefillErrors with
      | nil =>
          obtain ⟨done, hdone⟩ := ih (mint { b with
            clock := ⟨b.clock.current + b.perTokenPrefillCost * request.prompt.tokenIds.length⟩ }) hcost
          refine ⟨(done.1, .ok ⟨⟨b.nextSequenceId⟩⟩ :: done.2), ?_⟩
          simp only [ok_bind]
          rw [← herrors, hdone]
          rfl
      | cons error errors =>
          obtain ⟨done, hdone⟩ := ih { b with
            clock := ⟨b.clock.current + b.perTokenPrefillCost * request.prompt.tokenIds.length⟩
            pendingPrefillErrors := errors } hcost
          refine ⟨(done.1, .error error :: done.2), ?_⟩
          simp only [ok_bind]
          rw [hdone]
          rfl

section Calls

variable {b : MockBackend} {prefillCost decodeCost : Duration} {fails : BackendPanic → Prop}

/-- A prefill call of an undisturbed backend accepts every request. -/
theorem Quiet.prefill (hb : b.Quiet prefillCost decodeCost) (hfresh : b.Fresh)
    (hcost : 0 ≤ prefillCost) (batch : PrefillBatch) :
    Ensures (InferenceBackend.prefill b batch) fails (fun answer =>
      Prefilled b batch.sequences answer.1 answer.2.outcomes ∧
      answer.1.Quiet prefillCost decodeCost ∧
      ∀ outcome ∈ answer.2.outcomes, ∃ out, outcome = .ok out) := by
  obtain ⟨done, hdone⟩ := prefillSequences_total batch.sequences b (hb.prefillCost ▸ hcost)
  have hcall : InferenceBackend.prefill b batch = .ok (done.1, ⟨done.2⟩) := by
    change (b.prefillSequences batch.sequences >>= fun done =>
      (.ok (done.1, ⟨done.2⟩) : Except BackendPanic (MockBackend × PrefillResult))) = _
    rw [hdone]
    rfl
  have hprefilled : Prefilled b batch.sequences done.1 done.2 :=
    (prefill_ensures hfresh batch).ok hcall
  rw [hcall]
  refine ⟨hprefilled, ⟨hprefilled.perTokenPrefillCost.trans hb.prefillCost,
    hprefilled.perDecodeCost.trans hb.decodeCost, ?_,
    hprefilled.pendingDecodeErrors.trans hb.decodeErrors, ?_⟩, ?_⟩
  · rw [hprefilled.pendingPrefillErrors, hb.prefillErrors, List.drop_nil]
  · intro k state hstate
    rw [hprefilled.find k] at hstate
    split_ifs at hstate with hnew
    · cases hstate
      rfl
    · exact hb.endless k state hstate
  · intro outcome houtcome
    rw [hprefilled.outcomes_eq, hb.prefillErrors, List.take_nil, List.map_nil, List.nil_append] at houtcome
    obtain ⟨k, -, rfl⟩ := List.mem_map.mp houtcome
    exact ⟨_, rfl⟩

/-- A step of an endless sequence emits a token that is not the last one. -/
theorem Quiet.decodeSequence (hb : b.Quiet prefillCost decodeCost) {b' : MockBackend}
    {request : DecodeRequest} {outcome : Except BackendError DecodedToken}
    (h : b.decodeSequence request = .ok (b', outcome)) :
    b'.Quiet prefillCost decodeCost ∧ ∃ tokenId, outcome = .ok ⟨tokenId, false⟩ := by
  unfold MockBackend.decodeSequence at h
  rw [hb.decodeErrors] at h
  simp only at h
  cases hfind : b.sequences.find request.handle.id with
  | none =>
      rw [hfind] at h
      cases h
  | some state =>
      rw [hfind] at h
      cases h
      have hnone := hb.endless _ state hfind
      refine ⟨⟨hb.prefillCost, hb.decodeCost, hb.prefillErrors, rfl, ?_⟩,
        state.step.tokensEmitted, ?_⟩
      · intro k other hother
        rw [FinMap.find_replace (FinMap.mem_of_find hfind)] at hother
        split_ifs at hother
        · cases hother
          exact hnone
        · exact hb.endless k other hother
      · simp [SequenceState.finished, SequenceState.step, hnone]

theorem Quiet.decodeSequences {requests : List DecodeRequest} (hb : b.Quiet prefillCost decodeCost)
    {b' : MockBackend} {outcomes : List (Except BackendError DecodedToken)}
    (h : b.decodeSequences requests = .ok (b', outcomes)) :
    b'.Quiet prefillCost decodeCost ∧
      ∀ outcome ∈ outcomes, ∃ tokenId, outcome = .ok ⟨tokenId, false⟩ := by
  induction requests generalizing b outcomes with
  | nil =>
      cases h
      exact ⟨hb, fun outcome houtcome => by cases houtcome⟩
  | cons request rest ih =>
      obtain ⟨head, hhead, h⟩ := bind_eq_ok.mp h
      obtain ⟨tail, htail, h⟩ := bind_eq_ok.mp h
      cases h
      obtain ⟨hquiet, hfirst⟩ := hb.decodeSequence hhead
      obtain ⟨hquiet', hrest⟩ := ih hquiet htail
      refine ⟨hquiet', fun outcome houtcome => ?_⟩
      rcases List.mem_cons.mp houtcome with rfl | houtcome
      · exact hfirst
      · exact hrest outcome houtcome

/-- A decode call of an undisturbed backend emits a token for every live handle. -/
theorem Quiet.decode (hb : b.Quiet prefillCost decodeCost) (hcost : 0 ≤ decodeCost)
    {batch : List DecodeRequest} (hlive : ∀ d ∈ batch, d.handle.id ∈ b.sequences) :
    Ensures (InferenceBackend.decode b ⟨batch⟩) fails (fun answer =>
      SameSequences b answer.1 ∧ answer.1.clock.current = b.clock.current + decodeCost ∧
      answer.1.Quiet prefillCost decodeCost ∧
      ∀ outcome ∈ answer.2.outcomes, ∃ tokenId, outcome = .ok ⟨tokenId, false⟩) := by
  change Ensures (MockBackend.decode b ⟨batch⟩) _ _
  unfold MockBackend.decode
  rw [hb.decodeCost, advance_of_nonneg hcost, ok_bind]
  have hticked : Quiet prefillCost decodeCost
      { b with clock := ⟨b.clock.current + decodeCost⟩ } :=
    ⟨hb.prefillCost, hb.decodeCost, hb.prefillErrors, hb.decodeErrors, hb.endless⟩
  have hcall := decodeSequences_ensures batch { b with clock := ⟨b.clock.current + decodeCost⟩ } hlive
  have hall := hcall.and_ok (fun done hdone => hticked.decodeSequences hdone)
  refine (hall.mono (fun _ h => h.elim) (fun _ h => h)).bind ?_
  rintro done ⟨hdecoded, hquiet, houtcomes⟩
  refine ⟨⟨hdecoded.mem, hdecoded.nextSequenceId⟩, ?_, hquiet, houtcomes⟩
  rw [hdecoded.clock]

end Calls

end MockBackend

/-! ### One request -/

namespace Request

/-- The request without the tokens it has emitted. -/
def outline (q : Request) : Request := { q with outputTokenIds := [] }

/-- The expiry at time `t`. -/
def expire (t : TimePoint) (q : Request) : Request :=
  if q.deadlineAt < t then
    match q.state with
    | .waitingPrefill => (q.enter .prefilling t).enter .failed t
    | .decoding => q.enter .failed t
    | _ => q
  else q

/-- A prefill batch that is done at time `t`. -/
def prefill (t : TimePoint) (q : Request) : Request :=
  match q.state with
  | .waitingPrefill => ((q.enter .prefilling t).enter .waitingDecode t).enter .decoding t
  | _ => q

/-- The time of the first token is stored, the others only counted. -/
def emit (t : TimePoint) (q : Request) : Request :=
  { q with
    lifecycle := if q.lifecycle.firstTokenAt.isNone then q.lifecycle.stampFirstToken t
      else q.lifecycle
    outputTokensEmitted := q.outputTokensEmitted + 1 }

/-- The next token is the last one of the budget. -/
def lastToken (q : Request) : Bool := decide (q.maxOutputTokens ≤ q.outputTokensEmitted + 1)

/-- A decode batch that is done at time `t`. -/
def decode (t : TimePoint) (q : Request) : Request :=
  match q.state with
  | .decoding => if q.lastToken then (q.emit t).enter .completed t else q.emit t
  | _ => q

section Equations

variable {q : Request} (t : TimePoint)

@[simp] theorem state_outline (q : Request) : q.outline.state = q.state := rfl

theorem expire_of_not_expired (h : ¬q.deadlineAt < t) : q.expire t = q := if_neg h

theorem expire_of_waiting (h : q.deadlineAt < t) (hstate : q.state = .waitingPrefill) :
    q.expire t = (q.enter .prefilling t).enter .failed t := by
  rw [expire, if_pos h, hstate]

theorem expire_of_decoding (h : q.deadlineAt < t) (hstate : q.state = .decoding) :
    q.expire t = q.enter .failed t := by
  rw [expire, if_pos h, hstate]

theorem expire_of_terminal (hstate : q.state.isTerminal = true) : q.expire t = q := by
  unfold expire
  split_ifs
  · cases h : q.state <;> simp [h, RequestState.isTerminal] at hstate ⊢
  · rfl

theorem prefill_of_waiting (hstate : q.state = .waitingPrefill) :
    q.prefill t = ((q.enter .prefilling t).enter .waitingDecode t).enter .decoding t := by
  rw [prefill, hstate]

theorem prefill_of_not_waiting (hstate : q.state ≠ .waitingPrefill) : q.prefill t = q := by
  unfold prefill
  split
  · exact absurd ‹_› hstate
  · rfl

theorem decode_of_decoding (hstate : q.state = .decoding) :
    q.decode t = if q.lastToken then (q.emit t).enter .completed t else q.emit t := by
  rw [decode, hstate]

theorem decode_of_not_decoding (hstate : q.state ≠ .decoding) : q.decode t = q := by
  unfold decode
  split
  · exact absurd ‹_› hstate
  · rfl

/-- Whether a token is the last one does not depend on the tokens before it. -/
theorem decode_outline_of_decoding (hstate : q.state = .decoding) :
    q.outline.decode t =
      if q.lastToken then (q.outline.emit t).enter .completed t else q.outline.emit t :=
  decode_of_decoding t hstate

theorem state_emit (q : Request) : (q.emit t).state = q.state := by
  unfold emit state
  simp only
  split_ifs <;> rfl

/-- Tokens do not matter to what a tick does. -/
theorem outline_expire (q : Request) : (q.expire t).outline = q.outline.expire t := by
  unfold expire
  change (if q.deadlineAt < t then _ else _ : Request).outline =
    if q.deadlineAt < t then _ else q.outline
  split_ifs
  · rw [state_outline]
    cases q.state <;> rfl
  · rfl

theorem outline_prefill (q : Request) : (q.prefill t).outline = q.outline.prefill t := by
  unfold prefill
  rw [state_outline]
  cases q.state <;> rfl

/-- A token emitted over a mock backend. -/
theorem outline_emitted (q : Request) (b : MockBackend) (tokenId : UInt32) :
    (q.emitted (q.lifecycle.firstToken b).1 tokenId).outline = q.outline.emit b.clock.current := by
  unfold RequestLifecycle.firstToken emit
  change _ = ({ q.outline with
    lifecycle := if q.lifecycle.firstTokenAt.isNone then _ else _
    outputTokensEmitted := _ } : Request)
  split_ifs <;> rfl

end Equations

end Request

/-! ### The requests of a scheduler -/

/-- The requests in the given state. -/
def requestsIn (state : RequestState) (requests : List Request) : List Request :=
  requests.filter fun q => q.state = state

namespace FifoScheduler

section Outlines

variable {ω : Type} {s t t' : FifoScheduler ω} {r : RequestPtr}

/-- All requests, in the order of their submission and without their tokens. -/
def outlines (s : FifoScheduler ω) : List Request :=
  (List.range s.requests.size).map fun p => (s.request p).outline

/-- A queue holds the requests of one state. -/
theorem outlines_of_queue {queue : List RequestPtr} {state : RequestState} (hnodup : queue.Nodup)
    (hmem : ∀ p, p ∈ queue ↔ p < s.requests.size ∧ s.state p = state) :
    (queue.map fun p => (s.request p).outline).Perm
      (requestsIn state s.outlines) := by
  unfold outlines requestsIn
  rw [List.filter_map]
  refine List.Perm.map _ ((List.perm_ext_iff_of_nodup hnodup (List.nodup_range.filter _)).mpr ?_)
  intro p
  rw [hmem, List.mem_filter, List.mem_range]
  exact and_congr_right (fun _ => decide_eq_true_iff.symm)

theorem Partition.waiting_outlines (hs : s.Partition) :
    (s.waiting.map fun p => (s.request p).outline).Perm
      (requestsIn .waitingPrefill s.outlines) :=
  outlines_of_queue hs.waiting_nodup (fun p =>
    ⟨fun hp => ⟨hs.waiting_lt p hp, hs.waiting_state p hp⟩, fun h => hs.mem_waiting h.1 h.2⟩)

theorem Partition.decoding_outlines (hs : s.Partition) :
    (s.decoding.map fun p => (s.request p).outline).Perm
      (requestsIn .decoding s.outlines) :=
  outlines_of_queue hs.decoding_nodup (fun p =>
    ⟨fun hp => ⟨hs.decoding_lt p hp, hs.decoding_state p hp⟩, fun h => hs.mem_decoding h.1 h.2⟩)

/-- `f` was applied to every request of `s`, except for those of `rest`, which are as they were. -/
structure Swept (f : Request → Request) (rest : List RequestPtr) (s t : FifoScheduler ω) : Prop where
  size : t.requests.size = s.requests.size
  pending : ∀ p ∈ rest, t.request p = s.request p
  done : ∀ p < s.requests.size, p ∉ rest → (t.request p).outline = f (s.request p).outline

theorem Swept.step {f : Request → Request} {rest : List RequestPtr} (h : Swept f (r :: rest) s t)
    (hr : r ∉ rest) (hsize : t'.requests.size = t.requests.size)
    (hothers : ∀ p, p ≠ r → t'.request p = t.request p)
    (hself : (t'.request r).outline = f (s.request r).outline) : Swept f rest s t' where
  size := hsize.trans h.size
  pending p hp := by
    rw [hothers p (fun heq => hr (heq ▸ hp))]
    exact h.pending p (List.mem_cons_of_mem r hp)
  done p hlt hp := by
    by_cases heq : p = r
    · rw [heq]
      exact hself
    · rw [hothers p heq]
      refine h.done p hlt (fun hmem => ?_)
      rcases List.mem_cons.mp hmem with h | h
      · exact heq h
      · exact hp h

theorem Swept.outlines {f : Request → Request} (h : Swept f [] s t) :
    t.outlines = s.outlines.map f := by
  unfold FifoScheduler.outlines
  rw [h.size, List.map_map]
  refine List.map_congr_left (fun p hp => ?_)
  exact h.done p (List.mem_range.mp hp) List.not_mem_nil

end Outlines

/-- The scheduler's backend is left alone. -/
structure Undisturbed (prefillCost decodeCost : Duration) (s : FifoScheduler MockBackend) : Prop where
  partition : s.Partition
  handles : HandlesLive (fun _ => False) s
  quiet : s.world.Quiet prefillCost decodeCost
  prefillCost_nonneg : 0 ≤ prefillCost
  decodeCost_nonneg : 0 ≤ decodeCost

section Phases

variable {prefillCost decodeCost : Duration} {s : FifoScheduler MockBackend} {r : RequestPtr}
  {fails : Panic → Prop}

theorem quiet_releasedMock (hs : s.world.Quiet prefillCost decodeCost) (id : RequestId) :
    (s.releasedMock id).Quiet prefillCost decodeCost := by
  unfold releasedMock
  split
  · exact hs
  · refine ⟨hs.prefillCost, hs.decodeCost, hs.prefillErrors, hs.decodeErrors, ?_⟩
    intro k state hstate
    rw [FinMap.find_erase] at hstate
    split_ifs at hstate
    exact hs.endless k state hstate

theorem outline_tokenEmitted (s : FifoScheduler MockBackend) (r : RequestPtr) (tokenId : UInt32) :
    ((s.tokenEmitted r tokenId).request r).outline = (s.request r).outline.emit s.clockNow := by
  unfold tokenEmitted
  rw [request_store_self, Request.outline_emitted]
  rfl

theorem clockNow_tokenEmitted (s : FifoScheduler MockBackend) (r : RequestPtr) (tokenId : UInt32) :
    (s.tokenEmitted r tokenId).clockNow = s.clockNow := by
  unfold clockNow
  rw [tokenEmitted_world]

/-- Every request of `s` went through the expiry, except for those of `rest`, which are as they were. -/
structure ExpiredBut (rest : List RequestPtr) (s t : FifoScheduler MockBackend) : Prop where
  clock : t.clockNow = s.clockNow
  size : t.requests.size = s.requests.size
  pending : ∀ p ∈ rest, t.request p = s.request p ∧ s.isExpired p = true
  done : ∀ p < s.requests.size, p ∉ rest → t.request p = (s.request p).expire s.clockNow

/-- The next of the requests still to be visited is retired. -/
theorem ExpiredBut.step {rest : List RequestPtr} {t : FifoScheduler MockBackend}
    (h : ExpiredBut (r :: rest) s t) (hr : r ∉ rest) {q : Request}
    (hq : (s.request r).deadlineAt < s.clockNow → q = (s.request r).expire s.clockNow) :
    ExpiredBut rest s (t.retired r q (t.releasedMock (t.requestId r))) where
  clock := (clockNow_retired t r q).trans h.clock
  size := h.size
  pending p hp := by
    have hne : p ≠ r := fun heq => hr (heq ▸ hp)
    rw [request_retired_of_ne t q _ hne]
    exact h.pending p (List.mem_cons_of_mem r hp)
  done p hlt hp := by
    by_cases heq : p = r
    · subst heq
      rw [request_retired_self]
      exact hq (of_decide_eq_true (h.pending p List.mem_cons_self).2)
    · rw [request_retired_of_ne t q _ heq]
      exact h.done p hlt (by simp [heq, hp])

/-- The expiry over any mock backend, whatever is queued in it: the requests whose deadline has passed
fail, at the time the tick starts, and no other request changes. What a retirement keeps, it keeps. -/
theorem expireDeadlines_exact {dead : Nat → Prop} (keeps : FifoScheduler MockBackend → Prop)
    (hs : s.Partition) (hlive : HandlesLive dead s) (hkeeps : keeps s)
    (hretired : ∀ t r q, keeps t → keeps (t.retired r q (t.releasedMock (t.requestId r)))) :
    Ensures s.expireDeadlines fails (fun done => done.1.Partition ∧ HandlesLive dead done.1 ∧
      keeps done.1 ∧ ExpiredBut [] s done.1) := by
  refine (expireDeadlines_ensures hs (fun W D t => HandlesLive dead t ∧ keeps t ∧
    ExpiredBut (W ++ D) s t ∧ ∀ p ∈ D, p ∈ s.decoding) ?_ ?_ ?_).imp ?_
  · rw [expiredWaiting_mock, expiredDecoding_mock]
    refine ⟨hlive, hkeeps, ⟨rfl, rfl, ?_, ?_⟩, fun p hp => List.mem_of_mem_filter hp⟩
    · intro p hp
      refine ⟨rfl, ?_⟩
      rcases List.mem_append.mp hp with hp | hp
      · exact (List.mem_filter.mp hp).2
      · exact (List.mem_filter.mp hp).2
    · intro p hlt hp
      rw [List.mem_append, List.mem_filter, List.mem_filter, not_or] at hp
      by_cases hlive : s.Live p
      · -- tracked, but not expired
        have hlasting : ¬s.isExpired p = true := by
          rcases hlive with hmem | hmem
          · exact fun h => hp.1 ⟨hmem, h⟩
          · exact fun h => hp.2 ⟨hmem, h⟩
        rw [Request.expire_of_not_expired _ (fun h => hlasting (decide_eq_true h))]
      · have hterminal := hs.rest_terminal p hlt (fun h => hlive (.inl h))
          (fun h => hlive (.inr h))
        rw [Request.expire_of_terminal _ hterminal]
  · rintro r rest t ht hr hrest hqueue ⟨hlive, hkeeps, hexpired, hD⟩
    have hstate := ht.waiting_state r hr
    have hnotD : r ∉ s.expiredDecoding.1 := fun h => ht.notMem_decoding hr (hqueue ▸ hD r h)
    have hself := (hexpired.pending r List.mem_cons_self).1
    rw [failWaiting_mock hstate (hlive.live _)]
    refine ⟨hlive.release r _, hretired t r _ hkeeps, hexpired.step (by simp [hrest, hnotD]) ?_, hD⟩
    intro hpassed
    rw [state, hself] at hstate
    rw [hself, hexpired.clock, Request.expire_of_waiting _ hpassed hstate]
  · rintro r rest t ht hr hrest ⟨hlive, hkeeps, hexpired, hD⟩
    have hstate := ht.decoding_state r hr
    have hself := (hexpired.pending r List.mem_cons_self).1
    rw [failDecoding_mock hstate (hlive.live _)]
    refine ⟨hlive.release r _, hretired t r _ hkeeps, hexpired.step hrest ?_,
      fun p hp => hD p (List.mem_cons_of_mem r hp)⟩
    intro hpassed
    rw [state, hself] at hstate
    rw [hself, hexpired.clock, Request.expire_of_decoding _ hpassed hstate]
  · rintro done ⟨hpart, hlive, hkeeps, hexpired, -⟩
    exact ⟨hpart, hlive, hkeeps, hexpired⟩

/-- The expiry leaves the backend undisturbed. -/
theorem expireDeadlines_quiet (hs : s.Undisturbed prefillCost decodeCost) :
    Ensures s.expireDeadlines fails (fun done => done.1.Undisturbed prefillCost decodeCost ∧
      done.1.clockNow = s.clockNow ∧ Swept (Request.expire s.clockNow) [] s done.1) := by
  refine (expireDeadlines_exact (fun t => t.world.Quiet prefillCost decodeCost)
    hs.partition hs.handles hs.quiet (fun t r q ht => quiet_releasedMock ht _)).imp ?_
  rintro done ⟨hpart, hlive, hquiet, hexpired⟩
  refine ⟨⟨hpart, hlive, hquiet, hs.prefillCost_nonneg, hs.decodeCost_nonneg⟩, hexpired.clock,
    hexpired.size, fun p hp => absurd hp List.not_mem_nil, fun p hp hnil => ?_⟩
  rw [hexpired.done p hp hnil, Request.outline_expire]

/-- The prefill phase promotes every waiting request, at the time the whole batch is done. -/
theorem prefillPhase_quiet (hs : s.Undisturbed prefillCost decodeCost) :
    Ensures s.prefillPhase fails (fun done => done.1.Undisturbed prefillCost decodeCost ∧
      done.1.waiting = [] ∧
      done.1.clockNow = s.clockNow + prefillCost * s.prefillReport.prefillTokens ∧
      Swept (Request.prefill done.1.clockNow) [] s done.1 ∧
      done.2 = { s.prefillReport with prefillSucceeded := s.waiting.length }) := by
  let stop : TimePoint := s.clockNow + prefillCost * s.prefillReport.prefillTokens
  refine (prefillPhase_ensures hs.partition (fun rest outcomes t =>
    HandlesLive (fun _ => False) t.1 ∧ Unclaimed outcomes t.1 ∧
    t.1.world.Quiet prefillCost decodeCost ∧ t.1.clockNow = stop ∧
    Swept (Request.prefill stop) rest s t.1 ∧ (∀ outcome ∈ outcomes, ∃ out, outcome = .ok out) ∧
    ∃ n, n + rest.length = s.waiting.length ∧
      t.2 = { s.prefillReport with prefillSucceeded := n }) ?_ ?_).imp ?_
  · refine (hs.quiet.prefill hs.handles.fresh hs.prefillCost_nonneg _).imp ?_
    rintro answer ⟨hanswer, hquiet, hgranted⟩
    refine ⟨hs.handles.prefilled hanswer, hs.handles.unclaimed hanswer, hquiet, ?_,
      ⟨rfl, fun _ _ => rfl, ?_⟩, hgranted, 0, Nat.zero_add _, rfl⟩
    · change answer.1.clock.current = stop
      rw [hanswer.clock, hs.quiet.prefillCost]
      simp [stop, MockBackend.promptTokens, prefillBatch, prefillReport, clockNow, Function.comp_def]
    · intro p hlt hp
      rw [← Request.outline_prefill, Request.prefill_of_not_waiting]
      · rfl
      · exact fun hstate => hp (hs.partition.mem_waiting hlt hstate)
  · rintro r rest outcome outcomes t report ht hwaiting
      ⟨hlive, hunclaimed, hquiet, hclock, hswept, hgranted, n, hn, hreport⟩
    have hr : r ∈ t.waiting := by rw [hwaiting]; exact List.mem_cons_self
    have hrest : r ∉ rest := by
      have hnodup := ht.waiting_nodup
      rw [hwaiting] at hnodup
      exact (List.nodup_cons.mp hnodup).1
    obtain ⟨out, rfl⟩ := hgranted outcome List.mem_cons_self
    obtain ⟨hmem, hfree⟩ := hunclaimed.2 out.handle.id List.mem_cons_self
    have hstate := ht.waiting_state r hr
    have hsame : t.request r = s.request r := hswept.pending r List.mem_cons_self
    unfold prefillOutcome
    simp only
    rw [promote_mock out.handle hstate]
    refine ⟨hlive.promoted r out.handle _ hmem hfree, hunclaimed.promoted r _, hquiet, hclock,
      hswept.step hrest rfl (fun p hp => request_promoted_of_ne t _ _ _ hp) ?_,
      fun o ho => hgranted o (List.mem_cons_of_mem _ ho), n + 1, ?_, ?_⟩
    · rw [state, hsame] at hstate
      rw [request_promoted_self, hsame, show t.clockNow = stop from hclock, ← Request.outline_prefill,
        Request.prefill_of_waiting _ hstate]
    · rw [List.length_cons] at hn
      omega
    · rw [show report = _ from hreport]
  · rintro done ⟨hpart, hempty, hlive, -, hquiet, hclock, hswept, -, n, hn, hreport⟩
    refine ⟨⟨hpart, hlive, hquiet, hs.prefillCost_nonneg, hs.decodeCost_nonneg⟩, hempty, hclock, ?_, ?_⟩
    · rw [hclock]
      exact hswept
    · rw [hreport, ← hn]
      rfl

/-- The decode phase emits one token per decoding request, at the time the whole batch is done, and
completes the requests whose last token it was. -/
theorem decodePhase_quiet (hs : s.Undisturbed prefillCost decodeCost) :
    Ensures s.decodePhase (fun _ => True) (fun done => done.1.Undisturbed prefillCost decodeCost ∧
      done.1.clockNow = s.clockNow + decodeCost ∧
      Swept (Request.decode done.1.clockNow) [] s done.1 ∧
      (∀ r ∈ s.decoding, (s.request r).outputTokensEmitted < (s.request r).maxOutputTokens) ∧
      done.2 = { s.decodeReport with
        decodeCompleted := s.decoding.countP fun r => (s.request r).lastToken }) := by
  let stop : TimePoint := s.clockNow + decodeCost
  refine (decodePhase_ensures hs.partition (fun rest outcomes t =>
    HandlesLive (fun _ => False) t.1 ∧ t.1.world.Quiet prefillCost decodeCost ∧
    t.1.clockNow = stop ∧ Swept (Request.decode stop) rest s t.1 ∧
    (∀ outcome ∈ outcomes, ∃ tokenId, outcome = .ok ⟨tokenId, false⟩) ∧
    (∀ p ∈ s.decoding, p ∉ rest →
      (s.request p).outputTokensEmitted < (s.request p).maxOutputTokens) ∧
    ∃ n, n + rest.countP (fun p => (s.request p).lastToken) =
        s.decoding.countP (fun p => (s.request p).lastToken) ∧
      t.2 = { s.decodeReport with decodeCompleted := n }) ?_ ?_).imp ?_
  · refine (decodeBatch_live hs.handles).mono (fun _ _ => trivial) (fun batch hbatch => ?_)
    refine (hs.quiet.decode hs.decodeCost_nonneg hbatch).imp ?_
    rintro answer ⟨hsame, hclock, hquiet, htokens⟩
    refine ⟨hs.handles.world hsame, hquiet, hclock, ⟨rfl, fun _ _ => rfl, ?_⟩, htokens,
      fun p hp hrest => absurd hp hrest, 0, Nat.zero_add _, rfl⟩
    intro p hlt hp
    rw [Request.decode_of_not_decoding]
    · rfl
    · exact fun hstate => hp (hs.partition.mem_decoding hlt hstate)
  · rintro r rest outcome outcomes t report ht hr hrest - -
      ⟨hlive, hquiet, hclock, hswept, htokens, hfunded, n, hn, hreport⟩
    obtain ⟨tokenId, rfl⟩ := htokens outcome List.mem_cons_self
    have hstate := ht.decoding_state r hr
    have hsame : t.request r = s.request r := hswept.pending r List.mem_cons_self
    have hemitted := outline_tokenEmitted t r tokenId
    rw [hsame, hclock] at hemitted
    have hdecode := Request.decode_outline_of_decoding stop (hsame ▸ hstate :
      (s.request r).state = .decoding)
    have hbudget : ¬(s.request r).maxOutputTokens ≤ (s.request r).outputTokensEmitted →
        ∀ p ∈ s.decoding, p ∉ rest →
          (s.request p).outputTokensEmitted < (s.request p).maxOutputTokens := by
      intro hover p hp hpending
      by_cases heq : p = r
      · rw [heq]
        exact not_le.mp hover
      · exact hfunded p hp (by simp [heq, hpending])
    rw [List.countP_cons] at hn
    rw [decodeOutcome_mock hstate (hlive.live _), hsame]
    split_ifs with hover hlast
    · trivial
    · -- the last token
      have hlast : (s.request r).lastToken = true := decide_eq_true (by simpa using hlast)
      rw [if_pos hlast] at hdecode
      refine ⟨hlive.release r _, quiet_releasedMock hquiet _, (clockNow_retired t r _).trans hclock,
        hswept.step hrest rfl (fun p hp => request_retired_of_ne t _ _ hp) ?_,
        fun o ho => htokens o (List.mem_cons_of_mem _ ho), hbudget hover, n + 1, ?_, ?_⟩
      · rw [hdecode, request_retired_self, ← hemitted, ← show t.clockNow = stop from hclock]
        rfl
      · rw [if_pos hlast] at hn
        omega
      · rw [show report = _ from hreport]
    · have hlast : ¬(s.request r).lastToken = true := fun h => hlast (.inr (of_decide_eq_true h))
      rw [if_neg hlast] at hdecode
      refine ⟨hlive.of_eq (tokenEmitted_world t r tokenId) rfl, ?_, ?_,
        hswept.step hrest rfl (fun p hp => request_store_of_ne t _ _ hp) ?_,
        fun o ho => htokens o (List.mem_cons_of_mem _ ho), hbudget hover, n, ?_, hreport⟩
      · rw [tokenEmitted_world]
        exact hquiet
      · exact (clockNow_tokenEmitted t r tokenId).trans hclock
      · rw [hdecode]
        exact hemitted
      · rw [if_neg hlast] at hn
        exact hn
  · rintro done ⟨hpart, -, hlive, hquiet, hclock, hswept, -, hfunded, n, hn, hreport⟩
    refine ⟨⟨hpart, hlive, hquiet, hs.prefillCost_nonneg, hs.decodeCost_nonneg⟩, hclock, ?_,
      fun r hr => hfunded r hr List.not_mem_nil, ?_⟩
    · rw [hclock]
      exact hswept
    · rw [hreport, ← hn]
      rfl

/-- A tick over distinct ids that stays within all budgets does not abort. -/
theorem tick_total (hs : s.Undisturbed prefillCost decodeCost) (hiso : Isolated [] s)
    (hdistinct : s.DistinctTracked) (hfunded : s.DecodesWithinBudget) : ∃ done, s.tick = .ok done := by
  have hsafe : Ensures s.tick (fun _ => False) (fun _ => True) := by
    refine tick_ensures
      (fun a => s.expireDeadlines = .ok a ∧ a.1.Undisturbed prefillCost decodeCost ∧
        Isolated [] a.1 ∧ a.1.DistinctTracked)
      (fun _ b => ∃ a, s.expireDeadlines = .ok a ∧ a.1.prefillPhase = .ok b ∧
        b.1.Undisturbed prefillCost decodeCost ∧ Isolated [] b.1 ∧ b.1.DistinctTracked) ?_ ?_ ?_
    · refine (((expireDeadlines_isolated hs.partition hiso hdistinct).and
        (expireDeadlines_quiet hs)).and_ok (fun a ha => ha)).imp ?_
      rintro a ⟨⟨⟨-, hiso', hdist'⟩, hquiet, -⟩, ha⟩
      exact ⟨ha, hquiet, hiso', hdist'⟩
    · rintro a ⟨ha, hquiet, hiso', hdist'⟩
      refine (((prefillPhase_isolated hquiet.partition hiso' hdist' ?_).and
        (prefillPhase_quiet hquiet)).and_ok (fun b hb => hb)).imp ?_
      · exact (hquiet.quiet.prefill hquiet.handles.fresh hquiet.prefillCost_nonneg _).imp fun _ h => h.1
      rintro b ⟨⟨⟨-, hiso'', hdist''⟩, hquiet', -⟩, hb⟩
      exact ⟨a, ha, hb, hquiet', hiso'', hdist''⟩
    · rintro - b ⟨a, ha, hb, hquiet, hiso', hdist'⟩
      refine (decodePhase_isolated hquiet.partition hiso' hdist' (fun batch hbatch => ?_) ?_).imp
        (fun _ _ => trivial)
      · exact (hquiet.quiet.decode hquiet.decodeCost_nonneg hbatch).imp (fun _ h => h.1)
      · exact fun r hr hover => absurd hover (not_le.mpr (hfunded a b ha hb r hr))
  cases htick : s.tick with
  | ok done => exact ⟨done, rfl⟩
  | error p => exact (hsafe.error htick).elim

end Phases

end FifoScheduler

end Tokamak
