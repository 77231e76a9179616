import Tokamak.SchedulerSafety

/-! What an operation of the scheduler does to a single request. A tick leaves terminal requests
alone and takes every live one exactly one step further: it fails, or it emits one token and then
decodes on or is completed. A cancel touches requests of the given id only. What the client gave a
request never changes. -/

open Outcome

namespace Tokamak

/-- What a client gave the request. -/
structure Request.SameTerms (q q' : Request) : Prop where
  id : q'.id = q.id
  deadlineAt : q'.deadlineAt = q.deadlineAt
  maxOutputTokens : q'.maxOutputTokens = q.maxOutputTokens
  promptTokenIds : q'.promptTokenIds = q.promptTokenIds
  priority : q'.priority = q.priority

/-- The tokens a request has emitted so far, as list and as counter. -/
structure Request.SameTokens (q q' : Request) : Prop where
  outputTokenIds : q'.outputTokenIds = q.outputTokenIds
  outputTokensEmitted : q'.outputTokensEmitted = q.outputTokensEmitted

theorem Request.SameTerms.refl (q : Request) : SameTerms q q := ⟨rfl, rfl, rfl, rfl, rfl⟩

theorem Request.SameTerms.trans {q q' q'' : Request} (h : SameTerms q q') (h' : SameTerms q' q'') :
    SameTerms q q'' :=
  ⟨h'.id.trans h.id, h'.deadlineAt.trans h.deadlineAt,
    h'.maxOutputTokens.trans h.maxOutputTokens, h'.promptTokenIds.trans h.promptTokenIds,
    h'.priority.trans h.priority⟩

theorem Request.sameTerms_enter (q : Request) (target : RequestState) (t : TimePoint) :
    SameTerms q (q.enter target t) := ⟨rfl, rfl, rfl, rfl, rfl⟩

theorem Request.SameTokens.refl (q : Request) : SameTokens q q := ⟨rfl, rfl⟩

theorem Request.SameTokens.trans {q q' q'' : Request} (h : SameTokens q q')
    (h' : SameTokens q' q'') : SameTokens q q'' :=
  ⟨h'.outputTokenIds.trans h.outputTokenIds, h'.outputTokensEmitted.trans h.outputTokensEmitted⟩

theorem Request.sameTokens_enter (q : Request) (target : RequestState) (t : TimePoint) :
    SameTokens q (q.enter target t) := ⟨rfl, rfl⟩

/-- The two ways a live request leaves a decode step: retired by an error, or one token richer. -/
inductive Request.Advanced (q : Request) : Request → Prop
  | failed {q' : Request} (hterms : SameTerms q q') (htokens : SameTokens q q')
      (hstate : q'.state = .failed) : Advanced q q'
  | emitted {q' : Request} (tokenId : UInt32) (finished : Bool) (hterms : SameTerms q q')
      (hbudget : q.outputTokensEmitted < q.maxOutputTokens)
      (htokens : q'.outputTokenIds = q.outputTokenIds ++ [tokenId])
      (hcount : q'.outputTokensEmitted = q.outputTokensEmitted + 1)
      (hstate : q'.state = if finished = true ∨ q.maxOutputTokens ≤ q.outputTokensEmitted + 1
        then .completed else .decoding) : Advanced q q'

/-- The same, by the outcome that was read: an error retires, a token is emitted. -/
inductive Request.Answered (q : Request) : Except BackendError DecodedToken → Request → Prop
  | failed (e : BackendError) {q' : Request} (hterms : SameTerms q q') (htokens : SameTokens q q')
      (hstate : q'.state = .failed) : Answered q (.error e) q'
  | emitted (token : DecodedToken) {q' : Request} (hterms : SameTerms q q')
      (hbudget : q.outputTokensEmitted < q.maxOutputTokens)
      (htokens : q'.outputTokenIds = q.outputTokenIds ++ [token.tokenId])
      (hcount : q'.outputTokensEmitted = q.outputTokensEmitted + 1)
      (hstate : q'.state =
        if token.finished = true ∨ q.maxOutputTokens ≤ q.outputTokensEmitted + 1
        then .completed else .decoding) : Answered q (.ok token) q'

theorem Request.Answered.advanced {q q' : Request} {outcome : Except BackendError DecodedToken}
    (h : Answered q outcome q') : Advanced q q' := by
  cases h with
  | failed e hterms htokens hstate => exact .failed hterms htokens hstate
  | emitted token hterms hbudget htokens hcount hstate =>
      exact .emitted token.tokenId token.finished hterms hbudget htokens hcount hstate

/-- What a request was given and has emitted so far may be looked up earlier. -/
theorem Request.Answered.of_same {q q' q'' : Request} {outcome : Except BackendError DecodedToken}
    (h : Answered q' outcome q'') (hterms : SameTerms q q') (htokens : SameTokens q q') :
    Answered q outcome q'' := by
  cases h with
  | failed e hterms' htokens' hstate =>
      exact .failed e (hterms.trans hterms') (htokens.trans htokens') hstate
  | emitted token hterms' hbudget htokens' hcount hstate =>
      rw [htokens.outputTokensEmitted, hterms.maxOutputTokens] at hbudget hstate
      refine .emitted token (hterms.trans hterms') hbudget ?_ ?_ hstate
      · rw [htokens', htokens.outputTokenIds]
      · rw [hcount, htokens.outputTokensEmitted]

theorem Request.Advanced.of_same {q q' q'' : Request} (h : Advanced q' q'') (hterms : SameTerms q q')
    (htokens : SameTokens q q') : Advanced q q'' := by
  cases h with
  | failed hterms' htokens' hstate =>
      exact .failed (hterms.trans hterms') (htokens.trans htokens') hstate
  | emitted tokenId finished hterms' hbudget htokens' hcount hstate =>
      rw [htokens.outputTokensEmitted, hterms.maxOutputTokens] at hbudget hstate
      refine .emitted tokenId finished (hterms.trans hterms') hbudget ?_ ?_ hstate
      · rw [htokens', htokens.outputTokenIds]
      · rw [hcount, htokens.outputTokensEmitted]

/-- What a whole tick does to a request. -/
inductive Request.Ticked (q : Request) : Request → Prop
  | frozen (hterminal : q.state.isTerminal = true) : Ticked q q
  | advanced {q' : Request} (hlive : q.state.isTerminal = false) (h : Advanced q q') : Ticked q q'

theorem Request.Advanced.sameTerms {q q' : Request} (h : Advanced q q') : SameTerms q q' := by
  cases h with
  | failed hterms => exact hterms
  | emitted _ _ hterms => exact hterms

theorem Request.Ticked.sameTerms {q q' : Request} (h : Ticked q q') : SameTerms q q' := by
  cases h with
  | frozen => exact SameTerms.refl q
  | advanced _ h => exact h.sameTerms

theorem Request.Ticked.eq_of_terminal {q q' : Request} (h : Ticked q q')
    (hterminal : q.state.isTerminal = true) : q' = q := by
  cases h with
  | frozen => rfl
  | advanced hlive =>
      rw [hterminal] at hlive
      cases hlive

theorem Request.Advanced.state_cases {q q' : Request} (h : Advanced q q') :
    q'.state = .failed ∨ q'.state = .completed ∨ q'.state = .decoding := by
  cases h with
  | failed _ _ hstate => exact .inl hstate
  | emitted _ _ _ _ _ _ hstate =>
      rw [hstate]
      split_ifs
      · exact .inr (.inl rfl)
      · exact .inr (.inr rfl)

/-- A tick leads into no other state than these three. -/
theorem Request.Ticked.state_ne {q q' : Request} {s : RequestState} (h : Ticked q q')
    (hs : s ≠ .failed ∧ s ≠ .completed ∧ s ≠ .decoding) (hq : q.state ≠ s) : q'.state ≠ s := by
  cases h with
  | frozen => exact hq
  | advanced _ hadvanced =>
      rcases hadvanced.state_cases with hstate | hstate | hstate
      · rw [hstate]
        exact hs.1.symm
      · rw [hstate]
        exact hs.2.1.symm
      · rw [hstate]
        exact hs.2.2.symm

theorem Request.Ticked.uncancelled {q q' : Request} (h : Ticked q q') (hq : q.state ≠ .cancelled) :
    q'.state ≠ .cancelled := h.state_ne (by decide) hq

theorem Request.Ticked.unrejected {q q' : Request} (h : Ticked q q') (hq : q.state ≠ .rejected) :
    q'.state ≠ .rejected := h.state_ne (by decide) hq

/-- A request that decodes on has emitted a token and has budget for another. -/
theorem Request.Ticked.of_decoding {q q' : Request} (h : Ticked q q') (hstate : q'.state = .decoding) :
    q.state.isTerminal = false ∧ q'.outputTokensEmitted = q.outputTokensEmitted + 1 ∧
      q.outputTokensEmitted + 1 < q.maxOutputTokens := by
  cases h with
  | frozen hterminal =>
      rw [hstate] at hterminal
      cases hterminal
  | advanced hlive hadvanced =>
      cases hadvanced with
      | failed _ _ hfailed =>
          rw [hstate] at hfailed
          cases hfailed
      | emitted _ _ _ _ _ hcount hnext =>
          rw [hstate] at hnext
          split_ifs at hnext with hfinish
          exact ⟨hlive, hcount, not_le.mp (fun hle => hfinish (.inr hle))⟩

/-- What a tick or a cancel does to a request: nothing, unless it is live. -/
def Request.Evolved (q q' : Request) : Prop :=
  q' = q ∨ q.state.isTerminal = false ∧ (Advanced q q' ∨ SameTokens q q' ∧ q'.state = .cancelled)

theorem Request.Ticked.evolved {q q' : Request} (h : Ticked q q') : Evolved q q' := by
  cases h with
  | frozen => exact .inl rfl
  | advanced hlive h => exact .inr ⟨hlive, .inl h⟩

/-- The tokens a request has emitted are never taken back. -/
theorem Request.Evolved.isPrefix {q q' : Request} (h : Evolved q q') :
    q.outputTokenIds <+: q'.outputTokenIds := by
  rcases h with rfl | ⟨-, hadvanced | ⟨htokens, -⟩⟩
  · exact List.prefix_refl _
  · cases hadvanced with
    | failed _ htokens => rw [htokens.outputTokenIds]
    | emitted tokenId _ _ _ htokens =>
        rw [htokens]
        exact List.prefix_append _ _
  · rw [htokens.outputTokenIds]

theorem Request.Evolved.counted {q q' : Request} (h : Evolved q q')
    (hq : q.outputTokensEmitted = q.outputTokenIds.length) :
    q'.outputTokensEmitted = q'.outputTokenIds.length := by
  rcases h with rfl | ⟨-, hadvanced | ⟨htokens, -⟩⟩
  · exact hq
  · cases hadvanced with
    | failed _ htokens =>
        rw [htokens.outputTokenIds, htokens.outputTokensEmitted]
        exact hq
    | emitted tokenId _ _ _ htokens hcount =>
        rw [htokens, hcount, hq, List.length_append, List.length_singleton]
  · rw [htokens.outputTokenIds, htokens.outputTokensEmitted]
    exact hq

theorem Request.Evolved.eq_of_terminal {q q' : Request} (h : Evolved q q')
    (hterminal : q.state.isTerminal = true) : q' = q := by
  rcases h with h | ⟨hlive, -⟩
  · exact h
  · rw [hterminal] at hlive
    cases hlive

namespace FifoScheduler

variable {ω : Type}

theorem Partition.live_iff {s : FifoScheduler ω} (hs : s.Partition) (r : RequestPtr) :
    s.Live r ↔ r < s.requests.size ∧ (s.state r).isTerminal = false := by
  constructor
  · rintro (hr | hr)
    · refine ⟨hs.waiting_lt r hr, ?_⟩
      rw [hs.waiting_state r hr]
      rfl
    · refine ⟨hs.decoding_lt r hr, ?_⟩
      rw [hs.decoding_state r hr]
      rfl
  · intro h
    exact hs.live_of_not_terminal h.1 h.2

theorem Partition.mem_waiting {s : FifoScheduler ω} (hs : s.Partition) {r : RequestPtr}
    (hr : r < s.requests.size) (hstate : s.state r = .waitingPrefill) : r ∈ s.waiting := by
  rcases (hs.live_iff r).mpr ⟨hr, by rw [hstate]; rfl⟩ with hmem | hmem
  · exact hmem
  · rw [hs.decoding_state r hmem] at hstate
    cases hstate

theorem Partition.mem_decoding {s : FifoScheduler ω} (hs : s.Partition) {r : RequestPtr}
    (hr : r < s.requests.size) (hstate : s.state r = .decoding) : r ∈ s.decoding := by
  rcases (hs.live_iff r).mpr ⟨hr, by rw [hstate]; rfl⟩ with hmem | hmem
  · rw [hs.waiting_state r hmem] at hstate
    cases hstate
  · exact hmem

/-- One request of `t` was failed; the others did not change. -/
structure FailedOne (t : FifoScheduler ω) (r : RequestPtr) (t' : FifoScheduler ω) : Prop where
  size : t'.requests.size = t.requests.size
  others : ∀ p, p ≠ r → t'.request p = t.request p
  terms : (t.request r).SameTerms (t'.request r)
  tokens : (t.request r).SameTokens (t'.request r)
  failed : t'.state r = .failed

theorem failedOne_retired (t : FifoScheduler ω) (r : RequestPtr) {q : Request} (w : ω)
    (hterms : (t.request r).SameTerms q) (htokens : (t.request r).SameTokens q)
    (hstate : q.state = .failed) : FailedOne t r (t.retired r q w) where
  size := rfl
  others p hp := request_retired_of_ne t q w hp
  terms := by rw [request_retired_self]; exact hterms
  tokens := by rw [request_retired_self]; exact htokens
  failed := by rw [state, request_retired_self]; exact hstate

section Bodies

variable [Clock ω] [InferenceBackend ω] {s t t' : FifoScheduler ω} {r : RequestPtr}

theorem failWaiting_failedOne (ht : t.Partition) (hr : r ∈ t.waiting)
    (h : t.failWaiting r = .ok t') : FailedOne t r t' := by
  rw [failWaiting_of_waiting (ht.waiting_state r hr)] at h
  obtain ⟨w, -, hw⟩ := bind_eq_ok.mp h
  cases hw
  refine failedOne_retired t r w ?_ ?_ rfl
  · exact (Request.sameTerms_enter _ _ _).trans (Request.sameTerms_enter _ _ _)
  · exact (Request.sameTokens_enter _ _ _).trans (Request.sameTokens_enter _ _ _)

theorem failDecoding_failedOne (ht : t.Partition) (hr : r ∈ t.decoding)
    (h : t.failDecoding r = .ok t') : FailedOne t r t' := by
  rw [failDecoding_of_decoding (ht.decoding_state r hr)] at h
  obtain ⟨w, -, hw⟩ := bind_eq_ok.mp h
  cases hw
  exact failedOne_retired t r w (Request.sameTerms_enter _ _ _) (Request.sameTokens_enter _ _ _) rfl

/-! ### Expiry -/

/-- The expiry fails live requests and changes nothing else. -/
def Culled (q q' : Request) : Prop :=
  q' = q ∨ q.state.isTerminal = false ∧ q.SameTerms q' ∧ q.SameTokens q' ∧ q'.state = .failed

omit [Clock ω] [InferenceBackend ω] in
theorem culled_failedOne (h : ∀ p, Culled (s.request p) (t.request p))
    (hlive : (t.state r).isTerminal = false) (hfail : FailedOne t r t') (p : RequestPtr) :
    Culled (s.request p) (t'.request p) := by
  by_cases hp : p = r
  · subst hp
    rcases h p with heq | ⟨-, -, -, hfailed⟩
    · rw [← heq]
      exact .inr ⟨hlive, hfail.terms, hfail.tokens, hfail.failed⟩
    · rw [state, hfailed] at hlive
      cases hlive
  · rw [hfail.others p hp]
    exact h p

theorem expireDeadlines_culls (hs : s.Partition) :
    Ensures s.expireDeadlines (fun _ => True) (fun done => done.1.Partition ∧
      done.1.requests.size = s.requests.size ∧
        ∀ p, Culled (s.request p) (done.1.request p)) := by
  refine expireDeadlines_ensures hs (fun _ _ t => t.requests.size = s.requests.size ∧
    ∀ p, Culled (s.request p) (t.request p)) ⟨rfl, fun p => .inl rfl⟩ ?_ ?_
  · intro r rest t ht hr _ _ hinv
    refine (ensures_iff.mpr ⟨fun t' ht' => ?_, fun _ _ => trivial⟩)
    have hfail := failWaiting_failedOne ht hr ht'
    refine ⟨hfail.size.trans hinv.1, culled_failedOne hinv.2 ?_ hfail⟩
    rw [ht.waiting_state r hr]
    rfl
  · intro r rest t ht hr _ hinv
    refine (ensures_iff.mpr ⟨fun t' ht' => ?_, fun _ _ => trivial⟩)
    have hfail := failDecoding_failedOne ht hr ht'
    refine ⟨hfail.size.trans hinv.1, culled_failedOne hinv.2 ?_ hfail⟩
    rw [ht.decoding_state r hr]
    rfl

/-! ### Prefill -/

/-- A prefill decides the waiting requests and changes nothing else. -/
def Prefilled (q q' : Request) : Prop :=
  q' = q ∨ q.state = .waitingPrefill ∧ q.SameTerms q' ∧ q.SameTokens q' ∧
    (q'.state = .failed ∨ q'.state = .decoding)

theorem prefillOutcome_prefilled {report report' : TickReport}
    {outcome : Except BackendError PrefillOutcome} (ht : t.Partition) (hr : r ∈ t.waiting)
    (h : prefillOutcome (t, report) r outcome = .ok (t', report')) :
    t'.requests.size = t.requests.size ∧ (∀ p, p ≠ r → t'.request p = t.request p) ∧
      (t.request r).SameTerms (t'.request r) ∧ (t.request r).SameTokens (t'.request r) ∧
      (t'.state r = .failed ∨ t'.state r = .decoding) := by
  rcases prefillOutcome_cases (ht.waiting_state r hr) h with
    ⟨hfail, -⟩ | ⟨handle, t₁, t₂, t₃, w, rfl, -⟩
  · have hfailed := failWaiting_failedOne ht hr hfail
    exact ⟨hfailed.size, hfailed.others, hfailed.terms, hfailed.tokens, .inl hfailed.failed⟩
  · refine ⟨rfl, fun p hp => request_promoted_of_ne t _ _ _ hp, ?_, ?_, .inr ?_⟩
    · rw [request_promoted_self]
      exact ⟨rfl, rfl, rfl, rfl, rfl⟩
    · rw [request_promoted_self]
      exact ⟨rfl, rfl⟩
    · rw [state, request_promoted_self]
      rfl

variable [AlignedBackend ω]

theorem prefillPhase_prefills (hs : s.Partition) :
    Ensures s.prefillPhase (fun _ => True) (fun done => done.1.Partition ∧ done.1.waiting = [] ∧
      done.1.requests.size = s.requests.size ∧
        ∀ p, Prefilled (s.request p) (done.1.request p)) := by
  refine prefillPhase_ensures hs (fun _ _ t => t.1.requests.size = s.requests.size ∧
    ∀ p, Prefilled (s.request p) (t.1.request p)) ?_ ?_
  · exact ensures_iff.mpr ⟨fun _ _ => ⟨rfl, fun p => .inl rfl⟩, fun _ _ => trivial⟩
  · intro r rest outcome outcomes t report ht hwaiting hinv
    refine (ensures_iff.mpr ⟨fun t' ht' => ?_, fun _ _ => trivial⟩)
    have hr : r ∈ t.waiting := by rw [hwaiting]; exact List.mem_cons_self
    obtain ⟨hsize, hothers, hterms, htokens, hstate⟩ := prefillOutcome_prefilled ht hr ht'
    refine ⟨hsize.trans hinv.1, fun p => ?_⟩
    by_cases hp : p = r
    · subst hp
      -- still waiting, so this request has not been decided before
      have hsame : t.request p = s.request p := by
        rcases hinv.2 p with heq | ⟨-, -, -, hdecided⟩
        · exact heq
        · have hpending : (t.request p).state = .waitingPrefill := ht.waiting_state p hr
          rw [hpending] at hdecided
          rcases hdecided with h | h <;> cases h
      rw [hsame] at hterms htokens
      have hpending := ht.waiting_state p hr
      rw [state, hsame] at hpending
      exact .inr ⟨hpending, hterms, htokens, hstate⟩
    · rw [hothers p hp]
      exact hinv.2 p

/-! ### Decode -/

section Answers

variable {O : Type} {p r : RequestPtr}

/-- The answers that are for `p`. -/
def answersFor (p : RequestPtr) (answers : List (RequestPtr × O)) : List O :=
  (answers.filter fun answer => answer.1 = p).map fun answer => answer.2

theorem answersFor_zip_of_notMem {pending : List RequestPtr} (hp : p ∉ pending) (outcomes : List O) :
    answersFor p (pending.zip outcomes) = [] := by
  unfold answersFor
  rw [List.filter_eq_nil_iff.mpr, List.map_nil]
  intro answer hanswer heq
  exact hp (of_decide_eq_true heq ▸ (List.of_mem_zip hanswer).1)

theorem answersFor_zip_cons_of_ne (hp : p ≠ r) (outcome : O) (rest : List RequestPtr)
    (outcomes : List O) :
    answersFor p ((r :: rest).zip (outcome :: outcomes)) = answersFor p (rest.zip outcomes) := by
  unfold answersFor
  rw [List.zip_cons_cons, List.filter_cons_of_neg (by simpa using hp.symm)]

theorem answersFor_zip_cons_self {rest : List RequestPtr} (hr : r ∉ rest) (outcome : O)
    (outcomes : List O) : answersFor r ((r :: rest).zip (outcome :: outcomes)) = [outcome] := by
  have hrest := answersFor_zip_of_notMem hr outcomes
  unfold answersFor at hrest ⊢
  rw [List.zip_cons_cons, List.filter_cons_of_pos (by simp), List.map_cons, hrest]

end Answers

omit [AlignedBackend ω] in
theorem decodeOutcome_answered {report report' : TickReport}
    {outcome : Except BackendError DecodedToken} (ht : t.Partition) (hr : r ∈ t.decoding)
    (h : decodeOutcome (t, report) r outcome = .ok (t', report')) :
    t'.requests.size = t.requests.size ∧ (∀ p, p ≠ r → t'.request p = t.request p) ∧
      (t.request r).Answered outcome (t'.request r) := by
  have hdecoding := ht.decoding_state r hr
  cases outcome with
  | error e =>
      obtain ⟨next, hfail, h⟩ := bind_eq_ok.mp h
      cases h
      have hfailed := failDecoding_failedOne ht hr hfail
      exact ⟨hfailed.size, hfailed.others, .failed e hfailed.terms hfailed.tokens hfailed.failed⟩
  | ok token =>
      rw [decodeOutcome_ok_of_decoding hdecoding] at h
      split_ifs at h with hbudget hfinish
      · obtain ⟨w, -, h⟩ := bind_eq_ok.mp h
        cases h
        refine ⟨rfl, fun p hp => request_retired_of_ne t _ w hp, ?_⟩
        rw [request_retired_self]
        unfold tokenEmitted
        rw [request_store_self]
        refine .emitted token ⟨rfl, rfl, rfl, rfl, rfl⟩ (not_le.mp hbudget) rfl rfl ?_
        rw [if_pos hfinish]
        rfl
      · cases h
        refine ⟨rfl, fun p hp => request_store_of_ne t _ _ hp, ?_⟩
        unfold tokenEmitted
        rw [request_store_self]
        refine .emitted token ⟨rfl, rfl, rfl, rfl, rfl⟩ (not_le.mp hbudget) rfl rfl ?_
        rw [if_neg hfinish, Request.state_emitted, RequestLifecycle.state_firstToken]
        exact hdecoding

/-- What a decode call answers, beside the requests it was made for. -/
def decodeAnswers (s : FifoScheduler ω) :
    Except Panic (List (RequestPtr × Except BackendError DecodedToken)) := do
  let batch ← s.decoding.mapM s.decodeRequest
  let answer ← callBackend (InferenceBackend.decode (Clock.now s.world).2 ⟨batch⟩)
  .ok (s.decoding.zip answer.2.outcomes)

/-- The decode phase reads one outcome for each request of its batch and leaves the others alone. -/
theorem decodePhase_answers (hs : s.Partition) :
    Ensures s.decodePhase (fun _ => True) (fun done => done.1.Partition ∧
      done.1.waiting = s.waiting ∧ done.1.requests.size = s.requests.size ∧
        (∀ p, p ∉ s.decoding → done.1.request p = s.request p) ∧
        ∃ answers, s.decodeAnswers = .ok answers ∧
          (∀ p, p ∉ s.decoding → answersFor p answers = []) ∧
          ∀ p ∈ s.decoding, ∃ outcome, answersFor p answers = [outcome] ∧
            (s.request p).Answered outcome (done.1.request p)) := by
  refine (decodePhase_ensures hs (fun rest outcomes t => t.1.requests.size = s.requests.size ∧
    (∀ p ∈ rest, p ∈ s.decoding) ∧
    (∀ p, p ∉ s.decoding ∨ p ∈ rest → t.1.request p = s.request p) ∧
    ∃ answers, s.decodeAnswers = .ok answers ∧
      (∀ p, p ∉ s.decoding → answersFor p answers = []) ∧
      (∀ p ∈ rest, answersFor p answers = answersFor p (rest.zip outcomes)) ∧
      ∀ p ∈ s.decoding, p ∉ rest → ∃ outcome, answersFor p answers = [outcome] ∧
        (s.request p).Answered outcome (t.1.request p)) ?_ ?_).imp ?_
  · refine ensures_iff.mpr ⟨fun batch hbatch => ?_, fun _ _ => trivial⟩
    refine ensures_iff.mpr ⟨fun answer hanswer => ?_, fun _ _ => trivial⟩
    refine ⟨rfl, fun _ hp => hp, fun _ _ => rfl, s.decoding.zip answer.2.outcomes, ?_,
      fun p hp => answersFor_zip_of_notMem hp _, fun _ _ => rfl, fun p hp hrest => absurd hp hrest⟩
    unfold decodeAnswers
    rw [hbatch, ok_bind, callBackend_eq_ok.mpr hanswer]
    rfl
  · intro r rest outcome outcomes t report ht hr hrest _ _ hinv
    obtain ⟨hsize, hsub, hsame, answers, hanswers, hnone, hpending, hdone⟩ := hinv
    refine ensures_iff.mpr ⟨fun t' ht' => ?_, fun _ _ => trivial⟩
    obtain ⟨hsize', hothers, hanswered⟩ := decodeOutcome_answered ht hr ht'
    rw [hsame r (.inr List.mem_cons_self)] at hanswered
    refine ⟨hsize'.trans hsize, fun p hp => hsub p (List.mem_cons_of_mem r hp), ?_, answers, hanswers,
      hnone, ?_, ?_⟩
    · intro p hp
      have hne : p ≠ r := by
        rcases hp with hp | hp
        · exact fun h => hp (h ▸ hsub r List.mem_cons_self)
        · exact fun h => hrest (h ▸ hp)
      rw [hothers p hne]
      exact hsame p (hp.imp (fun h => h) (fun h => List.mem_cons_of_mem r h))
    · intro p hp
      have hne : p ≠ r := fun heq => hrest (heq ▸ hp)
      rw [hpending p (List.mem_cons_of_mem r hp)]
      exact answersFor_zip_cons_of_ne hne outcome rest outcomes
    · intro p hp hlater
      by_cases hpr : p = r
      · subst hpr
        refine ⟨outcome, ?_, hanswered⟩
        rw [hpending p List.mem_cons_self]
        exact answersFor_zip_cons_self hrest outcome outcomes
      · rw [hothers p hpr]
        refine hdone p hp (fun h => ?_)
        rcases List.mem_cons.mp h with h | h
        · exact hpr h
        · exact hlater h
  · intro done h
    obtain ⟨hpart, hwaiting, hsize, -, hsame, answers, hanswers, hnone, -, hdone⟩ := h
    exact ⟨hpart, hwaiting, hsize, fun p hp => hsame p (.inl hp), answers, hanswers, hnone,
      fun p hp => hdone p hp (List.not_mem_nil)⟩

theorem decodePhase_advances (hs : s.Partition) :
    Ensures s.decodePhase (fun _ => True) (fun done => done.1.Partition ∧
      done.1.waiting = s.waiting ∧ done.1.requests.size = s.requests.size ∧
        (∀ p, p ∉ s.decoding → done.1.request p = s.request p) ∧
        ∀ p ∈ s.decoding, (s.request p).Advanced (done.1.request p)) := by
  refine (decodePhase_answers hs).imp ?_
  rintro done ⟨hpart, hwaiting, hsize, hsame, answers, -, -, hanswered⟩
  refine ⟨hpart, hwaiting, hsize, hsame, fun p hp => ?_⟩
  obtain ⟨outcome, -, h⟩ := hanswered p hp
  exact h.advanced

/-! ### The tick -/

omit [Clock ω] [InferenceBackend ω] [AlignedBackend ω] in
/-- The first two phases of a tick, seen by one request: it is in the decode batch, it was terminal
before, or it has failed. -/
theorem before_decode {v w : FifoScheduler ω} (hw : w.Partition) (hempty : w.waiting = [])
    (hsize : w.requests.size = s.requests.size) (hculled : ∀ p, Culled (s.request p) (v.request p))
    (hprefilled : ∀ p, Prefilled (v.request p) (w.request p)) (p : RequestPtr)
    (hp : p < s.requests.size) :
    (p ∈ w.decoding ∧ (s.request p).state.isTerminal = false ∧
      (s.request p).SameTerms (w.request p) ∧ (s.request p).SameTokens (w.request p)) ∨
    (p ∉ w.decoding ∧ (s.request p).state.isTerminal = true ∧ w.request p = s.request p) ∨
    (p ∉ w.decoding ∧ (s.request p).state.isTerminal = false ∧
      (s.request p).SameTerms (w.request p) ∧ (s.request p).SameTokens (w.request p) ∧
      (w.request p).state = .failed) := by
  by_cases hdecoding : p ∈ w.decoding
  · -- decoding before the last phase: neither expired nor failed to prefill
    have hlive : (w.request p).state = .decoding := hw.decoding_state p hdecoding
    have hmid : (v.request p).SameTerms (w.request p) ∧ (v.request p).SameTokens (w.request p) ∧
        (v.request p).state.isTerminal = false := by
      rcases hprefilled p with heq | ⟨hwaiting, hterms, htokens, -⟩
      · rw [heq] at hlive ⊢
        exact ⟨.refl _, .refl _, by rw [hlive]; rfl⟩
      · exact ⟨hterms, htokens, by rw [hwaiting]; rfl⟩
    have hfirst : v.request p = s.request p := by
      rcases hculled p with heq | ⟨-, -, -, hfailed⟩
      · exact heq
      · have hterminal := hmid.2.2
        rw [hfailed] at hterminal
        cases hterminal
    rw [hfirst] at hmid
    exact .inl ⟨hdecoding, hmid.2.2, hmid.1, hmid.2.1⟩
  · have hterminal : (w.state p).isTerminal = true := by
      refine hw.rest_terminal p (hsize ▸ hp) ?_ hdecoding
      rw [hempty]
      exact List.not_mem_nil
    rcases hprefilled p with heq | ⟨hwaiting, hterms, htokens, hdecided⟩
    · rw [state, heq] at hterminal
      rw [heq]
      rcases hculled p with heq' | ⟨hlive, hterms, htokens, hfailed⟩
      · rw [heq'] at hterminal ⊢
        exact .inr (.inl ⟨hdecoding, hterminal, rfl⟩)
      · exact .inr (.inr ⟨hdecoding, hlive, hterms, htokens, hfailed⟩)
    · have hfirst : v.request p = s.request p := by
        rcases hculled p with heq | ⟨-, -, -, hfailed⟩
        · exact heq
        · rw [hfailed] at hwaiting
          cases hwaiting
      rw [hfirst] at hwaiting hterms htokens
      refine .inr (.inr ⟨hdecoding, by rw [hwaiting]; rfl, hterms, htokens, ?_⟩)
      rcases hdecided with h | h
      · exact h
      · rw [state, h] at hterminal
        cases hterminal

omit [Clock ω] [InferenceBackend ω] [AlignedBackend ω] in
/-- The three phases of a tick, seen by one request. -/
theorem ticked_of_phases {u v w : FifoScheduler ω} (hw : w.Partition)
    (hempty : w.waiting = []) (hsize : w.requests.size = s.requests.size)
    (hculled : ∀ p, Culled (s.request p) (v.request p))
    (hprefilled : ∀ p, Prefilled (v.request p) (w.request p))
    (hsame : ∀ p, p ∉ w.decoding → u.request p = w.request p)
    (hadvanced : ∀ p ∈ w.decoding, (w.request p).Advanced (u.request p)) (p : RequestPtr)
    (hp : p < s.requests.size) :
    (s.request p).Ticked (u.request p) := by
  rcases before_decode hw hempty hsize hculled hprefilled p hp with
    ⟨hdecoding, hlive, hterms, htokens⟩ | ⟨hout, hterminal, heq⟩ | ⟨hout, hlive, hterms, htokens, hfailed⟩
  · exact .advanced hlive ((hadvanced p hdecoding).of_same hterms htokens)
  · rw [hsame p hout, heq]
    exact .frozen hterminal
  · rw [hsame p hout]
    exact .advanced hlive (.failed hterms htokens hfailed)

/-- **One step per tick.** After a tick nothing is waiting, and every request the scheduler owned is
where one step of its own takes it. -/
theorem tick_evolves (hs : s.Partition) :
    Ensures s.tick (fun _ => True) (fun done => done.1.Partition ∧ done.1.waiting = [] ∧
      done.1.requests.size = s.requests.size ∧
        ∀ p < s.requests.size, (s.request p).Ticked (done.1.request p)) := by
  refine tick_ensures
    (fun a => a.1.Partition ∧ a.1.requests.size = s.requests.size ∧
      ∀ p, Culled (s.request p) (a.1.request p))
    (fun _ b => b.1.Partition ∧ b.1.waiting = [] ∧ b.1.requests.size = s.requests.size ∧
      ∃ a : FifoScheduler ω, (∀ p, Culled (s.request p) (a.request p)) ∧
        ∀ p, Prefilled (a.request p) (b.1.request p))
    (expireDeadlines_culls hs) ?_ ?_
  · intro a ha
    refine (prefillPhase_prefills ha.1).imp (fun b hb => ?_)
    exact ⟨hb.1, hb.2.1, hb.2.2.1.trans ha.2.1, a.1, ha.2.2, hb.2.2.2⟩
  · intro _ b hb
    obtain ⟨hpart, hempty, hsize, a, hculled, hprefilled⟩ := hb
    refine (decodePhase_advances hpart).imp (fun c hc => ?_)
    obtain ⟨hpart', hwaiting', hsize', hsame, hadvanced⟩ := hc
    refine ⟨hpart'.world _, hwaiting'.trans hempty, hsize'.trans hsize, ?_⟩
    exact ticked_of_phases hpart hempty hsize hculled hprefilled hsame hadvanced

end Bodies

/-! ### Cancel -/

section Cancel

variable [Clock ω] [InferenceBackend ω] {s t : FifoScheduler ω} {id : RequestId}

/-- A cancel of `id` enters `cancelled` for some live requests of that id and changes no other. -/
structure CancelledById (s : FifoScheduler ω) (id : RequestId) (t : FifoScheduler ω) : Prop where
  partition : t.Partition
  size : t.requests.size = s.requests.size
  request : ∀ p, t.request p = s.request p ∨
    (s.Live p ∧ s.requestId p = id ∧ ∃ τ, t.request p = (s.request p).enter .cancelled τ)

theorem CancelledById.requestId {ω : Type} {s t : FifoScheduler ω} {id : RequestId}
    (h : CancelledById s id t) (p : RequestPtr) : t.requestId p = s.requestId p := by
  unfold FifoScheduler.requestId
  rcases h.request p with heq | ⟨-, -, τ, heq⟩
  · rw [heq]
  · rw [heq]
    rfl

theorem CancelledById.evolved {ω : Type} {s t : FifoScheduler ω} {id : RequestId}
    (h : CancelledById s id t) (hs : s.Partition) (p : RequestPtr) :
    (s.request p).Evolved (t.request p) := by
  rcases h.request p with heq | ⟨hlive, -, τ, heq⟩
  · exact .inl heq
  · refine .inr ⟨((hs.live_iff p).mp hlive).2, .inr ⟨?_, ?_⟩⟩
    · rw [heq]
      exact Request.sameTokens_enter _ _ _
    · rw [heq]
      rfl

theorem CancelledById.live {ω : Type} {s t : FifoScheduler ω} {id : RequestId}
    (h : CancelledById s id t) (hs : s.Partition) {p : RequestPtr} (hp : t.Live p) : s.Live p := by
  rw [h.partition.live_iff, h.size] at hp
  rcases h.request p with heq | ⟨hlive, -⟩
  · rw [state, heq] at hp
    exact (hs.live_iff p).mpr hp
  · exact hlive

/-- A request that is still tracked after the cancel is untouched, and in the queue it was in. -/
theorem CancelledById.request_of_live {ω : Type} {s t : FifoScheduler ω} {id : RequestId}
    (h : CancelledById s id t) {p : RequestPtr} (hp : t.Live p) : t.request p = s.request p := by
  rcases h.request p with heq | ⟨-, -, τ, heq⟩
  · exact heq
  · have hlive := ((h.partition.live_iff p).mp hp).2
    rw [state, heq] at hlive
    cases hlive

theorem CancelledById.mem_waiting {ω : Type} {s t : FifoScheduler ω} {id : RequestId}
    (h : CancelledById s id t) (hs : s.Partition) {p : RequestPtr} (hp : p ∈ t.waiting) :
    p ∈ s.waiting := by
  have hstate := h.partition.waiting_state p hp
  rw [state, h.request_of_live (.inl hp)] at hstate
  exact hs.mem_waiting (h.size ▸ h.partition.waiting_lt p hp) hstate

theorem CancelledById.mem_decoding {ω : Type} {s t : FifoScheduler ω} {id : RequestId}
    (h : CancelledById s id t) (hs : s.Partition) {p : RequestPtr} (hp : p ∈ t.decoding) :
    p ∈ s.decoding := by
  have hstate := h.partition.decoding_state p hp
  rw [state, h.request_of_live (.inr hp)] at hstate
  exact hs.mem_decoding (h.size ▸ h.partition.decoding_lt p hp) hstate

/-- One of the two searches of `cancel`. -/
theorem cancelFirst_cancelled {queue : List RequestPtr} (hs : s.Partition)
    (hqueue : ∀ p ∈ queue, s.Live p) (h : s.cancelFirst queue id = .ok t) :
    CancelledById s id t ∧ ((∀ p ∈ queue, s.requestId p ≠ id) ∨
      ∃ p ∈ queue, s.requestId p = id ∧ (t.state p).isTerminal = true) := by
  unfold cancelFirst at h
  cases hfind : queue.find? (fun r => s.requestId r = id) with
  | none =>
      rw [hfind] at h
      cases h
      refine ⟨⟨hs, rfl, fun p => .inl rfl⟩, .inl (fun p hp hid => ?_)⟩
      simpa [hid] using List.find?_eq_none.mp hfind p hp
  | some r =>
      rw [hfind] at h
      have hr := List.mem_of_find?_eq_some hfind
      have hid : s.requestId r = id := by simpa using List.find?_some hfind
      have hqueues := cancelled_queues hs (hqueue r hr) h
      simp only at h
      rw [retire_of_valid (valid_cancelled hs (hqueue r hr))] at h
      obtain ⟨w, -, hw⟩ := bind_eq_ok.mp h
      cases hw
      refine ⟨⟨hqueues.1, rfl, fun p => ?_⟩, .inr ⟨r, hr, hid, ?_⟩⟩
      · by_cases hp : p = r
        · subst hp
          rw [request_retired_self]
          exact .inr ⟨hqueue p hr, hid, _, rfl⟩
        · exact .inl (request_retired_of_ne s _ w hp)
      · rw [state, request_retired_self]
        rfl

theorem cancel_cancelled (hs : s.Partition) (h : s.cancel id = .ok t) : CancelledById s id t := by
  obtain ⟨u, hu, h⟩ := bind_eq_ok.mp h
  have hfirst := (cancelFirst_cancelled hs (fun _ hp => .inl hp) hu).1
  have hsecond := (cancelFirst_cancelled hfirst.partition (fun _ hp => .inr hp) h).1
  refine ⟨hsecond.partition, hsecond.size.trans hfirst.size, fun p => ?_⟩
  rcases hsecond.request p with heq | ⟨hlive, hid, τ, heq⟩
  · rw [heq]
    exact hfirst.request p
  · have hsame : u.request p = s.request p := by
      rcases hfirst.request p with heq' | ⟨-, -, τ', heq'⟩
      · exact heq'
      · have hterminal := ((hfirst.partition.live_iff p).mp hlive).2
        rw [state, heq'] at hterminal
        cases hterminal
    rw [hsame] at heq
    exact .inr ⟨hfirst.live hs hlive, (hfirst.requestId p) ▸ hid, τ, heq⟩

/-- A cancel of an id that no live request has changes nothing. -/
theorem cancel_of_not_live (h : ∀ p, s.Live p → s.requestId p ≠ id) : s.cancel id = .ok s := by
  have hnone : ∀ queue : List RequestPtr, (∀ p ∈ queue, s.Live p) →
      s.cancelFirst queue id = .ok s := by
    intro queue hqueue
    unfold cancelFirst
    rw [List.find?_eq_none.mpr (fun p hp => by simpa using h p (hqueue p hp))]
  unfold cancel
  rw [hnone _ (fun _ hp => .inl hp), ok_bind]
  exact hnone _ (fun _ hp => .inr hp)

/-- If the id has one live request at most, it has none after the cancel. -/
theorem cancel_none_live (hs : s.Partition)
    (hunique : ∀ p r, s.Live p → s.Live r → s.requestId p = id → s.requestId r = id → p = r)
    (h : s.cancel id = .ok t) (p : RequestPtr) (hp : t.Live p) : t.requestId p ≠ id := by
  intro hid
  have hall := cancel_cancelled hs h
  obtain ⟨u, hu, h⟩ := bind_eq_ok.mp h
  obtain ⟨hfirst, hwaiting⟩ := cancelFirst_cancelled hs (fun _ hp => .inl hp) hu
  obtain ⟨hsecond, hdecoding⟩ :=
    cancelFirst_cancelled hfirst.partition (fun _ hp => .inr hp) h
  have hpu : u.Live p := hsecond.live hfirst.partition hp
  have hps : s.Live p := hfirst.live hs hpu
  have hidu : u.requestId p = id := (hsecond.requestId p) ▸ hid
  have hids : s.requestId p = id := (hfirst.requestId p) ▸ hidu
  -- whichever queue holds `p`, the search of that queue has found and retired it
  rcases hpu with hpw | hpd
  · have hmem : p ∈ s.waiting := by
      rcases hps with h | h
      · exact h
      · have hstate := hfirst.partition.waiting_state p hpw
        rcases hfirst.request p with heq | ⟨-, -, τ, heq⟩
        · rw [state, heq] at hstate
          rw [← state, hs.decoding_state p h] at hstate
          cases hstate
        · rw [state, heq] at hstate
          cases hstate
    rcases hwaiting with hnone | ⟨r, hr, hrid, hterminal⟩
    · exact hnone p hmem hids
    · have heq := hunique p r (.inl hmem) (.inl hr) hids hrid
      subst heq
      exact hfirst.partition.not_live_of_terminal hterminal (.inl hpw)
  · rcases hdecoding with hnone | ⟨r, hr, hrid, hterminal⟩
    · exact hnone p hpd hidu
    · have hrs : s.Live r := hfirst.live hs (.inr hr)
      have hridS : s.requestId r = id := (hfirst.requestId r) ▸ hrid
      have heq := hunique p r hps hrs hids hridS
      subst heq
      exact hall.partition.not_live_of_terminal hterminal hp

end Cancel

/-! ### Runs -/

section Runs

variable [Clock ω] [InferenceBackend ω] [AlignedBackend ω] [Environment ω] {s t : FifoScheduler ω}

/-- What an operation does to the requests the scheduler had before. -/
theorem apply_evolves (hs : s.Partition) (op : SchedulerOp ω) :
    Ensures (s.apply op) (fun _ => True) (fun t => t.Partition ∧
      s.requests.size ≤ t.requests.size ∧
        ∀ p < s.requests.size, (s.request p).Evolved (t.request p)) := by
  cases op with
  | submit id deadlineFromNow maxOutputTokens promptTokenIds priority =>
      rw [apply_submit]
      exact ⟨(hs.world _).admitted rfl _, Nat.le_succ _,
        fun p hp => .inl (request_admitted_of_lt s _ _ hp)⟩
  | cancel id =>
      refine ensures_iff.mpr ⟨fun t ht => ?_, fun _ _ => trivial⟩
      have hcancel := cancel_cancelled hs ht
      exact ⟨hcancel.partition, hcancel.size.ge, fun p _ => hcancel.evolved hs p⟩
  | tick =>
      refine (tick_evolves hs).bind (fun done h => ?_)
      obtain ⟨hpart, -, hsize, hticked⟩ := h
      exact ⟨hpart, hsize.ge, fun p hp => (hticked p hp).evolved⟩
  | event e =>
      refine ensures_iff.mpr ⟨fun t ht => ?_, fun _ _ => trivial⟩
      obtain ⟨w, -, hw⟩ := bind_eq_ok.mp ht
      cases hw
      exact ⟨hs.world w, le_rfl, fun p _ => .inl rfl⟩

/-- A request that is finished never changes again. -/
theorem run_frozen (hs : s.Partition) {p : RequestPtr} (hp : p < s.requests.size)
    (hterminal : (s.state p).isTerminal = true) {ops : List (SchedulerOp ω)}
    (hrun : run apply s ops = .ok t) : t.request p = s.request p := by
  have hstep : ∀ (u : FifoScheduler ω) (op : SchedulerOp ω),
      (u.Partition ∧ p < u.requests.size ∧ u.request p = s.request p) →
        Ensures (u.apply op) (fun _ => True) (fun v =>
          v.Partition ∧ p < v.requests.size ∧ v.request p = s.request p) := by
    rintro u op ⟨hu, hlt, heq⟩
    refine (apply_evolves hu op).imp (fun v hv => ?_)
    obtain ⟨hpart, hsize, hevolved⟩ := hv
    refine ⟨hpart, lt_of_lt_of_le hlt hsize, ?_⟩
    rw [(hevolved p hlt).eq_of_terminal (by rw [heq]; exact hterminal), heq]
  exact ((run_ensures hstep s ⟨hs, hp, rfl⟩ ops).ok hrun).2.2

end Runs

end FifoScheduler

end Tokamak
