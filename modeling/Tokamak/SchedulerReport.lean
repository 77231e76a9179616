import Tokamak.SchedulerEvolution

/-! What a tick reports is what happened. The scheduler's requests are tallied: how many are live,
failed and completed, and how many tokens were emitted in all. Every loop body of a tick moves one
request from one column to another and writes the same move into the report of its phase, so at the
end of the tick the columns differ by what the report says. -/

open Outcome

namespace Tokamak

/-- One for a request in the given state. -/
def Request.inState (state : RequestState) (q : Request) : Nat := if q.state = state then 1 else 0

theorem Request.inState_of_eq {state : RequestState} {q : Request} (h : q.state = state) :
    q.inState state = 1 := if_pos h

theorem Request.inState_of_ne {state : RequestState} {q : Request} (h : q.state ≠ state) :
    q.inState state = 0 := if_neg h

namespace FifoScheduler

variable {ω : Type}

def liveCount (s : FifoScheduler ω) : Nat := s.waitingCount + s.decodingCount

/-- The scheduler after `failed` requests failed, `completed` ones were completed and `tokens` tokens
were emitted. -/
structure Tallied (s t : FifoScheduler ω) (failed completed tokens : Nat) : Prop where
  live : t.liveCount + failed + completed = s.liveCount
  failed : t.requests.tally (Request.inState .failed) =
    s.requests.tally (Request.inState .failed) + failed
  completed : t.requests.tally (Request.inState .completed) =
    s.requests.tally (Request.inState .completed) + completed
  tokens : t.requests.tally Request.outputTokensEmitted =
    s.requests.tally Request.outputTokensEmitted + tokens

theorem Tallied.world (s : FifoScheduler ω) (w : ω) : Tallied s { s with world := w } 0 0 0 :=
  ⟨rfl, rfl, rfl, rfl⟩

theorem Tallied.trans {s t u : FifoScheduler ω} {f c n f' c' n' : Nat} (hst : Tallied s t f c n)
    (htu : Tallied t u f' c' n') : Tallied s u (f + f') (c + c') (n + n') where
  live := by
    have h := hst.live
    have h' := htu.live
    omega
  failed := by rw [htu.failed, hst.failed, Nat.add_assoc]
  completed := by rw [htu.completed, hst.completed, Nat.add_assoc]
  tokens := by rw [htu.tokens, hst.tokens, Nat.add_assoc]

/-- A step that rewrites the live request `r` and nothing else. -/
theorem tallied_of_others {s t : FifoScheduler ω} {r : RequestPtr} {f c n : Nat} (hs : s.Partition)
    (hr : s.Live r) (hsize : t.requests.size = s.requests.size)
    (hothers : ∀ p, p ≠ r → t.request p = s.request p)
    (hlive : t.liveCount + f + c = s.liveCount)
    (hfailed : (t.request r).inState .failed = f)
    (hcompleted : (t.request r).inState .completed = c)
    (htokens : (t.request r).outputTokensEmitted = (s.request r).outputTokensEmitted + n) :
    Tallied s t f c n := by
  obtain ⟨hlt, hrunning⟩ := (hs.live_iff r).mp hr
  have hno : ∀ state : RequestState, state.isTerminal = true → (s.request r).inState state = 0 := by
    intro state hterminal
    refine Request.inState_of_ne (fun heq => ?_)
    rw [FifoScheduler.state, heq, hterminal] at hrunning
    cases hrunning
  have hmove := Arena.tally_of_others hlt hsize hothers
  have hmoveFailed : t.requests.tally (Request.inState .failed) + (s.request r).inState .failed =
    s.requests.tally (Request.inState .failed) + (t.request r).inState .failed := hmove _
  have hmoveCompleted : t.requests.tally (Request.inState .completed) +
      (s.request r).inState .completed = s.requests.tally (Request.inState .completed) +
        (t.request r).inState .completed := hmove _
  have hmoveTokens : t.requests.tally Request.outputTokensEmitted +
      (s.request r).outputTokensEmitted = s.requests.tally Request.outputTokensEmitted +
        (t.request r).outputTokensEmitted := hmove _
  rw [hno .failed rfl, hfailed] at hmoveFailed
  rw [hno .completed rfl, hcompleted] at hmoveCompleted
  exact ⟨hlive, by omega, by omega, by omega⟩

section Bodies

variable [Clock ω] [InferenceBackend ω] {s t t' : FifoScheduler ω} {r : RequestPtr}

omit [Clock ω] [InferenceBackend ω] in
theorem FailedOne.tallied (h : FailedOne t r t') (ht : t.Partition) (hr : t.Live r)
    (hlive : t'.liveCount + 1 = t.liveCount) : Tallied t t' 1 0 0 := by
  have hstate : (t'.request r).state = .failed := h.failed
  refine tallied_of_others ht hr h.size h.others (by omega) (Request.inState_of_eq hstate) ?_
    h.tokens.outputTokensEmitted
  refine Request.inState_of_ne ?_
  rw [hstate]
  decide

theorem failWaiting_tallied (ht : t.Partition) (hr : r ∈ t.waiting)
    (h : t.failWaiting r = .ok t') : Tallied t t' 1 0 0 := by
  obtain ⟨-, hwaiting, hdecoding⟩ := failWaiting_queues ht hr h
  refine (failWaiting_failedOne ht hr h).tallied ht (.inl hr) ?_
  have hpos := List.length_pos_of_mem hr
  unfold liveCount waitingCount decodingCount
  rw [hwaiting, hdecoding, List.length_erase_of_mem hr]
  omega

theorem failDecoding_tallied (ht : t.Partition) (hr : r ∈ t.decoding)
    (h : t.failDecoding r = .ok t') : Tallied t t' 1 0 0 := by
  obtain ⟨-, hwaiting, hdecoding⟩ := failDecoding_queues ht hr h
  refine (failDecoding_failedOne ht hr h).tallied ht (.inr hr) ?_
  have hpos := List.length_pos_of_mem hr
  unfold liveCount waitingCount decodingCount
  rw [hwaiting, hdecoding, List.length_erase_of_mem hr]
  omega

/-- Either outcome of a prefill is counted once. -/
theorem prefillOutcome_tallied {rest : List RequestPtr} {report report' : TickReport}
    {outcome : Except BackendError PrefillOutcome} (ht : t.Partition) (hwaiting : t.waiting = r :: rest)
    (h : prefillOutcome (t, report) r outcome = .ok (t', report')) :
    (Tallied t t' 0 0 0 ∧ t'.decodingCount = t.decodingCount + 1 ∧
      report' = { report with prefillSucceeded := report.prefillSucceeded + 1 }) ∨
    (Tallied t t' 1 0 0 ∧ t'.decodingCount = t.decodingCount ∧
      report' = { report with prefillFailed := report.prefillFailed + 1 }) := by
  have hr : r ∈ t.waiting := by rw [hwaiting]; exact List.mem_cons_self
  have hrest := (prefillOutcome_queues ht hwaiting h).2
  obtain ⟨hsize, hothers, -, htokens, -⟩ := prefillOutcome_prefilled ht hr h
  rcases prefillOutcome_cases (ht.waiting_state r hr) h with
    ⟨hfail, rfl⟩ | ⟨handle, t₁, t₂, t₃, w, rfl, rfl⟩
  · refine .inr ⟨failWaiting_tallied ht hr hfail, ?_, rfl⟩
    unfold decodingCount
    rw [(failWaiting_queues ht hr hfail).2.2]
  · have hcount : (t.decoding ++ [r]).length = t.decodingCount + 1 := List.length_append
    refine .inl ⟨tallied_of_others ht (.inl hr) hsize hothers ?_ ?_ ?_
      htokens.outputTokensEmitted, hcount, rfl⟩
    · change _ + (t.decoding ++ [r]).length = _
      unfold liveCount waitingCount
      rw [hcount, hwaiting, hrest, List.length_cons]
      omega
    · rw [request_promoted_self]
      rfl
    · rw [request_promoted_self]
      rfl

/-- A decode step is a failure, a completion with a token, or a token. -/
theorem decodeOutcome_tallied {report report' : TickReport}
    {outcome : Except BackendError DecodedToken} (ht : t.Partition) (hr : r ∈ t.decoding)
    (h : decodeOutcome (t, report) r outcome = .ok (t', report')) :
    (Tallied t t' 1 0 0 ∧ report' = { report with decodeFailed := report.decodeFailed + 1 }) ∨
    (Tallied t t' 0 1 1 ∧ report' = { report with decodeCompleted := report.decodeCompleted + 1 }) ∨
    (Tallied t t' 0 0 1 ∧ report' = report) := by
  obtain ⟨hsize, hothers, -⟩ := decodeOutcome_answered ht hr h
  have hdecoding := ht.decoding_state r hr
  rcases decodeOutcome_cases hdecoding h with
    ⟨hfail, rfl⟩ | ⟨token, -, ⟨-, ⟨stop, w, rfl⟩, rfl⟩ | ⟨-, rfl, rfl⟩⟩
  · exact .inl ⟨failDecoding_tallied ht hr hfail, rfl⟩
  · refine .inr (.inl ⟨tallied_of_others ht (.inr hr) hsize hothers ?_ ?_ ?_ ?_, rfl⟩)
    · have hpos := List.length_pos_of_mem hr
      change (t.waiting.erase r).length + (t.decoding.erase r).length + 0 + 1 = _
      unfold liveCount waitingCount decodingCount
      rw [erase_of_decoding ht hr, List.length_erase_of_mem hr]
      omega
    · rw [request_retired_self]
      rfl
    · rw [request_retired_self]
      rfl
    · rw [request_retired_self]
      unfold tokenEmitted
      rw [request_store_self]
      rfl
  · have hstate : ((t.tokenEmitted r token.tokenId).request r).state = .decoding :=
      (state_tokenEmitted_self t r token.tokenId).trans hdecoding
    refine .inr (.inr ⟨tallied_of_others ht (.inr hr) hsize hothers rfl ?_ ?_ ?_, rfl⟩)
    · refine Request.inState_of_ne ?_
      rw [hstate]
      decide
    · refine Request.inState_of_ne ?_
      rw [hstate]
      decide
    · unfold tokenEmitted
      rw [request_store_self]
      rfl

end Bodies

/-! ### The phases -/

section Phases

variable [Clock ω] [InferenceBackend ω] {s : FifoScheduler ω}

theorem expireDeadlines_report {done : FifoScheduler ω × TickReport} (h : s.expireDeadlines = .ok done) :
    done.2.expiredCount = s.expiredWaiting.1.length + s.expiredDecoding.1.length := by
  obtain ⟨t, -, h⟩ := bind_eq_ok.mp h
  obtain ⟨u, -, h⟩ := bind_eq_ok.mp h
  cases h
  rfl

theorem expireDeadlines_tallied (hs : s.Partition) :
    Ensures s.expireDeadlines (fun _ => True) (fun done => done.1.Partition ∧
      Tallied s done.1 done.2.expiredCount 0 0) := by
  -- the expired requests that are not retired yet are those the loops still have to visit
  have hloops : Ensures s.expireDeadlines (fun _ => True) (fun done => done.1.Partition ∧
      ∃ n, Tallied s done.1 n 0 0 ∧ n + ([] : List RequestPtr).length + ([] : List RequestPtr).length =
        s.expiredWaiting.1.length + s.expiredDecoding.1.length) := by
    refine expireDeadlines_ensures hs (fun W D t => ∃ n, Tallied s t n 0 0 ∧
      n + W.length + D.length = s.expiredWaiting.1.length + s.expiredDecoding.1.length)
      ⟨0, Tallied.world s _, by omega⟩ ?_ ?_
    · rintro r rest t ht hr - - ⟨n, htallied, hn⟩
      refine ensures_iff.mpr ⟨fun t' ht' => ?_, fun _ _ => trivial⟩
      refine ⟨n + 1, htallied.trans (failWaiting_tallied ht hr ht'), ?_⟩
      rw [List.length_cons] at hn
      omega
    · rintro r rest t ht hr - ⟨n, htallied, hn⟩
      refine ensures_iff.mpr ⟨fun t' ht' => ?_, fun _ _ => trivial⟩
      refine ⟨n + 1, htallied.trans (failDecoding_tallied ht hr ht'), ?_⟩
      rw [List.length_cons] at hn
      omega
  refine (hloops.and_ok (fun done h => expireDeadlines_report h)).imp ?_
  rintro done ⟨⟨hpart, n, htallied, hn⟩, hreport⟩
  refine ⟨hpart, ?_⟩
  rw [hreport, ← hn]
  exact htallied

variable [AlignedBackend ω]

theorem prefillPhase_tallied (hs : s.Partition) :
    Ensures s.prefillPhase (fun _ => True) (fun done => done.1.Partition ∧
      Tallied s done.1 done.2.prefillFailed 0 0 ∧ done.2.prefillAttempted = s.waitingCount ∧
      done.2.prefillSucceeded + done.2.prefillFailed = s.waitingCount ∧
      done.1.decodingCount = s.decodingCount + done.2.prefillSucceeded) := by
  refine (prefillPhase_ensures hs (fun rest _ t => Tallied s t.1 t.2.prefillFailed 0 0 ∧
    t.2.prefillAttempted = s.waitingCount ∧
    t.2.prefillSucceeded + t.2.prefillFailed + rest.length = s.waitingCount ∧
    t.1.decodingCount = s.decodingCount + t.2.prefillSucceeded) ?_ ?_).imp ?_
  · exact ensures_iff.mpr ⟨fun answer _ => ⟨Tallied.world s _, rfl, Nat.zero_add _, rfl⟩,
      fun _ _ => trivial⟩
  · rintro r rest outcome outcomes t report ht hwaiting ⟨htallied, hattempted, hcount, hdecoding⟩
    refine ensures_iff.mpr ⟨fun t' ht' => ?_, fun _ _ => trivial⟩
    rw [List.length_cons] at hcount
    rcases prefillOutcome_tallied ht hwaiting ht' with ⟨hmove, hgrown, hreport⟩ |
      ⟨hmove, hgrown, hreport⟩
    · rw [hreport, hgrown, hdecoding]
      refine ⟨htallied.trans hmove, hattempted, ?_, Nat.add_assoc _ _ _⟩
      change report.prefillSucceeded + 1 + report.prefillFailed + rest.length = _
      simp only at hcount
      omega
    · rw [hreport, hgrown, hdecoding]
      refine ⟨htallied.trans hmove, hattempted, ?_, rfl⟩
      change report.prefillSucceeded + (report.prefillFailed + 1) + rest.length = _
      simp only at hcount
      omega
  · rintro done ⟨hpart, -, htallied, hattempted, hcount, hdecoding⟩
    exact ⟨hpart, htallied, hattempted, hcount, hdecoding⟩

theorem decodePhase_tallied (hs : s.Partition) :
    Ensures s.decodePhase (fun _ => True) (fun done => ∃ tokens,
      Tallied s done.1 done.2.decodeFailed done.2.decodeCompleted tokens ∧
      tokens + done.2.decodeFailed = s.decodingCount ∧
      done.2.decodeAttempted = s.decodingCount ∧ done.2.decodeTokens = s.decodingCount) := by
  refine (decodePhase_ensures hs (fun rest _ t => ∃ tokens,
    Tallied s t.1 t.2.decodeFailed t.2.decodeCompleted tokens ∧
    tokens + t.2.decodeFailed + rest.length = s.decodingCount ∧
    t.2.decodeAttempted = s.decodingCount ∧ t.2.decodeTokens = s.decodingCount) ?_ ?_).imp ?_
  · refine ensures_iff.mpr ⟨fun batch _ => ?_, fun _ _ => trivial⟩
    exact ensures_iff.mpr ⟨fun answer _ => ⟨0, Tallied.world s _, Nat.zero_add _, rfl, rfl⟩,
      fun _ _ => trivial⟩
  · rintro r rest outcome outcomes t report ht hr - - - ⟨n, htallied, hcount, hattempted, htokens⟩
    refine ensures_iff.mpr ⟨fun t' ht' => ?_, fun _ _ => trivial⟩
    rw [List.length_cons] at hcount
    simp only at hcount
    rcases decodeOutcome_tallied ht hr ht' with ⟨hmove, hreport⟩ | ⟨hmove, hreport⟩ | ⟨hmove, hreport⟩
    · rw [hreport]
      refine ⟨n, htallied.trans hmove, ?_, hattempted, htokens⟩
      change n + (report.decodeFailed + 1) + rest.length = _
      omega
    · rw [hreport]
      refine ⟨n + 1, htallied.trans hmove, ?_, hattempted, htokens⟩
      change n + 1 + report.decodeFailed + rest.length = _
      omega
    · rw [hreport]
      refine ⟨n + 1, htallied.trans hmove, ?_, hattempted, htokens⟩
      omega
  · rintro done ⟨-, -, hall⟩
    exact hall

end Phases

/-- The report of a tick that led from `s` to `t` adds up. -/
structure Conserves (s t : FifoScheduler ω) (report : TickReport) : Prop where
  prefill : report.prefillAttempted = report.prefillSucceeded + report.prefillFailed
  before : report.prefillAttempted + report.decodeAttempted + report.expiredCount =
    s.waitingCount + s.decodingCount + report.prefillSucceeded
  after : t.waitingCount + t.decodingCount + report.expiredCount + report.prefillFailed +
    report.decodeCompleted + report.decodeFailed = s.waitingCount + s.decodingCount
  decode : report.decodeTokens = report.decodeAttempted
  decodeFailed_le : report.decodeFailed ≤ report.decodeAttempted
  tokens : t.requests.tally Request.outputTokensEmitted + report.decodeFailed =
    s.requests.tally Request.outputTokensEmitted + report.decodeAttempted
  completed : t.requests.tally (Request.inState .completed) =
    s.requests.tally (Request.inState .completed) + report.decodeCompleted
  failed : t.requests.tally (Request.inState .failed) =
    s.requests.tally (Request.inState .failed) +
      (report.expiredCount + report.prefillFailed + report.decodeFailed)

theorem tick_conserves [Clock ω] [InferenceBackend ω] [AlignedBackend ω] {s : FifoScheduler ω}
    (hs : s.Partition) :
    Ensures s.tick (fun _ => True) (fun done => Conserves s done.1 done.2) := by
  refine tick_ensures
    (fun a => a.1.Partition ∧ Tallied s a.1 a.2.expiredCount 0 0)
    (fun a b => b.1.Partition ∧ Tallied s b.1 (a.expiredCount + b.2.prefillFailed) 0 0 ∧
      b.2.prefillAttempted = b.2.prefillSucceeded + b.2.prefillFailed ∧
      b.2.prefillAttempted + b.1.decodingCount + a.expiredCount =
        s.liveCount + b.2.prefillSucceeded)
    (expireDeadlines_tallied hs) ?_ ?_
  · rintro a ⟨hpart, hexpired⟩
    refine (prefillPhase_tallied hpart).imp ?_
    rintro b ⟨hpart', hprefill, hattempted, hcount, hdecoding⟩
    refine ⟨hpart', hexpired.trans hprefill, by omega, ?_⟩
    have hlive := hexpired.live
    unfold liveCount at hlive ⊢
    omega
  · rintro a b ⟨hpart, htallied, hprefill, hbefore⟩
    refine (decodePhase_tallied hpart).imp ?_
    rintro c ⟨n, hdecode, hcount, hattempted, htokens⟩
    have hall := htallied.trans hdecode
    have hlive := hall.live
    unfold liveCount at hlive hbefore
    refine ⟨hprefill, ?_, ?_, htokens.trans hattempted.symm, ?_, ?_, ?_, ?_⟩
    · change b.2.prefillAttempted + c.2.decodeAttempted + a.expiredCount = _
      rw [hattempted]
      exact hbefore
    · change c.1.waitingCount + c.1.decodingCount + a.expiredCount + b.2.prefillFailed +
        c.2.decodeCompleted + c.2.decodeFailed = _
      omega
    · change c.2.decodeFailed ≤ c.2.decodeAttempted
      omega
    · change c.1.requests.tally Request.outputTokensEmitted + c.2.decodeFailed =
        s.requests.tally Request.outputTokensEmitted + c.2.decodeAttempted
      rw [hall.tokens, hattempted]
      omega
    · change c.1.requests.tally (Request.inState .completed) =
        s.requests.tally (Request.inState .completed) + c.2.decodeCompleted
      rw [hall.completed, Nat.zero_add]
    · change c.1.requests.tally (Request.inState .failed) =
        s.requests.tally (Request.inState .failed) +
          (a.expiredCount + b.2.prefillFailed + c.2.decodeFailed)
      rw [hall.failed]

end FifoScheduler

end Tokamak
