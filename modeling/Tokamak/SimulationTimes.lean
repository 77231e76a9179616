import Tokamak.SimulationDeadlines
import Tokamak.SimulationReplay

/-! The times of a simulation. Every request that is prefilled is prefilled in the pass that submits
it, and follows the ticks from there on: one token per tick, until its budget is used up or it expires.
So its timestamps can be read off the reports. The states between waiting and decoding are all entered
at one time, after the prefill batch is done: the reported prefill time is zero, and the time the batch
took is counted as queueing. -/

open Outcome

namespace Tokamak

/-! ### One request -/

namespace Request

/-- The timestamps of a request that was submitted at `arrived`, whose prefill batch was done at
`prefilled`, and which emitted its first token at `first`. -/
structure Stamps (arrived prefilled first : TimePoint) (q : Request) : Prop where
  admittedAt : q.lifecycle.admittedAt = some arrived
  waitingPrefillAt : q.lifecycle.enteredAtState .waitingPrefill = some arrived
  prefillingAt : q.lifecycle.enteredAtState .prefilling = some prefilled
  waitingDecodeAt : q.lifecycle.enteredAtState .waitingDecode = some prefilled
  decodingAt : q.lifecycle.enteredAtState .decoding = some prefilled
  firstTokenAt : q.lifecycle.firstTokenAt = some first

namespace Stamps

variable {arrived prefilled first t : TimePoint} {q : Request}

/-- The end of a request leaves its earlier timestamps alone. -/
theorem enter (h : q.Stamps arrived prefilled first) {target : RequestState}
    (htarget : target.isTerminal = true) : (q.enter target t).Stamps arrived prefilled first := by
  have hne : ∀ state : RequestState, state.isTerminal = false → state ≠ target := by
    rintro state hstate rfl
    rw [htarget] at hstate
    cases hstate
  have hkeep : ∀ state : RequestState, state.isTerminal = false →
      (q.enter target t).lifecycle.enteredAtState state = q.lifecycle.enteredAtState state := by
    intro state hstate
    rw [lifecycle_enter, RequestLifecycle.enteredAtState_enter, if_neg (hne state hstate)]
  refine ⟨?_, ?_, ?_, ?_, ?_, h.firstTokenAt⟩
  · rw [lifecycle_enter, RequestLifecycle.admittedAt_enter, if_neg (hne .admitted rfl).symm]
    exact h.admittedAt
  · exact (hkeep _ rfl).trans h.waitingPrefillAt
  · exact (hkeep _ rfl).trans h.prefillingAt
  · exact (hkeep _ rfl).trans h.waitingDecodeAt
  · exact (hkeep _ rfl).trans h.decodingAt

/-- Only the first token stores a time. -/
theorem emit (h : q.Stamps arrived prefilled first) : (q.emit t).Stamps arrived prefilled first := by
  have hlifecycle : (q.emit t).lifecycle = q.lifecycle := by
    unfold Request.emit
    rw [h.firstTokenAt]
    rfl
  refine ⟨?_, ?_, ?_, ?_, ?_, ?_⟩
  · rw [hlifecycle]
    exact h.admittedAt
  · rw [hlifecycle]
    exact h.waitingPrefillAt
  · rw [hlifecycle]
    exact h.prefillingAt
  · rw [hlifecycle]
    exact h.waitingDecodeAt
  · rw [hlifecycle]
    exact h.decodingAt
  · rw [hlifecycle]
    exact h.firstTokenAt

/-- The first token of a request that was queued and prefilled. -/
theorem first_token (now prefilled t : TimePoint) (record : WorkloadRequest) :
    (((Simulation.queued now record).prefill prefilled).emit t).Stamps now prefilled t := by
  have hlifecycle : (((Simulation.queued now record).prefill prefilled).emit t).lifecycle =
      (((Simulation.queued now record).prefill prefilled).lifecycle).stampFirstToken t := rfl
  refine ⟨?_, ?_, ?_, ?_, ?_, ?_⟩ <;> rw [hlifecycle, prefill_of_waiting _ (by rfl)] <;>
    simp [Simulation.queued]

end Stamps

/-- Where a request stands that was prefilled in tick `k`: it has emitted one token in every tick from
then on, and if it is completed, it was completed by its last token. -/
inductive Stage (k : Nat) (reports : List TickReport) (q : Request) : Prop
  | failed (hstate : q.state = .failed)
  | decoding (hstate : q.state = .decoding) (hcount : k + q.outputTokensEmitted = reports.length)
      (hbudget : q.outputTokensEmitted < q.maxOutputTokens)
  | completed (hstate : q.state = .completed) (hcount : q.outputTokensEmitted = q.maxOutputTokens)
      (last : TickReport) (hlast : reports[k + q.maxOutputTokens - 1]? = some last)
      (hcompleted : q.lifecycle.completedAt = some last.timestamp)

/-- What a tick does to a request: it starts at `t`, its prefill batch is done at `t'` and its decode
batch at `t''`. -/
def ticked (t t' t'' : TimePoint) (q : Request) : Request := ((q.expire t).prefill t').decode t''

section Ticked

variable {k : Nat} {reports : List TickReport} {report : TickReport} {q : Request}
  {t t' t'' : TimePoint}

theorem ticked_of_terminal (h : q.state.isTerminal = true) : q.ticked t t' t'' = q := by
  have hne : ∀ state : RequestState, state.isTerminal = false → q.state ≠ state := by
    rintro state hstate heq
    rw [heq, hstate] at h
    cases h
  unfold ticked
  rw [expire_of_terminal _ h, prefill_of_not_waiting _ (hne _ rfl),
    decode_of_not_decoding _ (hne _ rfl)]

/-- A decoding request fails, or it emits a token, which may be its last. -/
theorem ticked_of_decoding (h : q.state = .decoding) :
    q.ticked t t' t'' = if q.deadlineAt < t then q.enter .failed t
      else if q.lastToken then (q.emit t'').enter .completed t'' else q.emit t'' := by
  unfold ticked
  split_ifs with hexpired hlast
  · rw [expire_of_decoding _ hexpired h, prefill_of_not_waiting _ (by simp),
      decode_of_not_decoding _ (by simp)]
  · rw [expire_of_not_expired _ hexpired, prefill_of_not_waiting _ (by simp [h]),
      decode_of_decoding _ h, if_pos hlast]
  · rw [expire_of_not_expired _ hexpired, prefill_of_not_waiting _ (by simp [h]),
      decode_of_decoding _ h, if_neg hlast]

/-- A token of a request with budget left, in the tick that ends at `t''`. -/
theorem Stage.of_token (hstate : q.state = .decoding)
    (hcount : k + q.outputTokensEmitted = reports.length)
    (hbudget : q.outputTokensEmitted < q.maxOutputTokens) (hreport : report.timestamp = t'') :
    Stage k (reports ++ [report])
      (if q.lastToken then (q.emit t'').enter .completed t'' else q.emit t'') := by
  split_ifs with hlast
  · have hmax : q.maxOutputTokens = q.outputTokensEmitted + 1 := by
      have hle := of_decide_eq_true hlast
      omega
    refine .completed rfl hmax.symm report ?_ ?_
    · rw [show ((q.emit t'').enter .completed t'').maxOutputTokens = q.maxOutputTokens from rfl, hmax,
        show k + (q.outputTokensEmitted + 1) - 1 = reports.length by omega]
      simp
    · rw [hreport]
      rfl
  · have hmore : q.outputTokensEmitted + 1 < q.maxOutputTokens := by
      by_contra hle
      exact hlast (decide_eq_true (not_lt.mp hle))
    refine .decoding ((state_emit _ q).trans hstate) ?_ hmore
    change k + (q.outputTokensEmitted + 1) = (reports ++ [report]).length
    rw [List.length_append, List.length_singleton]
    omega

/-- The next tick. -/
theorem Stage.ticked (h : Stage k reports q) (hreport : report.timestamp = t'') :
    Stage k (reports ++ [report]) (q.ticked t t' t'') := by
  cases h with
  | failed hstate =>
      rw [ticked_of_terminal (by rw [hstate]; rfl)]
      exact .failed hstate
  | decoding hstate hcount hbudget =>
      rw [ticked_of_decoding hstate]
      split_ifs with hexpired hlast
      · exact .failed rfl
      · have htoken := Stage.of_token hstate hcount hbudget hreport
        rw [if_pos hlast] at htoken
        exact htoken
      · have htoken := Stage.of_token hstate hcount hbudget hreport
        rw [if_neg hlast] at htoken
        exact htoken
  | completed hstate hcount last hlast hcompleted =>
      rw [ticked_of_terminal (by rw [hstate]; rfl)]
      refine .completed hstate hcount last ?_ hcompleted
      exact getElem?_mono (List.prefix_append _ _) hlast

theorem Stamps.ticked {arrived prefilled first : TimePoint} (h : q.Stamps arrived prefilled first)
    (hstage : Stage k reports q) : (q.ticked t t' t'').Stamps arrived prefilled first := by
  cases hstage with
  | failed hstate =>
      rw [ticked_of_terminal (by rw [hstate]; rfl)]
      exact h
  | completed hstate =>
      rw [ticked_of_terminal (by rw [hstate]; rfl)]
      exact h
  | decoding hstate =>
      rw [ticked_of_decoding hstate]
      split_ifs
      · exact h.enter rfl
      · exact h.emit.enter rfl
      · exact h.emit

end Ticked

/-- A request that was submitted at `arrived` and prefilled in tick `k`, whose batch was done at
`prefilled`, and the reports so far. -/
structure Follows (arrived prefilled : TimePoint) (k : Nat) (reports : List TickReport)
    (q : Request) : Prop where
  stamps : ∃ report, reports[k]? = some report ∧ q.Stamps arrived prefilled report.timestamp
  stage : Stage k reports q

theorem Follows.ticked {arrived prefilled t t' t'' : TimePoint} {k : Nat} {reports : List TickReport}
    {report : TickReport} {q : Request} (h : q.Follows arrived prefilled k reports)
    (hreport : report.timestamp = t'') :
    (q.ticked t t' t'').Follows arrived prefilled k (reports ++ [report]) := by
  obtain ⟨first, hfirst, hstamps⟩ := h.stamps
  refine ⟨⟨first, ?_, hstamps.ticked h.stage⟩, h.stage.ticked hreport⟩
  exact getElem?_mono (List.prefix_append _ _) hfirst

/-- The tick that prefills a request, with budget left, also emits its first token. -/
theorem follows_of_queued {now t' t'' : TimePoint} {reports : List TickReport} {report : TickReport}
    {record : WorkloadRequest} (hlasting : ¬(Simulation.queued now record).deadlineAt < now)
    (hbudget : 0 < record.maxTokens) (hreport : report.timestamp = t'') :
    ((Simulation.queued now record).ticked now t' t'').Follows now t' reports.length
      (reports ++ [report]) := by
  have hstart : ((Simulation.queued now record).prefill t').state = .decoding := by
    rw [prefill_of_waiting _ (by rfl)]
    rfl
  have hticked : (Simulation.queued now record).ticked now t' t'' =
      if ((Simulation.queued now record).prefill t').lastToken then
        (((Simulation.queued now record).prefill t').emit t'').enter .completed t''
      else ((Simulation.queued now record).prefill t').emit t'' := by
    unfold Request.ticked
    rw [expire_of_not_expired _ hlasting, decode_of_decoding _ hstart]
  have hstamps := Stamps.first_token now t' t'' record
  rw [hticked]
  refine ⟨⟨report, by simp, ?_⟩, Stage.of_token hstart rfl hbudget hreport⟩
  rw [hreport]
  split_ifs
  · exact hstamps.enter rfl
  · exact hstamps

end Request

/-! ### The replay -/

namespace Replay

variable {r v : Replay}

theorem pass_cases (h : r.pass = .ok v) :
    (r.submit.busy = true ∧ r.submit.funded = true ∧ v = r.submit.ticked) ∨
      (r.submit.busy = false ∧ v.requests = r.submit.requests ∧ v.reports = r.reports) := by
  unfold pass at h
  by_cases hbusy : r.submit.busy = true
  · rw [if_pos hbusy] at h
    unfold tick at h
    split_ifs at h with hfunded
    cases h
    exact .inl ⟨hbusy, hfunded, rfl⟩
  · rw [if_neg hbusy] at h
    refine .inr ⟨Bool.eq_false_iff.mpr hbusy, ?_⟩
    cases hremaining : r.submit.remaining with
    | nil =>
        rw [hremaining] at h
        cases h
        exact ⟨rfl, rfl⟩
    | cons next rest =>
        rw [hremaining] at h
        cases h
        exact ⟨rfl, rfl⟩

/-- No request is waiting, as at the end of a tick. -/
def Settled (r : Replay) : Prop := ∀ q ∈ r.requests, q.state ≠ .waitingPrefill

theorem settled_ticked (r : Replay) : r.ticked.Settled := by
  intro q hq
  obtain ⟨q', hq', rfl⟩ := List.mem_map.mp hq
  obtain ⟨q'', -, rfl⟩ := List.mem_map.mp hq'
  have hprefilled : (q''.prefill r.prefilledAt).state ≠ .waitingPrefill := by
    by_cases hstate : q''.state = .waitingPrefill
    · rw [Request.prefill_of_waiting _ hstate]
      simp
    · rw [Request.prefill_of_not_waiting _ hstate]
      exact hstate
  by_cases hstate : (q''.prefill r.prefilledAt).state = .decoding
  · rw [Request.decode_of_decoding _ hstate]
    split_ifs
    · simp
    · rw [Request.state_emit]
      exact hprefilled
  · rw [Request.decode_of_not_decoding _ hstate]
    exact hprefilled

theorem Settled.pass (h : r.pass = .ok v) : v.Settled := by
  rcases pass_cases h with ⟨-, -, rfl⟩ | ⟨hidle, hrequests, -⟩
  · exact settled_ticked _
  · intro q hq hstate
    rw [hrequests] at hq
    have hmem : q ∈ requestsIn .waitingPrefill r.submit.requests :=
      List.mem_filter.mpr ⟨hq, decide_eq_true hstate⟩
    have hbusy : r.submit.busy = true := by
      simp [busy, List.length_pos_of_mem hmem]
    rw [hidle] at hbusy
    cases hbusy

theorem Settled.visits {s : Replay} (hs : s.Settled) (h : Visits continues Replay.pass s r) :
    r.Settled := h.inv hs (fun _ _ _ _ hpass => Settled.pass hpass)

/-- What the prefill batch of a pass consists of: the records it submits whose deadlines have not
passed already. -/
theorem Settled.mem_batch (hr : r.Settled) {q : Request} :
    q ∈ requestsIn .waitingPrefill r.submit.culled ↔
      ∃ record ∈ r.remaining, record.arrivalMs ≤ elapsedMs r.now ∧
        0 ≤ durationCast record.deadlineMs ∧ q = Simulation.queued r.now record := by
  have hqueued : ∀ record, ¬(Simulation.queued r.now record).deadlineAt < r.now ↔
      0 ≤ durationCast record.deadlineMs := by
    intro record
    change ¬(r.now + durationCast record.deadlineMs < r.now) ↔ _
    rw [not_lt]
    exact ⟨fun h => by linarith, fun h => by linarith⟩
  unfold requestsIn
  rw [List.mem_filter, decide_eq_true_iff]
  constructor
  · rintro ⟨hmem, hstate⟩
    obtain ⟨q', hq', rfl⟩ := List.mem_map.mp hmem
    rcases List.mem_append.mp hq' with hold | hnew
    · -- an old request is not waiting, and the expiry does not make it wait
      exfalso
      have hsettled := hr q' hold
      by_cases hexpired : q'.deadlineAt < r.now
      · unfold Request.expire at hstate
        rw [show r.submit.now = r.now from rfl, if_pos hexpired] at hstate
        split at hstate
        · simp at hstate
        · simp at hstate
        · exact hsettled hstate
      · rw [show r.submit.now = r.now from rfl, Request.expire_of_not_expired _ hexpired] at hstate
        exact hsettled hstate
    · obtain ⟨record, hrecord, rfl⟩ := List.mem_map.mp hnew
      obtain ⟨hmem', harrived⟩ := List.mem_filter.mp hrecord
      rw [show r.submit.now = r.now from rfl] at hstate ⊢
      by_cases hexpired : (Simulation.queued r.now record).deadlineAt < r.now
      · rw [Request.expire_of_waiting _ hexpired rfl] at hstate
        simp at hstate
      · rw [Request.expire_of_not_expired _ hexpired]
        exact ⟨record, hmem', of_decide_eq_true harrived, (hqueued record).mp hexpired, rfl⟩
  · rintro ⟨record, hmem, harrived, hdeadline, rfl⟩
    have hexpired := (hqueued record).mpr hdeadline
    refine ⟨List.mem_map.mpr ⟨Simulation.queued r.now record, ?_, ?_⟩, rfl⟩
    · refine List.mem_append_right _ (List.mem_map.mpr ⟨record, ?_, rfl⟩)
      exact List.mem_filter.mpr ⟨hmem, decide_eq_true harrived⟩
    · exact Request.expire_of_not_expired _ hexpired

/-- A prefill batch without tokens. -/
theorem Settled.prefillTokens_eq_zero (hr : r.Settled) : r.submit.prefillTokens = 0 ↔
    ∀ record ∈ r.remaining, record.arrivalMs ≤ elapsedMs r.now →
      0 ≤ durationCast record.deadlineMs → record.promptTokenIds = [] := by
  unfold prefillTokens
  rw [List.sum_eq_zero_iff]
  constructor
  · intro h record hmem harrived hdeadline
    have hbatch := hr.mem_batch.mpr ⟨record, hmem, harrived, hdeadline, rfl⟩
    exact List.length_eq_zero_iff.mp (h _ (List.mem_map.mpr ⟨_, hbatch, rfl⟩))
  · intro h n hn
    obtain ⟨q, hq, rfl⟩ := List.mem_map.mp hn
    obtain ⟨record, hmem, harrived, hdeadline, rfl⟩ := hr.mem_batch.mp hq
    exact List.length_eq_zero_iff.mpr (h record hmem harrived hdeadline)

/-- The request `i` follows the ticks. -/
def Follows (r : Replay) (i : Nat) (arrived prefilled : TimePoint) (k : Nat) : Prop :=
  ∃ q, r.requests[i]? = some q ∧ q.Follows arrived prefilled k r.reports

theorem getElem?_ticked {i : Nat} {q : Request} (h : r.requests[i]? = some q) :
    r.ticked.requests[i]? = some (q.ticked r.now r.prefilledAt r.stop) := by
  unfold ticked prefilled culled
  rw [List.getElem?_map, List.getElem?_map, List.getElem?_map, h]
  rfl

theorem getElem?_submit {i : Nat} {q : Request} (h : r.requests[i]? = some q) :
    r.submit.requests[i]? = some q := by
  unfold submit
  exact getElem?_mono (List.prefix_append _ _) h

theorem Follows.pass {i k : Nat} {arrived prefilled : TimePoint}
    (hfollows : r.Follows i arrived prefilled k) (h : r.pass = .ok v) :
    v.Follows i arrived prefilled k := by
  obtain ⟨q, hq, hfollows⟩ := hfollows
  rcases pass_cases h with ⟨-, -, rfl⟩ | ⟨-, hrequests, hreports⟩
  · exact ⟨_, getElem?_ticked (getElem?_submit hq), hfollows.ticked rfl⟩
  · refine ⟨q, ?_, ?_⟩
    · rw [hrequests]
      exact getElem?_submit hq
    · rw [hreports]
      exact hfollows

theorem Follows.visits {i k : Nat} {arrived prefilled : TimePoint} {s : Replay}
    (hs : s.Follows i arrived prefilled k) (h : Visits continues Replay.pass s r) :
    r.Follows i arrived prefilled k := by
  let kept : Replay → Prop := fun u => u.Follows i arrived prefilled k
  have hall : kept r := h.inv hs (fun u v (hu : u.Follows i arrived prefilled k) _ hpass =>
    hu.pass hpass)
  exact hall

/-- A request of the prefill batch follows the ticks from here on. -/
theorem Settled.follows (hr : r.Settled) (hfunded : r.submit.funded = true) {i : Nat} {q : Request}
    (hq : r.submit.culled[i]? = some q) (hstate : q.state = .waitingPrefill) :
    r.submit.ticked.Follows i r.now r.submit.prefilledAt r.reports.length := by
  have hmem : q ∈ requestsIn .waitingPrefill r.submit.culled :=
    List.mem_filter.mpr ⟨List.mem_of_getElem? hq, decide_eq_true hstate⟩
  obtain ⟨record, -, -, hdeadline, rfl⟩ := hr.mem_batch.mp hmem
  have hlasting : ¬(Simulation.queued r.now record).deadlineAt < r.now := by
    change ¬(r.now + durationCast record.deadlineMs < r.now)
    rw [not_lt]
    linarith
  have hprefilled : r.submit.prefilled[i]? =
      some ((Simulation.queued r.now record).prefill r.submit.prefilledAt) := by
    unfold prefilled
    rw [List.getElem?_map, hq]
    rfl
  have hbudget : 0 < record.maxTokens := by
    have hdecoding : (Simulation.queued r.now record).prefill r.submit.prefilledAt ∈
        requestsIn .decoding r.submit.prefilled := by
      refine List.mem_filter.mpr ⟨List.mem_of_getElem? hprefilled, ?_⟩
      rw [Request.prefill_of_waiting _ rfl]
      rfl
    exact of_decide_eq_true (List.all_eq_true.mp hfunded _ hdecoding)
  refine ⟨(Simulation.queued r.now record).ticked r.now r.submit.prefilledAt r.submit.stop, ?_,
    Request.follows_of_queued hlasting hbudget rfl⟩
  unfold ticked
  rw [List.getElem?_map, hprefilled]
  unfold Request.ticked
  rw [Request.expire_of_not_expired _ hlasting]
  rfl

end Replay

/-! ### The simulation -/

namespace FifoScheduler

/-- A backend that accepts the whole batch. -/
theorem granted_of_accepted {queue : List RequestPtr}
    {outcomes : List (Except BackendError PrefillOutcome)} (hlength : outcomes.length = queue.length)
    (haccepted : ∀ outcome ∈ outcomes, ∃ out, outcome = .ok out) : granted queue outcomes = queue := by
  induction queue generalizing outcomes with
  | nil => rfl
  | cons r rest ih =>
      cases outcomes with
      | nil => cases hlength
      | cons outcome outcomes =>
          obtain ⟨out, rfl⟩ := haccepted outcome List.mem_cons_self
          rw [granted, ih (Nat.succ.inj hlength)
            (fun o ho => haccepted o (List.mem_cons_of_mem _ ho))]

end FifoScheduler

namespace Simulation

variable {workload : Workload} {s t m : Simulation} {a : FifoScheduler MockBackend}
  {answer : MockBackend × PrefillResult}

/-- The tick of the pass that starts in `s` calls the backend's `prefill` in `a` and is given `answer`. -/
def PrefillCall (s : Simulation) (a : FifoScheduler MockBackend)
    (answer : MockBackend × PrefillResult) : Prop :=
  ∃ m report, s.Ticks m ∧ m.scheduler.expireDeadlines = .ok (a, report) ∧
    a.prefillAnswer = .ok answer

theorem Ticks.queued (h : s.Ticks m) (hs : s.Sound workload)
    (hq : s.scheduler.world.Quiet 1000000 5000000) :
    m.scheduler.Undisturbed 1000000 5000000 ∧ m.replay = s.replay.submit ∧
      s.replay.submit.busy = true := by
  obtain ⟨batch, m', hm', hqueued, hsound, hquiet⟩ := submitArrived_queued
    (fun u => u.Sound workload ∧ u.scheduler.world.Quiet 1000000 5000000)
    (fun u record rest hu hremaining => ⟨hu.1.enqueue hremaining, hu.2⟩) ⟨hs, hq⟩
  rw [h.1] at hm'
  cases hm'
  have hreplay := hs.replay_queued hqueued
  refine ⟨hsound.undisturbed hquiet, hreplay, ?_⟩
  rw [← hreplay, replay_busy hsound.partition]
  exact h.2

/-- A pass that ticks is made. -/
theorem Ticks.continues (h : s.Ticks m) : s.continues = true := by
  by_contra hexit
  have hboth : s.remaining = [] ∧ s.busy = false := by
    simpa [Simulation.continues] using hexit
  obtain ⟨hsubmit, hbusy⟩ := h
  rw [hboth.1] at hsubmit
  cases hsubmit
  rw [hboth.2] at hbusy
  cases hbusy

/-- In a simulation that returns, the pass is a tick of the replay, and the rest of the run is one. -/
theorem Ticks.replayed (h : s.Ticks m) (hvisits : workload.Visits s)
    (hreturns : Outcome.Returns Simulation.continues Simulation.pass s t) :
    s.replay.submit.funded = true ∧
      Outcome.Visits Replay.continues Replay.pass s.replay.submit.ticked t.replay := by
  obtain ⟨s', hpass, hrest⟩ := hreturns.pass h.continues
  have hbusy := (h.queued hvisits.sound hvisits.quiet).2.2
  have hreplay := (pass_replays hvisits.sound hvisits.quiet h.continues hpass).2
  rcases Replay.pass_cases hreplay with ⟨-, hfunded, hticked⟩ | ⟨hidle, -⟩
  · refine ⟨hfunded, ?_⟩
    rw [← hticked]
    exact Workload.Visits.replay_from (hvisits.pass h.continues hpass) hrest.visits.1
  · rw [hbusy] at hidle
    cases hidle

/-- In a simulation that returns, the tick makes its prefill call. -/
theorem Ticks.exists_call (h : s.Ticks m)
    (hreturns : Outcome.Returns Simulation.continues Simulation.pass s t) :
    ∃ a answer, s.PrefillCall a answer := by
  obtain ⟨s', hpass, -⟩ := hreturns.pass h.continues
  unfold Simulation.pass at hpass
  rw [h.1, ok_bind, if_pos h.2] at hpass
  obtain ⟨done, htick, -⟩ := bind_eq_ok.mp hpass
  obtain ⟨⟨a, report⟩, hexpire, htick⟩ := bind_eq_ok.mp htick
  obtain ⟨b, hprefill, -⟩ := bind_eq_ok.mp htick
  obtain ⟨answer, hanswer⟩ := FifoScheduler.prefillPhase_answered hprefill
  exact ⟨a, answer, m, report, h, hexpire, hanswer⟩

/-- The prefill call, seen from the replay: the batch, its start and its end. -/
structure PrefillCall.Spec (s : Simulation) (a : FifoScheduler MockBackend)
    (answer : MockBackend × PrefillResult) : Prop where
  start : a.clockNow = s.now
  stop : answer.1.clock.current = s.replay.submit.prefilledAt
  tokens : (a.waiting.map fun p => (a.request p).promptTokenIds.length).sum =
    s.replay.submit.prefillTokens
  granted : FifoScheduler.granted a.waiting answer.2.outcomes = a.waiting
  waiting : ∀ i, i ∈ a.waiting ↔
    ∃ q, s.replay.submit.culled[i]? = some q ∧ q.state = .waitingPrefill

theorem PrefillCall.spec (h : s.PrefillCall a answer) (hs : s.Sound workload)
    (hq : s.scheduler.world.Quiet 1000000 5000000) : PrefillCall.Spec s a answer := by
  obtain ⟨m, report, hticks, hexpire, hanswer⟩ := h
  obtain ⟨hundisturbed, hreplay, -⟩ := hticks.queued hs hq
  have hexpired : Expired m a := ((expireDeadlines_replays hundisturbed).ok hexpire).1
  have hnow : m.now = s.now := congrArg Replay.now hreplay
  have hquiet := hexpired.undisturbed.quiet
  obtain ⟨hprefilled, -, haccepted⟩ :
      MockBackend.Prefilled a.world (a.prefillBatch a.waiting).sequences answer.1 answer.2.outcomes ∧
      answer.1.Quiet 1000000 5000000 ∧
      ∀ outcome ∈ answer.2.outcomes, ∃ out, outcome = .ok out := by
    have hcall : Ensures a.prefillAnswer (fun _ => True) _ :=
      hquiet.prefill hexpired.undisturbed.handles.fresh (by norm_num) _
    exact hcall.ok hanswer
  have htokens : (a.waiting.map fun p => (a.request p).promptTokenIds.length).sum =
      s.replay.submit.prefillTokens := by
    rw [← hreplay]
    exact hexpired.prefillTokens
  refine ⟨hexpired.clockNow.trans hnow, ?_, htokens, ?_, ?_⟩
  · have hbatch : MockBackend.promptTokens (a.prefillBatch a.waiting).sequences =
        s.replay.submit.prefillTokens := by
      rw [← htokens]
      simp [MockBackend.promptTokens, FifoScheduler.prefillBatch, Function.comp_def]
    rw [hprefilled.clock, hquiet.prefillCost, hbatch]
    change a.clockNow + _ = s.now + _
    rw [hexpired.clockNow, hnow]
  · refine FifoScheduler.granted_of_accepted ?_ haccepted
    have hlength := AlignedBackend.prefill_length _ _ _ answer.2 hanswer
    rw [hlength]
    simp [FifoScheduler.prefillBatch]
  · intro i
    have hpart := hexpired.undisturbed.partition
    rw [← hreplay, ← hexpired.outlines]
    constructor
    · intro hi
      refine ⟨(a.request i).outline, ?_, hpart.waiting_state i hi⟩
      unfold FifoScheduler.outlines
      rw [List.getElem?_map, List.getElem?_range (hpart.waiting_lt i hi)]
      rfl
    · rintro ⟨q, hget, hstate⟩
      unfold FifoScheduler.outlines at hget
      rw [List.getElem?_map] at hget
      obtain ⟨j, hj, rfl⟩ := Option.map_eq_some_iff.mp hget
      have hlt := (List.getElem?_eq_some_iff.mp hj).1
      rw [List.length_range] at hlt
      rw [List.getElem?_range hlt] at hj
      cases hj
      exact hpart.mem_waiting hlt hstate

theorem settled_of_visits (h : workload.Visits s) : s.replay.Settled := by
  have hstart : (Replay.start workload).Settled := fun q hq => by cases hq
  exact hstart.visits (Workload.Visits.replay_from .start h)

/-- The summary of a request of the prefill batch, at the end of the simulation. -/
theorem PrefillCall.summary (h : s.PrefillCall a answer) (hvisits : workload.Visits s)
    (hreturns : Outcome.Returns Simulation.continues Simulation.pass s t) {i : RequestPtr}
    (hi : i ∈ FifoScheduler.granted a.waiting answer.2.outcomes) :
    ∃ q : Request, t.result.requests[i]? = some q.summary ∧
      q.Follows s.now s.replay.submit.prefilledAt s.reports.length t.reports := by
  have hspec := h.spec hvisits.sound hvisits.quiet
  rw [hspec.granted] at hi
  obtain ⟨q, hq, hstate⟩ := (hspec.waiting i).mp hi
  obtain ⟨m, -, hticks, -⟩ := h
  obtain ⟨hfunded, hrest⟩ := hticks.replayed hvisits hreturns
  obtain ⟨q', hq', hfollows⟩ := ((settled_of_visits hvisits).follows hfunded hq hstate).visits hrest
  refine ⟨q', ?_, hfollows⟩
  have ht : workload.Visits t := Outcome.Visits.trans hvisits hreturns.visits.1
  rw [ht.sound.replay_result]
  simp only
  rw [List.getElem?_map, hq']
  rfl

end Simulation

namespace Workload

variable {workload : Workload} {t : Simulation}

/-- A record is still to come, or it was submitted by a pass that ticked. -/
theorem Visits.submitted (h : workload.Visits t) {record : WorkloadRequest}
    (hrecord : record ∈ workload.records) : record ∈ t.remaining ∨ ∃ s m, workload.Visits s ∧
      s.Ticks m ∧ record ∈ s.remaining ∧ record.arrivalMs ≤ elapsedMs s.now := by
  let kept : Simulation → Prop := fun u => workload.Visits u ∧ (record ∈ u.remaining ∨
    ∃ s m, workload.Visits s ∧ s.Ticks m ∧ record ∈ s.remaining ∧ record.arrivalMs ≤ elapsedMs s.now)
  have hall : kept t := by
    refine Outcome.Visits.inv h ⟨.start, .inl hrecord⟩ ?_
    rintro u u' ⟨hvisits, hor⟩ hcontinues hpass
    refine ⟨hvisits.pass hcontinues hpass, ?_⟩
    rcases hor with hmem | hsubmitted
    · rcases Simulation.pass_ticks (Simulation.Sound workload) (fun s record rest hs => hs.enqueue)
          hvisits.sound hcontinues hpass with
        ⟨batch, m, done, hticks, hqueued, -, -, rfl⟩ | ⟨next, -, -, rfl⟩
      · rw [hqueued.remaining] at hmem
        rcases List.mem_append.mp hmem with hbatch | hlater
        · refine .inr ⟨u, m, hvisits, hticks, ?_, hqueued.arrived record hbatch⟩
          rw [hqueued.remaining]
          exact List.mem_append_left _ hbatch
        · exact .inl hlater
      · exact .inl hmem
    · exact .inr hsubmitted
  exact hall.2

/-! ### Queue time and prefill time -/

end Workload

/-- `duration_ms_or_nan`. -/
def durationMsOrNan (start stop : Option TimePoint) : Option ℚ :=
  match start, stop with
  | some start, some stop => some (elapsedMs (stop - start))
  | _, _ => none

def RequestSummary.queueTime (r : RequestSummary) : Option ℚ :=
  durationMsOrNan r.waitingPrefillAt r.prefillingAt

def RequestSummary.prefillTime (r : RequestSummary) : Option ℚ :=
  durationMsOrNan r.prefillingAt r.waitingDecodeAt

theorem Request.Stamps.times {arrived prefilled first : TimePoint} {q : Request}
    (h : q.Stamps arrived prefilled first) :
    q.summary.queueTime = some (elapsedMs (prefilled - arrived)) ∧
      q.summary.prefillTime = some (elapsedMs 0) := by
  unfold RequestSummary.queueTime RequestSummary.prefillTime Request.summary
  simp only
  rw [h.waitingPrefillAt, h.prefillingAt, h.waitingDecodeAt]
  exact ⟨rfl, by simp [durationMsOrNan]⟩

namespace Workload

/-- The times of a prefilled request are those of the prefill call that processed it: the prefill time
is what the clock advanced during the call, one millisecond per prompt token of the batch, and the
queue time is what passed between the request's admission and the start of the call. -/
def PhasesSeparate (workload : Workload) (result : SimulationResult) : Prop :=
  ∀ s a answer i r, workload.Visits s → s.PrefillCall a answer →
    i ∈ FifoScheduler.granted a.waiting answer.2.outcomes → result.requests[i]? = some r →
      r.prefillTime = some (elapsedMs (answer.1.clock.current - a.clockNow)) ∧
      answer.1.clock.current - a.clockNow =
        1000000 * (a.waiting.map fun p => (a.request p).promptTokenIds.length).sum ∧
      r.queueTime = r.admittedAt.map fun admitted => elapsedMs (a.clockNow - admitted)

theorem elapsedMs_injective {t t' : TimePoint} (h : elapsedMs t = elapsedMs t') : t = t' := by
  unfold elapsedMs at h
  have hcast : (t : ℚ) = t' := by linarith
  exact_mod_cast hcast

/-- A workload whose phase times are right has no tokens to prefill. -/
theorem PhasesSeparate.promptless {workload : Workload} {result : SimulationResult}
    (hseparate : workload.PhasesSeparate result) (h : workload.Returns result) :
    ∀ record ∈ workload.records, 0 ≤ durationCast record.deadlineMs →
      record.promptTokenIds = [] := by
  intro record hrecord hdeadline
  obtain ⟨t, rfl, hreturns⟩ := h.state
  obtain ⟨hfinal, hexit⟩ := hreturns.visits
  have ht : workload.Visits t := hfinal
  have hnone : record ∉ t.remaining := by
    have hempty : t.remaining = [] := by
      have hboth : t.remaining = [] ∧ t.busy = false := by
        simpa [Simulation.continues] using hexit
      exact hboth.1
    rw [hempty]
    exact List.not_mem_nil
  -- the tick that prefilled the record's request
  obtain ⟨s, m, hvisits, hticks, hmem, harrived⟩ := (ht.submitted hrecord).resolve_left hnone
  have hsettled := Simulation.settled_of_visits hvisits
  obtain ⟨a, answer, hcall⟩ := hticks.exists_call (hreturns.of_visits hvisits)
  have hspec := hcall.spec hvisits.sound hvisits.quiet
  have hbatch := hsettled.mem_batch.mpr ⟨record, hmem, harrived, hdeadline, rfl⟩
  obtain ⟨hculled, hstate⟩ := List.mem_filter.mp hbatch
  obtain ⟨i, hi⟩ := List.getElem?_of_mem hculled
  have hwaiting : i ∈ a.waiting := (hspec.waiting i).mpr ⟨_, hi, of_decide_eq_true hstate⟩
  have hgranted : i ∈ FifoScheduler.granted a.waiting answer.2.outcomes := by
    rw [hspec.granted]
    exact hwaiting
  obtain ⟨q, hq, hfollows⟩ := hcall.summary hvisits (hreturns.of_visits hvisits) hgranted
  obtain ⟨first, -, hstamps⟩ := hfollows.stamps
  obtain ⟨hprefill, hcost, -⟩ := hseparate s a answer i q.summary hvisits hcall hgranted hq
  rw [hstamps.times.2] at hprefill
  have hzero := elapsedMs_injective (Option.some.inj hprefill)
  rw [← hzero, hspec.tokens] at hcost
  have hfree : (0 : Int) = 1000000 * (s.replay.submit.prefillTokens : Int) := hcost
  have htokens : s.replay.submit.prefillTokens = 0 := by omega
  exact hsettled.prefillTokens_eq_zero.mp htokens record hmem harrived hdeadline

/-- **Phase times are measured separately** only where there is nothing to measure. For every workload
on which the simulation returns: the reported prefill times and queue times are those of the prefill
calls if and only if every record whose deadline is not negative has an empty prompt. -/
theorem phases_separate_iff (workload : Workload) (result : SimulationResult)
    (h : workload.Returns result) :
    workload.PhasesSeparate result ↔ ∀ record ∈ workload.records,
      0 ≤ durationCast record.deadlineMs → record.promptTokenIds = [] := by
  constructor
  · intro hseparate
    exact hseparate.promptless h
  · intro hempty s a answer i r hvisits hcall hi hr
    obtain ⟨t, rfl, hreturns⟩ := h.state
    have hspec := hcall.spec hvisits.sound hvisits.quiet
    have htokens : s.replay.submit.prefillTokens = 0 := by
      refine (Simulation.settled_of_visits hvisits).prefillTokens_eq_zero.mpr ?_
      intro record hmem _ hdeadline
      refine hempty record ?_ hdeadline
      have hmem : record ∈ s.remaining := hmem
      rw [hvisits.sound.remaining] at hmem
      exact List.mem_of_mem_drop hmem
    have hstop : s.replay.submit.prefilledAt = s.now := by
      unfold Replay.prefilledAt
      rw [htokens]
      exact add_zero _
    obtain ⟨q, hq, hfollows⟩ := hcall.summary hvisits (hreturns.of_visits hvisits) hi
    obtain ⟨first, -, hstamps⟩ := hfollows.stamps
    rw [hq] at hr
    cases hr
    obtain ⟨hqueue, hprefill⟩ := hstamps.times
    rw [hspec.stop, hspec.start, hspec.tokens, htokens, hprefill, hqueue, hstop]
    refine ⟨by simp, by simp, ?_⟩
    rw [show q.summary.admittedAt = some s.now from hstamps.admittedAt]
    rfl

/-- One record without a prompt, and one that is never prefilled. -/
def promptless : Workload := ⟨[⟨"a", 0, [], 2, 100⟩, ⟨"b", 0, [7], 1, -1⟩], by simp⟩

theorem phases_separate_promptless :
    ∃ result, promptless.Returns result ∧ result.requests.length = 2 ∧
      promptless.PhasesSeparate result := by
  obtain ⟨result, hreturns, hlength⟩ := Workload.exists_returns (show (runSimulation 3 promptless).map
    (fun out => out.map fun result => result.requests.length) = some (.ok 2) by decide +kernel)
  exact ⟨result, hreturns, hlength,
    (phases_separate_iff promptless result hreturns).mpr (by decide +kernel)⟩

/-- Three prompt tokens take 3 ms: the breakdown shows them as queueing and no time for the prefill. -/
theorem prefill_time_zero :
    ∃ result, together.Returns result ∧
      result.requests.map (fun r => (r.queueTime, r.prefillTime)) =
        [(some 3, some 0), (some 3, some 0)] ∧ ¬together.PhasesSeparate result := by
  obtain ⟨result, hreturns, htimes⟩ := Workload.exists_returns (show (runSimulation 3 together).map
    (fun out => out.map fun result => result.requests.map fun r => (r.queueTime, r.prefillTime)) =
    some (.ok [(some 3, some 0), (some 3, some 0)]) by decide +kernel)
  refine ⟨result, hreturns, htimes, fun hseparate => ?_⟩
  have hprompt := hseparate.promptless hreturns ⟨"a", 0, [7, 8], 2, 100⟩ (by simp [together])
    (by decide +kernel)
  exact absurd hprompt (by decide)

end Workload

end Tokamak
