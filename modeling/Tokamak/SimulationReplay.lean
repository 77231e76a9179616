import Tokamak.SchedulerQuiet
import Tokamak.SchedulerReport
import Tokamak.SimulationSound

/-! The simulation without its machinery. A replay has no queues, no handles and no backend: it has
the requests so far, the records still to come, the time and the reports, and a pass of it maps one
function over all requests. The simulation refines it: whenever a pass of the main loop succeeds, the
replay makes the same step, and with distinct ids the two abort together. Whatever is said about the
times of a simulation is said about its replay. -/

open Outcome

namespace Tokamak

structure Replay where
  now : TimePoint
  requests : List Request
  remaining : List WorkloadRequest
  reports : List TickReport

namespace Replay

def start (workload : Workload) : Replay := ⟨0, [], workload.records, []⟩

def busy (s : Replay) : Bool :=
  decide (0 < (requestsIn .waitingPrefill s.requests).length) ||
    decide (0 < (requestsIn .decoding s.requests).length)

def continues (s : Replay) : Bool := !s.remaining.isEmpty || s.busy

/-- Every record that has arrived becomes a request. -/
def submit (s : Replay) : Replay :=
  { s with
    requests := s.requests ++
      (s.remaining.filter fun record => record.arrivalMs ≤ elapsedMs s.now).map (Simulation.queued s.now)
    remaining := s.remaining.filter fun record => ¬record.arrivalMs ≤ elapsedMs s.now }

/-- The requests after the expiry. -/
def culled (s : Replay) : List Request := s.requests.map (Request.expire s.now)

/-- The tokens of the prefill batch. -/
def prefillTokens (s : Replay) : Nat :=
  ((requestsIn .waitingPrefill s.culled).map fun q => q.promptTokenIds.length).sum

/-- The time at which the prefill batch is done. -/
def prefilledAt (s : Replay) : TimePoint := s.now + 1000000 * s.prefillTokens

/-- The requests after the prefill batch. -/
def prefilled (s : Replay) : List Request := s.culled.map (Request.prefill s.prefilledAt)

/-- The time at which the decode batch is done. -/
def stop (s : Replay) : TimePoint := s.prefilledAt + 5000000

/-- No decoding request has used up its budget. -/
def funded (s : Replay) : Bool :=
  (requestsIn .decoding s.prefilled).all fun q => decide (q.outputTokensEmitted < q.maxOutputTokens)

def report (s : Replay) : TickReport :=
  { timestamp := s.stop
    expiredCount :=
      (requestsIn .waitingPrefill s.requests).countP (fun q => q.deadlineAt < s.now) +
        (requestsIn .decoding s.requests).countP (fun q => q.deadlineAt < s.now)
    prefillAttempted := (requestsIn .waitingPrefill s.culled).length
    prefillSucceeded := (requestsIn .waitingPrefill s.culled).length
    prefillTokens := s.prefillTokens
    decodeAttempted := (requestsIn .decoding s.prefilled).length
    decodeTokens := (requestsIn .decoding s.prefilled).length
    decodeCompleted := (requestsIn .decoding s.prefilled).countP Request.lastToken }

/-- The replay after a tick. -/
def ticked (s : Replay) : Replay :=
  { s with
    now := s.stop
    requests := s.prefilled.map (Request.decode s.stop)
    reports := s.reports ++ [s.report] }

def tick (s : Replay) : Except Panic Replay :=
  if s.funded then .ok s.ticked else .error .tokenBudgetExceeded

def pass (s : Replay) : Except Panic Replay :=
  if s.submit.busy then s.submit.tick
  else
    match s.submit.remaining with
    | [] => .ok s.submit
    | next :: _ => .ok { s.submit with now := durationCast next.arrivalMs }

end Replay

namespace Simulation

/-- What is left of a simulation without the scheduler. -/
def replay (s : Simulation) : Replay := ⟨s.now, s.scheduler.outlines, s.remaining, s.reports⟩

variable {workload : Workload} {s s' m : Simulation}

theorem Sound.undisturbed (hs : s.Sound workload) (hq : s.scheduler.world.Quiet 1000000 5000000) :
    s.scheduler.Undisturbed 1000000 5000000 :=
  ⟨hs.partition, hs.handles, hq, by norm_num, by norm_num⟩

theorem replay_busy (hs : s.scheduler.Partition) : s.replay.busy = s.busy := by
  have hwaiting := hs.waiting_outlines.length_eq
  have hdecoding := hs.decoding_outlines.length_eq
  rw [List.length_map] at hwaiting hdecoding
  unfold Replay.busy busy FifoScheduler.waitingCount FifoScheduler.decodingCount
  rw [hwaiting, hdecoding]
  rfl

theorem replay_continues (hs : s.scheduler.Partition) : s.replay.continues = s.continues := by
  unfold Replay.continues continues
  rw [replay_busy hs]
  rfl

/-- The submission loop takes exactly the records that have arrived. -/
theorem Sound.replay_queued (hs : s.Sound workload) {batch : List WorkloadRequest}
    (h : Queued s batch m) : m.replay = s.replay.submit := by
  have hlater := hs.not_arrived h.remaining h.waits
  have hdue : s.remaining.filter (fun record => decide (record.arrivalMs ≤ elapsedMs s.now)) =
      batch := by
    rw [h.remaining, List.filter_append, List.filter_eq_self.mpr, List.filter_eq_nil_iff.mpr,
      List.append_nil]
    · intro record hrecord
      simpa using hlater record hrecord
    · intro record hrecord
      simpa using h.arrived record hrecord
  have hrest : s.remaining.filter (fun record => decide ¬record.arrivalMs ≤ elapsedMs s.now) =
      m.remaining := by
    rw [h.remaining, List.filter_append, List.filter_eq_nil_iff.mpr, List.filter_eq_self.mpr,
      List.nil_append]
    · intro record hrecord
      simpa using hlater record hrecord
    · intro record hrecord
      simpa using h.arrived record hrecord
  have houtlines : m.scheduler.outlines = s.scheduler.outlines ++ batch.map (queued s.now) := by
    unfold FifoScheduler.outlines
    rw [h.size, List.range_add, List.map_append, List.map_map]
    congr 1
    · refine List.map_congr_left (fun p hp => ?_)
      rw [h.old p (List.mem_range.mp hp)]
    · refine List.ext_getElem? (fun j => ?_)
      rw [List.getElem?_map, List.getElem?_map]
      by_cases hj : j < batch.length
      · rw [List.getElem?_range hj, List.getElem?_eq_getElem hj]
        simp only [Option.map_some, Function.comp_apply]
        rw [h.new j _ (List.getElem?_eq_getElem hj)]
        rfl
      · rw [List.getElem?_eq_none (by simpa using hj), List.getElem?_eq_none (by simpa using hj)]
        rfl
  have hnow : m.now = s.now := by
    unfold now
    rw [h.world]
  have hsubmit : s.replay.submit = ⟨s.now, s.scheduler.outlines ++
      (s.remaining.filter fun record => decide (record.arrivalMs ≤ elapsedMs s.now)).map (queued s.now),
      s.remaining.filter fun record => decide ¬record.arrivalMs ≤ elapsedMs s.now, s.reports⟩ := rfl
  rw [hsubmit, hdue, hrest, ← houtlines, ← hnow, ← h.reports]
  rfl

/-! ### The tick -/

section Counts

variable {s : FifoScheduler MockBackend} (hs : s.Partition)

include hs

theorem length_waiting : s.waiting.length = (requestsIn .waitingPrefill s.outlines).length := by
  rw [← List.length_map fun p => (s.request p).outline]
  exact hs.waiting_outlines.length_eq

theorem length_decoding : s.decoding.length = (requestsIn .decoding s.outlines).length := by
  rw [← List.length_map fun p => (s.request p).outline]
  exact hs.decoding_outlines.length_eq

theorem count_waiting (f : Request → Bool) :
    s.waiting.countP (fun p => f (s.request p).outline) =
      (requestsIn .waitingPrefill s.outlines).countP f := by
  rw [← hs.waiting_outlines.countP_eq f, List.countP_map]
  rfl

theorem count_decoding (f : Request → Bool) :
    s.decoding.countP (fun p => f (s.request p).outline) =
      (requestsIn .decoding s.outlines).countP f := by
  rw [← hs.decoding_outlines.countP_eq f, List.countP_map]
  rfl

theorem sum_waiting (f : Request → Nat) :
    (s.waiting.map fun p => f (s.request p).outline).sum =
      ((requestsIn .waitingPrefill s.outlines).map f).sum := by
  rw [← (hs.waiting_outlines.map f).sum_eq, List.map_map]
  rfl

end Counts

/-- The scheduler after the expiry of a tick that starts in `s`. -/
structure Expired (s : Simulation) (a : FifoScheduler MockBackend) : Prop where
  undisturbed : a.Undisturbed 1000000 5000000
  clockNow : a.clockNow = s.now
  outlines : a.outlines = s.replay.culled

theorem expireDeadlines_replays (hs : s.scheduler.Undisturbed 1000000 5000000) :
    Ensures s.scheduler.expireDeadlines (fun _ => True) (fun a => Expired s a.1 ∧
      a.2.expiredCount = s.replay.report.expiredCount) := by
  refine ((FifoScheduler.expireDeadlines_quiet hs).and_ok
    (fun a ha => FifoScheduler.expireDeadlines_report ha)).imp ?_
  rintro a ⟨⟨hquiet, hclock, hswept⟩, hreport⟩
  refine ⟨⟨hquiet, hclock, hswept.outlines⟩, ?_⟩
  rw [hreport, FifoScheduler.expiredWaiting_mock, FifoScheduler.expiredDecoding_mock,
    ← List.countP_eq_length_filter, ← List.countP_eq_length_filter]
  have hwaiting := count_waiting hs.partition fun q => decide (q.deadlineAt < s.now)
  have hdecoding := count_decoding hs.partition fun q => decide (q.deadlineAt < s.now)
  exact congrArg₂ (· + ·) hwaiting hdecoding

/-- The prefill batch of the tick, from the scheduler and from the replay. -/
theorem Expired.prefillTokens {a : FifoScheduler MockBackend} (ha : Expired s a) :
    a.prefillReport.prefillTokens = s.replay.prefillTokens := by
  unfold Replay.prefillTokens
  rw [← ha.outlines]
  exact sum_waiting ha.undisturbed.partition fun q => q.promptTokenIds.length

/-- The scheduler after the prefill phase of a tick that starts in `s`, and its report. -/
structure Started (s : Simulation) (b : FifoScheduler MockBackend) (report : TickReport) : Prop where
  undisturbed : b.Undisturbed 1000000 5000000
  clockNow : b.clockNow = s.replay.prefilledAt
  outlines : b.outlines = s.replay.prefilled
  prefillAttempted : report.prefillAttempted = s.replay.report.prefillAttempted
  prefillSucceeded : report.prefillSucceeded = s.replay.report.prefillSucceeded
  prefillFailed : report.prefillFailed = 0
  prefillTokens : report.prefillTokens = s.replay.prefillTokens

theorem Expired.prefillPhase {a : FifoScheduler MockBackend} (ha : Expired s a) :
    Ensures a.prefillPhase (fun _ => True) (fun b => Started s b.1 b.2) := by
  refine (FifoScheduler.prefillPhase_quiet ha.undisturbed).imp ?_
  rintro b ⟨hquiet, -, hclock, hswept, hreport⟩
  have hlength : a.waiting.length = (requestsIn .waitingPrefill s.replay.culled).length := by
    rw [← ha.outlines]
    exact length_waiting ha.undisturbed.partition
  rw [ha.clockNow, ha.prefillTokens] at hclock
  refine ⟨hquiet, hclock, ?_, ?_, ?_, ?_, ?_⟩
  · rw [hswept.outlines, ha.outlines, hclock]
    rfl
  · rw [hreport]
    exact hlength
  · rw [hreport]
    exact hlength
  · rw [hreport]
    rfl
  · rw [hreport]
    exact ha.prefillTokens

namespace Started

variable {b : FifoScheduler MockBackend} {report : TickReport}

theorem decodeAttempted (hb : Started s b report) :
    b.decoding.length = s.replay.report.decodeAttempted := by
  have hlength := length_decoding hb.undisturbed.partition
  rw [hb.outlines] at hlength
  exact hlength

theorem decodeCompleted (hb : Started s b report) :
    b.decoding.countP (fun r => (b.request r).lastToken) = s.replay.report.decodeCompleted := by
  have hcount := count_decoding hb.undisturbed.partition Request.lastToken
  rw [hb.outlines] at hcount
  exact hcount

theorem funded (hb : Started s b report)
    (h : ∀ r ∈ b.decoding, (b.request r).outputTokensEmitted < (b.request r).maxOutputTokens) :
    s.replay.funded = true := by
  unfold Replay.funded
  rw [List.all_eq_true, ← hb.outlines]
  intro q hq
  obtain ⟨r, hr, rfl⟩ :=
    List.mem_map.mp (hb.undisturbed.partition.decoding_outlines.mem_iff.mpr hq)
  exact decide_eq_true (h r hr)

end Started

/-- A tick of the scheduler is a tick of the replay. -/
theorem tick_replays (hs : s.scheduler.Undisturbed 1000000 5000000) :
    Ensures s.scheduler.tick (fun _ => True) (fun done =>
      done.1.Undisturbed 1000000 5000000 ∧ s.replay.tick = .ok (s.ticked done).replay) := by
  refine FifoScheduler.tick_ensures
    (fun a => Expired s a.1 ∧ a.2.expiredCount = s.replay.report.expiredCount)
    (fun a b => Started s b.1 b.2 ∧ a.expiredCount = s.replay.report.expiredCount)
    (expireDeadlines_replays hs) ?_ ?_
  · rintro a ⟨ha, hexpired⟩
    exact ha.prefillPhase.imp (fun b hb => ⟨hb, hexpired⟩)
  · rintro a b ⟨hb, hexpired⟩
    refine (FifoScheduler.decodePhase_quiet hb.undisturbed).imp ?_
    rintro c ⟨hquiet, hclock, hswept, hfunded, hreport⟩
    have hstop : c.1.clockNow = s.replay.stop := by
      rw [hclock, hb.clockNow]
      rfl
    refine ⟨hquiet, ?_⟩
    unfold Replay.tick Replay.ticked
    rw [if_pos (hb.funded hfunded)]
    have hmerge : TickReport.merge (Clock.now c.1.world).1 a b.2 c.2 = s.replay.report := by
      have hleft : TickReport.merge (Clock.now c.1.world).1 a b.2 c.2 =
          { timestamp := c.1.clockNow
            expiredCount := a.expiredCount
            prefillAttempted := b.2.prefillAttempted
            prefillSucceeded := b.2.prefillSucceeded
            prefillFailed := b.2.prefillFailed
            prefillTokens := b.2.prefillTokens
            decodeAttempted := c.2.decodeAttempted
            decodeTokens := c.2.decodeTokens
            decodeCompleted := c.2.decodeCompleted
            decodeFailed := c.2.decodeFailed } := rfl
      rw [hleft, hstop, hexpired, hb.prefillAttempted, hb.prefillSucceeded, hb.prefillFailed,
        hb.prefillTokens, hreport]
      simp only [FifoScheduler.decodeReport, hb.decodeAttempted, hb.decodeCompleted]
      rfl
    have houtlines : c.1.outlines = s.replay.prefilled.map (Request.decode s.replay.stop) := by
      rw [hswept.outlines, hb.outlines, hstop]
    rw [← hmerge, ← houtlines, ← hstop]
    rfl

/-! ### The main loop -/

/-- A jump of the simulation is a jump of the replay. -/
theorem Sound.replay_jumped (hs : s.Sound workload) {next : WorkloadRequest} (h : s.Jumps next) :
    s.replay.pass = .ok (s.jumped (durationCast next.arrivalMs)).replay := by
  obtain ⟨hidle, hhead, hfuture⟩ := h
  have hnothing : s.replay.submit = s.replay := by
    refine (hs.replay_queued (Queued.nil ?_)).symm
    intro next' rest hremaining
    rw [hremaining] at hhead
    cases hhead
    exact hfuture
  have hbusy : s.replay.busy = false := (replay_busy hs.partition).trans hidle
  obtain ⟨rest, hremaining⟩ : ∃ rest, s.replay.remaining = next :: rest :=
    List.head?_eq_some_iff.mp hhead
  unfold Replay.pass
  rw [hnothing, hbusy, hremaining]
  rfl

/-- A pass of the simulation is a pass of the replay. -/
theorem pass_replays (hs : s.Sound workload) (hq : s.scheduler.world.Quiet 1000000 5000000)
    (hcontinues : s.continues = true) (hpass : s.pass = .ok s') :
    s'.scheduler.world.Quiet 1000000 5000000 ∧ s.replay.pass = .ok s'.replay := by
  rcases pass_cases (fun u => u.Sound workload ∧ u.scheduler.world.Quiet 1000000 5000000)
      (fun u record rest hu hremaining => ⟨hu.1.enqueue hremaining, hu.2⟩) ⟨hs, hq⟩ hcontinues hpass with
    ⟨batch, m, done, hqueued, ⟨hm, hmq⟩, hbusy, htick, rfl⟩ | ⟨next, hjumps, -, rfl⟩
  · obtain ⟨hundisturbed, hreplay⟩ := (tick_replays (hm.undisturbed hmq)).ok htick
    refine ⟨hundisturbed.quiet, ?_⟩
    unfold Replay.pass
    rw [← hs.replay_queued hqueued, replay_busy hm.partition, if_pos hbusy]
    exact hreplay
  · exact ⟨⟨hq.prefillCost, hq.decodeCost, hq.prefillErrors, hq.decodeErrors, hq.endless⟩,
      hs.replay_jumped hjumps⟩

end Simulation

namespace Workload

variable {workload : Workload} {s : Simulation}

theorem Visits.quiet (h : workload.Visits s) : s.scheduler.world.Quiet 1000000 5000000 := by
  let kept : Simulation → Prop := fun u =>
    u.Sound workload ∧ u.scheduler.world.Quiet 1000000 5000000
  have hall : kept s := by
    refine Outcome.Visits.inv h ⟨.start workload, MockBackend.quiet_new _ _ _⟩ ?_
    rintro u u' ⟨hsound, hquiet⟩ hcontinues hpass
    exact ⟨hsound.pass hcontinues hpass, (Simulation.pass_replays hsound hquiet hcontinues hpass).1⟩
  exact hall.2

/-- From any state on, the states of the simulation are states of the replay. -/
theorem Visits.replay_from {t : Simulation} (hs : workload.Visits s)
    (h : Outcome.Visits Simulation.continues Simulation.pass s t) :
    Outcome.Visits Replay.continues Replay.pass s.replay t.replay := by
  let matched : Simulation → Replay → Prop := fun u r => workload.Visits u ∧ u.replay = r
  have hall : ∃ r, Outcome.Visits Replay.continues Replay.pass s.replay r ∧ matched t r := by
    refine Outcome.Visits.related (R := matched) h ⟨hs, rfl⟩ ?_ ?_
    · rintro u _ ⟨hvisits, rfl⟩
      exact Simulation.replay_continues hvisits.sound.partition
    · rintro u _ v ⟨hvisits, rfl⟩ hcontinues hpass
      exact ⟨v.replay, (Simulation.pass_replays hvisits.sound hvisits.quiet hcontinues hpass).2,
        hvisits.pass hcontinues hpass, rfl⟩
  obtain ⟨r, hr, -, hreplay⟩ := hall
  rw [hreplay]
  exact hr

end Workload

/-- The summaries are those of the replay's requests. -/
theorem Simulation.Sound.replay_result {workload : Workload} {s : Simulation} (hs : s.Sound workload) :
    s.result = ⟨s.replay.reports, s.replay.requests.map Request.summary⟩ := by
  unfold Simulation.result Simulation.replay FifoScheduler.outlines
  rw [hs.submitted, List.map_map]
  rfl

end Tokamak
