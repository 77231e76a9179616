import Tokamak.SchedulerReport
import Tokamak.SimulationResult

/-! The trace of a simulation and its summaries tell the same story. The reports are written tick by
tick and the summaries once, at the end; that they agree on how many requests were completed, how many
failed and how many tokens were emitted is an invariant of the main loop. -/

open Outcome

namespace Tokamak

theorem countP_eq_sum {α : Type} (p : α → Bool) (items : List α) :
    items.countP p = (items.map fun a => if p a = true then 1 else 0).sum := by
  induction items with
  | nil => rfl
  | cons a rest ih => rw [List.countP_cons, List.map_cons, List.sum_cons, ih, Nat.add_comm]

namespace Simulation

/-- The reports so far add up to the state of the requests. -/
structure Reported (s : Simulation) : Prop where
  completed : (s.reports.map fun r => r.decodeCompleted).sum =
    s.scheduler.requests.tally (Request.inState .completed)
  failed : (s.reports.map fun r => r.expiredCount + r.prefillFailed + r.decodeFailed).sum =
    s.scheduler.requests.tally (Request.inState .failed)
  tokens : (s.reports.map fun r => r.decodeTokens).sum =
    s.scheduler.requests.tally Request.outputTokensEmitted +
      (s.reports.map fun r => r.decodeFailed).sum

namespace Reported

variable {workload : Workload} {s : Simulation}

theorem start (workload : Workload) : (Simulation.start workload).Reported := ⟨rfl, rfl, rfl⟩

theorem enqueue (h : s.Reported) (record : WorkloadRequest) (rest : List WorkloadRequest) :
    (s.enqueue record rest).Reported := by
  -- a queued request is neither finished nor has it emitted anything
  have htally : ∀ f : Request → Nat, (s.enqueue record rest).scheduler.requests.tally f =
      s.scheduler.requests.tally f + f (queued s.now record) :=
    fun f => Arena.tally_alloc s.scheduler.requests (queued s.now record) f
  refine ⟨?_, ?_, ?_⟩
  · rw [htally]
    exact h.completed
  · rw [htally]
    exact h.failed
  · rw [htally]
    exact h.tokens

theorem ticked (h : s.Reported) (hs : s.scheduler.Partition)
    {done : FifoScheduler MockBackend × TickReport} (htick : s.scheduler.tick = .ok done) :
    (s.ticked done).Reported := by
  have hconserves := (FifoScheduler.tick_conserves hs).ok htick
  have hsum : ∀ f : TickReport → Nat, ((s.ticked done).reports.map f).sum =
      (s.reports.map f).sum + f done.2 := by
    intro f
    rw [Simulation.ticked, List.map_append, List.sum_append]
    rfl
  refine ⟨?_, ?_, ?_⟩
  · rw [hsum, h.completed]
    exact hconserves.completed.symm
  · rw [hsum, h.failed]
    exact hconserves.failed.symm
  · have htokens := hconserves.tokens
    have hdecode := hconserves.decode
    rw [hsum, hsum, h.tokens]
    change _ = done.1.requests.tally Request.outputTokensEmitted + _
    omega

theorem pass (h : s.Reported) (hs : s.Sound workload) (hcontinues : s.continues = true)
    {s' : Simulation} (hpass : s.pass = .ok s') : s'.Reported := by
  rcases pass_cases (fun u => u.Sound workload ∧ u.Reported)
      (fun u record rest hu hremaining => ⟨hu.1.enqueue hremaining, hu.2.enqueue record rest⟩)
      ⟨hs, h⟩ hcontinues hpass with
    ⟨batch, m, done, -, hm, -, htick, rfl⟩ | ⟨next, -, -, rfl⟩
  · exact hm.2.ticked hm.1.partition htick
  · exact ⟨h.completed, h.failed, h.tokens⟩

end Reported

end Simulation

theorem Workload.Visits.reported {workload : Workload} {s : Simulation} (h : workload.Visits s) :
    s.Reported := by
  let kept : Simulation → Prop := fun u => u.Sound workload ∧ u.Reported
  have hall : kept s := by
    refine Outcome.Visits.inv h ⟨Simulation.Sound.start workload, .start workload⟩ ?_
    rintro u u' ⟨hsound, hreported⟩ hcontinues hpass
    exact ⟨hsound.pass hcontinues hpass, hreported.pass hsound hcontinues hpass⟩
  exact hall.2

/-- A sum over the summaries is a sum over the requests. -/
theorem Simulation.Sound.sum_summaries {workload : Workload} {s : Simulation} (h : s.Sound workload)
    (f : RequestSummary → Nat) :
    (s.result.requests.map f).sum = s.scheduler.requests.tally (fun q => f q.summary) := by
  rw [h.summaries, List.map_map]
  rfl

theorem Simulation.Sound.count_summaries {workload : Workload} {s : Simulation}
    (h : s.Sound workload) (state : RequestState) :
    s.result.requests.countP (fun r => r.finalState = state) =
      s.scheduler.requests.tally (Request.inState state) := by
  rw [countP_eq_sum, h.sum_summaries]
  simp only [decide_eq_true_eq]
  rfl

/-- **Tick reports add up.** For every state of every run, a tick that returns reports what it did:
its attempts are its successes and failures, they account for every request that was live before and
for every one that is live after, every decode attempt is a token or a failure. And whenever the
simulation returns, its reports and its summaries agree on the completed requests, on the failed ones
and on the tokens. -/
theorem tick_reports_add_up {ω : Type} [Clock ω] [InferenceBackend ω] [AlignedBackend ω]
    [Environment ω] :
    (∀ (w : ω) (ops : List (SchedulerOp ω)),
      Ensures (run FifoScheduler.apply (.new w) ops) (fun _ => True) (fun s =>
        ∀ t report, s.tick = .ok (t, report) →
          report.prefillAttempted = report.prefillSucceeded + report.prefillFailed ∧
          report.prefillAttempted + report.decodeAttempted - report.prefillSucceeded +
            report.expiredCount = s.waitingCount + s.decodingCount ∧
          t.waitingCount + t.decodingCount + (report.expiredCount + report.prefillFailed +
            report.decodeCompleted + report.decodeFailed) = s.waitingCount + s.decodingCount ∧
          report.decodeTokens = report.decodeAttempted ∧
          t.requests.tally Request.outputTokensEmitted =
            s.requests.tally Request.outputTokensEmitted +
              (report.decodeAttempted - report.decodeFailed) ∧
          report.decodeFailed ≤ report.decodeAttempted)) ∧
    ∀ (workload : Workload) (result : SimulationResult), workload.Returns result →
      (result.tickReports.map fun r => r.decodeCompleted).sum =
          result.requests.countP (fun r => r.finalState = .completed) ∧
        (result.tickReports.map fun r => r.expiredCount + r.prefillFailed + r.decodeFailed).sum =
          result.requests.countP (fun r => r.finalState = .failed) ∧
        (result.tickReports.map fun r => r.decodeTokens).sum =
          (result.requests.map fun r => r.outputTokensEmitted).sum +
            (result.tickReports.map fun r => r.decodeFailed).sum := by
  refine ⟨fun w ops => ?_, fun workload result hreturns => ?_⟩
  · refine (FifoScheduler.run_safe w ops).mono (fun _ _ => trivial) (fun s hs t report htick => ?_)
    have hconserves : FifoScheduler.Conserves s t report :=
      (FifoScheduler.tick_conserves hs).ok htick
    obtain ⟨hprefill, hbefore, hafter, hdecode, hle, htokens, -, -⟩ := hconserves
    exact ⟨hprefill, by omega, by omega, hdecode, by omega, hle⟩
  · obtain ⟨s, rfl, hstate⟩ := hreturns.state
    have hvisits : workload.Visits s := hstate.visits.1
    have hreported := hvisits.reported
    refine ⟨?_, ?_, ?_⟩
    · rw [hvisits.sound.count_summaries]
      exact hreported.completed
    · rw [hvisits.sound.count_summaries]
      exact hreported.failed
    · rw [hvisits.sound.sum_summaries]
      exact hreported.tokens

/-- The second record of this run arrives during a tick; two requests are completed after three
tokens, and none fails. -/
theorem tick_reports_add_up_overlapping :
    ∃ result, overlapping.Returns result ∧
      (result.tickReports.map fun r => r.decodeCompleted).sum = 2 ∧
      result.requests.countP (fun r => r.finalState = .completed) = 2 := by
  obtain ⟨result, hreturns, hsum⟩ := Workload.exists_returns (show (runSimulation 3 overlapping).map
    (fun out => out.map fun result => (result.tickReports.map fun r => r.decodeCompleted).sum) =
    some (.ok 2) by decide +kernel)
  refine ⟨result, hreturns, hsum, ?_⟩
  rw [← ((tick_reports_add_up (ω := MockBackend)).2 overlapping result hreturns).1]
  exact hsum

end Tokamak
