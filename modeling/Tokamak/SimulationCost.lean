import Tokamak.SimulationTimes

/-! The cost model. A tick takes one millisecond per token it prefills and five for its decode batch,
whoever is in them, and the next tick starts where it ended unless the clock jumps to an arrival. So
the reports say when every tick started, and the timestamps of a request are those of the reports of
the ticks it followed. -/

open Outcome

namespace Tokamak.Workload

/-- The timestamp of the last report, or zero, where the clock starts. -/
def lastTimestamp (reports : List TickReport) : TimePoint :=
  (reports.getLast?.map fun report => report.timestamp).getD 0

/-- An idle jump was made after as many ticks as `s` has made, and took the clock to where it is. -/
def JumpedTo (workload : Workload) (s : Simulation) : Prop :=
  ∃ u next, workload.Visits u ∧ u.reports.length = s.reports.length ∧ u.Jumps next ∧
    s.now = durationCast next.arrivalMs

/-- The clock and the reports, at the top of the main loop. -/
structure Timed (workload : Workload) (s : Simulation) : Prop where
  increasing : (s.reports.map fun report => report.timestamp).Pairwise (· < ·)
  le_now : ∀ report ∈ s.reports, report.timestamp ≤ s.now
  now : s.now = lastTimestamp s.reports ∨ workload.JumpedTo s
  ticks : ∀ k < s.reports.length, ∃ u m, workload.Visits u ∧ u.Ticks m ∧ u.reports.length = k

variable {workload : Workload} {s t : Simulation}

theorem Timed.ticked (h : workload.Timed s) (hs : workload.Visits s) {m : Simulation}
    (hticks : s.Ticks m) {s' : Simulation} (hreplay : s'.replay = s.replay.submit.ticked) :
    workload.Timed s' := by
  have hreports : s'.reports = s.reports ++ [s.replay.submit.report] :=
    congrArg Replay.reports hreplay
  have hnow : s'.now = s.replay.submit.stop := congrArg Replay.now hreplay
  have hlater : s.now < s.replay.submit.stop := by
    change s.now < s.now + 1000000 * (s.replay.submit.prefillTokens : Int) + 5000000
    have hcost : (0 : Int) ≤ 1000000 * (s.replay.submit.prefillTokens : Int) := by positivity
    linarith
  refine ⟨?_, ?_, .inl ?_, ?_⟩
  · rw [hreports, List.map_append, List.pairwise_append]
    refine ⟨h.increasing, List.pairwise_singleton _ _, ?_⟩
    intro t ht t' ht'
    obtain ⟨report, hmem, rfl⟩ := List.mem_map.mp ht
    rw [List.map_singleton, List.mem_singleton] at ht'
    rw [ht']
    exact lt_of_le_of_lt (h.le_now report hmem) hlater
  · intro report hmem
    rw [hreports] at hmem
    rw [hnow]
    rcases List.mem_append.mp hmem with hmem | hmem
    · exact (h.le_now report hmem).trans hlater.le
    · rw [List.mem_singleton.mp hmem]
      exact le_rfl
  · rw [hnow, hreports]
    simp [lastTimestamp, Replay.report]
  · intro k hk
    rw [hreports, List.length_append, List.length_singleton] at hk
    rcases Nat.lt_succ_iff_lt_or_eq.mp hk with hk | hk
    · exact h.ticks k hk
    · exact ⟨s, m, hs, hticks, hk.symm⟩

theorem Visits.timed (hs : workload.Visits s) : workload.Timed s := by
  let kept : Simulation → Prop := fun u => workload.Visits u ∧ workload.Timed u
  have htimed : workload.Timed (.start workload) :=
    ⟨List.Pairwise.nil, fun report hmem => absurd hmem List.not_mem_nil, Or.inl rfl,
      fun k hk => absurd hk (Nat.not_lt_zero k)⟩
  have hstart : kept (.start workload) := ⟨.start, htimed⟩
  have hall : kept s := by
    refine Outcome.Visits.inv hs hstart ?_
    rintro u u' ⟨hvisits, htimed⟩ hcontinues hpass
    refine ⟨hvisits.pass hcontinues hpass, ?_⟩
    rcases Simulation.pass_ticks (Simulation.Sound workload) (fun s record rest hs => hs.enqueue)
        hvisits.sound hcontinues hpass with
      ⟨batch, m, done, hticks, -, -, -, -⟩ | ⟨next, hjumps, hforward, rfl⟩
    · have hreplay := (Simulation.pass_replays hvisits.sound hvisits.quiet hcontinues hpass).2
      have hbusy := (hticks.queued hvisits.sound hvisits.quiet).2.2
      rcases Replay.pass_cases hreplay with ⟨-, -, hticked⟩ | ⟨hidle, -⟩
      · exact htimed.ticked hvisits hticks hticked
      · rw [hbusy] at hidle
        cases hidle
    · exact ⟨htimed.increasing, fun report hmem => (htimed.le_now report hmem).trans hforward,
        .inr ⟨u, next, hvisits, rfl, hjumps, rfl⟩, htimed.ticks⟩
  exact hall.2

end Tokamak.Workload
