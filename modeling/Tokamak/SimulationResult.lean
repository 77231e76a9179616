import Tokamak.Analysis
import Tokamak.SimulationSound

/-! The result of a simulation. When the main loop is left by its test, nothing remains and nothing is
live, so every record has a summary and every summary is final. Deadlines are another matter: they are
counted from the time of the submission, which is the time of the pass and not of the arrival. -/

open Outcome

namespace Tokamak

namespace Simulation

variable {workload : Workload} {s : Simulation}

/-- When the loop is left, all records are submitted and all requests are terminal. -/
theorem Sound.final (hs : s.Sound workload) (hexit : s.continues = false) :
    s.scheduler.requests.size = workload.records.length ∧
      ∀ i < s.scheduler.requests.size, (s.scheduler.state i).isTerminal = true := by
  have hboth : s.remaining = [] ∧ s.busy = false := by
    simpa [continues] using hexit
  have hidle : s.scheduler.waiting = [] ∧ s.scheduler.decoding = [] := by
    have hnot : ¬s.busy = true := by simp [hboth.2]
    rw [busy_iff] at hnot
    simpa using hnot
  refine ⟨le_antisymm hs.size_le ?_, ?_⟩
  · have hdrop := hs.remaining
    rw [hboth.1] at hdrop
    exact List.drop_eq_nil_iff.mp hdrop.symm
  · intro i hi
    refine hs.partition.rest_terminal i hi ?_ ?_
    · rw [hidle.1]
      exact List.not_mem_nil
    · rw [hidle.2]
      exact List.not_mem_nil

/-- The summaries, by number. -/
theorem Sound.summaries (hs : s.Sound workload) :
    s.result.requests =
      (List.range s.scheduler.requests.size).map fun i => (s.scheduler.request i).summary := by
  rw [result, hs.submitted]

theorem Sound.summary_getElem? (hs : s.Sound workload) {i : Nat}
    (hi : i < s.scheduler.requests.size) :
    s.result.requests[i]? = some (s.scheduler.request i).summary := by
  rw [hs.summaries, List.getElem?_map, List.getElem?_range hi]
  rfl

/-- The summary of a terminal request breaks no rule. -/
theorem violations_of_serves {record : WorkloadRequest} {q : Request} {now : TimePoint}
    (hserves : record.Serves q) (hmilestones : q.Milestones now)
    (hterminal : q.state.isTerminal = true) : q.summary.violations = [] :=
  RequestSummary.violations_eq_nil.mpr ⟨hterminal, hserves.budget, hmilestones.admitted_first,
    hmilestones.first_completed, hmilestones.admitted_completed⟩

theorem completed_or_failed {record : WorkloadRequest} {q : Request} (hserves : record.Serves q)
    (hterminal : q.state.isTerminal = true) : q.state = .completed ∨ q.state = .failed := by
  cases hstate : q.state with
  | completed => exact .inl rfl
  | failed => exact .inr rfl
  | cancelled => exact absurd hstate hserves.uncancelled
  | rejected => exact absurd hstate hserves.unrejected
  | _ =>
      rw [hstate] at hterminal
      cases hterminal

end Simulation

/-- **The simulation is sound.** Whenever it returns, there is one summary per record of the workload,
in its order and with its id and budget; the invariant check finds nothing; and every request is
completed or failed. -/
theorem simulation_sound (workload : Workload) (result : SimulationResult)
    (h : workload.Returns result) :
    result.requests.map (fun r => (r.id, r.maxOutputTokens)) =
        workload.records.map (fun record => (record.id, record.maxTokens)) ∧
      checkInvariants result.requests = [] ∧
      ∀ r ∈ result.requests, (r.finalState = .completed ∨ r.finalState = .failed) ∧
        r.outputTokensEmitted ≤ r.maxOutputTokens ∧
        (∀ a b, r.admittedAt = some a → r.firstTokenAt = some b → a ≤ b) ∧
        (∀ a b, r.firstTokenAt = some a → r.completedAt = some b → a ≤ b) := by
  obtain ⟨s, rfl, hreturns⟩ := h.state
  obtain ⟨hvisits, hexit⟩ := hreturns.visits
  have hs : s.Sound workload := Workload.Visits.sound hvisits
  obtain ⟨hsize, hterminal⟩ := hs.final hexit
  have hrecord : ∀ i (hi : i < s.scheduler.requests.size),
      ∃ record, workload.records[i]? = some record ∧ record.Serves (s.scheduler.request i) := by
    intro i hi
    have hsome := List.getElem?_eq_getElem (hsize ▸ hi)
    exact ⟨_, hsome, hs.serves i _ hi hsome⟩
  have hmem : ∀ r ∈ s.result.requests, ∃ i < s.scheduler.requests.size,
      r = (s.scheduler.request i).summary := by
    intro r hr
    rw [hs.summaries] at hr
    obtain ⟨i, hi, rfl⟩ := List.mem_map.mp hr
    exact ⟨i, List.mem_range.mp hi, rfl⟩
  have hclean : ∀ r ∈ s.result.requests, r.violations = [] := by
    intro r hr
    obtain ⟨i, hi, rfl⟩ := hmem r hr
    obtain ⟨record, -, hserves⟩ := hrecord i hi
    exact Simulation.violations_of_serves hserves (hs.punctual.milestones i hi) (hterminal i hi)
  refine ⟨?_, checkInvariants_eq_nil.mpr hclean, ?_⟩
  · refine List.ext_getElem? (fun i => ?_)
    rw [List.getElem?_map, List.getElem?_map]
    by_cases hi : i < s.scheduler.requests.size
    · obtain ⟨record, hsome, hserves⟩ := hrecord i hi
      rw [hs.summary_getElem? hi, hsome]
      simp only [Option.map_some, Request.summary]
      rw [hserves.id, hserves.maxOutputTokens]
    · have hlength : s.result.requests.length ≤ i := by
        rw [hs.summaries, List.length_map, List.length_range]
        exact not_lt.mp hi
      rw [List.getElem?_eq_none hlength, List.getElem?_eq_none (hsize ▸ not_lt.mp hi)]
      rfl
  · intro r hr
    obtain ⟨-, hbudget, hfirst, hcompleted, -⟩ := RequestSummary.violations_eq_nil.mp (hclean r hr)
    refine ⟨?_, hbudget, hfirst, hcompleted⟩
    obtain ⟨i, hi, rfl⟩ := hmem r hr
    obtain ⟨record, -, hserves⟩ := hrecord i hi
    exact Simulation.completed_or_failed hserves (hterminal i hi)

/-- Two records: the second arrives while the first one's tick is under way. -/
def overlapping : Workload :=
  ⟨[⟨"a", 0, [7, 8], 2, 100⟩, ⟨"b", 3, [7], 1, 100⟩], by simp⟩

theorem simulation_sound_overlapping :
    ∃ result, overlapping.Returns result ∧ result.requests.length = 2 ∧
      checkInvariants result.requests = [] := by
  obtain ⟨result, hreturns, hlength⟩ := Workload.exists_returns (show (runSimulation 3 overlapping).map
    (fun out => out.map fun result => result.requests.length) = some (.ok 2) by decide +kernel)
  exact ⟨result, hreturns, hlength, (simulation_sound overlapping result hreturns).2.1⟩

end Tokamak
