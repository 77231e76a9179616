import Tokamak.SimulationResult

/-! Deadlines of a simulation. A request's deadline is counted from the clock of the pass that submits
it. That is its arrival when the pass happens to run at that very time, and later than its arrival
when a tick was under way: then the objective is judged against a deadline that came too late. -/

open Outcome

namespace Tokamak

/-- The deadline counted from the arrival, both truncated to whole nanoseconds. -/
def WorkloadRequest.sloDeadline (record : WorkloadRequest) : TimePoint :=
  durationCast record.arrivalMs + durationCast record.deadlineMs

/-- The terminal requests that were completed by the deadline counted from their records' arrival. -/
def sloCount (records : List WorkloadRequest) (requests : List RequestSummary) : Nat :=
  (records.zip requests).countP fun pair => pair.2.finalState.isTerminal &&
    ({ pair.2 with deadlineAt := pair.1.sloDeadline } : RequestSummary).metDeadline

namespace Simulation

/-- What a pass does to the terms of requests: the records of `batch`, which are those that are due,
become the next requests, with deadlines counted from now. -/
structure Advances (s : Simulation) (batch : List WorkloadRequest) (s' : Simulation) : Prop where
  remaining : s.remaining = batch ++ s'.remaining
  due : ∀ record ∈ s.remaining, record.arrivalMs ≤ elapsedMs s.now → record ∈ batch
  arrived : ∀ record ∈ batch, record.arrivalMs ≤ elapsedMs s.now
  size : s'.scheduler.requests.size = s.scheduler.requests.size + batch.length
  old : ∀ i < s.scheduler.requests.size,
    (s.scheduler.request i).SameTerms (s'.scheduler.request i)
  new : ∀ j record, batch[j]? = some record →
    (queued s.now record).SameTerms (s'.scheduler.request (s.scheduler.requests.size + j))

variable {workload : Workload} {s s' : Simulation}

theorem Sound.mem_batch (hs : s.Sound workload) {batch rest : List WorkloadRequest}
    (hremaining : s.remaining = batch ++ rest)
    (hwaits : ∀ next later, rest = next :: later → elapsedMs s.now < next.arrivalMs)
    {record : WorkloadRequest} (hmem : record ∈ s.remaining)
    (hdue : record.arrivalMs ≤ elapsedMs s.now) : record ∈ batch := by
  rw [hremaining] at hmem
  rcases List.mem_append.mp hmem with hmem | hmem
  · exact hmem
  · exact absurd hdue (not_le.mpr (hs.not_arrived hremaining hwaits record hmem))

theorem Sound.pass_advances (hs : s.Sound workload) (hcontinues : s.continues = true)
    (hpass : s.pass = .ok s') : ∃ batch, Advances s batch s' := by
  rcases pass_cases (Sound workload) (fun u record rest hu => hu.enqueue) hs hcontinues hpass with
    ⟨batch, m, done, hqueued, hm, -, htick, rfl⟩ | ⟨next, hjumps, -, rfl⟩
  · obtain ⟨-, -, hsize, hticked⟩ := (FifoScheduler.tick_evolves hm.partition).ok htick
    refine ⟨batch, hqueued.remaining, ?_, hqueued.arrived, hsize.trans hqueued.size, ?_, ?_⟩
    · exact fun record => hs.mem_batch hqueued.remaining hqueued.waits
    · intro i hi
      have hterms := (hticked i (by rw [hqueued.size]; omega)).sameTerms
      rw [hqueued.old i hi] at hterms
      exact hterms
    · intro j record hj
      have hlt : j < batch.length := (List.getElem?_eq_some_iff.mp hj).1
      have hbound : s.scheduler.requests.size + j < m.scheduler.requests.size := by
        rw [hqueued.size]
        exact Nat.add_lt_add_left hlt _
      have hterms := (hticked (s.scheduler.requests.size + j) hbound).sameTerms
      rw [hqueued.new j record hj] at hterms
      exact hterms
  · refine ⟨[], rfl, ?_, by simp, rfl, fun i _ => .refl _, fun j record hj => by cases hj⟩
    intro record
    refine hs.mem_batch (List.nil_append _).symm (fun next' later heq => ?_)
    have hhead := hjumps.2.1
    rw [heq] at hhead
    cases hhead
    exact hjumps.2.2

/-- The number a record of the batch gets. -/
theorem Sound.record_of_batch (hs : s.Sound workload) {batch rest : List WorkloadRequest}
    (hremaining : s.remaining = batch ++ rest) {j : Nat} (hj : j < batch.length) :
    workload.records[s.scheduler.requests.size + j]? = batch[j]? := by
  rw [← List.getElem?_drop, ← hs.remaining, hremaining, List.getElem?_append_left hj]

/-- The terms of a request stay what they are until the end of the loop. -/
theorem Sound.visits_terms (hs : s.Sound workload) {t : Simulation}
    (h : Outcome.Visits Simulation.continues Simulation.pass s t) {i : Nat} (hi : i < s.scheduler.requests.size) :
    (s.scheduler.request i).SameTerms (t.scheduler.request i) := by
  let kept : Simulation → Prop := fun u => u.Sound workload ∧ i < u.scheduler.requests.size ∧
    (s.scheduler.request i).SameTerms (u.scheduler.request i)
  have hall : kept t := by
    refine h.inv ⟨hs, hi, .refl _⟩ ?_
    rintro u u' ⟨hu, hlt, hterms⟩ hcontinues hpass
    obtain ⟨batch, hadvances⟩ := hu.pass_advances hcontinues hpass
    refine ⟨hu.pass hcontinues hpass, ?_, hterms.trans (hadvances.old i hlt)⟩
    rw [hadvances.size]
    omega
  exact hall.2.2

end Simulation

namespace Workload

variable {workload : Workload}

/-- Whenever a record is submitted, the clock shows its arrival. -/
def OnTime (workload : Workload) : Prop :=
  ∀ s record, workload.Visits s → record ∈ s.remaining → record.arrivalMs ≤ elapsedMs s.now →
    s.now = durationCast record.arrivalMs

/-- Every request's deadline is counted from its arrival. -/
def DeadlinesFromArrival (workload : Workload) (result : SimulationResult) : Prop :=
  ∀ (i : Nat) (record : WorkloadRequest) (r : RequestSummary), workload.records[i]? = some record →
    result.requests[i]? = some r → r.deadlineAt = record.sloDeadline

/-- In a loop that submits on time all deadlines are counted from the arrival. -/
theorem OnTime.deadlines (h : workload.OnTime) {s : Simulation} (hs : workload.Visits s) :
    ∀ i record, i < s.scheduler.requests.size → workload.records[i]? = some record →
      (s.scheduler.request i).deadlineAt = record.sloDeadline := by
  let counted : Simulation → Prop := fun u => workload.Visits u ∧
    ∀ i record, i < u.scheduler.requests.size → workload.records[i]? = some record →
      (u.scheduler.request i).deadlineAt = record.sloDeadline
  have hall : counted s := by
    refine Outcome.Visits.inv hs ⟨.start, fun i _ hi => absurd hi (Nat.not_lt_zero i)⟩ ?_
    rintro u u' ⟨hvisits, hdeadlines⟩ hcontinues hpass
    refine ⟨hvisits.pass hcontinues hpass, ?_⟩
    intro i record hi hrecord
    obtain ⟨batch, hadvances⟩ := hvisits.sound.pass_advances hcontinues hpass
    rw [hadvances.size] at hi
    by_cases hold : i < u.scheduler.requests.size
    · exact (hadvances.old i hold).deadlineAt.trans (hdeadlines i record hold hrecord)
    · -- a record of this pass
      obtain ⟨j, rfl⟩ := Nat.exists_eq_add_of_le (not_lt.mp hold)
      have hj : j < batch.length := by omega
      rw [hvisits.sound.record_of_batch hadvances.remaining hj] at hrecord
      have hmem : record ∈ batch := List.mem_of_getElem? hrecord
      have hnow := h u record hvisits (hadvances.remaining ▸ List.mem_append_left _ hmem)
        (hadvances.arrived record hmem)
      rw [(hadvances.new j record hrecord).deadlineAt]
      change u.now + durationCast record.deadlineMs = record.sloDeadline
      rw [hnow]
      rfl
  exact hall.2

/-- With the right deadlines the attaining requests are counted right. -/
theorem attainingCount_eq {records : List WorkloadRequest} {requests : List RequestSummary}
    (hlength : requests.length = records.length)
    (h : ∀ (i : Nat) (record : WorkloadRequest) (r : RequestSummary),
      records[i]? = some record → requests[i]? = some r → r.deadlineAt = record.sloDeadline) : attainingCount requests = sloCount records requests := by
  induction requests generalizing records with
  | nil =>
      rw [sloCount, List.zip_nil_right]
      rfl
  | cons r requests ih =>
      cases records with
      | nil => cases hlength
      | cons record records =>
          have hhead : r.deadlineAt = record.sloDeadline := h 0 record r rfl rfl
          have htail := ih (Nat.succ.inj hlength) (fun i => h (i + 1))
          unfold attainingCount sloCount at htail ⊢
          rw [List.zip_cons_cons, List.countP_cons, List.countP_cons, htail]
          simp only [← hhead]

/-- **Deadlines are counted from the arrival** exactly when every record is submitted at the time it
arrives. For every workload on which the simulation returns: each summary's deadline is the record's
arrival plus its deadline, and the attaining requests are the terminal ones completed by then, if and
only if in every pass the clock shows the arrival of each record the pass submits. -/
theorem deadlines_from_arrival (workload : Workload) (result : SimulationResult)
    (h : workload.Returns result) :
    workload.DeadlinesFromArrival result ∧
        attainingCount result.requests = sloCount workload.records result.requests ↔
      workload.OnTime := by
  obtain ⟨s, rfl, hreturns⟩ := h.state
  obtain ⟨hvisits, hexit⟩ := hreturns.visits
  have hs : s.Sound workload := Workload.Visits.sound hvisits
  obtain ⟨hsize, -⟩ := hs.final hexit
  constructor
  · rintro ⟨hdeadlines, -⟩ u record hu hmem hdue
    have hsound : u.Sound workload := hu.sound
    have hcontinues : u.continues = true := by
      simp [Simulation.continues, List.ne_nil_of_mem hmem]
    obtain ⟨u', hpass, hrest⟩ := (hreturns.of_visits hu).pass hcontinues
    obtain ⟨batch, hadvances⟩ := hsound.pass_advances hcontinues hpass
    obtain ⟨j, hj⟩ := List.getElem?_of_mem (hadvances.due record hmem hdue)
    have hlt : j < batch.length := (List.getElem?_eq_some_iff.mp hj).1
    have hbound : u.scheduler.requests.size + j < u'.scheduler.requests.size := by
      rw [hadvances.size]
      omega
    have hsound' : u'.Sound workload := hsound.pass hcontinues hpass
    have hterms := (hadvances.new j record hj).trans (hsound'.visits_terms hrest.visits.1 hbound)
    -- the deadline of this request, from the pass and from the summary
    have hrecord : workload.records[u.scheduler.requests.size + j]? = some record :=
      (hsound.record_of_batch hadvances.remaining hlt).trans hj
    have hlast : u.scheduler.requests.size + j < s.scheduler.requests.size := by
      rw [hsize]
      exact (List.getElem?_eq_some_iff.mp hrecord).1
    have hdeadline := hdeadlines _ record _ hrecord (hs.summary_getElem? hlast)
    rw [show (s.scheduler.request (u.scheduler.requests.size + j)).summary.deadlineAt =
      u.now + durationCast record.deadlineMs from hterms.deadlineAt,
      WorkloadRequest.sloDeadline] at hdeadline
    linarith
  · intro hontime
    have hdeadlines : workload.DeadlinesFromArrival s.result := by
      intro i record r hrecord hr
      have hi : i < s.scheduler.requests.size := by
        rw [hsize]
        exact (List.getElem?_eq_some_iff.mp hrecord).1
      rw [hs.summary_getElem? hi] at hr
      cases hr
      exact hontime.deadlines hvisits i record hi hrecord
    refine ⟨hdeadlines, attainingCount_eq ?_ hdeadlines⟩
    rw [hs.summaries, List.length_map, List.length_range, hsize]

/-- Two records that are there from the start. -/
def together : Workload := ⟨[⟨"a", 0, [7, 8], 2, 100⟩, ⟨"b", 0, [7], 1, 100⟩], by simp⟩

theorem deadlines_from_arrival_together :
    ∃ result, together.Returns result ∧ result.requests.length = 2 ∧ together.OnTime := by
  obtain ⟨result, hreturns, hresult⟩ := Workload.exists_returns (show (runSimulation 3 together).map
    (fun out => out.map fun result => (result.requests.map fun r => r.deadlineAt,
      decide (attainingCount result.requests = sloCount together.records result.requests))) =
    some (.ok ([100000000, 100000000], true)) by decide +kernel)
  obtain ⟨hdeadlines, hcount⟩ := Prod.mk.inj hresult
  have hreturns : together.Returns result := hreturns
  refine ⟨result, hreturns, ?_, (deadlines_from_arrival together result hreturns).mp ⟨?_, ?_⟩⟩
  · rw [← List.length_map, hdeadlines]
    rfl
  · intro i record r hrecord hr
    have hdeadline : ([100000000, 100000000] : List TimePoint)[i]? = some r.deadlineAt := by
      rw [← hdeadlines, List.getElem?_map, hr]
      rfl
    match i with
    | 0 | 1 =>
        cases hrecord
        rw [← Option.some.inj hdeadline]
        decide +kernel
  · exact of_decide_eq_true hcount

/-- The second record arrives at 3 ms, during a tick that ends at 7 ms: its deadline of 100 ms is set
to 107 ms. -/
theorem deadline_from_submission :
    ∃ result, overlapping.Returns result ∧ ¬overlapping.DeadlinesFromArrival result := by
  obtain ⟨result, hreturns, hdeadlines⟩ := Workload.exists_returns (show (runSimulation 3 overlapping).map
    (fun out => out.map fun result => result.requests.map fun r => r.deadlineAt) =
    some (.ok [100000000, 107000000]) by decide +kernel)
  refine ⟨result, hreturns, fun h => ?_⟩
  have hsecond : (result.requests[1]?).map (fun r => r.deadlineAt) = some 107000000 := by
    rw [← List.getElem?_map, hdeadlines]
    rfl
  obtain ⟨r, hr, hdeadline⟩ := Option.map_eq_some_iff.mp hsecond
  have hclaim := h 1 _ r rfl hr
  rw [hdeadline] at hclaim
  exact absurd hclaim (by decide +kernel)

end Workload

end Tokamak
