import Tokamak.SimulationTimes

/-! Admission. A record is submitted by exactly one pass of the main loop, the first one that starts at
or after its arrival and ticks; the tick of that pass expires the request or has it in its prefill
batch. The passes of a simulation come one after the other, and the clock, the number of requests and
the number of reports never go back, so a pass that could have submitted the record earlier would
have done so. -/

open Outcome

namespace Tokamak

namespace Request

/-- A tick does not change when a request was admitted. -/
theorem admittedAt_ticked (q : Request) (t t' t'' : TimePoint) :
    (q.ticked t t' t'').lifecycle.admittedAt = q.lifecycle.admittedAt := by
  have hexpire : (q.expire t).lifecycle.admittedAt = q.lifecycle.admittedAt := by
    unfold expire
    split_ifs
    · split <;> simp
    · rfl
  have hprefill : ∀ q : Request, (q.prefill t').lifecycle.admittedAt = q.lifecycle.admittedAt := by
    intro q
    unfold prefill
    split <;> simp
  have hemit : ∀ q : Request, (q.emit t'').lifecycle.admittedAt = q.lifecycle.admittedAt := by
    intro q
    unfold emit
    simp only
    split_ifs <;> rfl
  have hdecode : ∀ q : Request, (q.decode t'').lifecycle.admittedAt = q.lifecycle.admittedAt := by
    intro q
    unfold decode
    split
    · split_ifs
      · rw [lifecycle_enter, RequestLifecycle.admittedAt_enter, if_neg (by decide), hemit]
      · exact hemit q
    · rfl
  unfold ticked
  rw [hdecode, hprefill, hexpire]

end Request

namespace Replay

variable {r v : Replay} {i : Nat} {arrived : TimePoint}

/-- The request `i` was admitted at `arrived`. -/
def AdmittedAt (r : Replay) (i : Nat) (arrived : TimePoint) : Prop :=
  ∃ q, r.requests[i]? = some q ∧ q.lifecycle.admittedAt = some arrived

theorem AdmittedAt.ticked (h : r.AdmittedAt i arrived) : r.ticked.AdmittedAt i arrived := by
  obtain ⟨q, hq, hadmitted⟩ := h
  exact ⟨_, getElem?_ticked hq, (q.admittedAt_ticked _ _ _).trans hadmitted⟩

theorem AdmittedAt.pass (hr : r.AdmittedAt i arrived) (h : r.pass = .ok v) :
    v.AdmittedAt i arrived := by
  obtain ⟨q, hq, hadmitted⟩ := hr
  have hsubmitted : r.submit.AdmittedAt i arrived := ⟨q, getElem?_submit hq, hadmitted⟩
  rcases pass_cases h with ⟨-, -, rfl⟩ | ⟨-, hrequests, -⟩
  · exact hsubmitted.ticked
  · unfold AdmittedAt
    rw [hrequests]
    exact hsubmitted

theorem AdmittedAt.visits {s : Replay} (hs : s.AdmittedAt i arrived)
    (h : Visits continues Replay.pass s r) : r.AdmittedAt i arrived := by
  let kept : Replay → Prop := fun u => u.AdmittedAt i arrived
  have hall : kept r := h.inv hs (fun u v (hu : u.AdmittedAt i arrived) _ hpass => hu.pass hpass)
  exact hall

end Replay

namespace Simulation

variable {workload : Workload} {s t m : Simulation} {i : Nat} {record : WorkloadRequest}

/-! ### The passes in their order -/

/-- What never goes back from one pass to the next. -/
structure Later (s t : Simulation) : Prop where
  size : s.scheduler.requests.size ≤ t.scheduler.requests.size
  now : s.now ≤ t.now
  reports : s.reports.length ≤ t.reports.length

theorem Sound.later (hs : s.Sound workload) (hcontinues : s.continues = true)
    (hpass : s.pass = .ok t) : s.Later t := by
  rcases pass_cases (Sound workload) (fun u record rest hu => hu.enqueue) hs hcontinues hpass with
    ⟨batch, m, done, hqueued, hm, -, htick, rfl⟩ | ⟨next, -, hforward, rfl⟩
  · have hpunctual : FifoScheduler.Punctual m.now m.scheduler := ⟨le_rfl, hm.punctual.milestones⟩
    have hlater := ((FifoScheduler.tick_punctual hm.partition hm.handles hpunctual).ok htick).2.2
    have hsize := ((FifoScheduler.tick_evolves hm.partition).ok htick).2.2.1
    have hnow : m.now = s.now := by
      unfold Simulation.now
      rw [hqueued.world]
    refine ⟨?_, hnow ▸ hlater.since_le, ?_⟩
    · change s.scheduler.requests.size ≤ done.1.requests.size
      rw [hsize, hqueued.size]
      exact Nat.le_add_right _ _
    · change s.reports.length ≤ (m.reports ++ [done.2]).length
      rw [hqueued.reports, List.length_append]
      exact Nat.le_add_right _ _
  · exact ⟨le_rfl, hforward, le_rfl⟩

theorem later_of_visits (hs : workload.Visits s)
    (h : Outcome.Visits continues Simulation.pass s t) : s.Later t := by
  let kept : Simulation → Prop := fun u => workload.Visits u ∧ s.Later u
  have hall : kept t := by
    refine h.inv ⟨hs, le_rfl, le_rfl, le_rfl⟩ ?_
    rintro u u' ⟨hvisits, hlater⟩ hcontinues hpass
    have hstep := hvisits.sound.later hcontinues hpass
    exact ⟨hvisits.pass hcontinues hpass, hlater.size.trans hstep.size, hlater.now.trans hstep.now,
      hlater.reports.trans hstep.reports⟩
  exact hall.2

/-! ### The pass that admits a record -/

/-- The pass that starts in `s` submits the record `i`, which leads to `m`. -/
structure Admits (s m : Simulation) (i : Nat) : Prop where
  submits : s.submitArrived (elapsedMs s.now) s.remaining = .ok m
  before : s.scheduler.requests.size ≤ i
  after : i < m.scheduler.requests.size

/-- What the submission loop of that pass does. -/
theorem Admits.batch (h : s.Admits m i) : ∃ batch, Queued s batch m := by
  obtain ⟨batch, m', hm', hqueued, -⟩ :=
    submitArrived_queued (fun _ => True) (fun _ _ _ _ _ => trivial) (s := s) trivial
  rw [h.submits] at hm'
  cases hm'
  exact ⟨batch, hqueued⟩

/-- A submitted record has arrived, and its request waits. -/
theorem Admits.queued (h : s.Admits m i) (hs : s.Sound workload)
    (hrecord : workload.records[i]? = some record) :
    record.arrivalMs ≤ elapsedMs s.now ∧ m.scheduler.request i = queued s.now record ∧
      i ∈ m.scheduler.waiting := by
  obtain ⟨batch, hqueued⟩ := h.batch
  obtain ⟨j, rfl⟩ := Nat.exists_eq_add_of_le h.before
  have hj : j < batch.length := by
    have hafter := h.after
    rw [hqueued.size] at hafter
    omega
  have hbatch : batch[j]? = some record := by
    rw [← hrecord, ← List.getElem?_drop, ← hs.remaining, hqueued.remaining]
    exact (List.getElem?_append_left hj).symm
  refine ⟨hqueued.arrived record (List.mem_of_getElem? hbatch), hqueued.new j record hbatch, ?_⟩
  rw [hqueued.waiting]
  exact List.mem_append_right _ (List.mem_range'_1.mpr ⟨Nat.le_add_right _ _, by omega⟩)

/-- The pass ticks: there is something in the queue. -/
theorem Admits.ticks (h : s.Admits m i) : s.Ticks m := by
  obtain ⟨batch, hqueued⟩ := h.batch
  refine ⟨h.submits, (busy_iff m).mpr (.inl ?_)⟩
  have hbefore := h.before
  have hafter := h.after
  rw [hqueued.size] at hafter
  have hbatch : batch ≠ [] := by
    rintro rfl
    exact absurd hafter (by simpa using hbefore)
  rw [hqueued.waiting]
  simp [hbatch]

/-- After that pass the request is there. -/
theorem Admits.lt_of_pass (h : s.Admits m i) (hs : s.Sound workload) (hpass : s.pass = .ok t) :
    i < t.scheduler.requests.size := by
  unfold pass at hpass
  rw [h.submits, ok_bind, if_pos h.ticks.2] at hpass
  obtain ⟨done, htick, hpass⟩ := bind_eq_ok.mp hpass
  cases hpass
  obtain ⟨batch, hqueued⟩ := h.batch
  have hpartition : m.scheduler.Partition := by
    obtain ⟨-, m', hm', -, hsound⟩ :=
      submitArrived_queued (Sound workload) (fun u record rest hu => hu.enqueue) hs
    rw [h.submits] at hm'
    cases hm'
    exact hsound.partition
  have hsize := ((FifoScheduler.tick_evolves hpartition).ok htick).2.2.1
  change i < done.1.requests.size
  rw [hsize]
  exact h.after

/-- The pass is not made again. -/
theorem Admits.lt_of_visits (h : s.Admits m i) (hs : workload.Visits s)
    (hvisits : Outcome.Visits continues Simulation.pass s t) :
    s = t ∨ i < t.scheduler.requests.size := by
  rcases hvisits.cases_first with rfl | ⟨s', hcontinues, hpass, hrest⟩
  · exact .inl rfl
  · have hlater := later_of_visits (hs.pass hcontinues hpass) hrest
    exact .inr (lt_of_lt_of_le (h.lt_of_pass hs.sound hpass) hlater.size)

theorem Admits.unique {u v : Simulation} (h : s.Admits m i) (hs : workload.Visits s)
    (h' : u.Admits v i) (hu : workload.Visits u) : u = s := by
  rcases hs.connex hu with hvisits | hvisits
  · rcases h.lt_of_visits hs hvisits with heq | hlt
    · exact heq.symm
    · exact absurd hlt (not_lt.mpr h'.before)
  · rcases h'.lt_of_visits hu hvisits with heq | hlt
    · exact heq
    · exact absurd hlt (not_lt.mpr h.before)

/-- A pass that starts after the arrival of the record is the one that admits it, or comes later. -/
theorem Admits.visits_of_arrived {u : Simulation} (h : s.Admits m i) (hs : workload.Visits s)
    (hrecord : workload.records[i]? = some record) (hu : workload.Visits u)
    (harrived : record.arrivalMs ≤ elapsedMs u.now) :
    Outcome.Visits continues Simulation.pass s u := by
  rcases hs.connex hu with hvisits | hvisits
  · exact hvisits
  · rcases hvisits.cases_first with rfl | ⟨u', hcontinues, hpass, hrest⟩
    · exact .start
    · -- an earlier pass would have submitted the record
      exfalso
      have hafter := later_of_visits (hu.pass hcontinues hpass) hrest
      obtain ⟨batch, v, hv, hqueued, hsound⟩ :=
        submitArrived_queued (Sound workload) (fun u record rest hu => hu.enqueue) hu.sound
      have hlt : i < v.scheduler.requests.size := by
        by_contra hge
        have hmem : record ∈ v.remaining := by
          rw [hsound.remaining]
          refine List.mem_of_getElem? (i := i - v.scheduler.requests.size) ?_
          rw [List.getElem?_drop, Nat.add_sub_cancel' (not_lt.mp hge)]
          exact hrecord
        exact absurd harrived
          (not_le.mpr (hu.sound.not_arrived hqueued.remaining hqueued.waits record hmem))
      have hadmits : u.Admits v i :=
        ⟨hv, ((later_of_visits hu hvisits).size).trans h.before, hlt⟩
      exact absurd (hadmits.lt_of_pass hu.sound hpass) (not_lt.mpr (hafter.size.trans h.before))

/-- The tick of that pass expires the request, or has it in its prefill batch. -/
theorem Admits.expired_or_prefilled (h : s.Admits m i) (hs : s.Sound workload)
    (hq : s.scheduler.world.Quiet 1000000 5000000) (hrecord : workload.records[i]? = some record)
    {a : FifoScheduler MockBackend × TickReport} (ha : m.scheduler.expireDeadlines = .ok a) :
    i ∈ a.1.waiting ∧ i ∉ m.scheduler.expiredWaiting.1 ∨
      i ∈ m.scheduler.expiredWaiting.1 ∧ a.1.state i = .failed := by
  obtain ⟨-, hrequest, hwaiting⟩ := h.queued hs hrecord
  obtain ⟨hundisturbed, -, -⟩ := h.ticks.queued hs hq
  have hensures : Ensures m.scheduler.expireDeadlines (fun _ => True) _ :=
    FifoScheduler.expireDeadlines_quiet hundisturbed
  obtain ⟨hquiet, -, hswept⟩ := hensures.ok ha
  have hself := hswept.done i h.after List.not_mem_nil
  rw [← Request.outline_expire] at hself
  have hstate : a.1.state i = ((m.scheduler.request i).expire m.scheduler.clockNow).state := by
    rw [FifoScheduler.state, ← Request.state_outline, hself]
    rfl
  by_cases hexpired : (m.scheduler.request i).deadlineAt < m.scheduler.clockNow
  · right
    refine ⟨?_, ?_⟩
    · rw [FifoScheduler.expiredWaiting_mock]
      exact List.mem_filter.mpr ⟨hwaiting, decide_eq_true hexpired⟩
    · rw [hstate, Request.expire_of_waiting _ hexpired (by rw [hrequest]; rfl)]
      rfl
  · left
    refine ⟨hquiet.partition.mem_waiting (hswept.size ▸ h.after) ?_, ?_⟩
    · rw [hstate, Request.expire_of_not_expired _ hexpired, hrequest]
      rfl
    · rw [FifoScheduler.expiredWaiting_mock]
      intro hmem
      exact hexpired (of_decide_eq_true (List.mem_filter.mp hmem).2)

/-- The request keeps the time of that pass as the time of its admission. -/
theorem Admits.admittedAt (h : s.Admits m i) (hs : workload.Visits s)
    (hrecord : workload.records[i]? = some record)
    (hreturns : Outcome.Returns continues Simulation.pass s t) :
    ∃ q : Request, t.result.requests[i]? = some q.summary ∧
      q.lifecycle.admittedAt = some s.now := by
  obtain ⟨-, hrequest, hwaiting⟩ := h.queued hs.sound hrecord
  obtain ⟨hundisturbed, hreplay, -⟩ := h.ticks.queued hs.sound hs.quiet
  have hsubmitted : s.replay.submit.AdmittedAt i s.now := by
    refine ⟨(m.scheduler.request i).outline, ?_, ?_⟩
    · rw [← hreplay]
      change m.scheduler.outlines[i]? = _
      unfold FifoScheduler.outlines
      rw [List.getElem?_map, List.getElem?_range h.after]
      rfl
    · rw [hrequest]
      rfl
  obtain ⟨q, hq, hadmitted⟩ :=
    hsubmitted.ticked.visits (h.ticks.replayed hs hreturns).2
  refine ⟨q, ?_, hadmitted⟩
  have ht : workload.Visits t := Outcome.Visits.trans hs hreturns.visits.1
  rw [ht.sound.replay_result]
  simp only
  rw [List.getElem?_map, hq]
  rfl

end Simulation

namespace Workload

variable {workload : Workload} {t : Simulation}

/-- Every request was admitted by a pass. -/
theorem Visits.exists_admits (h : workload.Visits t) :
    ∀ i < t.scheduler.requests.size, ∃ s m, workload.Visits s ∧ s.Admits m i := by
  let kept : Simulation → Prop := fun u => workload.Visits u ∧
    ∀ i < u.scheduler.requests.size, ∃ s m, workload.Visits s ∧ s.Admits m i
  have hall : kept t := by
    refine Outcome.Visits.inv h ⟨.start, fun i hi => absurd hi (Nat.not_lt_zero i)⟩ ?_
    rintro u u' ⟨hvisits, hadmitted⟩ hcontinues hpass
    refine ⟨hvisits.pass hcontinues hpass, fun i hi => ?_⟩
    by_cases hold : i < u.scheduler.requests.size
    · exact hadmitted i hold
    · rcases Simulation.pass_ticks (Simulation.Sound workload) (fun s record rest hs => hs.enqueue)
          hvisits.sound hcontinues hpass with
        ⟨batch, m, done, hticks, -, hm, htick, rfl⟩ | ⟨next, -, -, rfl⟩
      · have hsize := ((FifoScheduler.tick_evolves hm.partition).ok htick).2.2.1
        refine ⟨u, m, hvisits, hticks.1, not_lt.mp hold, ?_⟩
        rw [← hsize]
        exact hi
      · exact absurd hi hold
  exact hall.2

/-- The record `i` was admitted by the pass that starts in `s`, by no other, and at its time. The record
had arrived by then, and no pass before that one starts a tick after the arrival. Its tick leads to `a`
once its deadlines are checked: the request is in the prefill batch, or it was found expired. -/
structure Admission (workload : Workload) (result : SimulationResult) (i : Nat)
    (record : WorkloadRequest) (s m : Simulation) (a : FifoScheduler MockBackend) : Prop where
  visits : workload.Visits s
  ticks : s.Ticks m
  admits : s.Admits m i
  once : ∀ u v, workload.Visits u → u.Admits v i → u = s
  admitted : ∃ r, result.requests[i]? = some r ∧ r.id = record.id ∧ r.admittedAt = some s.now
  arrived : record.arrivalMs ≤ elapsedMs s.now
  first : ∀ u v, workload.Visits u → u.Ticks v → record.arrivalMs ≤ elapsedMs u.now →
    Outcome.Visits Simulation.continues Simulation.pass s u ∧ s.now ≤ u.now ∧
      s.reports.length ≤ u.reports.length
  starts : m.scheduler.clockNow = s.now
  expires : ∃ report, m.scheduler.expireDeadlines = .ok (a, report)
  handled : i ∈ a.waiting ∧ i ∉ m.scheduler.expiredWaiting.1 ∨
    i ∈ m.scheduler.expiredWaiting.1 ∧ a.state i = .failed

theorem Returns.exists_admission {result : SimulationResult} (h : workload.Returns result) {i : Nat}
    {record : WorkloadRequest} (hrecord : workload.records[i]? = some record) :
    ∃ s m a, workload.Admission result i record s m a := by
  obtain ⟨t, rfl, hreturns⟩ := h.state
  obtain ⟨hfinal, hexit⟩ := hreturns.visits
  have ht : workload.Visits t := hfinal
  obtain ⟨hsize, -⟩ := ht.sound.final hexit
  have hi : i < t.scheduler.requests.size := by
    rw [hsize]
    exact (List.getElem?_eq_some_iff.mp hrecord).1
  obtain ⟨s, m, hvisits, hadmits⟩ := ht.exists_admits i hi
  have hrest := hreturns.of_visits hvisits
  obtain ⟨q, hq, hadmitted⟩ := hadmits.admittedAt hvisits hrecord hrest
  obtain ⟨harrived, -, -⟩ := hadmits.queued hvisits.sound hrecord
  obtain ⟨-, hreplay, -⟩ := hadmits.ticks.queued hvisits.sound hvisits.quiet
  -- the tick of a simulation that returns does not abort
  obtain ⟨a, answer, m', report, hticks, hexpire, -⟩ := hadmits.ticks.exists_call hrest
  have hsame : m' = m := by
    have hsubmits := hticks.1
    rw [hadmits.submits] at hsubmits
    exact (Except.ok.inj hsubmits).symm
  subst hsame
  refine ⟨s, m', a, hvisits, hticks, hadmits, fun u v hu hv => hadmits.unique hvisits hv hu, ?_,
    harrived, ?_, congrArg Replay.now hreplay, ⟨report, hexpire⟩,
    hadmits.expired_or_prefilled hvisits.sound hvisits.quiet hrecord hexpire⟩
  · refine ⟨q.summary, hq, ?_, hadmitted⟩
    rw [ht.sound.summary_getElem? hi] at hq
    rw [← Option.some.inj hq]
    exact (ht.sound.serves i record hi hrecord).id
  · intro u v hu _ hlate
    have horder := hadmits.visits_of_arrived hvisits hrecord hu hlate
    have hlater := Simulation.later_of_visits hvisits horder
    exact ⟨horder, hlater.now, hlater.reports⟩

/-- Records stand in the order of their arrivals. -/
theorem lt_of_arrival_lt {i j : Nat} {record record' : WorkloadRequest}
    (hi : workload.records[i]? = some record) (hj : workload.records[j]? = some record')
    (h : record.arrivalMs < record'.arrivalMs) : i < j := by
  obtain ⟨hi', rfl⟩ := List.getElem?_eq_some_iff.mp hi
  obtain ⟨hj', rfl⟩ := List.getElem?_eq_some_iff.mp hj
  rcases lt_trichotomy i j with hlt | rfl | hgt
  · exact hlt
  · exact absurd h (lt_irrefl _)
  · exact absurd h (not_lt.mpr (List.pairwise_iff_getElem.mp workload.sorted j i hj' hi' hgt))

/-- **Admission is prompt and causal.** Whenever the simulation returns, there is one request per record,
each record has an admission as described above, and a record that arrived strictly earlier than
another is submitted before it and admitted no later. -/
theorem admission_prompt (workload : Workload) (result : SimulationResult)
    (h : workload.Returns result) :
    result.requests.length = workload.records.length ∧
      (∀ i record, workload.records[i]? = some record →
        ∃ s m a, workload.Admission result i record s m a) ∧
      ∀ (i j : Nat) (record record' : WorkloadRequest), workload.records[i]? = some record →
        workload.records[j]? = some record' → record.arrivalMs < record'.arrivalMs →
        i < j ∧ ∃ (r r' : RequestSummary) (t t' : TimePoint), result.requests[i]? = some r ∧
          result.requests[j]? = some r' ∧ r.admittedAt = some t ∧ r'.admittedAt = some t' ∧
          t ≤ t' := by
  refine ⟨?_, fun i record hrecord => h.exists_admission hrecord, ?_⟩
  · obtain ⟨t, rfl, hreturns⟩ := h.state
    obtain ⟨hvisits, hexit⟩ := hreturns.visits
    have ht : workload.Visits t := hvisits
    rw [ht.sound.summaries, List.length_map, List.length_range]
    exact (ht.sound.final hexit).1
  · intro i j record record' hi hj hlt
    obtain ⟨s, m, a, hadmission⟩ := h.exists_admission hi
    obtain ⟨s', m', a', hadmission'⟩ := h.exists_admission hj
    obtain ⟨r, hr, -, ht⟩ := hadmission.admitted
    obtain ⟨r', hr', -, ht'⟩ := hadmission'.admitted
    have hboth : record.arrivalMs ≤ elapsedMs s'.now := hlt.le.trans hadmission'.arrived
    obtain ⟨-, hnow, -⟩ := hadmission.first s' m' hadmission'.visits hadmission'.ticks hboth
    exact ⟨lt_of_arrival_lt hi hj hlt, r, r', s.now, s'.now, hr, hr', ht, ht', hnow⟩

/-- The second record arrives at 3 ms, while the first tick is under way, and is admitted at 7 ms. -/
theorem admission_prompt_overlapping :
    ∃ result, overlapping.Returns result ∧
      result.requests.map (fun r => r.admittedAt) = [some 0, some 7000000] ∧
      (∃ s m a, overlapping.Admission result 1 ⟨"b", 3, [7], 1, 100⟩ s m a) := by
  obtain ⟨result, hreturns, htimes⟩ := Workload.exists_returns (show (runSimulation 3 overlapping).map
    (fun out => out.map fun result => result.requests.map fun r => r.admittedAt) =
    some (.ok [some 0, some 7000000]) by decide +kernel)
  exact ⟨result, hreturns, htimes,
    (admission_prompt overlapping result hreturns).2.1 1 _ rfl⟩

end Workload

end Tokamak
