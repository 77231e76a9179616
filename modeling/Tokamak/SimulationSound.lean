import Tokamak.SimulationStep

/-! What holds at the top of the simulation's main loop, in every pass: the first records of the
workload have become the scheduler's requests, one each and in order, and the rest is still to come;
each of these requests has its record's id and budget and stays within the budget; its milestones are
in order; and the clock is not behind zero. -/

open Outcome

namespace Tokamak

/-- The request is the one a record asked for, and it was neither cancelled nor rejected. -/
structure WorkloadRequest.Serves (record : WorkloadRequest) (q : Request) : Prop where
  id : q.id = record.id
  maxOutputTokens : q.maxOutputTokens = record.maxTokens
  budget : q.outputTokensEmitted ≤ q.maxOutputTokens
  uncancelled : q.state ≠ .cancelled
  unrejected : q.state ≠ .rejected

theorem WorkloadRequest.Serves.ticked {record : WorkloadRequest} {q q' : Request}
    (h : record.Serves q) (hticked : q.Ticked q') : record.Serves q' := by
  have hterms := hticked.sameTerms
  refine ⟨hterms.id.trans h.id, hterms.maxOutputTokens.trans h.maxOutputTokens, ?_,
    hticked.uncancelled h.uncancelled, hticked.unrejected h.unrejected⟩
  rw [hterms.maxOutputTokens]
  cases hticked with
  | frozen => exact h.budget
  | advanced _ hadvanced =>
      cases hadvanced with
      | failed _ htokens =>
          rw [htokens.outputTokensEmitted]
          exact h.budget
      | emitted _ _ _ hbudget _ hcount =>
          rw [hcount]
          exact hbudget

namespace Simulation

theorem serves_queued (now : TimePoint) (record : WorkloadRequest) :
    record.Serves (queued now record) :=
  ⟨rfl, rfl, Nat.zero_le _, by simp [queued], by simp [queued]⟩

theorem milestones_queued (now : TimePoint) (record : WorkloadRequest) :
    (queued now record).Milestones now where
  admitted := ⟨now, rfl, le_rfl⟩
  first_le t ht := by cases ht
  admitted_first a t _ ht := by cases ht
  completed t ht := by cases ht
  admitted_completed a t _ ht := by cases ht
  first_completed f t hf := by cases hf

/-- The invariant of the main loop. -/
structure Sound (workload : Workload) (s : Simulation) : Prop where
  partition : s.scheduler.Partition
  handles : FifoScheduler.HandlesLive (fun _ => False) s.scheduler
  punctual : FifoScheduler.Punctual 0 s.scheduler
  size_le : s.scheduler.requests.size ≤ workload.records.length
  remaining : s.remaining = workload.records.drop s.scheduler.requests.size
  submitted : s.submitted = List.range s.scheduler.requests.size
  serves : ∀ i record, i < s.scheduler.requests.size → workload.records[i]? = some record →
    record.Serves (s.scheduler.request i)

namespace Sound

variable {workload : Workload} {s s' : Simulation}

theorem start (workload : Workload) : Sound workload (.start workload) where
  partition := FifoScheduler.partition_new _
  handles := FifoScheduler.HandlesLive.start _ (MockBackend.fresh_new _ _ _)
  punctual := ⟨le_rfl, fun p hp => absurd hp (Nat.not_lt_zero p)⟩
  size_le := Nat.zero_le _
  remaining := rfl
  submitted := rfl
  serves i _ hi := absurd hi (Nat.not_lt_zero i)

theorem now_nonneg (h : Sound workload s) : 0 ≤ s.now := h.punctual.since_le

/-- The next record of the workload is the one with the next free number. -/
theorem next_record (h : Sound workload s) {record : WorkloadRequest} {rest : List WorkloadRequest}
    (hremaining : s.remaining = record :: rest) :
    workload.records[s.scheduler.requests.size]? = some record := by
  rw [← List.head?_drop, ← h.remaining, hremaining]
  rfl

/-- The records still to come are in order of arrival. -/
theorem sorted (h : Sound workload s) :
    s.remaining.Pairwise (fun a b => a.arrivalMs ≤ b.arrivalMs) := by
  rw [h.remaining]
  exact workload.sorted.sublist (List.drop_sublist _ _)

/-- Behind a record that has not arrived there is none that has. -/
theorem not_arrived (h : Sound workload s) {batch rest : List WorkloadRequest}
    (hremaining : s.remaining = batch ++ rest)
    (hwaits : ∀ next later, rest = next :: later → elapsedMs s.now < next.arrivalMs) :
    ∀ record ∈ rest, elapsedMs s.now < record.arrivalMs := by
  intro record hmem
  have hsorted : rest.Pairwise (fun a b => a.arrivalMs ≤ b.arrivalMs) := by
    have hall := h.sorted
    rw [hremaining] at hall
    exact (List.pairwise_append.mp hall).2.1
  cases rest with
  | nil => cases hmem
  | cons next later =>
      have hnext := hwaits next later rfl
      rcases List.mem_cons.mp hmem with rfl | hlater
      · exact hnext
      · exact lt_of_lt_of_le hnext ((List.pairwise_cons.mp hsorted).1 record hlater)

theorem enqueue (h : Sound workload s) {record : WorkloadRequest} {rest : List WorkloadRequest}
    (hremaining : s.remaining = record :: rest) : Sound workload (s.enqueue record rest) := by
  have hnext := h.next_record hremaining
  have hlt := (List.getElem?_eq_some_iff.mp hnext).1
  have hold : ∀ i < s.scheduler.requests.size,
      (s.enqueue record rest).scheduler.request i = s.scheduler.request i :=
    fun i hi => FifoScheduler.request_admitted_of_lt s.scheduler _ _ hi
  have hnew : (s.enqueue record rest).scheduler.request s.scheduler.requests.size =
      queued s.now record := FifoScheduler.request_admitted_self s.scheduler _ _
  refine ⟨h.partition.admitted rfl _, h.handles.of_eq rfl rfl, ⟨h.punctual.since_le, ?_⟩, hlt, ?_, ?_,
    ?_⟩
  · intro p hp
    rcases Nat.lt_succ_iff_lt_or_eq.mp hp with hp | hp
    · rw [hold p hp]
      exact h.punctual.milestones p hp
    · rw [hp, show (s.enqueue record rest).scheduler.request s.scheduler.requests.size = _ from hnew]
      exact milestones_queued s.now record
  · change rest = workload.records.drop (s.scheduler.requests.size + 1)
    rw [← List.drop_drop, ← h.remaining, hremaining]
    rfl
  · change s.submitted ++ [s.scheduler.requests.size] = List.range (s.scheduler.requests.size + 1)
    rw [List.range_succ, h.submitted]
  · intro i record' hi hrecord
    rcases Nat.lt_succ_iff_lt_or_eq.mp hi with hi | hi
    · rw [hold i hi]
      exact h.serves i record' hi hrecord
    · rw [hi, hnext] at hrecord
      cases hrecord
      rw [hi, show (s.enqueue record rest).scheduler.request s.scheduler.requests.size = _ from hnew]
      exact serves_queued s.now record

theorem ticked (h : Sound workload s) {done : FifoScheduler MockBackend × TickReport}
    (htick : s.scheduler.tick = .ok done) : Sound workload (s.ticked done) := by
  obtain ⟨hpartition, hhandles, hpunctual⟩ :=
    (FifoScheduler.tick_punctual h.partition h.handles h.punctual).ok htick
  obtain ⟨-, -, hsize, hticked⟩ := (FifoScheduler.tick_evolves h.partition).ok htick
  have hsize' : (s.ticked done).scheduler.requests.size = s.scheduler.requests.size := hsize
  refine ⟨hpartition, hhandles, hpunctual, ?_, ?_, ?_, ?_⟩
  · rw [hsize']
    exact h.size_le
  · rw [hsize']
    exact h.remaining
  · rw [hsize']
    exact h.submitted
  · intro i record hi hrecord
    rw [hsize'] at hi
    exact (h.serves i record hi hrecord).ticked (hticked i hi)

theorem jumped (h : Sound workload s) {t : TimePoint} (ht : s.now ≤ t) :
    Sound workload (s.jumped t) :=
  ⟨h.partition.world _, h.handles.world ⟨fun _ => Iff.rfl, rfl⟩, h.punctual.world ht, h.size_le,
    h.remaining, h.submitted, h.serves⟩

theorem pass (h : Sound workload s) (hcontinues : s.continues = true) (hpass : s.pass = .ok s') :
    Sound workload s' := by
  rcases pass_cases (Sound workload) (fun u record rest hu => hu.enqueue) h hcontinues hpass with
    ⟨batch, m, done, -, hm, -, htick, rfl⟩ | ⟨next, -, hforward, rfl⟩
  · exact hm.ticked htick
  · exact h.jumped hforward

end Sound

end Simulation

theorem Workload.Visits.sound {workload : Workload} {s : Simulation} (h : workload.Visits s) :
    s.Sound workload :=
  Outcome.Visits.inv h (Simulation.Sound.start workload) (fun _ _ hu => hu.pass)

end Tokamak
