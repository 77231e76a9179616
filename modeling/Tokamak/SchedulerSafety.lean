import Tokamak.MockBackendSpec
import Tokamak.SchedulerPartition

/-! Whole runs of the scheduler: in every state between two calls each request rests in its place,
and no call ever attempts an illegal transition or records a token outside `decoding`. -/

open Outcome

namespace Tokamak

namespace FifoScheduler

variable {ω : Type} [Clock ω] [InferenceBackend ω]

/-- An abort that is none of the state machine's own. -/
def LifecycleSafe (p : Panic) : Prop := p ≠ .illegalTransition ∧ p ≠ .firstTokenOutsideDecoding

/-- Whatever the backend dies of, it is not of an illegal transition. -/
theorem backend_safe {α : Type} (x : Except BackendPanic α) :
    Ensures x (fun p => LifecycleSafe (.backend p)) (fun _ => True) := by
  rw [ensures_iff]
  exact ⟨fun _ _ => trivial, fun p _ => by simp [LifecycleSafe]⟩

section Bodies

variable {s : FifoScheduler ω} {r : RequestPtr}

omit [Clock ω] in
theorem releasedWorld_safe (s : FifoScheduler ω) (id : RequestId) (w : ω) :
    Ensures (s.releasedWorld id w) LifecycleSafe (fun _ => True) := by
  unfold releasedWorld
  split
  · trivial
  · exact ensures_callBackend.mpr (backend_safe _)

theorem retire_safe {target : RequestState}
    (hvalid : isValidTransition (s.state r) target = true) :
    Ensures (s.retire r target) LifecycleSafe (fun _ => True) := by
  rw [retire_of_valid hvalid]
  exact (releasedWorld_safe s _ _).bind (fun _ _ => trivial)

theorem failWaiting_safe (hs : s.Partition) (hr : r ∈ s.waiting) :
    Ensures (s.failWaiting r) LifecycleSafe (fun _ => True) := by
  rw [failWaiting_of_waiting (hs.waiting_state r hr)]
  exact (releasedWorld_safe s _ _).bind (fun _ _ => trivial)

theorem failDecoding_safe (hs : s.Partition) (hr : r ∈ s.decoding) :
    Ensures (s.failDecoding r) LifecycleSafe (fun _ => True) :=
  retire_safe (by rw [hs.decoding_state r hr]; rfl)

theorem prefillOutcome_safe (hs : s.Partition) (hr : r ∈ s.waiting) (report : TickReport)
    (outcome : Except BackendError PrefillOutcome) :
    Ensures (prefillOutcome (s, report) r outcome) LifecycleSafe (fun _ => True) := by
  cases outcome with
  | error e => exact (failWaiting_safe hs hr).bind (fun _ _ => trivial)
  | ok out =>
      unfold prefillOutcome
      simp only
      rw [promote_of_waiting out.handle (hs.waiting_state r hr)]
      trivial

theorem decodeOutcome_safe (hs : s.Partition) (hr : r ∈ s.decoding) (report : TickReport)
    (outcome : Except BackendError DecodedToken) :
    Ensures (decodeOutcome (s, report) r outcome) LifecycleSafe (fun _ => True) := by
  cases outcome with
  | error e => exact (failDecoding_safe hs hr).bind (fun _ _ => trivial)
  | ok token =>
      rw [decodeOutcome_ok_of_decoding (hs.decoding_state r hr)]
      split_ifs
      · simp [LifecycleSafe]
      · exact (releasedWorld_safe s _ _).bind (fun _ _ => trivial)
      · trivial

omit [Clock ω] [InferenceBackend ω] in
theorem decodeRequest_safe (s : FifoScheduler ω) (r : RequestPtr) :
    Ensures (s.decodeRequest r) LifecycleSafe (fun _ => True) := by
  unfold decodeRequest
  split
  · simp [LifecycleSafe]
  · trivial

omit [Clock ω] [InferenceBackend ω] in
theorem decodeRequests_safe (s : FifoScheduler ω) (queue : List RequestPtr) :
    Ensures (queue.mapM s.decodeRequest) LifecycleSafe (fun _ => True) :=
  (Ensures.mapM _ queue (fun r _ => decodeRequest_safe s r)).imp (fun _ _ => trivial)

end Bodies

section Operations

variable {s : FifoScheduler ω}

theorem expireDeadlines_safe (hs : s.Partition) :
    Ensures s.expireDeadlines LifecycleSafe (fun done => done.1.Partition) := by
  refine (expireDeadlines_ensures hs (fun _ _ _ => True) trivial ?_ ?_).imp (fun _ h => h.1)
  · intro r rest t ht hr _ _ _
    exact failWaiting_safe ht hr
  · intro r rest t ht hr _ _
    exact failDecoding_safe ht hr

theorem cancelFirst_safe (hs : s.Partition) {queue : List RequestPtr}
    (hqueue : ∀ r ∈ queue, s.Live r) (id : RequestId) :
    Ensures (s.cancelFirst queue id) LifecycleSafe Partition := by
  unfold cancelFirst
  cases hfind : queue.find? (fun r => s.requestId r = id) with
  | none => exact hs
  | some r =>
      have hlive := hqueue r (List.mem_of_find?_eq_some hfind)
      have hvalid := valid_cancelled hs hlive
      exact ((retire_safe hvalid).and_ok (fun s' hs' => (cancelled_queues hs hlive hs').1)).imp
        (fun _ h => h.2)

theorem cancel_safe (hs : s.Partition) (id : RequestId) :
    Ensures (s.cancel id) LifecycleSafe Partition :=
  (cancelFirst_safe hs (fun _ hr => .inl hr) id).bind
    (fun _ ht => cancelFirst_safe ht (fun _ hr => .inr hr) id)

variable [AlignedBackend ω]

theorem prefillPhase_safe (hs : s.Partition) :
    Ensures s.prefillPhase LifecycleSafe (fun done => done.1.Partition ∧ done.1.waiting = []) := by
  refine (prefillPhase_ensures hs (fun _ _ _ => True) ?_ ?_).imp (fun _ h => ⟨h.1, h.2.1⟩)
  · exact backend_safe _
  · intro r rest outcome outcomes t report ht hwaiting _
    exact prefillOutcome_safe ht (by rw [hwaiting]; exact List.mem_cons_self) report outcome

theorem decodePhase_safe (hs : s.Partition) :
    Ensures s.decodePhase LifecycleSafe
      (fun done => done.1.Partition ∧ done.1.waiting = s.waiting) := by
  refine (decodePhase_ensures hs (fun _ _ _ => True) ?_ ?_).imp (fun _ h => ⟨h.1, h.2.1⟩)
  · exact (decodeRequests_safe s s.decoding).imp (fun batch _ => backend_safe _)
  · intro r rest outcome outcomes t report ht hr _ _ _ _
    exact decodeOutcome_safe ht hr report outcome

/-- A tick keeps the partition and empties the waiting queue. -/
theorem tick_safe (hs : s.Partition) :
    Ensures s.tick LifecycleSafe (fun done => done.1.Partition ∧ done.1.waiting = []) :=
  tick_ensures (fun a => a.1.Partition) (fun _ b => b.1.Partition ∧ b.1.waiting = [])
    (expireDeadlines_safe hs) (fun _ ha => prefillPhase_safe ha)
    (fun _ _ hb => (decodePhase_safe hb.1).imp
      (fun _ hc => ⟨hc.1.world _, hc.2.trans hb.2⟩))

variable [Environment ω]

/-- Every operation keeps the partition, and none attempts an illegal transition. -/
theorem apply_safe (hs : s.Partition) (op : SchedulerOp ω) :
    Ensures (s.apply op) LifecycleSafe Partition := by
  cases op with
  | submit id deadlineFromNow maxOutputTokens promptTokenIds priority =>
      rw [apply_submit]
      exact (hs.world _).admitted rfl _
  | cancel id => exact cancel_safe hs id
  | tick => exact (tick_safe hs).bind (fun _ h => h.1)
  | event e => exact (ensures_callBackend.mpr (backend_safe _)).bind (fun w _ => hs.world w)

end Operations

/-- The three places of a request between two calls: once in the waiting queue, once in the
decoding queue, or in neither and finished. -/
def Rests (s : FifoScheduler ω) (r : RequestPtr) : Prop :=
  (s.waiting.count r = 1 ∧ s.decoding.count r = 0 ∧ s.state r = .waitingPrefill) ∨
  (s.waiting.count r = 0 ∧ s.decoding.count r = 1 ∧ s.state r = .decoding) ∨
  (s.waiting.count r = 0 ∧ s.decoding.count r = 0 ∧ (s.state r).isTerminal = true)

omit [Clock ω] [InferenceBackend ω] in
theorem Partition.rests {s : FifoScheduler ω} (hs : s.Partition) {r : RequestPtr}
    (hr : r < s.requests.size) : s.Rests r := by
  by_cases hw : r ∈ s.waiting
  · exact .inl ⟨List.count_eq_one_of_mem hs.waiting_nodup hw,
      List.count_eq_zero_of_not_mem (hs.notMem_decoding hw), hs.waiting_state r hw⟩
  · by_cases hd : r ∈ s.decoding
    · exact .inr (.inl ⟨List.count_eq_zero_of_not_mem hw,
        List.count_eq_one_of_mem hs.decoding_nodup hd, hs.decoding_state r hd⟩)
    · exact .inr (.inr ⟨List.count_eq_zero_of_not_mem hw, List.count_eq_zero_of_not_mem hd,
        hs.rest_terminal r hr hw hd⟩)

variable [AlignedBackend ω] [Environment ω]

theorem run_safe (w : ω) (ops : List (SchedulerOp ω)) :
    Ensures (run apply (new w) ops) LifecycleSafe Partition :=
  run_ensures (fun _ op hs => apply_safe hs op) (new w) (partition_new w) ops

/-- **The partition invariant.** However a scheduler is driven, with whatever ids, clock and backend
answers, every state it reaches has each owned request in exactly one of the three places, the queues
hold owned requests only, and no abort comes from the state machine. -/
theorem requests_partitioned (w : ω) (ops : List (SchedulerOp ω)) :
    Ensures (run apply (new w) ops)
      (fun p => p ≠ .illegalTransition ∧ p ≠ .firstTokenOutsideDecoding)
      (fun s => (∀ r < s.requests.size, s.Rests r) ∧
        ∀ r ∈ s.waiting ++ s.decoding, r < s.requests.size) := by
  refine (run_safe w ops).imp (fun s hs => ⟨fun r hr => hs.rests hr, fun r hr => ?_⟩)
  rcases List.mem_append.mp hr with hr | hr
  · exact hs.waiting_lt r hr
  · exact hs.decoding_lt r hr

/-- Two requests of one id over a mock backend, one of them decoding, the other still waiting. -/
theorem requests_partitioned_mock :
    ∃ s, run apply (new (MockBackend.new ⟨0⟩ 1000000 5000000))
        [.submit "a" 100000000 5 [7] 0, .tick, .submit "a" 100000000 5 [] 0] = .ok s ∧
      s.waiting = [1] ∧ s.decoding = [0] ∧ ∀ r < s.requests.size, s.Rests r := by
  obtain ⟨s, hrun, hqueues⟩ := exists_of_map_ok (f := fun s => (s.waiting, s.decoding))
    (b := ([1], [0])) (x := run apply (new (MockBackend.new ⟨0⟩ 1000000 5000000))
      [.submit "a" 100000000 5 [7] 0, .tick, .submit "a" 100000000 5 [] 0]) (by decide +kernel)
  have hrests := requests_partitioned (MockBackend.new ⟨0⟩ 1000000 5000000)
    [.submit "a" 100000000 5 [7] 0, .tick, .submit "a" 100000000 5 [] 0]
  rw [Prod.mk.injEq] at hqueues
  exact ⟨s, hrun, hqueues.1, hqueues.2, (hrests.ok hrun).1⟩

end FifoScheduler

end Tokamak
