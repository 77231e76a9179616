import Tokamak.SchedulerEvolution

/-! First come, first served. Pointers are handed out in the order of submission, and the decoding
queue followed by the waiting queue is always an ascending list of them: removals leave the order
alone, and a promotion moves the head of the waiting queue to the end of the decoding queue. With the
waiting queue empty after a tick, no request can overtake an earlier one to its first token. -/

open Outcome

namespace Tokamak.FifoScheduler

variable {ω : Type}

/-- The tracked requests, decoding ones first. -/
def tracked (s : FifoScheduler ω) : List RequestPtr := s.decoding ++ s.waiting

/-- The tracked requests are in the order of submission. -/
def InOrder (s : FifoScheduler ω) : Prop := s.tracked.Sublist (List.range s.requests.size)

/-- Requests may have left the queues; the others kept their order. -/
def Narrowed (s t : FifoScheduler ω) : Prop :=
  t.requests.size = s.requests.size ∧ t.tracked.Sublist s.tracked

theorem Narrowed.refl (s : FifoScheduler ω) : Narrowed s s := ⟨rfl, List.Sublist.refl _⟩

theorem Narrowed.trans {s t u : FifoScheduler ω} (hst : Narrowed s t) (htu : Narrowed t u) :
    Narrowed s u := ⟨htu.1.trans hst.1, htu.2.trans hst.2⟩

theorem Narrowed.inOrder {s t : FifoScheduler ω} (h : Narrowed s t) (hs : s.InOrder) : t.InOrder := by
  unfold InOrder
  rw [h.1]
  exact h.2.trans hs

theorem InOrder.waiting {s : FifoScheduler ω} (hs : s.InOrder) :
    s.waiting.Sublist (List.range s.requests.size) := (List.sublist_append_right _ _).trans hs

theorem InOrder.decoding {s : FifoScheduler ω} (hs : s.InOrder) :
    s.decoding.Sublist (List.range s.requests.size) := (List.sublist_append_left _ _).trans hs

theorem inOrder_new (w : ω) : (new w).InOrder := List.Sublist.refl _

theorem InOrder.admitted {s : FifoScheduler ω} (hs : s.InOrder) (q : Request) (w : ω) :
    (s.admitted q w).InOrder := by
  change (s.decoding ++ (s.waiting ++ [s.requests.size])).Sublist (List.range (s.requests.size + 1))
  rw [← List.append_assoc, List.range_succ]
  exact hs.append (List.Sublist.refl _)

section Steps

variable [Clock ω] [InferenceBackend ω] {s t t' : FifoScheduler ω} {r : RequestPtr}

theorem failWaiting_narrows (ht : t.Partition) (hr : r ∈ t.waiting)
    (h : t.failWaiting r = .ok t') : Narrowed t t' := by
  obtain ⟨-, hw, hd⟩ := failWaiting_queues ht hr h
  refine ⟨(failWaiting_failedOne ht hr h).size, ?_⟩
  unfold tracked
  rw [hw, hd]
  exact (List.Sublist.refl _).append List.erase_sublist

theorem failDecoding_narrows (ht : t.Partition) (hr : r ∈ t.decoding)
    (h : t.failDecoding r = .ok t') : Narrowed t t' := by
  obtain ⟨-, hw, hd⟩ := failDecoding_queues ht hr h
  refine ⟨(failDecoding_failedOne ht hr h).size, ?_⟩
  unfold tracked
  rw [hw, hd]
  exact List.erase_sublist.append (List.Sublist.refl _)

/-- A promotion takes the head of the waiting queue, so the concatenation of the queues is the same
before and after it. -/
theorem prefillOutcome_narrows {rest : List RequestPtr} {report report' : TickReport}
    {outcome : Except BackendError PrefillOutcome} (ht : t.Partition) (hwaiting : t.waiting = r :: rest)
    (h : prefillOutcome (t, report) r outcome = .ok (t', report')) : Narrowed t t' := by
  have hr : r ∈ t.waiting := by rw [hwaiting]; exact List.mem_cons_self
  have hrest := (prefillOutcome_queues ht hwaiting h).2
  refine ⟨(prefillOutcome_prefilled ht hr h).1, ?_⟩
  rcases prefillOutcome_cases (ht.waiting_state r hr) h with
    ⟨hfail, -⟩ | ⟨handle, t₁, t₂, t₃, w, rfl, -⟩
  · exact (failWaiting_narrows ht hr hfail).2
  · have hsame : (t.decoding ++ [r]) ++ rest = t.tracked := by
      rw [tracked, hwaiting, List.append_assoc]
      rfl
    rw [tracked, hrest, ← hsame]
    exact List.Sublist.refl _

theorem decodeOutcome_narrows {report report' : TickReport}
    {outcome : Except BackendError DecodedToken} (ht : t.Partition) (hr : r ∈ t.decoding)
    (h : decodeOutcome (t, report) r outcome = .ok (t', report')) : Narrowed t t' := by
  obtain ⟨-, hw, hd⟩ := decodeOutcome_queues ht hr h
  refine ⟨(decodeOutcome_answered ht hr h).1, ?_⟩
  unfold tracked
  rw [hw]
  rcases hd with hd | hd
  · rw [hd]
  · rw [hd]
    exact List.erase_sublist.append (List.Sublist.refl _)

theorem expireDeadlines_narrows (hs : s.Partition) :
    Ensures s.expireDeadlines (fun _ => True)
      (fun done => done.1.Partition ∧ Narrowed s done.1) := by
  refine expireDeadlines_ensures hs (fun _ _ t => Narrowed s t) (Narrowed.refl s) ?_ ?_
  · intro r rest t ht hr _ _ hinv
    refine ensures_iff.mpr ⟨fun t' ht' => ?_, fun _ _ => trivial⟩
    exact hinv.trans (failWaiting_narrows ht hr ht')
  · intro r rest t ht hr _ hinv
    refine ensures_iff.mpr ⟨fun t' ht' => ?_, fun _ _ => trivial⟩
    exact hinv.trans (failDecoding_narrows ht hr ht')

theorem cancelFirst_narrows (hs : s.Partition) {queue : List RequestPtr}
    (hqueue : ∀ p ∈ queue, s.Live p) {id : RequestId} (h : s.cancelFirst queue id = .ok t) :
    Narrowed s t := by
  refine ⟨(cancelFirst_cancelled hs hqueue h).1.size, ?_⟩
  unfold cancelFirst at h
  cases hfind : queue.find? (fun r => s.requestId r = id) with
  | none =>
      rw [hfind] at h
      cases h
      exact List.Sublist.refl _
  | some r =>
      rw [hfind] at h
      obtain ⟨-, hw, hd⟩ := cancelled_queues hs (hqueue r (List.mem_of_find?_eq_some hfind)) h
      unfold tracked
      rw [hw, hd]
      exact List.erase_sublist.append List.erase_sublist

theorem cancel_narrows (hs : s.Partition) {id : RequestId} (h : s.cancel id = .ok t) :
    Narrowed s t := by
  obtain ⟨u, hu, h⟩ := bind_eq_ok.mp h
  have hpart := (cancelFirst_cancelled hs (fun _ hp => .inl hp) hu).1.partition
  exact (cancelFirst_narrows hs (fun _ hp => .inl hp) hu).trans
    (cancelFirst_narrows hpart (fun _ hp => .inr hp) h)

variable [AlignedBackend ω]

theorem prefillPhase_narrows (hs : s.Partition) :
    Ensures s.prefillPhase (fun _ => True)
      (fun done => done.1.Partition ∧ Narrowed s done.1) := by
  refine (prefillPhase_ensures hs (fun _ _ t => Narrowed s t.1) ?_ ?_).imp (fun _ h => ⟨h.1, h.2.2⟩)
  · exact ensures_iff.mpr ⟨fun _ _ => Narrowed.refl s, fun _ _ => trivial⟩
  · intro r rest outcome outcomes t report ht hwaiting hinv
    refine ensures_iff.mpr ⟨fun t' ht' => ?_, fun _ _ => trivial⟩
    exact hinv.trans (prefillOutcome_narrows ht hwaiting ht')

theorem decodePhase_narrows (hs : s.Partition) :
    Ensures s.decodePhase (fun _ => True)
      (fun done => done.1.Partition ∧ Narrowed s done.1) := by
  refine (decodePhase_ensures hs (fun _ _ t => Narrowed s t.1) ?_ ?_).imp (fun _ h => ⟨h.1, h.2.2⟩)
  · refine ensures_iff.mpr ⟨fun batch _ => ?_, fun _ _ => trivial⟩
    exact ensures_iff.mpr ⟨fun _ _ => Narrowed.refl s, fun _ _ => trivial⟩
  · intro r rest outcome outcomes t report ht hr _ _ _ hinv
    refine ensures_iff.mpr ⟨fun t' ht' => ?_, fun _ _ => trivial⟩
    exact hinv.trans (decodeOutcome_narrows ht hr ht')

theorem tick_narrows (hs : s.Partition) :
    Ensures s.tick (fun _ => True) (fun done => Narrowed s done.1) :=
  tick_ensures (fun a => a.1.Partition ∧ Narrowed s a.1)
    (fun _ b => b.1.Partition ∧ Narrowed s b.1)
    (expireDeadlines_narrows hs)
    (fun _ ha => (prefillPhase_narrows ha.1).imp (fun _ hb => ⟨hb.1, ha.2.trans hb.2⟩))
    (fun _ _ hb => (decodePhase_narrows hb.1).imp (fun _ hc => hb.2.trans hc.2))

end Steps

/-! ### First tokens -/

/-- Who decodes has emitted a token and may emit another; from a waiting request on nobody has emitted
any. -/
structure FirstCome (s : FifoScheduler ω) : Prop where
  partition : s.Partition
  inOrder : s.InOrder
  decoding : ∀ r ∈ s.decoding, 0 < (s.request r).outputTokensEmitted ∧
    (s.request r).outputTokensEmitted < (s.request r).maxOutputTokens
  waiting : ∀ r ∈ s.waiting, ∀ p, r ≤ p → p < s.requests.size →
    (s.request p).outputTokensEmitted = 0

theorem firstCome_new (w : ω) : (new w).FirstCome :=
  ⟨partition_new w, inOrder_new w, by simp [new], by simp [new]⟩

section Runs

variable [Clock ω] [InferenceBackend ω] {s t : FifoScheduler ω}

omit [Clock ω] [InferenceBackend ω] in
theorem FirstCome.admitted (hs : s.FirstCome) {q : Request} (hq : q.state = .waitingPrefill)
    (hnone : q.outputTokensEmitted = 0) (w : ω) : (s.admitted q w).FirstCome := by
  refine ⟨hs.partition.admitted hq w, hs.inOrder.admitted q w, ?_, ?_⟩
  · intro r hr
    rw [request_admitted_of_lt s q w (hs.partition.decoding_lt r hr)]
    exact hs.decoding r hr
  · intro r hr p hrp hp
    rcases Nat.lt_succ_iff_lt_or_eq.mp hp with hlt | heq
    · rw [request_admitted_of_lt s q w hlt]
      rcases List.mem_append.mp hr with hmem | hmem
      · exact hs.waiting r hmem p hrp hlt
      · rw [List.mem_singleton.mp hmem] at hrp
        exact absurd hlt (not_lt.mpr hrp)
    · rw [heq, request_admitted_self]
      exact hnone

omit [Clock ω] [InferenceBackend ω] in
theorem FirstCome.world (hs : s.FirstCome) (w : ω) :
    ({ s with world := w } : FifoScheduler ω).FirstCome :=
  ⟨hs.partition.world w, hs.inOrder, hs.decoding, hs.waiting⟩

theorem FirstCome.cancelled (hs : s.FirstCome) {id : RequestId} (h : s.cancel id = .ok t) :
    t.FirstCome := by
  have hcancel := cancel_cancelled hs.partition h
  refine ⟨hcancel.partition, (cancel_narrows hs.partition h).inOrder hs.inOrder, ?_, ?_⟩
  · intro r hr
    rw [hcancel.request_of_live (.inr hr)]
    exact hs.decoding r (hcancel.mem_decoding hs.partition hr)
  · intro r hr p hrp hp
    have hnone := hs.waiting r (hcancel.mem_waiting hs.partition hr) p hrp (hcancel.size ▸ hp)
    rcases hcancel.request p with heq | ⟨-, -, τ, heq⟩
    · rw [heq]
      exact hnone
    · rw [heq]
      exact hnone

variable [AlignedBackend ω]

theorem FirstCome.ticked (hs : s.FirstCome) {done : FifoScheduler ω × TickReport}
    (h : s.tick = .ok done) : done.1.FirstCome := by
  obtain ⟨hpart, hempty, hsize, hticked⟩ := (tick_evolves hs.partition).ok h
  refine ⟨hpart, ((tick_narrows hs.partition).ok h).inOrder hs.inOrder, ?_, ?_⟩
  · intro r hr
    have hlt : r < s.requests.size := hsize ▸ hpart.decoding_lt r hr
    obtain ⟨-, hcount, hbudget⟩ := (hticked r hlt).of_decoding (hpart.decoding_state r hr)
    rw [hcount, (hticked r hlt).sameTerms.maxOutputTokens]
    exact ⟨Nat.succ_pos _, hbudget⟩
  · intro r hr
    rw [hempty] at hr
    cases hr

variable [Environment ω]

theorem apply_firstCome (hs : s.FirstCome) (op : SchedulerOp ω) :
    Ensures (s.apply op) (fun _ => True) FirstCome := by
  cases op with
  | submit id deadlineFromNow maxOutputTokens promptTokenIds priority =>
      rw [apply_submit]
      exact (hs.world _).admitted rfl rfl _
  | cancel id => exact ensures_iff.mpr ⟨fun t ht => hs.cancelled ht, fun _ _ => trivial⟩
  | tick =>
      refine ensures_iff.mpr ⟨fun t ht => ?_, fun _ _ => trivial⟩
      obtain ⟨done, hdone, ht⟩ := bind_eq_ok.mp ht
      cases ht
      exact hs.ticked hdone
  | event e =>
      refine ensures_iff.mpr ⟨fun t ht => ?_, fun _ _ => trivial⟩
      obtain ⟨w, -, hw⟩ := bind_eq_ok.mp ht
      cases hw
      exact hs.world w

omit [Clock ω] [InferenceBackend ω] [AlignedBackend ω] [Environment ω] in
/-- If a later request has emitted a token and an earlier one has not, the earlier one is finished. -/
theorem FirstCome.terminal_of_overtaken (hs : s.FirstCome) {a b : RequestPtr} (hab : a < b)
    (hb : b < s.requests.size) (hfirst : 0 < (s.request b).outputTokensEmitted)
    (hnone : (s.request a).outputTokensEmitted = 0) : (s.state a).isTerminal = true := by
  refine hs.partition.rest_terminal a (hab.trans hb) ?_ ?_
  · intro hmem
    have hzero := hs.waiting a hmem b hab.le hb
    omega
  · intro hmem
    have hpos := (hs.decoding a hmem).1
    omega

/-- **First come, first served.** In every state of every run: the decoding requests followed by the
waiting ones are in the order of submission; a tick that returns leaves nobody waiting; the requests
whose prompts and handles the next tick hands to the backend are in the order of submission; and if
a later request has emitted a token, an earlier one that ever emits one has emitted one too, so its
first token came in the same tick or an earlier one. -/
theorem fifo_order (w : ω) (ops : List (SchedulerOp ω)) :
    Ensures (run apply (new w) ops) (fun _ => True) (fun s =>
      (s.decoding ++ s.waiting).Sublist (List.range s.requests.size) ∧
      (∀ done, s.tick = .ok done → done.1.waiting = []) ∧
      (∀ a b, s.expireDeadlines = .ok a → a.1.prefillPhase = .ok b →
        a.1.waiting.Sublist (List.range s.requests.size) ∧
          b.1.decoding.Sublist (List.range s.requests.size)) ∧
      ∀ later t a b, run apply s later = .ok t → a < b → b < s.requests.size →
        0 < (s.request b).outputTokensEmitted → 0 < (t.request a).outputTokensEmitted →
          0 < (s.request a).outputTokensEmitted) := by
  refine (run_ensures (fun _ op hs => apply_firstCome hs op) (new w) (firstCome_new w) ops).imp ?_
  intro s hs
  refine ⟨hs.inOrder, ?_, ?_, ?_⟩
  · intro done hdone
    exact ((tick_evolves hs.partition).ok hdone).2.1
  · intro a b ha hb
    obtain ⟨hpart, hnarrowed⟩ := (expireDeadlines_narrows hs.partition).ok ha
    have hnarrowed' := hnarrowed.trans ((prefillPhase_narrows hpart).ok hb).2
    refine ⟨?_, ?_⟩
    · rw [← hnarrowed.1]
      exact (hnarrowed.inOrder hs.inOrder).waiting
    · rw [← hnarrowed'.1]
      exact (hnarrowed'.inOrder hs.inOrder).decoding
  · intro later t a b hrun hab hb hfirst hlater
    by_contra hnone
    have hzero : (s.request a).outputTokensEmitted = 0 := Nat.eq_zero_of_not_pos hnone
    have hterminal := hs.terminal_of_overtaken hab hb hfirst hzero
    rw [run_frozen hs.partition (hab.trans hb) hterminal hrun] at hlater
    exact hnone hlater

end Runs

/-- Over a mock backend: the first request fails to prefill, the other two decode in order. -/
theorem fifo_order_mock :
    ∃ s, run apply (new (MockBackend.new ⟨0⟩ 1 5))
        [.event (MockBackend.Event.failNextPrefill ⟨.outOfMemory, "no pages"⟩),
          .submit "a" 1000 3 [7] 0, .submit "b" 1000 3 [7] 0, .submit "b" 1000 3 [] 0, .tick] = .ok s ∧
      s.state 0 = .failed ∧ s.decoding = [1, 2] ∧
      (s.decoding ++ s.waiting).Sublist (List.range s.requests.size) ∧
      0 < (s.request 2).outputTokensEmitted ∧ 0 < (s.request 1).outputTokensEmitted := by
  obtain ⟨s, hrun, hview⟩ := exists_of_map_ok
    (f := fun s => (s.state 0, s.decoding, s.requests.size, (s.request 1).outputTokensEmitted,
      (s.request 2).outputTokensEmitted))
    (b := (.failed, [1, 2], 3, 1, 1))
    (x := run apply (new (MockBackend.new ⟨0⟩ 1 5))
      [.event (MockBackend.Event.failNextPrefill ⟨.outOfMemory, "no pages"⟩),
        .submit "a" 1000 3 [7] 0, .submit "b" 1000 3 [7] 0, .submit "b" 1000 3 [] 0, .tick])
    (by decide +kernel)
  simp only [Prod.mk.injEq] at hview
  obtain ⟨hfailed, hdecoding, hsize, hfirst, hlater⟩ := hview
  have hemitted : 0 < (s.request 2).outputTokensEmitted := by omega
  obtain ⟨hqueues, -, -, hovertaken⟩ := (fifo_order (MockBackend.new ⟨0⟩ 1 5) _).ok hrun
  refine ⟨s, hrun, hfailed, hdecoding, hqueues, hemitted, ?_⟩
  exact hovertaken [] s 1 2 (run_nil s) (by decide) (by omega) hemitted (by omega)

end Tokamak.FifoScheduler
