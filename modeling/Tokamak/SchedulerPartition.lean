import Tokamak.SchedulerStep

/-! Every request the scheduler owns rests in one of three places: the waiting queue, the decoding
queue, or neither, and its lifecycle state says which. This is what makes every transition of every
operation legal. The module ends with one rule per phase of a tick; the rules carry the partition
along, so a later invariant only has to be checked against the loop bodies. -/

open Outcome

namespace Tokamak.FifoScheduler

variable {ω : Type}

structure Partition (s : FifoScheduler ω) : Prop where
  waiting_nodup : s.waiting.Nodup
  decoding_nodup : s.decoding.Nodup
  waiting_lt : ∀ r ∈ s.waiting, r < s.requests.size
  decoding_lt : ∀ r ∈ s.decoding, r < s.requests.size
  waiting_state : ∀ r ∈ s.waiting, s.state r = .waitingPrefill
  decoding_state : ∀ r ∈ s.decoding, s.state r = .decoding
  rest_terminal : ∀ r < s.requests.size, r ∉ s.waiting → r ∉ s.decoding →
    (s.state r).isTerminal = true

/-- A request is live while one of the queues holds it. -/
def Live (s : FifoScheduler ω) (r : RequestPtr) : Prop := r ∈ s.waiting ∨ r ∈ s.decoding

theorem partition_new (w : ω) : (new w).Partition where
  waiting_nodup := List.nodup_nil
  decoding_nodup := List.nodup_nil
  waiting_lt := by simp [new]
  decoding_lt := by simp [new]
  waiting_state := by simp [new]
  decoding_state := by simp [new]
  rest_terminal := by simp [new]

namespace Partition

variable {s : FifoScheduler ω} {r : RequestPtr}

theorem notMem_decoding (hs : s.Partition) (hr : r ∈ s.waiting) : r ∉ s.decoding := by
  intro hmem
  have hwaiting := hs.waiting_state r hr
  rw [hs.decoding_state r hmem] at hwaiting
  cases hwaiting

theorem notMem_waiting (hs : s.Partition) (hr : r ∈ s.decoding) : r ∉ s.waiting :=
  fun hmem => hs.notMem_decoding hmem hr

theorem not_live_of_terminal (hs : s.Partition) (hr : (s.state r).isTerminal = true) :
    ¬s.Live r := by
  rintro (hmem | hmem)
  · rw [hs.waiting_state r hmem] at hr
    cases hr
  · rw [hs.decoding_state r hmem] at hr
    cases hr

theorem live_of_not_terminal (hs : s.Partition) (hlt : r < s.requests.size)
    (hr : (s.state r).isTerminal = false) : s.Live r := by
  by_contra hlive
  have hterminal := hs.rest_terminal r hlt (fun h => hlive (.inl h)) (fun h => hlive (.inr h))
  rw [hr] at hterminal
  cases hterminal

/-- The partition does not look at the world or at the handles. -/
theorem of_eq {s' : FifoScheduler ω} (hs : s.Partition) (hsize : s'.requests.size = s.requests.size)
    (hstate : ∀ p, s'.state p = s.state p) (hwaiting : s'.waiting = s.waiting)
    (hdecoding : s'.decoding = s.decoding) : s'.Partition where
  waiting_nodup := hwaiting ▸ hs.waiting_nodup
  decoding_nodup := hdecoding ▸ hs.decoding_nodup
  waiting_lt := by rw [hwaiting, hsize]; exact hs.waiting_lt
  decoding_lt := by rw [hdecoding, hsize]; exact hs.decoding_lt
  waiting_state := by
    intro p hp
    rw [hstate]
    exact hs.waiting_state p (hwaiting ▸ hp)
  decoding_state := by
    intro p hp
    rw [hstate]
    exact hs.decoding_state p (hdecoding ▸ hp)
  rest_terminal := by
    rw [hsize, hwaiting, hdecoding]
    intro p hlt hw hd
    rw [hstate]
    exact hs.rest_terminal p hlt hw hd

theorem world (hs : s.Partition) (w : ω) : ({ s with world := w } : FifoScheduler ω).Partition :=
  hs.of_eq rfl (fun _ => rfl) rfl rfl

theorem store (hs : s.Partition) {q : Request} (hq : q.state = s.state r) (w : ω) :
    (s.store r q w).Partition := by
  refine hs.of_eq rfl (fun p => ?_) rfl rfl
  by_cases hp : p = r
  · subst hp
    rw [state, request_store_self, hq]
  · rw [state, request_store_of_ne s q w hp]
    rfl

theorem retired (hs : s.Partition) {q : Request} (hq : q.state.isTerminal = true) (w : ω) :
    (s.retired r q w).Partition := by
  have hother : ∀ {p}, p ≠ r → (s.retired r q w).state p = s.state p := by
    intro p hp
    rw [state, request_retired_of_ne s q w hp]
    rfl
  refine ⟨hs.waiting_nodup.erase r, hs.decoding_nodup.erase r, ?_, ?_, ?_, ?_, ?_⟩
  · intro p hp
    exact hs.waiting_lt p (List.mem_of_mem_erase hp)
  · intro p hp
    exact hs.decoding_lt p (List.mem_of_mem_erase hp)
  · intro p hp
    obtain ⟨hne, hp⟩ := hs.waiting_nodup.mem_erase_iff.mp hp
    rw [hother hne]
    exact hs.waiting_state p hp
  · intro p hp
    obtain ⟨hne, hp⟩ := hs.decoding_nodup.mem_erase_iff.mp hp
    rw [hother hne]
    exact hs.decoding_state p hp
  · intro p hlt hw hd
    by_cases hp : p = r
    · subst hp
      rw [state, request_retired_self]
      exact hq
    · rw [hother hp]
      exact hs.rest_terminal p hlt (fun h => hw ((List.mem_erase_of_ne hp).mpr h))
        (fun h => hd ((List.mem_erase_of_ne hp).mpr h))

theorem promoted (hs : s.Partition) (hr : r ∈ s.waiting) {q : Request} (hq : q.state = .decoding)
    (handle : SequenceHandle) (w : ω) : (s.promoted r handle q w).Partition := by
  have hother : ∀ {p}, p ≠ r → (s.promoted r handle q w).state p = s.state p := by
    intro p hp
    rw [state, request_promoted_of_ne s q w handle hp]
    rfl
  refine ⟨hs.waiting_nodup.filter _, ?_, ?_, ?_, ?_, ?_, ?_⟩
  · refine List.Nodup.append hs.decoding_nodup (List.nodup_singleton r) ?_
    intro p hp hpr
    rw [List.mem_singleton.mp hpr] at hp
    exact hs.notMem_decoding hr hp
  · intro p hp
    exact hs.waiting_lt p (List.mem_of_mem_filter hp)
  · intro p hp
    rcases List.mem_append.mp hp with hp | hp
    · exact hs.decoding_lt p hp
    · rw [List.mem_singleton.mp hp]
      exact hs.waiting_lt r hr
  · intro p hp
    obtain ⟨hp, hne⟩ := List.mem_filter.mp hp
    rw [hother (of_decide_eq_true hne)]
    exact hs.waiting_state p hp
  · intro p hp
    rcases List.mem_append.mp hp with hp | hp
    · rw [hother (fun h => hs.notMem_decoding hr (h ▸ hp))]
      exact hs.decoding_state p hp
    · rw [List.mem_singleton.mp hp, state, request_promoted_self]
      exact hq
  · intro p hlt hw hd
    have hne : p ≠ r := fun h => hd (List.mem_append_right _ (List.mem_singleton.mpr h))
    rw [hother hne]
    exact hs.rest_terminal p hlt (fun h => hw (List.mem_filter.mpr ⟨h, decide_eq_true hne⟩))
      (fun h => hd (List.mem_append_left _ h))

theorem admitted (hs : s.Partition) {q : Request} (hq : q.state = .waitingPrefill) (w : ω) :
    (s.admitted q w).Partition := by
  have hother : ∀ {p}, p < s.requests.size → (s.admitted q w).state p = s.state p := by
    intro p hp
    rw [state, request_admitted_of_lt s q w hp]
    rfl
  refine ⟨?_, hs.decoding_nodup, ?_, ?_, ?_, ?_, ?_⟩
  · refine List.Nodup.append hs.waiting_nodup (List.nodup_singleton _) ?_
    intro p hp hnew
    have hlt := hs.waiting_lt p hp
    rw [List.mem_singleton.mp hnew] at hlt
    exact lt_irrefl _ hlt
  · intro p hp
    rcases List.mem_append.mp hp with hp | hp
    · exact Nat.lt_succ_of_lt (hs.waiting_lt p hp)
    · rw [List.mem_singleton.mp hp]
      exact Nat.lt_succ_self _
  · intro p hp
    exact Nat.lt_succ_of_lt (hs.decoding_lt p hp)
  · intro p hp
    rcases List.mem_append.mp hp with hp | hp
    · rw [hother (hs.waiting_lt p hp)]
      exact hs.waiting_state p hp
    · rw [List.mem_singleton.mp hp, state, request_admitted_self]
      exact hq
  · intro p hp
    rw [hother (hs.decoding_lt p hp)]
    exact hs.decoding_state p hp
  · intro p hlt hw hd
    have hne : p ≠ s.requests.size := fun h =>
      hw (List.mem_append_right _ (List.mem_singleton.mpr h))
    have hlt' : p < s.requests.size := lt_of_le_of_ne (Nat.lt_succ_iff.mp hlt) hne
    rw [hother hlt']
    exact hs.rest_terminal p hlt' (fun h => hw (List.mem_append_left _ h)) hd

end Partition

/-! ### What each loop body does to the queues -/

/-- A pointer a loop still has to visit survives the removal of the one it visits now. -/
theorem mem_erase_of_later {r p : RequestPtr} {rest queue : List RequestPtr} (hr : r ∉ rest)
    (hp : p ∈ rest) (hmem : p ∈ queue) : p ∈ queue.erase r := by
  have hne : p ≠ r := fun h => hr (h ▸ hp)
  exact (List.mem_erase_of_ne hne).mpr hmem

section Bodies

variable {s s' : FifoScheduler ω} {r : RequestPtr}

theorem erase_of_waiting (hs : s.Partition) (hr : r ∈ s.waiting) :
    s.decoding.erase r = s.decoding := List.erase_of_not_mem (hs.notMem_decoding hr)

theorem erase_of_decoding (hs : s.Partition) (hr : r ∈ s.decoding) :
    s.waiting.erase r = s.waiting := List.erase_of_not_mem (hs.notMem_waiting hr)

variable [Clock ω] [InferenceBackend ω]

theorem failWaiting_queues (hs : s.Partition) (hr : r ∈ s.waiting)
    (h : s.failWaiting r = .ok s') :
    s'.Partition ∧ s'.waiting = s.waiting.erase r ∧ s'.decoding = s.decoding := by
  rw [failWaiting_of_waiting (hs.waiting_state r hr)] at h
  obtain ⟨w, -, hw⟩ := bind_eq_ok.mp h
  cases hw
  exact ⟨hs.retired rfl w, rfl, erase_of_waiting hs hr⟩

theorem failDecoding_queues (hs : s.Partition) (hr : r ∈ s.decoding)
    (h : s.failDecoding r = .ok s') :
    s'.Partition ∧ s'.waiting = s.waiting ∧ s'.decoding = s.decoding.erase r := by
  rw [failDecoding_of_decoding (hs.decoding_state r hr)] at h
  obtain ⟨w, -, hw⟩ := bind_eq_ok.mp h
  cases hw
  exact ⟨hs.retired rfl w, erase_of_decoding hs hr, rfl⟩

omit [Clock ω] [InferenceBackend ω] in
theorem valid_cancelled (hs : s.Partition) (hr : s.Live r) :
    isValidTransition (s.state r) .cancelled = true := by
  rcases hr with hr | hr
  · rw [hs.waiting_state r hr]
    rfl
  · rw [hs.decoding_state r hr]
    rfl

theorem cancelled_queues (hs : s.Partition) (hr : s.Live r) (h : s.retire r .cancelled = .ok s') :
    s'.Partition ∧ s'.waiting = s.waiting.erase r ∧ s'.decoding = s.decoding.erase r := by
  rw [retire_of_valid (valid_cancelled hs hr)] at h
  obtain ⟨w, -, hw⟩ := bind_eq_ok.mp h
  cases hw
  exact ⟨hs.retired rfl w, rfl, rfl⟩

/-- The request at the head of the waiting queue leaves it, whatever its outcome. -/
theorem prefillOutcome_queues {rest : List RequestPtr} {report report' : TickReport}
    {outcome : Except BackendError PrefillOutcome} (hs : s.Partition)
    (hwaiting : s.waiting = r :: rest)
    (h : prefillOutcome (s, report) r outcome = .ok (s', report')) :
    s'.Partition ∧ s'.waiting = rest := by
  have hr : r ∈ s.waiting := by rw [hwaiting]; exact List.mem_cons_self
  rcases prefillOutcome_cases (hs.waiting_state r hr) h with
    ⟨hfail, -⟩ | ⟨handle, t₁, t₂, t₃, w, rfl, -⟩
  · obtain ⟨hpart, hw, -⟩ := failWaiting_queues hs hr hfail
    refine ⟨hpart, ?_⟩
    rw [hw, hwaiting, List.erase_cons_head]
  · refine ⟨hs.promoted hr rfl handle w, ?_⟩
    have hnotMem : r ∉ rest := by
      have hnodup := hs.waiting_nodup
      rw [hwaiting] at hnodup
      exact (List.nodup_cons.mp hnodup).1
    change s.waiting.filter (· ≠ r) = rest
    rw [hwaiting, List.filter_cons_of_neg (by simp)]
    exact List.filter_eq_self.mpr (fun p hp => decide_eq_true (fun h => hnotMem (h ▸ hp)))

theorem decodeOutcome_queues {report report' : TickReport}
    {outcome : Except BackendError DecodedToken} (hs : s.Partition) (hr : r ∈ s.decoding)
    (h : decodeOutcome (s, report) r outcome = .ok (s', report')) :
    s'.Partition ∧ s'.waiting = s.waiting ∧
      (s'.decoding = s.decoding ∨ s'.decoding = s.decoding.erase r) := by
  rcases decodeOutcome_cases (hs.decoding_state r hr) h with
    ⟨hfail, -⟩ | ⟨token, -, ⟨-, ⟨stop, w, rfl⟩, -⟩ | ⟨-, rfl, -⟩⟩
  · obtain ⟨hpart, hw, hd⟩ := failDecoding_queues hs hr hfail
    exact ⟨hpart, hw, .inr hd⟩
  · exact ⟨hs.retired rfl w, erase_of_decoding hs hr, .inr rfl⟩
  · refine ⟨hs.store ?_ _, rfl, .inl rfl⟩
    rw [Request.state_emitted, RequestLifecycle.state_firstToken]
    rfl

end Bodies

/-! ### One rule per phase -/

section Rules

variable {fails : Panic → Prop}

theorem forEachOutcome_ensures {σ O : Type} {body : σ → RequestPtr → O → Except Panic σ}
    (inv : List RequestPtr → List O → σ → Prop)
    (hbody : ∀ r rest outcome outcomes s, inv (r :: rest) (outcome :: outcomes) s →
      Ensures (body s r outcome) fails (inv rest outcomes)) :
    ∀ (pending : List RequestPtr) (outcomes : List O) (s : σ),
      outcomes.length = pending.length → inv pending outcomes s →
        Ensures (forEachOutcome body s pending outcomes) fails (inv [] []) := by
  intro pending
  induction pending with
  | nil =>
      intro outcomes s hlength hs
      rw [List.length_eq_zero_iff.mp hlength] at hs
      exact hs
  | cons r rest ih =>
      intro outcomes s hlength hs
      cases outcomes with
      | nil => cases hlength
      | cons outcome outcomes =>
          exact (hbody r rest outcome outcomes s hs).bind
            (fun s' hs' => ih outcomes s' (Nat.succ.inj hlength) hs')

variable [Clock ω] [InferenceBackend ω] {s : FifoScheduler ω}

omit [InferenceBackend ω] in
theorem collectExpired_sublist (s : FifoScheduler ω) (queue : List RequestPtr) (w : ω) :
    (s.collectExpired queue w).1.Sublist queue := by
  induction queue generalizing w with
  | nil => exact List.Sublist.refl _
  | cons r rest ih =>
      unfold collectExpired
      simp only
      split_ifs
      · exact (ih _).cons_cons r
      · exact (ih _).cons r

/-- The requests found expired in the waiting queue, and the world after looking for them. -/
def expiredWaiting (s : FifoScheduler ω) : List RequestPtr × ω :=
  s.collectExpired s.waiting (Clock.now s.world).2

/-- The requests found expired in the decoding queue, and the world after looking for them. -/
def expiredDecoding (s : FifoScheduler ω) : List RequestPtr × ω :=
  s.collectExpired s.decoding s.expiredWaiting.2

/-- `inv` speaks about the expired requests of either queue that are still to be retired. -/
theorem expireDeadlines_ensures (hs : s.Partition)
    (inv : List RequestPtr → List RequestPtr → FifoScheduler ω → Prop)
    (hstart : inv s.expiredWaiting.1 s.expiredDecoding.1 { s with world := s.expiredDecoding.2 })
    (hwaiting : ∀ r rest t, t.Partition → r ∈ t.waiting → r ∉ rest → t.decoding = s.decoding →
      inv (r :: rest) s.expiredDecoding.1 t →
        Ensures (t.failWaiting r) fails (inv rest s.expiredDecoding.1))
    (hdecoding : ∀ r rest t, t.Partition → r ∈ t.decoding → r ∉ rest → inv [] (r :: rest) t →
      Ensures (t.failDecoding r) fails (inv [] rest)) :
    Ensures s.expireDeadlines fails (fun done => done.1.Partition ∧ inv [] [] done.1) := by
  have hsubW := collectExpired_sublist s s.waiting (Clock.now s.world).2
  have hsubD := collectExpired_sublist s s.decoding s.expiredWaiting.2
  unfold expireDeadlines
  simp only
  refine Ensures.bind (Ensures.foldlM (fun rest t => t.Partition ∧ rest.Nodup ∧
    (∀ p ∈ rest, p ∈ t.waiting) ∧ t.decoding = s.decoding ∧ inv rest s.expiredDecoding.1 t)
    ?_ s.expiredWaiting.1 { s with world := s.expiredDecoding.2 }
    ⟨hs.world _, hsubW.nodup hs.waiting_nodup, fun p hp => hsubW.subset hp, rfl, hstart⟩) ?_
  · rintro r rest t ⟨hpart, hnodup, hmem, hqueue, hinv⟩
    have hr := hmem r List.mem_cons_self
    obtain ⟨hnotMem, hnodup⟩ := List.nodup_cons.mp hnodup
    refine ((hwaiting r rest t hpart hr hnotMem hqueue hinv).and_ok
      (fun t' ht' => failWaiting_queues hpart hr ht')).imp ?_
    rintro t' ⟨hinv', hpart', hw', hd'⟩
    refine ⟨hpart', hnodup, ?_, hd'.trans hqueue, hinv'⟩
    intro p hp
    rw [hw']
    exact mem_erase_of_later hnotMem hp (hmem p (List.mem_cons_of_mem r hp))
  rintro t ⟨hpart, -, -, hqueue, hinv⟩
  refine Ensures.bind (Ensures.foldlM (fun rest t => t.Partition ∧ rest.Nodup ∧
    (∀ p ∈ rest, p ∈ t.decoding) ∧ inv [] rest t) ?_ s.expiredDecoding.1 t
    ⟨hpart, hsubD.nodup hs.decoding_nodup, fun p hp => hqueue ▸ hsubD.subset hp, hinv⟩) ?_
  · rintro r rest t ⟨hpart, hnodup, hmem, hinv⟩
    have hr := hmem r List.mem_cons_self
    obtain ⟨hnotMem, hnodup⟩ := List.nodup_cons.mp hnodup
    refine ((hdecoding r rest t hpart hr hnotMem hinv).and_ok
      (fun t' ht' => failDecoding_queues hpart hr ht')).imp ?_
    rintro t' ⟨hinv', hpart', -, hd'⟩
    refine ⟨hpart', hnodup, ?_, hinv'⟩
    intro p hp
    rw [hd']
    exact mem_erase_of_later hnotMem hp (hmem p (List.mem_cons_of_mem r hp))
  · rintro t ⟨hpart, -, -, hinv⟩
    exact ⟨hpart, hinv⟩

variable [AlignedBackend ω]

/-- The report a prefill phase starts its loop with. -/
def prefillReport (s : FifoScheduler ω) : TickReport :=
  { timestamp := (Clock.now s.world).1
    prefillTokens := (s.waiting.map fun r => (s.request r).promptTokenIds.length).sum
    prefillAttempted := s.waiting.length }

/-- `inv` speaks about the waiting requests whose outcome is still to be read. -/
theorem prefillPhase_ensures (hs : s.Partition)
    (inv : List RequestPtr → List (Except BackendError PrefillOutcome) →
      FifoScheduler ω × TickReport → Prop)
    (hcall : Ensures (InferenceBackend.prefill (Clock.now s.world).2 (s.prefillBatch s.waiting))
      (fun p => fails (.backend p)) (fun answer =>
        inv s.waiting answer.2.outcomes ({ s with world := answer.1 }, s.prefillReport)))
    (hbody : ∀ r rest outcome outcomes t report, t.Partition → t.waiting = r :: rest →
      inv (r :: rest) (outcome :: outcomes) (t, report) →
        Ensures (prefillOutcome (t, report) r outcome) fails (inv rest outcomes)) :
    Ensures s.prefillPhase fails (fun done =>
      done.1.Partition ∧ done.1.waiting = [] ∧ inv [] [] done) := by
  unfold prefillPhase
  simp only
  refine Ensures.bind (ensures_callBackend.mpr (hcall.and_ok (fun answer h =>
    AlignedBackend.prefill_length _ _ _ answer.2 h))) ?_
  rintro answer ⟨hinv, hlength⟩
  refine forEachOutcome_ensures (fun rest outcomes t =>
    t.1.Partition ∧ t.1.waiting = rest ∧ inv rest outcomes t) ?_ s.waiting _ _ ?_
    ⟨hs.world _, rfl, hinv⟩
  · rintro r rest outcome outcomes ⟨t, report⟩ ⟨hpart, hwaiting, hinv⟩
    refine ((hbody r rest outcome outcomes t report hpart hwaiting hinv).and_ok
      (fun t' ht' => prefillOutcome_queues hpart hwaiting ht')).imp ?_
    rintro t' ⟨hinv', hpart', hwaiting'⟩
    exact ⟨hpart', hwaiting', hinv'⟩
  · rw [hlength]
    simp [prefillBatch]

/-- The report a decode phase starts its loop with. -/
def decodeReport (s : FifoScheduler ω) : TickReport :=
  { timestamp := (Clock.now s.world).1
    decodeTokens := s.decoding.length
    decodeAttempted := s.decoding.length }

/-- `inv` speaks about the decoding requests whose outcome is still to be read. -/
theorem decodePhase_ensures (hs : s.Partition)
    (inv : List RequestPtr → List (Except BackendError DecodedToken) →
      FifoScheduler ω × TickReport → Prop)
    (hcall : Ensures (s.decoding.mapM s.decodeRequest) fails (fun batch =>
      Ensures (InferenceBackend.decode (Clock.now s.world).2 ⟨batch⟩)
        (fun p => fails (.backend p)) (fun answer =>
          inv s.decoding answer.2.outcomes ({ s with world := answer.1 }, s.decodeReport))))
    (hbody : ∀ r rest outcome outcomes t report, t.Partition → r ∈ t.decoding → r ∉ rest →
      (∀ p ∈ rest, p ∈ t.decoding) → t.waiting = s.waiting →
      inv (r :: rest) (outcome :: outcomes) (t, report) →
        Ensures (decodeOutcome (t, report) r outcome) fails (inv rest outcomes)) :
    Ensures s.decodePhase fails (fun done =>
      done.1.Partition ∧ done.1.waiting = s.waiting ∧ inv [] [] done) := by
  unfold decodePhase
  simp only
  refine Ensures.bind (hcall.and_ok (fun batch h => length_of_mapM h)) ?_
  rintro batch ⟨hanswer, hbatch⟩
  refine Ensures.bind (ensures_callBackend.mpr (hanswer.and_ok (fun answer h =>
    AlignedBackend.decode_length _ _ _ answer.2 h))) ?_
  rintro answer ⟨hinv, hlength⟩
  refine (forEachOutcome_ensures (fun rest outcomes t => t.1.Partition ∧ rest.Nodup ∧
    (∀ p ∈ rest, p ∈ t.1.decoding) ∧ t.1.waiting = s.waiting ∧ inv rest outcomes t) ?_ s.decoding
    _ _ ?_ ⟨hs.world _, hs.decoding_nodup, fun _ hp => hp, rfl, hinv⟩).imp ?_
  · rintro r rest outcome outcomes ⟨t, report⟩ ⟨hpart, hnodup, hmem, hwaiting, hinv⟩
    obtain ⟨hnotMem, hnodup⟩ := List.nodup_cons.mp hnodup
    have hr := hmem r List.mem_cons_self
    have hrest : ∀ p ∈ rest, p ∈ t.decoding := fun p hp => hmem p (List.mem_cons_of_mem r hp)
    refine ((hbody r rest outcome outcomes t report hpart hr hnotMem hrest hwaiting hinv).and_ok
      (fun t' ht' => decodeOutcome_queues hpart hr ht')).imp ?_
    rintro t' ⟨hinv', hpart', hwaiting', hdecoding'⟩
    refine ⟨hpart', hnodup, ?_, hwaiting'.trans hwaiting, hinv'⟩
    intro p hp
    rcases hdecoding' with hsame | herased
    · rw [hsame]
      exact hrest p hp
    · rw [herased]
      exact mem_erase_of_later hnotMem hp (hrest p hp)
  · rw [hlength, hbatch]
  · rintro t ⟨hpart, -, -, hwaiting, hinv⟩
    exact ⟨hpart, hwaiting, hinv⟩

omit [AlignedBackend ω] in
/-- A tick is its three phases and a last look at the clock. -/
theorem tick_ensures {post : FifoScheduler ω × TickReport → Prop}
    (afterExpire : FifoScheduler ω × TickReport → Prop)
    (afterPrefill : TickReport → FifoScheduler ω × TickReport → Prop)
    (hexpire : Ensures s.expireDeadlines fails afterExpire)
    (hprefill : ∀ a, afterExpire a → Ensures a.1.prefillPhase fails (afterPrefill a.2))
    (hdecode : ∀ a b, afterPrefill a b → Ensures b.1.decodePhase fails (fun c =>
      post ({ c.1 with world := (Clock.now c.1.world).2 },
        TickReport.merge (Clock.now c.1.world).1 a b.2 c.2))) :
    Ensures s.tick fails post := by
  unfold tick
  refine hexpire.bind (fun a ha => ?_)
  refine (hprefill a ha).bind (fun b hb => ?_)
  refine (hdecode a.2 b hb).bind (fun c hc => ?_)
  exact hc

end Rules

end Tokamak.FifoScheduler
