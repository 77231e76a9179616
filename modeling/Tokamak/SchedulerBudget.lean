import Tokamak.SchedulerOrder
import Tokamak.Simulation

/-! Budgets. A decoding request that is left over from an earlier tick can always emit one more token.
A request that is prefilled in the tick has emitted none, so the decode phase that follows is within
its budget exactly if the budget is not zero, and nothing on the way there looks at it. -/

open Outcome

namespace Tokamak.FifoScheduler

variable {ω : Type}

/-- The requests of a prefill batch that the backend accepted. -/
def granted : List RequestPtr → List (Except BackendError PrefillOutcome) → List RequestPtr
  | [], _ => []
  | _ :: _, [] => []
  | r :: rest, .ok _ :: outcomes => r :: granted rest outcomes
  | _ :: rest, .error _ :: outcomes => granted rest outcomes

theorem mem_of_granted {r : RequestPtr} {queue : List RequestPtr}
    {outcomes : List (Except BackendError PrefillOutcome)} (h : r ∈ granted queue outcomes) :
    r ∈ queue := by
  induction queue generalizing outcomes with
  | nil => cases h
  | cons p rest ih =>
      cases outcomes with
      | nil => cases h
      | cons outcome outcomes =>
          cases outcome with
          | error e => exact List.mem_cons_of_mem p (ih h)
          | ok out =>
              rcases List.mem_cons.mp h with rfl | h
              · exact List.mem_cons_self
              · exact List.mem_cons_of_mem p (ih h)

section Phases

variable [Clock ω] [InferenceBackend ω]

/-- What the backend answers to the prefill call of a phase that starts here. -/
def prefillAnswer (s : FifoScheduler ω) : Except BackendPanic (ω × PrefillResult) :=
  InferenceBackend.prefill (Clock.now s.world).2 (s.prefillBatch s.waiting)

/-- Every request has budget left when the tick's decode phase starts. -/
def DecodesWithinBudget (s : FifoScheduler ω) : Prop :=
  ∀ a b, s.expireDeadlines = .ok a → a.1.prefillPhase = .ok b →
    ∀ r ∈ b.1.decoding, (b.1.request r).outputTokensEmitted < (b.1.request r).maxOutputTokens

/-- No request without a budget is prefilled by the tick. -/
def PrefillsFunded (s : FifoScheduler ω) : Prop :=
  ∀ a b answer, s.expireDeadlines = .ok a → a.1.prefillPhase = .ok b →
    a.1.prefillAnswer = .ok answer →
      ∀ r ∈ granted a.1.waiting answer.2.outcomes, (a.1.request r).maxOutputTokens ≠ 0

instance fundedDecidable (s : FifoScheduler ω) : Decidable s.PrefillsFunded :=
  match hexpire : s.expireDeadlines with
  | .error _ => isTrue (fun a b answer ha => by
      rw [hexpire] at ha
      cases ha)
  | .ok a =>
      match hprefill : a.1.prefillPhase, hanswer : a.1.prefillAnswer with
      | .error _, _ => isTrue (fun a' b answer ha hb => by
          rw [hexpire] at ha
          cases ha
          rw [hprefill] at hb
          cases hb)
      | .ok _, .error _ => isTrue (fun a' b answer ha hb hcall => by
          rw [hexpire] at ha
          cases ha
          rw [hanswer] at hcall
          cases hcall)
      | .ok b, .ok answer =>
          decidable_of_iff (∀ r ∈ granted a.1.waiting answer.2.outcomes,
            (a.1.request r).maxOutputTokens ≠ 0)
            ⟨fun h a' b' answer' ha hb hcall => by
              rw [hexpire] at ha
              cases ha
              rw [hanswer] at hcall
              cases hcall
              exact h, fun h => h a b answer hexpire hprefill hanswer⟩

/-- The backend is the only thing that can go wrong. -/
def BackendAbort (p : Panic) : Prop := ∃ q, p = .backend q

theorem backendAbort_ne (p : Panic) (h : BackendAbort p) : p ≠ .tokenBudgetExceeded := by
  obtain ⟨q, rfl⟩ := h
  simp

theorem backend_aborts {α : Type} (x : Except BackendPanic α) :
    Ensures x (fun p => BackendAbort (.backend p)) (fun _ => True) :=
  ensures_iff.mpr ⟨fun _ _ => trivial, fun p _ => ⟨p, rfl⟩⟩

omit [Clock ω] in
theorem releasedWorld_aborts (s : FifoScheduler ω) (id : RequestId) (w : ω) :
    Ensures (s.releasedWorld id w) BackendAbort (fun _ => True) := by
  unfold releasedWorld
  split
  · trivial
  · exact ensures_callBackend.mpr (backend_aborts _)

variable {s : FifoScheduler ω} {r : RequestPtr}

theorem failWaiting_aborts (hs : s.Partition) (hr : r ∈ s.waiting) :
    Ensures (s.failWaiting r) BackendAbort (fun _ => True) := by
  rw [failWaiting_of_waiting (hs.waiting_state r hr)]
  exact (releasedWorld_aborts s _ _).bind (fun _ _ => trivial)

theorem failDecoding_aborts (hs : s.Partition) (hr : r ∈ s.decoding) :
    Ensures (s.failDecoding r) BackendAbort (fun _ => True) := by
  rw [failDecoding_of_decoding (hs.decoding_state r hr)]
  exact (releasedWorld_aborts s _ _).bind (fun _ _ => trivial)

theorem expireDeadlines_aborts (hs : s.Partition) :
    Ensures s.expireDeadlines BackendAbort (fun done => done.1.Partition) := by
  refine (expireDeadlines_ensures hs (fun _ _ _ => True) trivial ?_ ?_).imp (fun _ h => h.1)
  · intro r rest t ht hr _ _ _
    exact failWaiting_aborts ht hr
  · intro r rest t ht hr _ _
    exact failDecoding_aborts ht hr

theorem cancelFirst_aborts (hs : s.Partition) {queue : List RequestPtr}
    (hqueue : ∀ p ∈ queue, s.Live p) (id : RequestId) :
    Ensures (s.cancelFirst queue id) BackendAbort Partition := by
  unfold cancelFirst
  cases hfind : queue.find? (fun r => s.requestId r = id) with
  | none => exact hs
  | some r =>
      have hvalid := valid_cancelled hs (hqueue r (List.mem_of_find?_eq_some hfind))
      simp only
      rw [retire_of_valid hvalid]
      exact (releasedWorld_aborts s _ _).bind (fun _ _ => hs.retired rfl _)

theorem cancel_aborts (hs : s.Partition) (id : RequestId) :
    Ensures (s.cancel id) BackendAbort Partition :=
  (cancelFirst_aborts hs (fun _ hp => .inl hp) id).bind
    (fun _ ht => cancelFirst_aborts ht (fun _ hp => .inr hp) id)

variable [AlignedBackend ω]

theorem prefillPhase_aborts (hs : s.Partition) :
    Ensures s.prefillPhase BackendAbort (fun done => done.1.Partition) := by
  refine (prefillPhase_ensures hs (fun _ _ _ => True) (backend_aborts _) ?_).imp (fun _ h => h.1)
  intro r rest outcome outcomes t report ht hwaiting _
  have hr : r ∈ t.waiting := by rw [hwaiting]; exact List.mem_cons_self
  cases outcome with
  | error e => exact (failWaiting_aborts ht hr).bind (fun _ _ => trivial)
  | ok out =>
      unfold prefillOutcome
      simp only
      rw [promote_of_waiting out.handle (ht.waiting_state r hr)]
      trivial

/-- The prefill phase appends the accepted requests to those that decode already. -/
theorem prefillPhase_granted (hs : s.Partition) {answer : ω × PrefillResult}
    (hanswer : s.prefillAnswer = .ok answer) :
    Ensures s.prefillPhase (fun _ => True) (fun done =>
      done.1.decoding = s.decoding ++ granted s.waiting answer.2.outcomes) := by
  refine (prefillPhase_ensures hs (fun rest outcomes t =>
    t.1.decoding ++ granted rest outcomes = s.decoding ++ granted s.waiting answer.2.outcomes)
    ?_ ?_).imp (fun done h => ?_)
  · rw [show InferenceBackend.prefill (Clock.now s.world).2 (s.prefillBatch s.waiting) = _ from
      hanswer]
    rfl
  · intro r rest outcome outcomes t report ht hwaiting hinv
    have hr : r ∈ t.waiting := by rw [hwaiting]; exact List.mem_cons_self
    cases outcome with
    | error e =>
        refine ensures_iff.mpr ⟨fun t' ht' => ?_, fun _ _ => trivial⟩
        obtain ⟨next, hnext, ht'⟩ := bind_eq_ok.mp ht'
        cases ht'
        rw [(failWaiting_queues ht hr hnext).2.2]
        exact hinv
    | ok out =>
        unfold prefillOutcome
        simp only
        rw [promote_of_waiting out.handle (ht.waiting_state r hr)]
        change (t.decoding ++ [r]) ++ granted rest outcomes = _
        rw [List.append_assoc]
        exact hinv
  · have hall := h.2.2
    rw [granted, List.append_nil] at hall
    exact hall

omit [Clock ω] [InferenceBackend ω] [AlignedBackend ω] in
theorem decodeRequests_aborts (s : FifoScheduler ω) (queue : List RequestPtr) :
    Ensures (queue.mapM s.decodeRequest) (· = .outOfRange) (List.Forall₂ (fun _ _ => True) queue) := by
  refine Ensures.mapM (fun _ _ => True) queue (fun r _ => ?_)
  unfold decodeRequest
  split
  · rfl
  · trivial

/-- A decode phase that starts within all budgets ends there. -/
theorem decodePhase_funded (hs : s.Partition)
    (hfunded : ∀ r ∈ s.decoding, (s.request r).outputTokensEmitted < (s.request r).maxOutputTokens) :
    Ensures s.decodePhase (· ≠ .tokenBudgetExceeded) (fun _ => True) := by
  refine (decodePhase_ensures hs (fun rest _ t => (∀ p ∈ rest, t.1.request p = s.request p) ∧
    ∀ p ∈ rest, p ∈ s.decoding) ?_ ?_).imp (fun _ _ => trivial)
  · refine ensures_iff.mpr ⟨fun batch _ => ?_, fun p hp => ?_⟩
    · exact (backend_aborts _).mono (fun p hp => by simp) (fun _ _ => ⟨fun _ _ => rfl, fun _ h => h⟩)
    · rw [(decodeRequests_aborts s s.decoding).error hp]
      decide
  · rintro r rest outcome outcomes t report ht hr hrest - - ⟨hsame, hsub⟩
    have hsafe : Ensures (decodeOutcome (t, report) r outcome) (· ≠ .tokenBudgetExceeded)
        (fun _ => True) := by
      cases outcome with
      | error e =>
          have hfail := (failDecoding_aborts ht hr).mono backendAbort_ne (fun _ h => h)
          exact hfail.bind (fun _ _ => trivial)
      | ok token =>
          have hbudget := hfunded r (hsub r List.mem_cons_self)
          rw [decodeOutcome_ok_of_decoding (ht.decoding_state r hr),
            hsame r List.mem_cons_self, if_neg (not_le.mpr hbudget)]
          split_ifs
          · refine Ensures.bind ((releasedWorld_aborts t _ _).mono backendAbort_ne (fun _ h => h)) ?_
            exact fun _ _ => trivial
          · trivial
    refine (hsafe.and_ok (fun t' ht' => ?_)).imp (fun _ h => h.2)
    obtain ⟨-, hothers, -⟩ := decodeOutcome_answered ht hr ht'
    refine ⟨fun p hp => ?_, fun p hp => hsub p (List.mem_cons_of_mem r hp)⟩
    rw [hothers p (fun heq => hrest (heq ▸ hp))]
    exact hsame p (List.mem_cons_of_mem r hp)

omit [AlignedBackend ω] in
theorem prefillPhase_answered {done : FifoScheduler ω × TickReport} (h : s.prefillPhase = .ok done) :
    ∃ answer, s.prefillAnswer = .ok answer := by
  obtain ⟨answer, hanswer, -⟩ := bind_eq_ok.mp h
  exact ⟨answer, callBackend_eq_ok.mp hanswer⟩

omit [Clock ω] [InferenceBackend ω] [AlignedBackend ω] in
/-- The expiry leaves a request alone that is live after it. -/
theorem Culled.eq_of_live {q q' : Request} (h : Culled q q') (hlive : q'.state.isTerminal = false) :
    q' = q := by
  rcases h with heq | ⟨-, -, -, hfailed⟩
  · exact heq
  · rw [hfailed] at hlive
    cases hlive

omit [Clock ω] [InferenceBackend ω] [AlignedBackend ω] in
theorem Prefilled.same {q q' : Request} (h : Prefilled q q') :
    q'.outputTokensEmitted = q.outputTokensEmitted ∧ q'.maxOutputTokens = q.maxOutputTokens := by
  rcases h with heq | ⟨-, hterms, htokens, -⟩
  · rw [heq]
    exact ⟨rfl, rfl⟩
  · exact ⟨htokens.outputTokensEmitted, hterms.maxOutputTokens⟩

/-- Who was prefilled decodes; who decoded before has budget left. -/
theorem FirstCome.funded_iff (hs : s.FirstCome) : s.DecodesWithinBudget ↔ s.PrefillsFunded := by
  constructor
  · intro h a b answer ha hb hanswer r hr
    obtain ⟨hpart, -, -⟩ := (expireDeadlines_culls hs.partition).ok ha
    have hdecoding := (prefillPhase_granted hpart hanswer).ok hb
    have hsame := (((prefillPhase_prefills hpart).ok hb).2.2.2 r).same
    have hbudget := h a b ha hb r (by rw [hdecoding]; exact List.mem_append_right _ hr)
    omega
  · intro h a b ha hb r hr
    obtain ⟨answer, hanswer⟩ := prefillPhase_answered hb
    obtain ⟨hpart, hsize, hculled⟩ := (expireDeadlines_culls hs.partition).ok ha
    have hsame := (((prefillPhase_prefills hpart).ok hb).2.2.2 r).same
    rw [(prefillPhase_granted hpart hanswer).ok hb] at hr
    have hlive : a.1.Live r :=
      (List.mem_append.mp hr).symm.imp (fun hmem => mem_of_granted hmem) (fun hmem => hmem)
    obtain ⟨hlt, hrunning⟩ := (hpart.live_iff r).mp hlive
    have heq : a.1.request r = s.request r := (hculled r).eq_of_live hrunning
    rw [hsize] at hlt
    rcases List.mem_append.mp hr with hmem | hmem
    · have hstate := hpart.decoding_state r hmem
      rw [state, heq] at hstate
      have hbudget := (hs.decoding r (hs.partition.mem_decoding hlt hstate)).2
      rw [hsame.1, hsame.2, heq]
      exact hbudget
    · have hstate := hpart.waiting_state r (mem_of_granted hmem)
      rw [state, heq] at hstate
      have hnone := hs.waiting r (hs.partition.mem_waiting hlt hstate) r le_rfl hlt
      have hfunded := h a b answer ha hb hanswer r hmem
      rw [hsame.1, hsame.2, heq, hnone]
      exact Nat.pos_of_ne_zero (heq ▸ hfunded)

theorem tick_funded (hs : s.FirstCome) (hfunded : s.DecodesWithinBudget) :
    Ensures s.tick (· ≠ .tokenBudgetExceeded) (fun _ => True) := by
  refine tick_ensures (fun a => a.1.Partition ∧ s.expireDeadlines = .ok a)
    (fun _ b => b.1.Partition ∧ ∃ a, s.expireDeadlines = .ok a ∧ a.1.prefillPhase = .ok b) ?_ ?_ ?_
  · refine ((expireDeadlines_aborts hs.partition).and_ok (fun a ha => ha)).mono backendAbort_ne ?_
    exact fun _ h => h
  · rintro a ⟨hpart, ha⟩
    refine ((prefillPhase_aborts hpart).and_ok (fun b hb => hb)).mono backendAbort_ne ?_
    rintro b ⟨hpart', hb⟩
    exact ⟨hpart', a, ha, hb⟩
  · rintro _ b ⟨hpart, a, ha, hb⟩
    exact decodePhase_funded hpart (hfunded a b ha hb)

end Phases

section Runs

variable [Clock ω] [InferenceBackend ω] [Environment ω] {s : FifoScheduler ω}

/-- `guard` is asked of the ticks of a run only. -/
def AtTick (guard : FifoScheduler ω → Prop) (s : FifoScheduler ω) : SchedulerOp ω → Prop
  | .tick => guard s
  | _ => True

instance (guard : FifoScheduler ω → Prop) [DecidablePred guard] (s : FifoScheduler ω) :
    (op : SchedulerOp ω) → Decidable (AtTick guard s op)
  | .submit .. => inferInstanceAs (Decidable True)
  | .cancel _ => inferInstanceAs (Decidable True)
  | .tick => inferInstanceAs (Decidable (guard s))
  | .event _ => inferInstanceAs (Decidable True)

variable [AlignedBackend ω]

theorem apply_funded (hs : s.FirstCome) {op : SchedulerOp ω} (hfunded : AtTick DecodesWithinBudget s op) :
    Ensures (s.apply op) (· ≠ .tokenBudgetExceeded) FirstCome := by
  have hsafe : Ensures (s.apply op) (· ≠ .tokenBudgetExceeded) (fun _ => True) := by
    cases op with
    | submit id deadlineFromNow maxOutputTokens promptTokenIds priority =>
        rw [apply_submit]
        trivial
    | cancel id => exact (cancel_aborts hs.partition id).mono backendAbort_ne (fun _ _ => trivial)
    | tick => exact (tick_funded hs hfunded).bind (fun _ _ => trivial)
    | event e =>
        refine Ensures.bind ((ensures_callBackend.mpr (backend_aborts _)).mono backendAbort_ne
          (fun _ h => h)) ?_
        exact fun _ _ => trivial
  exact (hsafe.and_ok (fun t ht => (apply_firstCome hs op).ok ht)).imp (fun _ h => h.2)

/-- **When the budget panic is out of reach.** For every run, whatever was submitted: every decode
phase starts with all its requests within their budgets, and no token is emitted beyond a budget, if
and only if no tick prefills a request whose budget is zero. -/
theorem budget_respected (w : ω) (ops : List (SchedulerOp ω)) :
    (Guarded apply (AtTick DecodesWithinBudget) (new w) ops ∧
        run apply (new w) ops ≠ .error .tokenBudgetExceeded) ↔
      Guarded apply (AtTick PrefillsFunded) (new w) ops := by
  have hiff : Guarded apply (AtTick DecodesWithinBudget) (new w) ops ↔
      Guarded apply (AtTick PrefillsFunded) (new w) ops := by
    refine guarded_congr FirstCome ?_ ?_ (new w) (firstCome_new w) ops
    · intro s op t hs ht
      exact (apply_firstCome hs op).ok ht
    · intro s op hs
      cases op with
      | tick => exact hs.funded_iff
      | submit _ _ _ _ _ => exact Iff.rfl
      | cancel _ => exact Iff.rfl
      | event _ => exact Iff.rfl
  rw [← hiff]
  refine ⟨fun h => h.1, fun h => ⟨h, fun hrun => ?_⟩⟩
  exact (run_ensures_guarded (fun _ _ hs hop => apply_funded hs hop) (new w) (firstCome_new w) ops
    h).error hrun rfl

end Runs

/-- The request without a budget is cancelled before a tick prefills it. -/
def cancelledInTime : List (SchedulerOp MockBackend) :=
  [.submit "a" 1000 2 [7] 0, .submit "b" 1000 0 [7] 0, .cancel "b", .tick, .tick]

theorem budget_respected_cancelled :
    run apply (new (MockBackend.new ⟨0⟩ 1 5)) cancelledInTime ≠ .error .tokenBudgetExceeded := by
  have hfunded : Guarded apply (AtTick PrefillsFunded) (new (MockBackend.new ⟨0⟩ 1 5))
      cancelledInTime := by decide +kernel
  exact ((budget_respected (MockBackend.new ⟨0⟩ 1 5) cancelledInTime).mpr hfunded).2

/-- One record that asks for no tokens. -/
def zeroBudget : Workload := ⟨[⟨"a", 0, [7], 0, 100⟩], List.pairwise_singleton _ _⟩

/-- A client's zero aborts the process: through a workload file, and through a submission. -/
theorem budget_panic :
    runSimulation 1 zeroBudget = some (.error .tokenBudgetExceeded) ∧
      run apply (new (MockBackend.new ⟨0⟩ 1 5)) [.submit "a" 1000 0 [7] 0, .tick] =
        .error .tokenBudgetExceeded := by
  constructor
  · have hview : (runSimulation 1 zeroBudget).map (fun out => out.map fun _ => ()) =
        some (.error .tokenBudgetExceeded) := by decide +kernel
    obtain ⟨out, hout, herror⟩ := Option.map_eq_some_iff.mp hview
    rw [hout, error_of_map_error herror]
  · have hview : (run apply (new (MockBackend.new ⟨0⟩ 1 5))
        [.submit "a" 1000 0 [7] 0, .tick]).map (fun _ => ()) = .error .tokenBudgetExceeded := by
      decide +kernel
    exact error_of_map_error hview

end Tokamak.FifoScheduler
