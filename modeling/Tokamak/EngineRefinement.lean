import Tokamak.EngineBooks
import Tokamak.Refinement
import Tokamak.SchedulerDeadline64
import Tokamak.SchedulerOrder

/-! The engine as a client of the scheduler. Every step of the system amounts to at most one call on
the scheduler, which `schedulerCalls` reads off the thread's position, so a run of the engine is a run
of the scheduler on those calls. They submit what was accepted, in that order, and cancel what was
drained. Nothing here asks the ids to be distinct: what holds of every run of a scheduler holds of the
one inside the engine, whatever its clients do. -/

open Outcome

namespace Tokamak

namespace SchedulerOp

variable {ω : Type} [Environment ω]

/-- What a client gave the request of a `submit`. -/
def submitted : SchedulerOp ω → Option (RequestId × Duration × Nat × List UInt32)
  | .submit id deadlineFromNow maxOutputTokens promptTokenIds _ =>
      some (id, deadlineFromNow, maxOutputTokens, promptTokenIds)
  | _ => none

def cancelled : SchedulerOp ω → Option RequestId
  | .cancel id => some id
  | _ => none

def occurred : SchedulerOp ω → Option (Environment.Event ω)
  | .event e => some e
  | _ => none

end SchedulerOp

/-- The part of a submission that becomes the request. -/
def Submission.terms (sub : Submission) : RequestId × Duration × Nat × List UInt32 :=
  (sub.id, sub.deadline, sub.maxTokens, sub.promptTokenIds)

/-- What an action does to the world, if anything. -/
def EngineAction.events {ω : Type} [Environment ω] : EngineAction ω → List (Environment.Event ω)
  | .event e => [e]
  | _ => []

namespace FifoScheduler

variable {ω : Type} [Clock ω] [InferenceBackend ω] [Environment ω]

/-- A request carries what its client gave it. -/
def HasTerms (q : Request) (terms : RequestId × Duration × Nat × List UInt32) : Prop :=
  q.id = terms.1 ∧ q.maxOutputTokens = terms.2.2.1 ∧ q.promptTokenIds = terms.2.2.2

/-- The requests a scheduler owns are those submitted, in the order of submission. -/
structure Ordered (past : List (SchedulerOp ω)) (s : FifoScheduler ω) : Prop where
  firstCome : s.FirstCome
  terms : List.Forall₂ (fun p terms => HasTerms (s.request p) terms) (List.range s.requests.size)
    (past.filterMap SchedulerOp.submitted)

omit [Clock ω] [InferenceBackend ω] in
theorem ordered_new (w : ω) : Ordered [] (new w) := ⟨firstCome_new w, .nil⟩

theorem Ordered.apply [AlignedBackend ω] {past : List (SchedulerOp ω)} {s : FifoScheduler ω}
    (hs : Ordered past s) (op : SchedulerOp ω) :
    Ensures (s.apply op) (fun _ => True) (Ordered (past ++ [op])) := by
  refine ensures_iff.mpr ⟨fun t ht => ⟨(apply_firstCome hs.firstCome op).ok ht, ?_⟩, fun _ _ => trivial⟩
  have hsame := fun p hp => apply_sameTerms hs.firstCome.partition ht (p := p) hp
  have hkept : List.Forall₂ (fun p terms => HasTerms (t.request p) terms)
      (List.range s.requests.size) (past.filterMap SchedulerOp.submitted) := by
    refine forall₂_imp_of_mem hs.terms (fun p hp terms hterms => ?_)
    have hp := hsame p (List.mem_range.mp hp)
    unfold HasTerms
    rw [hp.id, hp.maxOutputTokens, hp.promptTokenIds]
    exact hterms
  have hsilent : op.submitted = none → List.Forall₂ (fun p terms => HasTerms (t.request p) terms)
      (List.range s.requests.size) ((past ++ [op]).filterMap SchedulerOp.submitted) := by
    intro hnone
    rw [List.filterMap_append, List.filterMap_cons_none hnone, List.filterMap_nil, List.append_nil]
    exact hkept
  cases op with
  | submit id deadlineFromNow maxOutputTokens promptTokenIds priority =>
      rw [apply_submit] at ht
      cases ht
      change List.Forall₂ _ (List.range (s.requests.size + 1)) _
      rw [List.range_succ, List.filterMap_append]
      refine List.rel_append hkept (.cons ?_ .nil)
      unfold HasTerms
      rw [request_admitted_self]
      exact ⟨rfl, rfl, rfl⟩
  | cancel id =>
      rw [(cancel_cancelled hs.firstCome.partition ht).size]
      exact hsilent rfl
  | tick =>
      obtain ⟨done, htick, hdone⟩ := bind_eq_ok.mp ht
      cases hdone
      rw [((tick_evolves hs.firstCome.partition).ok htick).2.2.1]
      exact hsilent rfl
  | event e =>
      obtain ⟨w, -, hw⟩ := bind_eq_ok.mp ht
      cases hw
      exact hsilent rfl

theorem run_ordered [AlignedBackend ω] (w : ω) {ops : List (SchedulerOp ω)} {s : FifoScheduler ω}
    (hrun : run FifoScheduler.apply (new w) ops = .ok s) : Ordered ops s := by
  have hall : Ensures (run FifoScheduler.apply (new w) ops) (fun _ => True)
      (Ordered ([] ++ history FifoScheduler.apply (fun _ op => [op]) (new w) ops)) :=
    run_history Ordered (fun past u op hu => hu.apply op) [] (new w) (ordered_new w) ops
  have hordered := hall.ok hrun
  rwa [history_actions hrun, List.nil_append] at hordered

end FifoScheduler

namespace Engine

variable {ω : Type}

section Calls

variable [Environment ω]

/-- The call on the scheduler that a step makes; what happens to its world counts as one. -/
def schedulerCalls (g : Engine ω) : EngineAction ω → List (SchedulerOp ω)
  | .event e => [.event e]
  | .engine choice _ =>
      match g.pc with
      | .admitting (sub :: _) => [.submit sub.id sub.deadline sub.maxTokens sub.promptTokenIds 0]
      | .cancelling (id :: _) => [.cancel id]
      | .tick => if g.active.keys = [] then [] else [.tick]
      | .expelling toCancel => (pick toCancel choice).toList.map .cancel
      | _ => []
  | _ => []

end Calls

section Step

variable [Clock ω] [InferenceBackend ω] [Environment ω] {g g' : Engine ω}

/-- An admission is a `submit` of the scheduler with priority 0. -/
theorem apply_admitSubmission {sub : Submission} (h : g.admitSubmission sub = .ok g') :
    g.scheduler.apply (.submit sub.id sub.deadline sub.maxTokens sub.promptTokenIds 0) =
      .ok g'.scheduler := by
  unfold admitSubmission at h
  obtain ⟨done, hdone, h⟩ := bind_eq_ok.mp h
  cases h
  unfold FifoScheduler.apply
  simp only
  rw [hdone]
  rfl

omit [Environment ω] in
theorem scheduler_of_cancelRequest {id : RequestId} (h : g.cancelRequest id = .ok g') :
    g.scheduler.cancel id = .ok g'.scheduler := by
  obtain ⟨t, ht, ⟨-, rfl⟩ | ⟨e, -, rfl⟩⟩ := cancelRequest_ok h
  · exact ht
  · exact ht

omit [Environment ω] in
theorem scheduler_of_expel {id : RequestId} (h : g.expel id = .ok g') :
    g.scheduler.cancel id = .ok g'.scheduler := by
  obtain ⟨e, t, ht, -, rfl⟩ := expel_ok h
  exact ht

/-- The calls of a step of the engine thread. -/
theorem engineStep_simulates {choice : Nat} {steadyNow : TimePoint}
    (h : g.engineStep choice steadyNow = .ok g') :
    run FifoScheduler.apply g.scheduler (g.schedulerCalls (.engine choice steadyNow)) =
      .ok g'.scheduler := by
  have hnone : g'.scheduler = g.scheduler →
      run FifoScheduler.apply g.scheduler [] = .ok g'.scheduler := fun heq => by rw [heq, run_nil]
  unfold engineStep at h
  unfold schedulerCalls
  cases hpc : g.pc with
  | admitting batch =>
      rw [hpc] at h
      cases batch with
      | nil =>
          cases h
          exact hnone rfl
      | cons sub rest =>
          obtain ⟨u, hu, h⟩ := bind_eq_ok.mp h
          cases h
          simp only
          rw [run_singleton]
          exact apply_admitSubmission hu
  | cancelling batch =>
      rw [hpc] at h
      cases batch with
      | nil =>
          cases h
          exact hnone rfl
      | cons id rest =>
          obtain ⟨u, hu, h⟩ := bind_eq_ok.mp h
          cases h
          simp only
          rw [run_singleton]
          exact scheduler_of_cancelRequest hu
  | tick =>
      rw [hpc] at h
      simp only at h ⊢
      by_cases hempty : g.active.keys = []
      · rw [if_pos hempty] at h ⊢
        cases h
        exact hnone rfl
      · rw [if_neg hempty] at h ⊢
        obtain ⟨done, hdone, h⟩ := bind_eq_ok.mp h
        cases h
        rw [run_singleton]
        unfold FifoScheduler.apply
        simp only
        rw [hdone]
        rfl
  | expelling toCancel =>
      rw [hpc] at h
      simp only at h ⊢
      cases hpick : pick toCancel choice with
      | none =>
          rw [hpick] at h
          cases h
          exact hnone rfl
      | some id =>
          rw [hpick] at h
          obtain ⟨u, hu, h⟩ := bind_eq_ok.mp h
          cases h
          simp only [Option.toList_some, List.map_cons, List.map_nil]
          rw [run_singleton]
          exact scheduler_of_expel hu
  | pushing id todo =>
      rw [hpc] at h
      refine hnone ?_
      rcases pushToken_ok h with ⟨rfl, -⟩ | ⟨e, tokenId, -, -, -, rfl⟩
      · rfl
      · exact pushEvent_scheduler _ _ _ _ _ _
  | reaping toReap =>
      rw [hpc] at h
      simp only at h
      refine hnone ?_
      split at h
      · cases h
        rfl
      · obtain ⟨u, hu, h⟩ := bind_eq_ok.mp h
        obtain ⟨e, -, rfl⟩ := reap_ok hu
        cases h
        rfl
  | pushTokens todo =>
      rw [hpc] at h
      simp only at h
      refine hnone ?_
      split at h
      · cases h
        rfl
      · cases h
        rfl
  | _ =>
      rw [hpc] at h
      cases h
      exact hnone rfl

/-- The scheduler inside the engine makes the step's calls and nothing else. -/
theorem step_simulates : Simulates step FifoScheduler.apply schedulerCalls
    (fun (g : Engine ω) s => s = g.scheduler) := by
  rintro g s a g' rfl h
  refine ⟨g'.scheduler, ?_, rfl⟩
  have hnone : g'.scheduler = g.scheduler →
      run FifoScheduler.apply g.scheduler [] = .ok g'.scheduler := fun heq => by rw [heq, run_nil]
  unfold step at h
  cases a with
  | event e =>
      obtain ⟨w, hw, h⟩ := bind_eq_ok.mp h
      cases h
      rw [schedulerCalls, run_singleton]
      unfold FifoScheduler.apply
      simp only
      rw [hw]
      rfl
  | engine choice steadyNow =>
      unfold schedulerCalls
      exact engineStep_simulates h
  | start =>
      simp only at h
      split_ifs at h
      · cases h
        exact hnone rfl
      · cases h
        exact hnone rfl
  | stop =>
      cases h
      refine hnone ?_
      split_ifs <;> rfl
  | join =>
      cases h
      refine hnone ?_
      split_ifs <;> rfl
  | submit sub =>
      cases h
      refine hnone ?_
      split_ifs <;> rfl
  | push k =>
      simp only at h
      split at h
      · cases h
        exact hnone rfl
      · cases h
        exact hnone rfl
  | cancel id =>
      cases h
      exact hnone rfl
  | pop channel =>
      simp only at h
      split at h
      · cases h
        exact hnone rfl
      · cases h
        exact hnone rfl
  | close channel =>
      cases h
      exact hnone rfl

/-! ### What the calls are about -/

/-- The submissions and the cancels on their way to the scheduler: a step of the engine thread hands
over the head of a batch, or nothing. A cancel for back-pressure comes from no batch. -/
structure HandsOver (calls : List (SchedulerOp ω)) (g g' : Engine ω) : Prop where
  submissions : calls.filterMap SchedulerOp.submitted ++
    (g'.pc.admitBatch ++ g'.pendingSubmissions).map Submission.terms =
      (g.pc.admitBatch ++ g.pendingSubmissions).map Submission.terms
  accepted : g'.accepted = g.accepted
  cancels : g'.handled ++ g'.pc.cancelBatch ++ g'.pendingCancels =
    g.handled ++ g.pc.cancelBatch ++ g.pendingCancels
  requested : g'.cancels = g.cancels
  handled : ∃ ids, g'.handled = g.handled ++ ids ∧
    ids.Sublist (calls.filterMap SchedulerOp.cancelled)
  joinable : g'.joinable = g.joinable

omit [Clock ω] [InferenceBackend ω] in
/-- A step that only moves the thread on, or works on the entries and the channels. -/
theorem HandsOver.of_pc {pc₀ : EnginePc} (hpc : g.pc = pc₀) {calls : List (SchedulerOp ω)}
    (hcalls : calls.filterMap SchedulerOp.submitted = [])
    (hadmission : g'.pc.admitBatch ++ g'.pendingSubmissions = pc₀.admitBatch ++ g.pendingSubmissions)
    (hcancel : g'.pc.cancelBatch ++ g'.pendingCancels = pc₀.cancelBatch ++ g.pendingCancels)
    (hrest : g'.accepted = g.accepted ∧ g'.handled = g.handled ∧ g'.cancels = g.cancels ∧
      g'.joinable = g.joinable) : HandsOver calls g g' where
  submissions := by rw [hcalls, List.nil_append, hadmission, hpc]
  accepted := hrest.1
  cancels := by rw [hrest.2.1, List.append_assoc, hcancel, hpc, List.append_assoc]
  requested := hrest.2.2.1
  handled := ⟨[], by rw [hrest.2.1, List.append_nil], List.nil_sublist _⟩
  joinable := hrest.2.2.2

omit [Environment ω] in
/-- What a cancel leaves of the engine's vectors. -/
theorem cancelRequest_vectors {id : RequestId} (h : g.cancelRequest id = .ok g') :
    g'.handled = g.handled ++ [id] ∧ g'.accepted = g.accepted ∧ g'.cancels = g.cancels ∧
      g'.pendingSubmissions = g.pendingSubmissions ∧ g'.pendingCancels = g.pendingCancels ∧
        g'.joinable = g.joinable := by
  obtain ⟨t, -, ⟨-, rfl⟩ | ⟨e, -, rfl⟩⟩ := cancelRequest_ok h
  · exact ⟨rfl, rfl, rfl, rfl, rfl, rfl⟩
  · exact ⟨rfl, rfl, rfl, rfl, rfl, rfl⟩

omit [InferenceBackend ω] [Environment ω] in
theorem admitSubmission_vectors {sub : Submission} (h : g.admitSubmission sub = .ok g') :
    g'.handled = g.handled ∧ g'.accepted = g.accepted ∧ g'.cancels = g.cancels ∧
      g'.pendingSubmissions = g.pendingSubmissions ∧ g'.pendingCancels = g.pendingCancels ∧
        g'.joinable = g.joinable := by
  obtain ⟨q, w, -, hcode⟩ := admitSubmission_eq g sub
  rw [hcode] at h
  cases h
  exact ⟨rfl, rfl, rfl, rfl, rfl, rfl⟩

theorem engineStep_handsOver {choice : Nat} {steadyNow : TimePoint}
    (h : g.engineStep choice steadyNow = .ok g') :
    HandsOver (g.schedulerCalls (.engine choice steadyNow)) g g' := by
  unfold engineStep at h
  unfold schedulerCalls
  cases hpc : g.pc with
  | drainSubmissions =>
      rw [hpc] at h
      cases h
      exact .of_pc hpc rfl (List.append_nil _) rfl ⟨rfl, rfl, rfl, rfl⟩
  | drainCancels =>
      rw [hpc] at h
      cases h
      exact .of_pc hpc rfl rfl (List.append_nil _) ⟨rfl, rfl, rfl, rfl⟩
  | admitting batch =>
      rw [hpc] at h
      cases batch with
      | nil =>
          cases h
          exact .of_pc hpc rfl rfl rfl ⟨rfl, rfl, rfl, rfl⟩
      | cons sub rest =>
          obtain ⟨u, hu, h⟩ := bind_eq_ok.mp h
          cases h
          obtain ⟨hhandled, haccepted, hcancels, hsubs, hids, hjoinable⟩ := admitSubmission_vectors hu
          refine ⟨?_, haccepted, ?_, hcancels, ⟨[], ?_, List.nil_sublist _⟩, hjoinable⟩
          · simp [SchedulerOp.submitted, EnginePc.admitBatch, Submission.terms, hpc, hsubs]
          · simp [EnginePc.cancelBatch, hpc, hhandled, hids]
          · rw [List.append_nil]
            exact hhandled
  | cancelling batch =>
      rw [hpc] at h
      cases batch with
      | nil =>
          cases h
          exact .of_pc hpc rfl rfl rfl ⟨rfl, rfl, rfl, rfl⟩
      | cons id rest =>
          obtain ⟨u, hu, h⟩ := bind_eq_ok.mp h
          cases h
          obtain ⟨hhandled, haccepted, hcancels, hsubs, hids, hjoinable⟩ := cancelRequest_vectors hu
          refine ⟨?_, haccepted, ?_, hcancels, ⟨[id], hhandled, List.Sublist.refl _⟩, hjoinable⟩
          · simp [SchedulerOp.submitted, EnginePc.admitBatch, hpc, hsubs]
          · simp [EnginePc.cancelBatch, hpc, hhandled, hids]
  | tick =>
      rw [hpc] at h
      simp only at h ⊢
      by_cases hempty : g.active.keys = []
      · rw [if_pos hempty] at h ⊢
        cases h
        exact .of_pc hpc rfl rfl rfl ⟨rfl, rfl, rfl, rfl⟩
      · rw [if_neg hempty] at h ⊢
        obtain ⟨done, -, h⟩ := bind_eq_ok.mp h
        cases h
        exact .of_pc hpc rfl rfl rfl ⟨rfl, rfl, rfl, rfl⟩
  | expelling toCancel =>
      have hcalls : ((pick toCancel choice).toList.map (SchedulerOp.cancel (ω := ω))).filterMap
          SchedulerOp.submitted = [] := by cases pick toCancel choice <;> rfl
      rw [hpc] at h
      simp only at h
      split at h
      · cases h
        exact .of_pc hpc hcalls rfl rfl ⟨rfl, rfl, rfl, rfl⟩
      · obtain ⟨u, hu, h⟩ := bind_eq_ok.mp h
        obtain ⟨e, t, -, -, rfl⟩ := expel_ok hu
        cases h
        exact .of_pc hpc hcalls rfl rfl ⟨rfl, rfl, rfl, rfl⟩
  | pushing id todo =>
      rw [hpc] at h
      rcases pushToken_ok h with ⟨rfl, -⟩ | ⟨e, tokenId, -, -, -, rfl⟩
      · exact .of_pc hpc rfl rfl rfl ⟨rfl, rfl, rfl, rfl⟩
      · obtain ⟨e', channels, pc, -, -, -, -, hnext, heq⟩ := pushEvent_eq g id e
          ⟨tokenId, finishReason (g.scheduler.request e.request) e.lastSeenTokens⟩ todo steadyNow
        rw [heq]
        rcases hnext with rfl | rfl
        · exact .of_pc hpc rfl (by rw [hpc]) (by rw [hpc]) ⟨rfl, rfl, rfl, rfl⟩
        · exact .of_pc hpc rfl rfl rfl ⟨rfl, rfl, rfl, rfl⟩
  | reaping toReap =>
      rw [hpc] at h
      simp only at h
      split at h
      · cases h
        exact .of_pc hpc rfl rfl rfl ⟨rfl, rfl, rfl, rfl⟩
      · obtain ⟨u, hu, h⟩ := bind_eq_ok.mp h
        obtain ⟨e, -, rfl⟩ := reap_ok hu
        cases h
        exact .of_pc hpc rfl rfl rfl ⟨rfl, rfl, rfl, rfl⟩
  | pushTokens todo =>
      rw [hpc] at h
      simp only at h
      split at h
      · cases h
        exact .of_pc hpc rfl rfl rfl ⟨rfl, rfl, rfl, rfl⟩
      · cases h
        exact .of_pc hpc rfl rfl rfl ⟨rfl, rfl, rfl, rfl⟩
  | loopTest =>
      rw [hpc] at h
      cases h
      refine .of_pc hpc rfl ?_ ?_ ⟨rfl, rfl, rfl, rfl⟩
      · cases g.running <;> rfl
      · cases g.running <;> rfl
  | awake =>
      rw [hpc] at h
      cases h
      refine .of_pc hpc rfl ?_ ?_ ⟨rfl, rfl, rfl, rfl⟩
      · cases g.running <;> rfl
      · cases g.running <;> rfl
  | exited =>
      rw [hpc] at h
      cases h
      exact .of_pc hpc rfl (by rw [hpc]) (by rw [hpc]) ⟨rfl, rfl, rfl, rfl⟩
  | _ =>
      rw [hpc] at h
      cases h
      exact .of_pc hpc rfl rfl rfl ⟨rfl, rfl, rfl, rfl⟩

/-- How the calls of a run stand to what its clients asked for. -/
structure Pipeline (past : List (SchedulerOp ω)) (g : Engine ω) : Prop where
  submissions : past.filterMap SchedulerOp.submitted ++
    (g.pc.admitBatch ++ g.pendingSubmissions).map Submission.terms = g.accepted.map Submission.terms
  cancels : g.handled ++ g.pc.cancelBatch ++ g.pendingCancels = g.cancels
  handled : g.handled.Sublist (past.filterMap SchedulerOp.cancelled)
  thread : g.joinable = false → g.pc = .exited

omit [Clock ω] [InferenceBackend ω] in
theorem pipeline_new (w : ω) (timeout : Duration) (channels : ChannelPtr → TokenChannel) :
    Pipeline [] (new w timeout channels) := ⟨rfl, rfl, .slnil, fun _ => rfl⟩

omit [Clock ω] [InferenceBackend ω] in
theorem Pipeline.outside {past calls : List (SchedulerOp ω)} (h : Pipeline past g)
    (hstep : Outside g g') (hcalls : calls.filterMap SchedulerOp.submitted = []) :
    Pipeline (past ++ calls) g' := by
  obtain ⟨subs, haccepted, hsubs⟩ := hstep.submissions
  obtain ⟨ids, hcancels, hids⟩ := hstep.cancels
  have hadmission := hstep.pc_same h.thread (f := EnginePc.admitBatch) rfl
  have hcancel := hstep.pc_same h.thread (f := EnginePc.cancelBatch) rfl
  refine ⟨?_, ?_, ?_, ?_⟩
  · have hmap : (g.pc.admitBatch ++ g.pendingSubmissions ++ subs).map Submission.terms =
        (g.pc.admitBatch ++ g.pendingSubmissions).map Submission.terms ++ subs.map Submission.terms :=
      List.map_append
    rw [List.filterMap_append, hcalls, List.append_nil, hadmission, hsubs, haccepted,
      ← List.append_assoc, hmap, ← List.append_assoc, h.submissions, List.map_append]
  · rw [hstep.handled, hcancel, hids, hcancels, ← h.cancels, List.append_assoc, List.append_assoc,
      List.append_assoc]
  · rw [hstep.handled, List.filterMap_append]
    exact h.handled.trans (List.sublist_append_left _ _)
  · intro hfree
    have hexited : g.pc = .exited := (hstep.joinable hfree).elim h.thread (fun hpc => hpc)
    rcases hstep.pc with hpc | ⟨-, -, hstarted⟩
    · exact hpc.trans hexited
    · rw [hfree] at hstarted
      cases hstarted

theorem Pipeline.step {past : List (SchedulerOp ω)} (h : Pipeline past g) {a : EngineAction ω}
    (hstep : g.step a = .ok g') : Pipeline (past ++ g.schedulerCalls a) g' := by
  cases a with
  | engine choice steadyNow =>
      have hover := engineStep_handsOver (show g.engineStep choice steadyNow = .ok g' from hstep)
      obtain ⟨ids, hids, hsublist⟩ := hover.handled
      refine ⟨?_, ?_, ?_, ?_⟩
      · rw [List.filterMap_append, List.append_assoc, hover.submissions, hover.accepted, h.submissions]
      · rw [hover.cancels, hover.requested, h.cancels]
      · rw [hids, List.filterMap_append]
        exact h.handled.append hsublist
      · intro hfree
        rw [hover.joinable] at hfree
        have hexited := h.thread hfree
        have hstay : g.engineStep choice steadyNow = .ok g := by
          unfold engineStep
          rw [hexited]
        rw [show g.engineStep choice steadyNow = .ok g' from hstep] at hstay
        cases hstay
        exact hexited
  | _ =>
      rcases step_cases hstep with houtside | ⟨choice, steadyNow, ha, -⟩
      · exact h.outside houtside rfl
      · cases ha

end Step

/-! ### Runs -/

section Runs

variable [Clock ω] [InferenceBackend ω] [Environment ω] {g : Engine ω}

/-- The calls that a run makes on the scheduler. -/
def callsOf (g : Engine ω) (actions : List (EngineAction ω)) : List (SchedulerOp ω) :=
  history Engine.step schedulerCalls g actions

omit [Clock ω] [InferenceBackend ω] in
theorem occurred_schedulerCalls (g : Engine ω) (a : EngineAction ω) :
    (g.schedulerCalls a).filterMap SchedulerOp.occurred = a.events := by
  cases a with
  | engine choice steadyNow =>
      unfold schedulerCalls
      cases hpc : g.pc with
      | admitting batch => cases batch <;> rfl
      | cancelling batch => cases batch <;> rfl
      | tick =>
          simp only
          split_ifs <;> rfl
      | expelling toCancel =>
          simp only
          cases pick toCancel choice <;> rfl
      | _ => rfl
  | _ => rfl

/-- The scheduler inside a running engine, with the calls that led to it. -/
theorem run_calls (w : ω) (timeout : Duration) (channels : ChannelPtr → TokenChannel)
    {actions : List (EngineAction ω)} (hrun : run step (new w timeout channels) actions = .ok g) :
    run FifoScheduler.apply (.new w) ((new w timeout channels).callsOf actions) = .ok g.scheduler ∧
      Pipeline ((new w timeout channels).callsOf actions) g := by
  obtain ⟨s, hcalls, rfl⟩ := step_simulates.run (s := new w timeout channels) rfl hrun
  refine ⟨hcalls, ?_⟩
  have hall : Ensures (run step (new w timeout channels) actions) (fun _ => True)
      (Pipeline ([] ++ history step schedulerCalls (new w timeout channels) actions)) := by
    refine run_history Pipeline (fun past u a hu => ?_) [] _ (pipeline_new w timeout channels) actions
    exact ensures_iff.mpr ⟨fun u' h' => hu.step h', fun _ _ => trivial⟩
  exact hall.ok hrun

/-- **The engine is a client of the scheduler.** In every run, whatever ids its clients choose, the
scheduler inside the engine is where a run of its own ends that makes the engine's calls: what was
submitted in them is what was accepted, in that order, up to what is still drained or pending; the
`i`-th accepted submission became request `i`, with the client's terms; every cancel that was dealt
with is among the calls, in order; the world sees the events of the run and no others; and the queues
are in the order of acceptance. -/
theorem engine_refines_scheduler [AlignedBackend ω] (w : ω) (timeout : Duration)
    (channels : ChannelPtr → TokenChannel) (actions : List (EngineAction ω)) (g : Engine ω)
    (hrun : run step (new w timeout channels) actions = .ok g) :
    run FifoScheduler.apply (.new w) ((new w timeout channels).callsOf actions) = .ok g.scheduler ∧
    ((new w timeout channels).callsOf actions).filterMap SchedulerOp.submitted ++
        (g.pc.admitBatch ++ g.pendingSubmissions).map Submission.terms =
      g.accepted.map Submission.terms ∧
    (∀ i sub, i < g.owned → g.accepted[i]? = some sub →
      FifoScheduler.HasTerms (g.scheduler.request i) sub.terms) ∧
    g.handled.Sublist (((new w timeout channels).callsOf actions).filterMap SchedulerOp.cancelled) ∧
    g.handled ++ g.pc.cancelBatch ++ g.pendingCancels = g.cancels ∧
    ((new w timeout channels).callsOf actions).filterMap SchedulerOp.occurred =
      actions.flatMap EngineAction.events ∧
    (g.scheduler.decoding ++ g.scheduler.waiting).Sublist (List.range g.owned) := by
  obtain ⟨hcalls, hpipeline⟩ := run_calls w timeout channels hrun
  have hordered := FifoScheduler.run_ordered w hcalls
  refine ⟨hcalls, hpipeline.submissions, ?_, hpipeline.handled, hpipeline.cancels, ?_,
    hordered.firstCome.inOrder⟩
  · intro i sub hi hsub
    have hrange : i < (List.range g.owned).length := by rwa [List.length_range]
    have hi' : i < (((new w timeout channels).callsOf actions).filterMap
        SchedulerOp.submitted).length := by rwa [← hordered.terms.length_eq, List.length_range]
    have hterms := hordered.terms.get hrange hi'
    have hsame := congrArg (·[i]?) hpipeline.submissions
    rw [List.getElem?_append_left hi', List.getElem?_map, hsub, List.getElem?_eq_getElem hi'] at hsame
    simp only [List.get_eq_getElem, List.getElem_range] at hterms
    rwa [Option.some.inj hsame] at hterms
  · exact filterMap_history _ _ (fun s a _ _ => occurred_schedulerCalls s a) hrun

/-- Two submissions with one id, the second accepted while the first still waits for its tick. -/
theorem engine_refines_scheduler_shared :
    ∃ g : Engine MockBackend,
      run step idleEngine ([.start, .submit oneToken, .push 0, .submit oneToken, .push 0] ++
        engineSteps 9) = .ok g ∧ g.owned = 2 ∧
      run FifoScheduler.apply (.new (.new ⟨0⟩ 1 5)) (idleEngine.callsOf ([.start, .submit oneToken,
        .push 0, .submit oneToken, .push 0] ++ engineSteps 9)) = .ok g.scheduler := by
  obtain ⟨g, hrun, howned⟩ := exists_of_map_ok (x := run step idleEngine
      ([.start, .submit oneToken, .push 0, .submit oneToken, .push 0] ++ engineSteps 9))
    (b := 2) (f := fun g => g.owned) (by decide +kernel)
  exact ⟨g, hrun, howned,
    (engine_refines_scheduler (MockBackend.new ⟨0⟩ 1 5) 100 (fun _ => .new 4) _ g hrun).1⟩

end Runs

end Engine

end Tokamak
