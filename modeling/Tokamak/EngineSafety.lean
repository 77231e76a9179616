import Tokamak.EngineBackpressure
import Tokamak.EngineRefinement
import Tokamak.SchedulerOutcomes

/-! Aborts of the engine. The loops of the engine thread read `active_` with `at` and the output of a
request by index: neither read can fail, because the ids a loop still has to close are keys of the map
and every emitted token is stored. What is left is what the scheduler itself aborts with, and the one
abort of the control interface: a `start` that finds the thread of the last run not joined yet. -/

open Outcome

namespace Tokamak

namespace FifoScheduler

variable {ω : Type} [Clock ω] [InferenceBackend ω] [Environment ω]

/-- A scheduler in a state that some run leads to. -/
def Reached (w : ω) (s : FifoScheduler ω) : Prop := ∃ ops, run FifoScheduler.apply (new w) ops = .ok s

variable {w : ω} {s t : FifoScheduler ω}

theorem reached_new (w : ω) : Reached w (new w) := ⟨[], run_nil _⟩

theorem Reached.run (h : Reached w s) {ops : List (SchedulerOp ω)}
    (hrun : Outcome.run FifoScheduler.apply s ops = .ok t) : Reached w t := by
  obtain ⟨past, hpast⟩ := h
  refine ⟨past ++ ops, ?_⟩
  rw [run_append, hpast]
  exact hrun

variable [AlignedBackend ω]

theorem Reached.partition (h : Reached w s) : s.Partition := by
  obtain ⟨ops, hrun⟩ := h
  exact (run_safe w ops).ok hrun

/-- Every token that was counted is stored. -/
theorem Reached.counted (h : Reached w s) {p : RequestPtr} (hp : p < s.requests.size) :
    (s.request p).outputTokensEmitted = (s.request p).outputTokenIds.length := by
  obtain ⟨ops, hrun⟩ := h
  have hrecorded := (run_history (Recorded p) (fun past u op hu => hu.apply op) [] (new w)
    (.new w p) ops).ok hrun
  have hreflects := hrecorded.reflects hp
  rw [hreflects.tokens, List.length_map]
  exact hreflects.count

theorem Reached.size_le (h : Reached w s) {ops : List (SchedulerOp ω)}
    (hrun : Outcome.run FifoScheduler.apply s ops = .ok t) : s.requests.size ≤ t.requests.size := by
  have hstep : ∀ (u : FifoScheduler ω) (op : SchedulerOp ω),
      (u.Partition ∧ s.requests.size ≤ u.requests.size) →
        Ensures (u.apply op) (fun _ => True) (fun v =>
          v.Partition ∧ s.requests.size ≤ v.requests.size) := by
    rintro u op ⟨hu, hle⟩
    exact (apply_evolves hu op).imp (fun v hv => ⟨hv.1, hle.trans hv.2.1⟩)
  exact ((run_ensures hstep s ⟨h.partition, le_rfl⟩ ops).ok hrun).2

end FifoScheduler

namespace Engine

variable {ω : Type} {g g' : Engine ω}

/-- What the engine thread reads with `at`: the ids it still has to close are active, each once, and
an entry points to a request the scheduler owns. -/
structure Desk (g : Engine ω) : Prop where
  entry : ∀ id e, g.active.find id = some e → e.request < g.owned
  doomed : ∀ id ∈ g.pc.expelBatch ++ g.pc.reapBatch, id ∈ g.active
  nodup : (g.pc.expelBatch ++ g.pc.reapBatch).Nodup
  thread : g.joinable = false → g.pc = .exited

namespace Desk

theorem new (w : ω) (timeout : Duration) (channels : ChannelPtr → TokenChannel) :
    Desk (Engine.new w timeout channels) where
  entry id e h := by simp [Engine.new] at h
  doomed id h := by simp [Engine.new, EnginePc.expelBatch, EnginePc.reapBatch] at h
  nodup := List.nodup_nil
  thread _ := rfl

theorem outside (h : Desk g) (hstep : Outside g g') : Desk g' := by
  obtain ⟨w, hscheduler⟩ := hstep.world
  have howned : g'.owned = g.owned := by
    unfold owned
    rw [hscheduler]
  have hexpel := hstep.pc_same h.thread (f := EnginePc.expelBatch) rfl
  have hreap := hstep.pc_same h.thread (f := EnginePc.reapBatch) rfl
  refine ⟨?_, ?_, ?_, ?_⟩
  · rw [hstep.active, howned]
    exact h.entry
  · rw [hstep.active, hexpel, hreap]
    exact h.doomed
  · rw [hexpel, hreap]
    exact h.nodup
  · intro hfree
    have hexited : g.pc = .exited := (hstep.joinable hfree).elim h.thread (fun hpc => hpc)
    rcases hstep.pc with hpc | ⟨-, -, hstarted⟩
    · exact hpc.trans hexited
    · rw [hfree] at hstarted
      cases hstarted

/-- A step that leaves the entries alone and has nothing to close. -/
theorem of_pc (h : Desk g) (halive : g.joinable ≠ false) (howned : g.owned ≤ g'.owned)
    (hactive : g'.active = g.active) (hjoinable : g'.joinable = g.joinable)
    (hpc : g'.pc.expelBatch ++ g'.pc.reapBatch = []) : Desk g' where
  entry id e he := (h.entry id e (hactive ▸ he)).trans_le howned
  doomed id hid := by
    rw [hpc] at hid
    cases hid
  nodup := by
    rw [hpc]
    exact List.nodup_nil
  thread hfree := absurd (hjoinable ▸ hfree) halive

/-- The keys that a loop collects are active and collected once. -/
theorem collected (h : Desk g) (halive : g.joinable ≠ false) (test : ActiveEntry → Bool) {pc : EnginePc}
    (hpc : pc.expelBatch ++ pc.reapBatch = g.select test) : Desk { g with pc := pc } where
  entry := h.entry
  doomed id hid := by
    rw [hpc] at hid
    exact AList.mem_keys.mp (List.mem_of_mem_filter hid)
  nodup := by
    rw [hpc]
    exact g.active.keys_nodup.filter _
  thread hfree := absurd hfree halive

/-- An entry is closed; what is still to be closed does not lead to it. -/
theorem closed (h : Desk g) (halive : g.joinable ≠ false) {s : FifoScheduler ω}
    (hsize : g.owned ≤ s.requests.size) (handled : List RequestId) {id : RequestId} {e : ActiveEntry}
    (closer : Closer) {pc : EnginePc}
    (hpc : ∀ a ∈ pc.expelBatch ++ pc.reapBatch, a ∈ g.active ∧ a ≠ id)
    (hnodup : (pc.expelBatch ++ pc.reapBatch).Nodup) :
    Desk { ({ g with scheduler := s, handled := handled }.closeEntry id e closer) with pc := pc } where
  entry a e' he := by
    simp only [closeEntry, FinMap.find_erase] at he
    split_ifs at he with hne
    exact (h.entry a e' he).trans_le hsize
  doomed a ha := by
    obtain ⟨hmem, hne⟩ := hpc a ha
    exact AList.mem_erase.mpr ⟨hne, hmem⟩
  nodup := hnodup
  thread hfree := absurd hfree halive

variable [Clock ω] [InferenceBackend ω]

/-- A step of the engine thread, which makes the scheduler grow or leaves its size alone. -/
theorem engineStep (h : Desk g) (howned : g.owned ≤ g'.owned) {choice : Nat} {steadyNow : TimePoint}
    (hstep : g.engineStep choice steadyNow = .ok g') : Desk g' := by
  by_cases hexited : g.pc = .exited
  · unfold Engine.engineStep at hstep
    rw [hexited] at hstep
    cases hstep
    exact h
  have halive : g.joinable ≠ false := fun hfree => hexited (h.thread hfree)
  unfold Engine.engineStep at hstep
  cases hpc : g.pc with
  | exited => exact absurd hpc hexited
  | admitting batch =>
      rw [hpc] at hstep
      cases batch with
      | nil =>
          cases hstep
          exact h.of_pc halive howned rfl rfl rfl
      | cons sub rest =>
          obtain ⟨q, w, -, hcode⟩ := admitSubmission_eq g sub
          simp only at hstep
          rw [hcode] at hstep
          cases hstep
          refine ⟨?_, fun id hid => by simp [EnginePc.expelBatch, EnginePc.reapBatch] at hid,
            List.nodup_nil, fun hfree => absurd hfree halive⟩
          intro id e he
          change FinMap.find (g.active.emplace sub.id ⟨g.owned, sub.channel, 0, none⟩) id = some e at he
          change e.request < g.owned + 1
          rw [FinMap.find_emplace] at he
          split_ifs at he
          · cases hfind : g.active.find sub.id with
            | none =>
                rw [hfind] at he
                cases he
                exact Nat.lt_succ_self _
            | some e' =>
                rw [hfind] at he
                cases he
                exact Nat.lt_succ_of_lt (h.entry sub.id e' hfind)
          · exact Nat.lt_succ_of_lt (h.entry id e he)
  | cancelling batch =>
      rw [hpc] at hstep
      cases batch with
      | nil =>
          cases hstep
          exact h.of_pc halive howned rfl rfl rfl
      | cons id rest =>
          obtain ⟨u, hu, hstep⟩ := bind_eq_ok.mp hstep
          cases hstep
          obtain ⟨t, ht, ⟨-, rfl⟩ | ⟨e, -, rfl⟩⟩ := cancelRequest_ok hu
          · exact h.of_pc halive howned rfl rfl rfl
          · refine h.closed halive howned _ .cancel (fun a ha => ?_) List.nodup_nil
            cases ha
  | tick =>
      rw [hpc] at hstep
      simp only at hstep
      split_ifs at hstep
      · cases hstep
        exact h.of_pc halive howned rfl rfl rfl
      · obtain ⟨done, -, hstep⟩ := bind_eq_ok.mp hstep
        cases hstep
        exact h.of_pc halive howned rfl rfl rfl
  | pushTokens todo =>
      rw [hpc] at hstep
      simp only at hstep
      split at hstep
      · cases hstep
        exact h.of_pc halive howned rfl rfl rfl
      · cases hstep
        exact h.of_pc halive howned rfl rfl rfl
  | pushing id todo =>
      rw [hpc] at hstep
      rcases pushToken_ok hstep with ⟨rfl, -⟩ | ⟨e, tokenId, he, -, -, rfl⟩
      · exact h.of_pc halive howned rfl rfl rfl
      · obtain ⟨e', channels, pc, hrequest, -, -, -, hnext, heq⟩ := pushEvent_eq g id e
          ⟨tokenId, finishReason (g.scheduler.request e.request) e.lastSeenTokens⟩ todo steadyNow
        have hbatch : pc.expelBatch ++ pc.reapBatch = [] := by
          rcases hnext with hnext | hnext
          · rw [hnext, hpc]
            rfl
          · rw [hnext]
            rfl
        rw [heq]
        refine ⟨?_, fun a ha => ?_, ?_, fun hfree => absurd hfree halive⟩
        · intro a e'' hfind
          change FinMap.find (g.active.replace id e') a = some e'' at hfind
          rw [FinMap.find_replace (FinMap.mem_of_find he)] at hfind
          split_ifs at hfind with ha
          · cases hfind
            rw [hrequest]
            exact h.entry id e he
          · exact h.entry a e'' hfind
        · rw [show pc.expelBatch ++ pc.reapBatch = [] from hbatch] at ha
          cases ha
        · rw [show pc.expelBatch ++ pc.reapBatch = [] from hbatch]
          exact List.nodup_nil
  | checkBackpressure =>
      rw [hpc] at hstep
      cases hstep
      exact h.collected halive _ (List.append_nil _)
  | expelling toCancel =>
      have hdoomed := h.doomed
      have hnodup := h.nodup
      rw [hpc] at hstep hdoomed hnodup
      simp only [EnginePc.expelBatch, EnginePc.reapBatch, List.append_nil] at hstep hdoomed hnodup
      split at hstep
      · cases hstep
        exact h.of_pc halive howned rfl rfl rfl
      · rename_i id hpick
        obtain ⟨u, hu, hstep⟩ := bind_eq_ok.mp hstep
        obtain ⟨e, t, -, -, rfl⟩ := expel_ok hu
        cases hstep
        refine h.closed halive howned _ .backpressure (fun a ha => ?_) ?_
        · simp only [EnginePc.expelBatch, EnginePc.reapBatch, List.append_nil] at ha
          obtain ⟨hne, ha⟩ := hnodup.mem_erase_iff.mp ha
          exact ⟨hdoomed a ha, hne⟩
        · simp only [EnginePc.expelBatch, EnginePc.reapBatch, List.append_nil]
          exact hnodup.erase id
  | reapTerminal =>
      rw [hpc] at hstep
      cases hstep
      exact h.collected halive _ rfl
  | reaping toReap =>
      have hdoomed := h.doomed
      have hnodup := h.nodup
      rw [hpc] at hstep hdoomed hnodup
      simp only [EnginePc.expelBatch, EnginePc.reapBatch, List.nil_append] at hstep hdoomed hnodup
      split at hstep
      · cases hstep
        exact h.of_pc halive howned rfl rfl rfl
      · rename_i id hpick
        obtain ⟨u, hu, hstep⟩ := bind_eq_ok.mp hstep
        obtain ⟨e, -, rfl⟩ := reap_ok hu
        cases hstep
        refine h.closed halive (s := g.scheduler) le_rfl g.handled .reap (fun a ha => ?_) ?_
        · simp only [EnginePc.expelBatch, EnginePc.reapBatch, List.nil_append] at ha
          obtain ⟨hne, ha⟩ := hnodup.mem_erase_iff.mp ha
          exact ⟨hdoomed a ha, hne⟩
        · simp only [EnginePc.expelBatch, EnginePc.reapBatch, List.nil_append]
          exact hnodup.erase id
  | loopTest =>
      rw [hpc] at hstep
      cases hstep
      refine h.of_pc halive howned rfl rfl ?_
      cases g.running <;> rfl
  | awake =>
      rw [hpc] at hstep
      cases hstep
      refine h.of_pc halive howned rfl rfl ?_
      cases g.running <;> rfl
  | _ =>
      rw [hpc] at hstep
      cases hstep
      exact h.of_pc halive howned rfl rfl rfl

end Desk

/-! ### Aborts -/

section Aborts

variable [Clock ω] [InferenceBackend ω]

/-- `drain_cancels` only fails where the scheduler does. -/
theorem cancelRequest_error {id : RequestId} {e : Panic} (h : g.cancelRequest id = .error e) :
    g.scheduler.cancel id = .error e := by
  rcases bind_eq_error.mp h with hcancel | ⟨t, -, h⟩
  · exact hcancel
  · simp only at h
    split at h
    · cases h
    · cases h

/-- So does the cancelling loop of `check_backpressure`, for an active id. -/
theorem expel_error {id : RequestId} {e : Panic} (hid : id ∈ g.active) (h : g.expel id = .error e) :
    g.scheduler.cancel id = .error e := by
  obtain ⟨entry, hfind⟩ := FinMap.exists_find_of_mem hid
  rcases bind_eq_error.mp h with hcancel | ⟨t, -, h⟩
  · exact hcancel
  · simp only [hfind] at h
    cases h

omit [Clock ω] [InferenceBackend ω] in
theorem reap_of_mem {id : RequestId} (hid : id ∈ g.active) : ∃ u, g.reap id = .ok u := by
  obtain ⟨entry, hfind⟩ := FinMap.exists_find_of_mem hid
  unfold reap
  rw [hfind]
  exact ⟨_, rfl⟩

omit [Clock ω] [InferenceBackend ω] in
/-- A token that was counted can be read. -/
theorem pushToken_total {id : RequestId} {todo : List RequestId} {steadyNow : TimePoint}
    (htokens : ∀ entry, g.active.find id = some entry →
      (g.scheduler.request entry.request).outputTokensEmitted =
        (g.scheduler.request entry.request).outputTokenIds.length) :
    ∃ u, g.pushToken id todo steadyNow = .ok u := by
  unfold pushToken
  cases hfind : g.active.find id with
  | none => exact ⟨_, rfl⟩
  | some entry =>
      simp only
      split_ifs with hseen
      · exact ⟨_, rfl⟩
      · have hlt : entry.lastSeenTokens <
            (g.scheduler.request entry.request).outputTokenIds.length := by
          rw [← htokens entry hfind]
          exact not_le.mp hseen
        rw [List.getElem?_eq_getElem hlt]
        exact ⟨_, rfl⟩

variable [Environment ω]

/-- The abort of `start`: the flag is down and the thread has not been joined, so the handle that is
overwritten is joinable. -/
def Overwrites (g : Engine ω) (a : EngineAction ω) (e : Panic) : Prop :=
  a = .start ∧ g.running = false ∧ g.joinable = true ∧ e = .threadOverwritten

/-- A state in which the engine's own reads are safe. -/
structure Sound (w : ω) (g : Engine ω) (s : FifoScheduler ω) : Prop where
  scheduler : s = g.scheduler
  reached : FifoScheduler.Reached w s
  desk : Desk g

theorem sound_new (w : ω) (timeout : Duration) (channels : ChannelPtr → TokenChannel) :
    Sound w (new w timeout channels) (.new w) :=
  ⟨rfl, FifoScheduler.reached_new w, Desk.new w timeout channels⟩

variable [AlignedBackend ω]

theorem sound_simulates (w : ω) :
    Simulates step FifoScheduler.apply schedulerCalls (Sound w) := by
  rintro g s a g' ⟨rfl, hreached, hdesk⟩ h
  obtain ⟨t, hcalls, rfl⟩ := step_simulates g g.scheduler a g' rfl h
  refine ⟨_, hcalls, rfl, hreached.run hcalls, ?_⟩
  cases a with
  | engine choice steadyNow => exact hdesk.engineStep (hreached.size_le hcalls) h
  | _ =>
      rcases step_cases h with houtside | ⟨choice, steadyNow, ha, -⟩
      · exact hdesk.outside houtside
      · cases ha

/-- Where the engine thread fails, its call on the scheduler does. -/
theorem engineStep_error {w : ω} {s : FifoScheduler ω} (hg : Sound w g s) {choice : Nat}
    {steadyNow : TimePoint} {e : Panic} (h : g.engineStep choice steadyNow = .error e) :
    run FifoScheduler.apply g.scheduler (g.schedulerCalls (.engine choice steadyNow)) = .error e := by
  obtain ⟨rfl, hreached, hdesk⟩ := hg
  have hdoomed := hdesk.doomed
  unfold engineStep at h
  unfold schedulerCalls
  cases hpc : g.pc with
  | admitting batch =>
      rw [hpc] at h
      cases batch with
      | nil => cases h
      | cons sub rest =>
          obtain ⟨q, w, -, hcode⟩ := admitSubmission_eq g sub
          simp only at h
          rw [hcode] at h
          cases h
  | cancelling batch =>
      rw [hpc] at h
      cases batch with
      | nil => cases h
      | cons id rest =>
          simp only at h ⊢
          rw [run_singleton]
          rcases bind_eq_error.mp h with hcancel | ⟨u, -, h⟩
          · exact cancelRequest_error hcancel
          · cases h
  | tick =>
      rw [hpc] at h
      simp only at h ⊢
      by_cases hempty : g.active.keys = []
      · rw [if_pos hempty] at h
        cases h
      · rw [if_neg hempty] at h ⊢
        rw [run_singleton]
        rcases bind_eq_error.mp h with htick | ⟨done, -, h⟩
        · exact bind_eq_error.mpr (.inl htick)
        · cases h
  | pushTokens todo =>
      rw [hpc] at h
      simp only at h
      split at h
      · cases h
      · cases h
  | pushing id todo =>
      rw [hpc] at h
      obtain ⟨u, hu⟩ : ∃ u, g.pushToken id todo steadyNow = .ok u :=
        pushToken_total (fun entry hfind => hreached.counted (hdesk.entry id entry hfind))
      simp only at h
      rw [hu] at h
      cases h
  | expelling toCancel =>
      rw [hpc] at h hdoomed
      simp only at h ⊢
      cases hpick : pick toCancel choice with
      | none =>
          rw [hpick] at h
          cases h
      | some id =>
          rw [hpick] at h
          have hid : id ∈ g.active := hdoomed id (List.mem_append_left _ (mem_of_pick hpick))
          simp only [Option.toList_some, List.map_cons, List.map_nil] at h ⊢
          rw [run_singleton]
          rcases bind_eq_error.mp h with hexpel | ⟨u, -, h⟩
          · exact expel_error hid hexpel
          · cases h
  | reaping toReap =>
      rw [hpc] at h hdoomed
      simp only at h
      cases hpick : pick toReap choice with
      | none =>
          rw [hpick] at h
          cases h
      | some id =>
          rw [hpick] at h
          obtain ⟨u, hu⟩ := reap_of_mem (hdoomed id (mem_of_pick hpick))
          simp only at h
          rw [hu] at h
          cases h
  | _ =>
      rw [hpc] at h
      cases h

theorem sound_aborts (w : ω) :
    AbortsWith step FifoScheduler.apply schedulerCalls Overwrites (Sound w) := by
  intro g s a e hg h
  have hscheduler := hg.scheduler
  cases a with
  | engine choice steadyNow =>
      rw [hscheduler]
      exact .inr (engineStep_error hg h)
  | event event =>
      refine .inr ?_
      rw [hscheduler, schedulerCalls, run_singleton]
      rcases bind_eq_error.mp h with hoccur | ⟨w, -, h⟩
      · exact bind_eq_error.mpr (.inl hoccur)
      · cases h
  | start =>
      unfold step at h
      simp only at h
      split_ifs at h with hrunning hjoinable
      cases h
      exact .inl ⟨rfl, Bool.eq_false_iff.mpr hrunning, hjoinable, rfl⟩
  | push k =>
      unfold step at h
      simp only at h
      split at h
      · cases h
      · cases h
  | pop channel =>
      unfold step at h
      simp only at h
      split at h
      · cases h
      · cases h
  | _ => cases h

/-- **The engine adds one abort.** In every run, whatever ids its clients choose and however the
actions of all parties are interleaved: a run that aborts does so in a `start` that overwrites the
thread of a run that was stopped and not joined, or the scheduler aborts with the same panic in a run of
its own on the engine's calls. No `at` of the engine misses its key and no token is read past the end. -/
theorem engine_aborts_with_scheduler (w : ω) (timeout : Duration)
    (channels : ChannelPtr → TokenChannel) (actions : List (EngineAction ω)) (e : Panic)
    (hrun : run step (new w timeout channels) actions = .error e) :
    (∃ front back u, actions = front ++ .start :: back ∧
        run step (new w timeout channels) front = .ok u ∧
        u.running = false ∧ u.joinable = true ∧ e = .threadOverwritten) ∨
      run FifoScheduler.apply (.new w) ((new w timeout channels).callsOf actions) = .error e := by
  refine ((sound_simulates w).run_error (sound_aborts w) (sound_new w timeout channels) hrun).imp ?_
    (fun hcalls => hcalls)
  rintro ⟨front, a, back, u, rfl, hfront, -, rfl, hrunning, hjoinable, rfl⟩
  exact ⟨front, back, u, rfl, hfront, hrunning, hjoinable, rfl⟩

/-- A submission without a budget: its first token is one too many. -/
def withoutBudget : List (EngineAction MockBackend) :=
  [.start, .submit { oneToken with maxTokens := 0 }, .push 0] ++ engineSteps 20

theorem engine_aborts_with_scheduler_budget :
    run step idleEngine withoutBudget = .error .tokenBudgetExceeded ∧
      run FifoScheduler.apply (.new (.new ⟨0⟩ 1 5)) (idleEngine.callsOf withoutBudget) =
        .error .tokenBudgetExceeded := by
  have hrun : run step idleEngine withoutBudget = .error .tokenBudgetExceeded :=
    error_of_map_error (f := fun _ => ()) (by decide +kernel)
  refine ⟨hrun, ?_⟩
  rcases engine_aborts_with_scheduler (MockBackend.new ⟨0⟩ 1 5) 100 (fun _ => .new 4) withoutBudget
    .tokenBudgetExceeded hrun with ⟨front, back, u, -, -, -, -, he⟩ | hcalls
  · cases he
  · exact hcalls

end Aborts

end Engine

end Tokamak
