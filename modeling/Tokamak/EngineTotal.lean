import Tokamak.EngineSafety
import Tokamak.SchedulerTotal

/-! An engine that never aborts. Its clients choose their ids; the engine stays up as long as nobody
submits an id that is still in use somewhere between `submit` and the reaping, or a budget of zero, and
nobody starts it over a thread that was not joined. Reusing the id of a stream that has ended is fine. -/

open Outcome

namespace Tokamak

namespace Engine

variable {g g' : Engine MockBackend}

/-- The submissions on their way to the scheduler. -/
def inbound {ω : Type} (g : Engine ω) : List Submission :=
  g.entering ++ g.pc.admitBatch ++ g.pendingSubmissions

/-- An action a well-behaved party takes. -/
def Admits (g : Engine MockBackend) : EngineAction MockBackend → Prop
  | .start => g.running = true ∨ g.joinable = false
  | .submit sub => sub.maxTokens ≠ 0 ∧ sub.id ∉ g.active ∧
      sub.id ∉ g.inbound.map Submission.id
  | .event e => g.scheduler.world.Admissible e
  | _ => True

instance (g : Engine MockBackend) : (a : EngineAction MockBackend) → Decidable (g.Admits a)
  | .start => inferInstanceAs (Decidable (_ ∨ _))
  | .submit _ => inferInstanceAs (Decidable (_ ∧ _ ∧ _))
  | .event e => inferInstanceAs (Decidable (g.scheduler.world.Admissible e))
  | .stop => inferInstanceAs (Decidable True)
  | .join => inferInstanceAs (Decidable True)
  | .push _ => inferInstanceAs (Decidable True)
  | .cancel _ => inferInstanceAs (Decidable True)
  | .pop _ => inferInstanceAs (Decidable True)
  | .close _ => inferInstanceAs (Decidable True)
  | .engine .. => inferInstanceAs (Decidable True)

/-- No two submissions on their way share an id, none has the id of an active entry, and all of them
have a budget. -/
structure Vacant (g : Engine MockBackend) : Prop where
  nodup : (g.inbound.map Submission.id).Nodup
  free : ∀ sub ∈ g.inbound, sub.id ∉ g.active
  funded : ∀ sub ∈ g.inbound, sub.maxTokens ≠ 0

theorem Vacant.admitSafe (h : Vacant g) : AdmitSafe g := by
  intro sub rest hpc
  refine h.free sub ?_
  unfold inbound
  rw [hpc]
  simp [EnginePc.admitBatch]

namespace Vacant

theorem new (w : MockBackend) (timeout : Duration) (channels : ChannelPtr → TokenChannel) :
    Vacant (Engine.new w timeout channels) where
  nodup := List.nodup_nil
  free sub hsub := by cases hsub
  funded sub hsub := by cases hsub

/-- Submissions move on, entries disappear. -/
theorem of_perm (h : Vacant g) (hinbound : g'.inbound.Perm g.inbound)
    (hactive : ∀ id, id ∈ g'.active → id ∈ g.active) : Vacant g' where
  nodup := (hinbound.map _).nodup_iff.mpr h.nodup
  free sub hsub hmem := h.free sub (hinbound.mem_iff.mp hsub) (hactive _ hmem)
  funded sub hsub := h.funded sub (hinbound.mem_iff.mp hsub)

theorem of_eq (h : Vacant g) (hinbound : g'.inbound = g.inbound) (hactive : g'.active = g.active) :
    Vacant g' :=
  h.of_perm (.of_eq hinbound) (fun _ hid => hactive ▸ hid)

/-- A new id on the way. -/
theorem submitted (h : Vacant g) (sub : Submission) (hinbound : g'.inbound.Perm (sub :: g.inbound))
    (hactive : g'.active = g.active) (hfunded : sub.maxTokens ≠ 0) (hfree : sub.id ∉ g.active)
    (hnew : sub.id ∉ g.inbound.map Submission.id) : Vacant g' where
  nodup := (hinbound.map _).nodup_iff.mpr (List.nodup_cons.mpr ⟨hnew, h.nodup⟩)
  free a ha := by
    rw [hactive]
    rcases List.mem_cons.mp (hinbound.mem_iff.mp ha) with rfl | ha
    · exact hfree
    · exact h.free a ha
  funded a ha := by
    rcases List.mem_cons.mp (hinbound.mem_iff.mp ha) with rfl | ha
    · exact hfunded
    · exact h.funded a ha

/-- A submission on the way becomes an entry. -/
theorem admitted (h : Vacant g) (sub : Submission) (hinbound : g.inbound.Perm (sub :: g'.inbound))
    (hactive : ∀ id, id ∈ g'.active → id ∈ g.active ∨ id = sub.id) : Vacant g' := by
  obtain ⟨hnotMem, hnodup⟩ := List.nodup_cons.mp ((hinbound.map Submission.id).nodup_iff.mp h.nodup)
  have hold : ∀ a ∈ g'.inbound, a ∈ g.inbound := fun a ha =>
    hinbound.mem_iff.mpr (List.mem_cons_of_mem sub ha)
  refine ⟨hnodup, fun a ha hmem => ?_, fun a ha => h.funded a (hold a ha)⟩
  rcases hactive a.id hmem with hmem | hid
  · exact h.free a (hold a ha) hmem
  · exact hnotMem (List.mem_map.mpr ⟨a, ha, hid⟩)

theorem move (h : Vacant g) (hmove : Move g g') : Vacant g' := by
  have herase : ∀ id a, a ∈ AList.erase id g.active → a ∈ g.active := fun id a ha =>
    (AList.mem_erase.mp ha).2
  cases hmove with
  | idle => exact h
  | jump pc halive hadmission =>
      refine h.of_eq ?_ rfl
      unfold inbound
      rw [hadmission]
  | drainSubmissions hpc =>
      refine h.of_eq ?_ rfl
      unfold inbound
      rw [hpc]
      simp [EnginePc.admitBatch]
  | @admission sub rest q w hpc =>
      refine h.admitted sub ?_ (fun id hid => ?_)
      · unfold inbound
        rw [hpc]
        exact (List.perm_middle (a := sub)).append_right g.pendingSubmissions
      · change id ∈ g.active.emplace sub.id _ at hid
        rw [FinMap.emplace_of_notMem (h.admitSafe sub rest hpc)] at hid
        exact ((AList.mem_insert _).mp hid).symm
  | drainCancels hpc =>
      refine h.of_eq ?_ rfl
      unfold inbound
      rw [hpc]
      rfl
  | cancelInactive hpc =>
      refine h.of_eq ?_ rfl
      unfold inbound
      rw [hpc]
      rfl
  | @cancelActive id rest t e hpc =>
      refine h.of_perm (.of_eq ?_) (herase id)
      unfold inbound
      rw [hpc]
      rfl
  | tick hpc =>
      refine h.of_eq ?_ rfl
      unfold inbound
      rw [hpc]
      rfl
  | @push id todo e tokenId steadyNow hpc he =>
      obtain ⟨e', channels, pc, -, -, -, -, hnext, heq⟩ := pushEvent_eq g id e
        ⟨tokenId, finishReason (g.scheduler.request e.request) e.lastSeenTokens⟩ todo steadyNow
      rw [heq]
      refine h.of_perm (.of_eq ?_) (fun a ha => AList.mem_replace.mp ha)
      unfold inbound
      rcases hnext with rfl | rfl
      · rfl
      · rw [hpc]
        rfl
  | @expel id toCancel t e hpc =>
      refine h.of_perm (.of_eq ?_) (herase id)
      unfold inbound
      rw [hpc]
      rfl
  | reapTerminal hpc =>
      refine h.of_eq ?_ rfl
      unfold inbound
      rw [hpc]
      rfl
  | @reap id toReap e hpc =>
      refine h.of_perm (.of_eq ?_) (herase id)
      unfold inbound
      rw [hpc]
      rfl

/-- Only an admissible `submit` adds to what is on its way. -/
theorem step (h : Vacant g) (hthread : g.joinable = false → g.pc = .exited)
    {a : EngineAction MockBackend} (hadmits : g.Admits a) (hstep : g.step a = .ok g') : Vacant g' := by
  unfold Engine.step at hstep
  cases a with
  | start =>
      simp only at hstep
      split_ifs at hstep with hrunning hjoinable
      · cases hstep
        exact h
      · cases hstep
        refine h.of_eq ?_ rfl
        unfold inbound
        rw [hthread (Bool.eq_false_iff.mpr hjoinable)]
        rfl
  | stop =>
      cases hstep
      split_ifs
      · exact h.of_eq rfl rfl
      · exact h.of_eq rfl rfl
  | join =>
      cases hstep
      split_ifs
      · exact h.of_eq rfl rfl
      · exact h
  | submit sub =>
      cases hstep
      split_ifs
      · refine h.submitted sub ?_ rfl hadmits.1 hadmits.2.1 hadmits.2.2
        unfold inbound
        simp only [List.append_assoc, List.singleton_append]
        exact List.perm_middle
      · exact h
  | push k =>
      simp only at hstep
      split at hstep
      · cases hstep
        exact h
      · rename_i sub hsub
        cases hstep
        refine h.of_perm ?_ (fun _ hid => hid)
        obtain ⟨hk, rfl⟩ := List.getElem?_eq_some_iff.mp hsub
        unfold inbound
        simp only
        rw [← List.append_assoc]
        refine (List.perm_append_singleton _ _).trans ?_
        rw [← List.cons_append, ← List.cons_append]
        exact ((List.getElem_cons_eraseIdx_perm hk).append_right _).append_right _
  | cancel id =>
      cases hstep
      exact h.of_eq rfl rfl
  | pop channel =>
      simp only at hstep
      split at hstep
      · cases hstep
        exact h
      · cases hstep
        exact h.of_eq rfl rfl
  | close channel =>
      cases hstep
      exact h.of_eq rfl rfl
  | event e =>
      obtain ⟨w, -, hstep⟩ := bind_eq_ok.mp hstep
      cases hstep
      exact h.of_eq rfl rfl
  | engine choice steadyNow => exact h.move (engineStep_move hstep)

end Vacant

/-- The call an admissible step makes is one the scheduler can carry out: an id that is on its way is
not live, since every live request has an entry. -/
theorem admits_schedulerCalls (hbooks : Books g) (hvacant : Vacant g) {a : EngineAction MockBackend}
    (hadmits : g.Admits a) :
    Guarded FifoScheduler.apply FifoScheduler.Admits g.scheduler (g.schedulerCalls a) := by
  cases a with
  | event e => exact guarded_singleton.mpr hadmits
  | engine choice steadyNow =>
      unfold schedulerCalls
      cases hpc : g.pc with
      | admitting batch =>
          cases batch with
          | nil => trivial
          | cons sub rest =>
              have hsub : sub ∈ g.inbound := by
                unfold inbound
                rw [hpc]
                simp [EnginePc.admitBatch]
              refine guarded_singleton.mpr ⟨hvacant.funded sub hsub, fun r hr hid => ?_⟩
              obtain ⟨e, he, -⟩ := hbooks.active_of_live (List.mem_append.mp hr)
              rw [hid] at he
              exact hvacant.free sub hsub (FinMap.mem_of_find he)
      | cancelling batch =>
          cases batch with
          | nil => trivial
          | cons id rest => exact guarded_singleton.mpr trivial
      | tick =>
          simp only
          split_ifs
          · trivial
          · exact guarded_singleton.mpr trivial
      | expelling toCancel =>
          simp only
          cases pick toCancel choice with
          | none => trivial
          | some id => exact guarded_singleton.mpr trivial
      | _ => trivial
  | _ => trivial

/-- A state from which no admissible step aborts. -/
structure Upright (prefillCost decodeCost : Duration) (w : MockBackend) (g : Engine MockBackend) :
    Prop where
  books : Books g
  vacant : Vacant g
  able : FifoScheduler.Able prefillCost decodeCost g.scheduler
  sound : Sound w g g.scheduler

theorem Upright.step {prefillCost decodeCost : Duration} {w : MockBackend}
    (hg : Upright prefillCost decodeCost w g) (hprefill : 0 ≤ prefillCost) (hdecode : 0 ≤ decodeCost)
    {a : EngineAction MockBackend} (hadmits : g.Admits a) :
    Ensures (g.step a) (fun _ => False) (Upright prefillCost decodeCost w) := by
  have hcalls : Ensures (run FifoScheduler.apply g.scheduler (g.schedulerCalls a)) (fun _ => False)
      (FifoScheduler.Able prefillCost decodeCost) :=
    run_ensures_guarded (fun _ _ hs hop => hs.apply hprefill hdecode hop) _ hg.able _
      (admits_schedulerCalls hg.books hg.vacant hadmits)
  refine ensures_iff.mpr ⟨fun g' hstep => ?_, fun e herror => ?_⟩
  · obtain ⟨s, hrun, hsound⟩ := sound_simulates w g g.scheduler a g' hg.sound hstep
    have hscheduler := hsound.scheduler
    subst hscheduler
    exact ⟨(hg.books.step hg.vacant.admitSafe hstep).1, hg.vacant.step hg.books.thread hadmits hstep,
      hcalls.ok hrun, hsound⟩
  · rcases sound_aborts w g g.scheduler a e hg.sound herror with ⟨rfl, hrunning, hjoinable, -⟩ | hrun
    · -- the overwritten thread is what the condition on `start` excludes
      rcases hadmits with h | h
      · rw [hrunning] at h
        cases h
      · rw [hjoinable] at h
        cases h
    · exact hcalls.error hrun

/-- **The engine stays up.** Over a mock backend and whatever the interleaving of its parties: a run
whose actions are admissible never aborts. Cancels of any id, consumers that never pop or close early,
injected errors, expiries, shutdowns with work in flight and restarts are all allowed; so is an id that
was used before, once its entry is gone. -/
theorem engine_stays_up (clock : FakeClock) (prefillCost decodeCost timeout : Duration)
    (channels : ChannelPtr → TokenChannel) (actions : List (EngineAction MockBackend))
    (hprefill : 0 ≤ prefillCost) (hdecode : 0 ≤ decodeCost)
    (hadmits : Guarded step Admits (new (.new clock prefillCost decodeCost) timeout channels) actions) :
    ∃ g, run step (new (.new clock prefillCost decodeCost) timeout channels) actions = .ok g := by
  have hstart : Upright prefillCost decodeCost (.new clock prefillCost decodeCost)
      (new (.new clock prefillCost decodeCost) timeout channels) :=
    ⟨Books.new _ timeout channels, Vacant.new _ timeout channels,
      FifoScheduler.able_new clock prefillCost decodeCost, sound_new _ timeout channels⟩
  have hall := run_ensures_guarded (fun _ _ hg ha => hg.step hprefill hdecode ha) _ hstart actions
    hadmits
  cases hrun : run step (new (.new clock prefillCost decodeCost) timeout channels) actions with
  | ok g => exact ⟨g, rfl⟩
  | error e => exact (hall.error hrun).elim

/-- An id is used, its stream ends, and it is used again; then the engine is stopped and started. -/
def secondStream : List (EngineAction MockBackend) :=
  [.start, .submit oneToken, .push 0] ++ engineSteps 30 ++ [.submit oneToken, .push 0] ++
    engineSteps 5 ++ [.cancel "a", .stop] ++ engineSteps 30 ++ [.join, .start]

theorem engine_stays_up_secondStream : ∃ g, run step idleEngine secondStream = .ok g :=
  engine_stays_up ⟨0⟩ 1 5 100 (fun _ => .new 4) secondStream (by decide) (by decide)
    (by decide +kernel)

end Engine

end Tokamak
