import Tokamak.EngineBooks
import Tokamak.SchedulerOwnership

/-! Shutdown. The engine thread leaves its loop as soon as it reads a false flag, and what it has not
finished by then it never finishes. So a shutdown is clean when the thread happens to have nothing
left at that moment, when no late `submit` pushes after it, and when no submission was admitted under
an id in use, since that one has no entry that would ever be closed. -/

open Outcome

namespace Tokamak.Engine

/-- An action that leaves nothing behind. A second `stop` must not overtake the one that joins. -/
def orderly {ω : Type} [Environment ω] (g : Engine ω) : EngineAction ω → Bool
  | .engine _ _ =>
      match g.pc with
      | .loopTest => g.running || (g.pendingSubmissions.isEmpty && g.active.keys.isEmpty)
      | .awake => g.running || (g.pendingSubmissions.isEmpty && g.active.keys.isEmpty)
      | .admitting (sub :: _) => decide (sub.id ∉ g.active)
      | _ => true
  | .push _ => decide (g.pc ≠ .exited)
  | .stop => g.running || !g.joinable
  | _ => true

/-- What an orderly run keeps. -/
structure Tidy (g : Engine MockBackend) : Prop extends Books g where
  drained : g.pc = .exited → g.pendingSubmissions = [] ∧ ∀ id, g.active.find id = none
  owns : FifoScheduler.OwnsAll (fun _ _ => False) g.scheduler
  returned : g.stopped = true → g.joinable = false

variable {g g' : Engine MockBackend}

/-- Live requests have ids of their own, so every tick is safe. -/
theorem Ledger.tickSafe (hg : Ledger g) : g.scheduler.TickSafe := by
  refine ⟨?_, ?_⟩
  · intro r hr d hd _ hid
    have hsame := hg.live_unique (.inl hr) (.inr hd) hid
    subst hsame
    exact hg.partition.notMem_decoding hr hd
  · have hsublist : g.scheduler.upcoming.Sublist g.scheduler.waiting :=
      (List.drop_sublist _ _).trans List.filter_sublist
    refine (hg.partition.waiting_nodup.sublist hsublist).map_on ?_
    intro r hr d hd hid
    exact hg.live_unique (.inl (hsublist.subset hr)) (.inl (hsublist.subset hd)) hid

theorem admitSafe_of_orderly {choice : Nat} {steadyNow : TimePoint}
    (h : g.orderly (.engine choice steadyNow) = true) : AdmitSafe g := by
  intro sub rest hpc
  unfold orderly at h
  rw [hpc] at h
  exact of_decide_eq_true h

/-- The world an admission leaves: reading the fake clock changes nothing. -/
theorem world_of_admitSubmission {sub : Submission} {q : Request} {w : MockBackend}
    {active : FinMap RequestId ActiveEntry}
    (h : g.admitSubmission sub = .ok { g with
      scheduler := g.scheduler.admitted q w, active := active }) : w = g.scheduler.world := by
  unfold admitSubmission at h
  simp only at h
  rw [FifoScheduler.submit_of_received rfl] at h
  have hworld := congrArg (fun u => u.scheduler.world) (Except.ok.inj h)
  exact hworld.symm

/-- The thread leaves its loop with nothing left to do. -/
theorem drained_of_exit {choice : Nat} {steadyNow : TimePoint}
    (h : g.orderly (.engine choice steadyNow) = true) (hrunning : g.running = false)
    (hpc : g.pc = .loopTest ∨ g.pc = .awake) :
    g.pendingSubmissions = [] ∧ ∀ id, g.active.find id = none := by
  have hempty : g.pendingSubmissions = [] ∧ g.active.keys = [] := by
    unfold orderly at h
    rcases hpc with hpc | hpc
    · rw [hpc] at h
      simpa [hrunning] using h
    · rw [hpc] at h
      simpa [hrunning] using h
  refine ⟨hempty.1, fun id => FinMap.find_eq_none.mpr (fun hmem => ?_)⟩
  have hkey := AList.mem_keys.mp hmem
  rw [hempty.2] at hkey
  cases hkey

/-- What the scheduler of the engine owns over a move. -/
theorem Books.move_owns (hg : Books g)
    (howns : FifoScheduler.OwnsAll (fun _ _ => False) g.scheduler) (hmove : Move g g') :
    FifoScheduler.OwnsAll (fun _ _ => False) g'.scheduler := by
  have hcancelled : ∀ {id t}, g.scheduler.cancel id = .ok t →
      FifoScheduler.OwnsAll (fun _ _ => False) t := fun h =>
    ((FifoScheduler.cancel_owns hg.partition howns _).ok h).2
  cases hmove with
  | idle => exact howns
  | jump => exact howns
  | drainSubmissions => exact howns
  | admission hpc hq hcode =>
      rw [world_of_admitSubmission hcode]
      exact FifoScheduler.Owns.admitted howns hg.partition _
  | drainCancels => exact howns
  | cancelInactive hpc hcancel => exact hcancelled hcancel
  | cancelActive hpc hcancel => exact hcancelled hcancel
  | tick hpc htick =>
      exact ((FifoScheduler.tick_owns hg.partition howns hg.tickSafe).ok htick).2
  | @push id todo e tokenId steadyNow =>
      obtain ⟨e', channels, pc, -, -, -, -, -, heq⟩ := pushEvent_eq g id e
        ⟨tokenId, finishReason (g.scheduler.request e.request) e.lastSeenTokens⟩ todo steadyNow
      rw [heq]
      exact howns
  | expel hpc hid hcancel => exact hcancelled hcancel
  | reapTerminal => exact howns
  | reap => exact howns

namespace Tidy

theorem new (clock : FakeClock) (prefillCost decodeCost timeout : Duration)
    (channels : ChannelPtr → TokenChannel) :
    Tidy (Engine.new (MockBackend.new clock prefillCost decodeCost) timeout channels) where
  toBooks := Books.new _ timeout channels
  drained _ := ⟨rfl, fun _ => FinMap.find_empty _⟩
  owns := FifoScheduler.Owns.start _ (MockBackend.fresh_new clock prefillCost decodeCost)
    (fun k hk => absurd hk (AList.notMem_empty k))
  returned h := by cases h

theorem move (hg : Tidy g) {choice : Nat} {steadyNow : TimePoint}
    (horderly : g.orderly (.engine choice steadyNow) = true) (hmove : Move g g') : Tidy g' := by
  refine ⟨(hg.toBooks.move (admitSafe_of_orderly horderly) hmove).1, ?_,
    hg.toBooks.move_owns hg.owns hmove, ?_⟩
  · cases hmove with
    | idle => exact hg.drained
    | jump pc _ _ _ _ _ hexit =>
        intro hpc
        obtain ⟨hrunning, hpc⟩ := hexit hpc
        have hdrained := drained_of_exit horderly hrunning hpc
        exact hdrained
    | @push id todo e tokenId steadyNow hpc =>
        obtain ⟨e', channels, pc, -, -, -, -, hnext, heq⟩ := pushEvent_eq g id e
          ⟨tokenId, finishReason (g.scheduler.request e.request) e.lastSeenTokens⟩ todo steadyNow
        rw [heq]
        intro hexited
        rcases hnext with hnext | hnext
        · rw [hpc] at hnext
          cases hnext.symm.trans hexited
        · cases hnext.symm.trans hexited
    | _ => nofun
  · cases hmove with
    | @push id todo e tokenId steadyNow =>
        obtain ⟨e', channels, pc, -, -, -, -, -, heq⟩ := pushEvent_eq g id e
          ⟨tokenId, finishReason (g.scheduler.request e.request) e.lastSeenTokens⟩ todo steadyNow
        rw [heq]
        exact hg.returned
    | _ => exact hg.returned

/-- Whatever another thread does in order. -/
theorem step (hg : Tidy g) {a : EngineAction MockBackend} (horderly : g.orderly a = true)
    (hstep : g.step a = .ok g') : Tidy g' := by
  rcases step_cases hstep with houtside | ⟨choice, steadyNow, rfl, hmove⟩
  swap
  · exact hg.move horderly hmove
  have hbooks := (hg.toBooks.outside houtside).1
  have hdrained := hg.drained
  have howns := hg.owns
  have hreturned := hg.returned
  unfold Engine.step at hstep
  cases a with
  | start =>
      simp only at hstep
      split_ifs at hstep with hrunning hjoinable
      · cases hstep
        exact hg
      · cases hstep
        exact ⟨hbooks, nofun, howns, nofun⟩
  | stop =>
      cases hstep
      by_cases hrunning : g.running = true
      · rw [if_pos hrunning] at hbooks ⊢
        exact ⟨hbooks, hdrained, howns, hreturned⟩
      · rw [if_neg hrunning] at hbooks ⊢
        refine ⟨hbooks, hdrained, howns, fun _ => ?_⟩
        simpa [orderly, hrunning] using horderly
  | join =>
      cases hstep
      by_cases hjoin : g.stopping = true ∧ g.pc = .exited
      · rw [if_pos hjoin] at hbooks ⊢
        exact ⟨hbooks, hdrained, howns, fun _ => rfl⟩
      · rw [if_neg hjoin]
        exact hg
  | submit sub =>
      cases hstep
      by_cases hrunning : g.running = true
      · rw [if_pos hrunning] at hbooks ⊢
        exact ⟨hbooks, hdrained, howns, hreturned⟩
      · rw [if_neg hrunning]
        exact hg
  | push k =>
      have halive : g.pc ≠ .exited := of_decide_eq_true horderly
      simp only at hstep
      split at hstep
      · cases hstep
        exact hg
      · cases hstep
        exact ⟨hbooks, fun hexited => absurd hexited halive, howns, hreturned⟩
  | cancel id =>
      cases hstep
      exact ⟨hbooks, hdrained, howns, hreturned⟩
  | pop channel =>
      simp only at hstep
      split at hstep
      · cases hstep
        exact hg
      · cases hstep
        exact ⟨hbooks, hdrained, howns, hreturned⟩
  | close channel =>
      cases hstep
      exact ⟨hbooks, hdrained, howns, hreturned⟩
  | event e =>
      obtain ⟨w, hw, hstep⟩ := bind_eq_ok.mp hstep
      cases hstep
      have hsame := (MockBackend.occur_ensures g.scheduler.world e).ok (callBackend_eq_ok.mp hw)
      exact ⟨hbooks, hdrained, howns.world hsame, hreturned⟩
  | engine choice steadyNow => exact hg.move horderly (engineStep_move hstep)

/-- When the thread has left its loop, every accepted submission is finished with. -/
theorem finished (hg : Tidy g) (hexited : g.pc = .exited) {sub : Submission}
    (hsub : sub ∈ g.accepted) : (g.channels sub.channel).closed = true := by
  obtain ⟨hpending, hactive⟩ := hg.drained hexited
  have hall : g.accepted.drop g.owned = [] := by
    rw [hg.backlog, hexited, hpending]
    rfl
  obtain ⟨i, hi⟩ := List.getElem?_of_mem hsub
  have hlt : i < g.owned := by
    have hlength := List.drop_eq_nil_iff.mp hall
    exact lt_of_lt_of_le (List.getElem?_eq_some_iff.mp hi).1 hlength
  rcases hg.settled i sub hlt hi with ⟨id, e, he, -⟩ | ⟨-, hclosed⟩
  · rw [hactive id] at he
    cases he
  · exact hclosed

/-- Without active entries there is no live request, so nothing holds a sequence. -/
theorem released (hg : Tidy g) (hexited : g.pc = .exited) (k : Nat) :
    k ∉ g.scheduler.world.sequences := by
  intro hk
  obtain ⟨d, hd, -⟩ := (hg.owns.sequencesOwned hg.partition).2.2 k hk
  obtain ⟨e, he, -⟩ := hg.active_of_live (.inr hd)
  rw [(hg.drained hexited).2] at he
  cases he

end Tidy

/-! ### Runs -/

/-- **An orderly shutdown leaves no consumer hanging.** In every run whose actions are all orderly,
whenever a call of `stop` has returned: the channel of every submission the engine accepted is closed,
a consumer of it gets what is buffered and then the end of the stream, and the backend has no live
sequence. -/
theorem shutdown_leaves_nothing (clock : FakeClock) (prefillCost decodeCost timeout : Duration)
    (channels : ChannelPtr → TokenChannel) (actions : List (EngineAction MockBackend))
    (g : Engine MockBackend)
    (horderly : Guarded step (fun u a => u.orderly a = true)
      (new (.new clock prefillCost decodeCost) timeout channels) actions)
    (hrun : run step (new (.new clock prefillCost decodeCost) timeout channels) actions = .ok g)
    (hstopped : g.stopped = true) :
    (∀ sub ∈ g.accepted, (g.channels sub.channel).closed = true ∧
      (g.channels sub.channel).consume ((g.channels sub.channel).size + 1) =
        some (g.channels sub.channel).buffer) ∧
    ∀ k, k ∉ g.scheduler.world.sequences := by
  have hall : Ensures (run step (new (.new clock prefillCost decodeCost) timeout channels) actions)
      (fun _ => True) Tidy := by
    refine run_ensures_guarded (fun u a hu hmet => ?_) _
      (Tidy.new clock prefillCost decodeCost timeout channels) actions horderly
    exact ensures_iff.mpr ⟨fun u' hu' => hu.step hmet hu', fun _ _ => trivial⟩
  have htidy := hall.ok hrun
  have hexited : g.pc = .exited := htidy.thread (htidy.returned hstopped)
  refine ⟨?_, htidy.released hexited⟩
  intro sub hsub
  have hclosed := htidy.finished hexited hsub
  exact ⟨hclosed, TokenChannel.consume_closed hclosed⟩

/-- One request is served to its end before `stop` is called. -/
def servedThenStopped : List (EngineAction MockBackend) :=
  [.start, .submit oneToken, .push 0] ++ engineSteps 20 ++ [.stop] ++ engineSteps 9 ++ [.join]

theorem shutdown_leaves_nothing_served :
    ∃ g : Engine MockBackend, run step idleEngine servedThenStopped = .ok g ∧
      oneToken ∈ g.accepted ∧ g.stopped = true ∧ (g.channels 0).closed = true ∧
      ∀ k, k ∉ g.scheduler.world.sequences := by
  obtain ⟨g, hrun, hview⟩ := exists_of_map_ok (x := run step idleEngine servedThenStopped)
    (b := ([oneToken], true)) (f := fun g => (g.accepted, g.stopped)) (by decide +kernel)
  simp only [Prod.mk.injEq] at hview
  obtain ⟨haccepted, hstopped⟩ := hview
  have horderly : Guarded step (fun u a => u.orderly a = true) idleEngine servedThenStopped := by
    decide +kernel
  have hmem : oneToken ∈ g.accepted := by
    rw [haccepted]
    exact List.mem_singleton_self _
  obtain ⟨hclosed, hreleased⟩ := shutdown_leaves_nothing ⟨0⟩ 1 5 100 (fun _ => .new 4)
    servedThenStopped g horderly hrun hstopped
  exact ⟨g, hrun, hmem, hstopped, (hclosed oneToken hmem).1, hreleased⟩

/-- A `stop` before the engine drains leaves the submission pending and its channel open; a `stop`
while a request of three tokens decodes leaves its sequence live as well. -/
theorem shutdown_leaves_consumer :
    (∃ g : Engine MockBackend,
      run step idleEngine ([.start, .submit oneToken, .push 0, .stop] ++ engineSteps 1 ++ [.join]) =
        .ok g ∧
      oneToken ∈ g.accepted ∧ g.stopped = true ∧ (g.channels 0).closed = false) ∧
    ∃ g : Engine MockBackend,
      run step idleEngine ([.start, .submit { oneToken with maxTokens := 3 }, .push 0] ++
        engineSteps 9 ++ [.stop] ++ engineSteps 20 ++ [.join]) = .ok g ∧
      { oneToken with maxTokens := 3 } ∈ g.accepted ∧ g.stopped = true ∧
      (g.channels 0).closed = false ∧ 0 ∈ g.scheduler.world.sequences := by
  constructor
  · obtain ⟨g, hrun, hview⟩ := exists_of_map_ok (x := run step idleEngine
        ([.start, .submit oneToken, .push 0, .stop] ++ engineSteps 1 ++ [.join]))
      (b := (true, true, false))
      (f := fun g => (decide (oneToken ∈ g.accepted), g.stopped, (g.channels 0).closed))
      (by decide +kernel)
    simp only [Prod.mk.injEq, decide_eq_true_eq] at hview
    exact ⟨g, hrun, hview⟩
  · obtain ⟨g, hrun, hview⟩ := exists_of_map_ok (x := run step idleEngine
        ([.start, .submit { oneToken with maxTokens := 3 }, .push 0] ++ engineSteps 9 ++ [.stop] ++
          engineSteps 20 ++ [.join]))
      (b := (true, true, false, true))
      (f := fun g => (decide ({ oneToken with maxTokens := 3 } ∈ g.accepted), g.stopped,
        (g.channels 0).closed, decide (0 ∈ g.scheduler.world.sequences)))
      (by decide +kernel)
    simp only [Prod.mk.injEq, decide_eq_true_eq] at hview
    exact ⟨g, hrun, hview⟩

end Tokamak.Engine
