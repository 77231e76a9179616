import Tokamak.EngineLoop
import Tokamak.EngineProgress

/-! Waiting for the engine thread is bounded. After `stop()` has taken the flag down the thread leaves
its loop within a number of its own steps that the state tells, and while it runs every submission is
answered within such a number. Clients that go on submitting and cancelling add a few steps each, but
cannot keep anybody waiting. -/

open Outcome

namespace Tokamak

variable {ω : Type}

def EngineAction.isStart [Environment ω] : EngineAction ω → Bool
  | .start => true
  | _ => false

def EngineAction.isStop [Environment ω] : EngineAction ω → Bool
  | .stop => true
  | _ => false

/-- The actions on the thread itself. -/
def EngineAction.isControl [Environment ω] : EngineAction ω → Bool
  | .start => true
  | .stop => true
  | .join => true
  | _ => false

namespace Engine

variable {g g' : Engine ω}

/-- The steps the thread takes before it reads the flag, and those of the tick that may lie on the way. -/
def shutdownWork (g : Engine ω) : Nat :=
  g.debt + if g.pc.swapped = true ∨ g.pc = .drainSubmissions then 5 * g.load + 12 else 0

/-- The flag is down, and the call of `stop` that took it down is still waiting or has joined. -/
structure Stopping (g : Engine ω) : Prop where
  flag : g.running = false
  caller : g.stopping = true ∨ g.stopped = true ∧ g.joinable = false

/-- The flags that control the thread are as they were. -/
structure SameFlags (g g' : Engine ω) : Prop where
  running : g'.running = g.running
  joinable : g'.joinable = g.joinable
  stopping : g'.stopping = g.stopping
  stopped : g'.stopped = g.stopped

section Threads

variable [Clock ω] [InferenceBackend ω]

/-- The engine thread does not touch the flags. -/
theorem Move.flags (h : Move g g') : SameFlags g g' := by
  cases h with
  | push =>
      unfold pushEvent
      simp only
      split_ifs <;> exact ⟨rfl, rfl, rfl, rfl⟩
  | _ => exact ⟨rfl, rfl, rfl, rfl⟩

variable [Environment ω]

/-- Only the actions on the thread do. -/
theorem step_flags {a : EngineAction ω} (hstep : g.step a = .ok g') (hcontrol : a.isControl = false) :
    SameFlags g g' := by
  cases a with
  | start => cases hcontrol
  | stop => cases hcontrol
  | join => cases hcontrol
  | engine choice steadyNow =>
      have hengine : g.engineStep choice steadyNow = .ok g' := hstep
      exact (engineStep_move hengine).flags
  | submit sub =>
      unfold Engine.step at hstep
      simp only at hstep
      split_ifs at hstep
      · cases hstep
        exact ⟨rfl, rfl, rfl, rfl⟩
      · cases hstep
        exact ⟨rfl, rfl, rfl, rfl⟩
  | push k =>
      unfold Engine.step at hstep
      simp only at hstep
      split at hstep
      · cases hstep
        exact ⟨rfl, rfl, rfl, rfl⟩
      · cases hstep
        exact ⟨rfl, rfl, rfl, rfl⟩
  | cancel id =>
      cases hstep
      exact ⟨rfl, rfl, rfl, rfl⟩
  | pop channel =>
      unfold Engine.step at hstep
      simp only at hstep
      split at hstep
      · cases hstep
        exact ⟨rfl, rfl, rfl, rfl⟩
      · cases hstep
        exact ⟨rfl, rfl, rfl, rfl⟩
  | close channel =>
      cases hstep
      exact ⟨rfl, rfl, rfl, rfl⟩
  | event e =>
      obtain ⟨w, -, hstep⟩ := bind_eq_ok.mp hstep
      cases hstep
      exact ⟨rfl, rfl, rfl, rfl⟩

theorem Stopping.step (h : Stopping g) {a : EngineAction ω} (hstart : a.isStart = false)
    (hstep : g.step a = .ok g') : Stopping g' := by
  obtain ⟨hflag, hcaller⟩ := h
  cases hcontrol : a.isControl with
  | false =>
      have hflags := step_flags hstep hcontrol
      refine ⟨hflags.running.trans hflag, ?_⟩
      rw [hflags.stopping, hflags.stopped, hflags.joinable]
      exact hcaller
  | true =>
      cases a with
      | start => cases hstart
      | stop =>
          unfold Engine.step at hstep
          simp only at hstep
          rw [if_neg (by rw [hflag]; exact Bool.false_ne_true)] at hstep
          cases hstep
          exact ⟨hflag, hcaller.imp_right (fun h => ⟨rfl, h.2⟩)⟩
      | join =>
          unfold Engine.step at hstep
          simp only at hstep
          split_ifs at hstep
          · cases hstep
            exact ⟨hflag, .inr ⟨rfl, rfl⟩⟩
          · cases hstep
            exact ⟨hflag, hcaller⟩
      | _ => cases hcontrol

/-- A thread that has left its loop stays out of it until it is started again. -/
theorem step_exited {a : EngineAction ω} (hstart : a.isStart = false) (hpc : g.pc = .exited)
    (hstep : g.step a = .ok g') : g'.pc = .exited := by
  cases hengine : a.isEngine with
  | false =>
      refine (step_added hstep hengine (fun ha => ?_)).pc.trans hpc
      rw [ha] at hstart
      cases hstart
  | true =>
      cases a with
      | engine choice steadyNow =>
          have hidle : g.engineStep choice steadyNow = .ok g := by
            unfold engineStep
            rw [hpc]
          have hsame := hidle.symm.trans hstep
          cases hsame
          exact hpc
      | _ => cases hengine

variable [AlignedBackend ω]

/-- While the flag is down the thread pays for its way out of the loop. -/
theorem shutdown_pays (w : ω) : Pays step (fun _ => True)
    (fun u : Engine ω => Sound w u u.scheduler ∧ Stopping u) (fun u => u.pc = .exited)
    (fun a => a.isStart = false) shutdownWork (fun a => a.isEngine.toNat)
    (fun a => 6 * a.isPush.toNat + a.isCancel.toNat) where
  back _ _ _ _ _ := trivial
  keeps g a g' hinv _ hstart hstep := by
    obtain ⟨s, -, hs⟩ := sound_simulates w g g.scheduler a g' hinv.1 hstep
    have hscheduler := hs.scheduler
    subst hscheduler
    exact ⟨hs, hinv.2.step hstart hstep⟩
  stays g a g' _ _ hstart hpc hstep := step_exited hstart hpc hstep
  pays g a g' hinv _ hstart hpc hstep := by
    obtain ⟨hsound, hstopping⟩ := hinv
    cases hengine : a.isEngine with
    | false =>
        refine .inr ?_
        have hadded := step_added hstep hengine (fun ha => by rw [ha] at hstart; cases hstart)
        have hload := hadded.load
        have hdebt := hadded.debt
        unfold shutdownWork
        rw [hadded.pc]
        simp only [Bool.toNat_false]
        split_ifs <;> omega
    | true =>
        cases a with
        | engine choice steadyNow =>
            change _ ∨ g'.shutdownWork + 1 ≤ g.shutdownWork + 0
            rcases engineStep_paid hsound.desk.entry hsound.reached.partition hstep hpc with
              ⟨hexited, -⟩ | hpaid | hcharged
            · exact .inl hexited
            · refine .inr ?_
              have hload := hpaid.load
              have hdebt := hpaid.debt
              have hdrains : g'.pc ≠ .drainSubmissions := by
                intro h
                have hrunning := hpaid.drains h
                rw [hstopping.flag] at hrunning
                cases hrunning
              have hswapped : g'.pc.swapped = true ∨ g'.pc = .drainSubmissions →
                  g.pc.swapped = true ∨ g.pc = .drainSubmissions := by
                rintro (h | h)
                · exact (hpaid.swapped h).imp_right (fun h => h.1)
                · exact absurd h hdrains
              unfold shutdownWork
              split_ifs with h' h
              · omega
              · exact absurd (hswapped h') h
              · omega
              · omega
            · refine .inr ?_
              have hload := hcharged.load
              have hdebt := hcharged.debt
              unfold shutdownWork
              rw [if_neg (not_or.mpr ⟨by rw [hcharged.swapped]; exact Bool.false_ne_true,
                hcharged.drains⟩), if_pos (.inl (by rw [hcharged.pc]; rfl))]
              omega
        | _ => cases hengine

/-- **`stop` returns.** In every run of the system: once the flag is down, and as long as nobody starts
the engine again, the thread has left its loop after `shutdownWork` of its own steps, six more for each
submission that is still pushed and one for each cancel; then the `join` in `stop` returns. -/
theorem stop_returns (w : ω) (timeout : Duration) (channels : ChannelPtr → TokenChannel)
    (past : List (EngineAction ω)) (g : Engine ω)
    (hrun : run step (new w timeout channels) past = .ok g) (hstopping : Stopping g)
    (later : List (EngineAction ω)) (g' : Engine ω) (hlater : run step g later = .ok g')
    (hstart : ∀ a ∈ later, a.isStart = false)
    (hlong : g.shutdownWork + (6 * later.countP EngineAction.isPush +
      later.countP EngineAction.isCancel) < later.countP EngineAction.isEngine) :
    g'.pc = .exited ∧ ∃ u, g'.step .join = .ok u ∧ u.stopped = true ∧ u.joinable = false := by
  obtain ⟨s, -, hsound⟩ := (sound_simulates w).run (sound_new w timeout channels) hrun
  have hscheduler := hsound.scheduler
  subst hscheduler
  have hexited : g'.pc = .exited := by
    refine (shutdown_pays w).reached ⟨hsound, hstopping⟩ hstart hlater trivial ?_
    rw [sum_map_weights, sum_map_toNat]
    exact hlong
  refine ⟨hexited, ?_⟩
  have hcaller := ((shutdown_pays w).run_keeps ⟨hsound, hstopping⟩ hstart hlater trivial).2.caller
  unfold Engine.step
  by_cases hjoin : g'.stopping = true ∧ g'.pc = .exited
  · exact ⟨_, congrArg Except.ok (if_pos hjoin), rfl, rfl⟩
  · refine ⟨g', congrArg Except.ok (if_neg hjoin), ?_⟩
    rcases hcaller with hwaiting | hjoined
    · exact absurd ⟨hwaiting, hexited⟩ hjoin
    · exact hjoined

/-- Stopped in the middle of a pass: one request decodes, another one waits to be admitted. -/
def stoppedInPass : List (EngineAction MockBackend) :=
  [.start, .submit manyTokens, .push 0] ++ engineSteps 9 ++
    [.submit { oneToken with id := "b", channel := 1 }, .push 0, .stop]

/-- The thread goes on, and a cancel comes in. -/
def wayOut : List (EngineAction MockBackend) := engineSteps 50 ++ [.cancel "a"]

theorem stop_returns_inPass :
    ∃ g g' u, run step idleEngine stoppedInPass = .ok g ∧ run step g wayOut = .ok g' ∧
      g'.step .join = .ok u ∧ u.stopped = true := by
  obtain ⟨g, hrun, hview⟩ := exists_of_map_ok (x := run step idleEngine stoppedInPass)
    (f := fun g => (g.running, g.stopping, decide (g.shutdownWork < 49),
      (run step g wayOut).map fun _ => ()))
    (b := (false, true, true, .ok ())) (by decide +kernel)
  simp only [Prod.mk.injEq, decide_eq_true_eq] at hview
  obtain ⟨hflag, hcaller, hwork, hlater⟩ := hview
  obtain ⟨g', hlater, -⟩ := exists_of_map_ok hlater
  have hpushes : wayOut.countP EngineAction.isPush = 0 := by decide
  have hcancels : wayOut.countP EngineAction.isCancel = 1 := by decide
  have hsteps : wayOut.countP EngineAction.isEngine = 50 := by decide
  obtain ⟨-, u, hjoin, hstopped, -⟩ := stop_returns (MockBackend.new ⟨0⟩ 1 5) 100 (fun _ => .new 4)
    stoppedInPass g hrun ⟨hflag, .inl hcaller⟩ wayOut g' hlater (by decide)
    (by rw [hpushes, hcancels, hsteps]; omega)
  exact ⟨g, g', u, hrun, hlater, hjoin, hstopped⟩

end Threads

end Engine

end Tokamak
