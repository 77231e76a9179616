import Tokamak.SchedulerOrder

/-! Progress. A tick takes every live request one token further or finishes it, so the ticks a
scheduler needs to become idle are bounded by the largest budget that is left. -/

open Outcome

namespace Tokamak

/-- A live request is retired by the tick, or it decodes on with one more token. -/
theorem Request.Ticked.progress {q q' : Request} (h : Ticked q q')
    (hlive : q.state.isTerminal = false) : q'.state.isTerminal = true ∨
      q'.state = .decoding ∧ q'.outputTokensEmitted = q.outputTokensEmitted + 1 := by
  cases h with
  | frozen hterminal =>
      rw [hlive] at hterminal
      cases hterminal
  | advanced _ hadvanced =>
      cases hadvanced with
      | failed _ _ hstate =>
          rw [hstate]
          exact .inl rfl
      | emitted _ _ _ _ _ hcount hstate =>
          rw [hstate]
          split_ifs
          · exact .inl rfl
          · exact .inr ⟨rfl, hcount⟩

/-- The ticks a live request may still take. -/
def Request.ticksLeft (q : Request) : Nat := max 1 (q.maxOutputTokens - q.outputTokensEmitted)

def SchedulerOp.isTick {ω : Type} [Environment ω] : SchedulerOp ω → Bool
  | .tick => true
  | _ => false

def SchedulerOp.isSubmit {ω : Type} [Environment ω] : SchedulerOp ω → Bool
  | .submit .. => true
  | _ => false

namespace FifoScheduler

variable {ω : Type}

/-- The largest number of ticks a live request may still take. -/
def ticksLeft (s : FifoScheduler ω) : Nat :=
  s.tracked.toFinset.sup fun r => (s.request r).ticksLeft

/-- No live request takes more than `n` ticks. -/
def DrainsIn (n : Nat) (s : FifoScheduler ω) : Prop :=
  s.Partition ∧ ∀ r, s.Live r → (s.request r).ticksLeft ≤ n

theorem drainsIn_ticksLeft {s : FifoScheduler ω} (hs : s.Partition) : s.DrainsIn s.ticksLeft := by
  refine ⟨hs, fun r hr => ?_⟩
  refine Finset.le_sup (f := fun r => (s.request r).ticksLeft) (List.mem_toFinset.mpr ?_)
  exact List.mem_append.mpr hr.symm

/-- Nothing live takes no ticks. -/
theorem DrainsIn.idle {s : FifoScheduler ω} (h : s.DrainsIn 0) :
    s.waiting = [] ∧ s.decoding = [] ∧ ∀ r < s.requests.size, (s.state r).isTerminal = true := by
  have hnone : ∀ r, ¬s.Live r := by
    intro r hr
    have hle := h.2 r hr
    unfold Request.ticksLeft at hle
    omega
  refine ⟨List.eq_nil_iff_forall_not_mem.mpr (fun r hr => hnone r (.inl hr)),
    List.eq_nil_iff_forall_not_mem.mpr (fun r hr => hnone r (.inr hr)), ?_⟩
  intro r hr
  exact h.1.rest_terminal r hr (fun hmem => hnone r (.inl hmem)) (fun hmem => hnone r (.inr hmem))

variable [Clock ω] [InferenceBackend ω] [AlignedBackend ω]

theorem DrainsIn.ticked {n : Nat} {s : FifoScheduler ω} (h : s.DrainsIn n)
    {done : FifoScheduler ω × TickReport} (htick : s.tick = .ok done) : done.1.DrainsIn (n - 1) := by
  obtain ⟨hpart, hempty, hsize, hticked⟩ := (tick_evolves h.1).ok htick
  refine ⟨hpart, fun r hr => ?_⟩
  -- whoever is live after the tick decodes, and has used one of its ticks
  have hmem : r ∈ done.1.decoding := by
    rcases hr with hr | hr
    · rw [hempty] at hr
      cases hr
    · exact hr
  have hlt : r < s.requests.size := hsize ▸ hpart.decoding_lt r hmem
  obtain ⟨hlive, hcount, hbudget⟩ := (hticked r hlt).of_decoding (hpart.decoding_state r hmem)
  have hbound := h.2 r ((h.1.live_iff r).mpr ⟨hlt, hlive⟩)
  have hterms := (hticked r hlt).sameTerms.maxOutputTokens
  unfold Request.ticksLeft at hbound ⊢
  omega

omit [AlignedBackend ω] in
theorem DrainsIn.cancelled {n : Nat} {s t : FifoScheduler ω} (h : s.DrainsIn n) {id : RequestId}
    (hcancel : s.cancel id = .ok t) : t.DrainsIn n := by
  have hby := cancel_cancelled h.1 hcancel
  refine ⟨hby.partition, fun r hr => ?_⟩
  have hbound := h.2 r (hby.live h.1 hr)
  rcases hby.request r with heq | ⟨-, -, τ, heq⟩
  · rw [heq]
    exact hbound
  · rw [heq]
    exact hbound

variable [Environment ω]

/-- Only a tick uses ticks, and only a submission asks for new ones. -/
theorem apply_drainsIn {n : Nat} {s : FifoScheduler ω} (h : s.DrainsIn n) {op : SchedulerOp ω}
    (hop : op.isSubmit = false) : Ensures (s.apply op) (fun _ => True)
      (DrainsIn (if op.isTick then n - 1 else n)) := by
  refine ensures_iff.mpr ⟨fun t ht => ?_, fun _ _ => trivial⟩
  cases op with
  | submit id deadlineFromNow maxOutputTokens promptTokenIds priority => cases hop
  | cancel id => exact h.cancelled ht
  | tick =>
      obtain ⟨done, hdone, ht⟩ := bind_eq_ok.mp ht
      cases ht
      exact h.ticked hdone
  | event e =>
      obtain ⟨w, -, ht⟩ := bind_eq_ok.mp ht
      cases ht
      exact ⟨h.1.world w, h.2⟩

theorem run_drains {n : Nat} {s t : FifoScheduler ω} (h : s.DrainsIn n) {ops : List (SchedulerOp ω)}
    (hops : ∀ op ∈ ops, op.isSubmit = false) (hticks : n ≤ ops.countP SchedulerOp.isTick)
    (hrun : run apply s ops = .ok t) : t.DrainsIn 0 := by
  induction ops generalizing s n with
  | nil =>
      rw [run_nil] at hrun
      cases hrun
      exact Nat.le_zero.mp hticks ▸ h
  | cons op rest ih =>
      rw [run_cons] at hrun
      obtain ⟨u, hu, hrun⟩ := bind_eq_ok.mp hrun
      have hnext := (apply_drainsIn h (hops op List.mem_cons_self)).ok hu
      refine ih hnext (fun op' hop' => hops op' (List.mem_cons_of_mem op hop')) ?_ hrun
      rw [List.countP_cons] at hticks
      split_ifs at hticks ⊢ <;> omega

/-- **Progress.** In every state of every run: a tick that returns leaves every request that was live
terminal, or decoding with exactly one more token; and as many ticks as the largest remaining budget
of a live request, at least one if there is any, leave both queues empty and every request terminal,
as long as nothing is submitted. -/
theorem ticks_make_progress (w : ω) (ops : List (SchedulerOp ω)) :
    Ensures (run apply (new w) ops) (fun _ => True) (fun s =>
      (∀ done r, s.tick = .ok done → s.Live r → (done.1.state r).isTerminal = true ∨
        done.1.state r = .decoding ∧
          (done.1.request r).outputTokensEmitted = (s.request r).outputTokensEmitted + 1) ∧
      ∀ later t, (∀ op ∈ later, op.isSubmit = false) →
        s.ticksLeft ≤ later.countP SchedulerOp.isTick → run apply s later = .ok t →
          t.waiting = [] ∧ t.decoding = [] ∧
            ∀ r < t.requests.size, (t.state r).isTerminal = true) := by
  refine (run_safe w ops).mono (fun _ _ => trivial) (fun s hs => ⟨?_, ?_⟩)
  · intro done r hdone hr
    obtain ⟨-, -, -, hticked⟩ := (tick_evolves hs).ok hdone
    obtain ⟨hlt, hlive⟩ := (hs.live_iff r).mp hr
    exact (hticked r hlt).progress hlive
  · intro later t hlater hticks hrun
    exact (run_drains (drainsIn_ticksLeft hs) hlater hticks hrun).idle

/-- Two requests over a mock backend, with three tokens and one token to go: three ticks are enough,
one of them between other calls. -/
theorem ticks_make_progress_mock :
    ∃ s t, run apply (new (MockBackend.new ⟨0⟩ 1 5))
        [.submit "a" 1000 3 [7] 0, .submit "b" 1000 1 [] 0] = .ok s ∧ s.ticksLeft = 3 ∧
      run apply s [.tick, .cancel "c", .tick, .event (MockBackend.Event.advanceClock 1), .tick] =
        .ok t ∧ t.waiting = [] ∧ t.decoding = [] ∧
          ∀ r < t.requests.size, (t.state r).isTerminal = true := by
  let later : List (SchedulerOp MockBackend) :=
    [.tick, .cancel "c", .tick, .event (MockBackend.Event.advanceClock 1), .tick]
  obtain ⟨s, hrun, hview⟩ := exists_of_map_ok
    (x := run apply (new (MockBackend.new ⟨0⟩ 1 5))
      [.submit "a" 1000 3 [7] 0, .submit "b" 1000 1 [] 0])
    (f := fun s => (s.ticksLeft, (run apply s later).map fun _ => ())) (b := (3, .ok ()))
    (by decide +kernel)
  obtain ⟨hleft, hlater⟩ := Prod.mk.inj hview
  obtain ⟨t, ht, -⟩ := exists_of_map_ok hlater
  have hidle := ((ticks_make_progress (MockBackend.new ⟨0⟩ 1 5) _).ok hrun).2 later t
    (by decide) (by rw [hleft]; decide) ht
  exact ⟨s, t, hrun, hleft, ht, hidle⟩

end FifoScheduler

end Tokamak
