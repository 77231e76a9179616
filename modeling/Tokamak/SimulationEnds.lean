import Tokamak.SimulationSound

/-! Termination of the simulation. A tick uses up some of the budget of the live requests, and a
submission uses up the workload; the clock's jump uses up nothing but the wait for the next record.
It does so only if the clock lands on the arrival: the jump truncates to whole nanoseconds and the
test does not, so an arrival between two nanoseconds is never reached, and the loop jumps on the spot
for ever. -/

open Outcome

namespace Tokamak

/-! ### What is left to do -/

/-- The steps a request has before it at most. -/
def Request.outstanding (q : Request) : Nat :=
  if q.state.isTerminal then 0 else q.maxOutputTokens - q.outputTokensEmitted + 1

theorem Request.Ticked.outstanding_lt {q q' : Request} (h : Ticked q q')
    (hlive : q.state.isTerminal = false) : q'.outstanding < q.outstanding := by
  have hq : q.outstanding = q.maxOutputTokens - q.outputTokensEmitted + 1 := by
    rw [outstanding, hlive]
    rfl
  cases h with
  | frozen hterminal =>
      rw [hlive] at hterminal
      cases hterminal
  | advanced _ hadvanced =>
      unfold outstanding at hq ⊢
      rw [hq]
      cases hadvanced with
      | failed _ _ hstate =>
          rw [hstate]
          exact Nat.succ_pos _
      | emitted _ _ hterms hbudget _ hcount _ =>
          rw [hterms.maxOutputTokens, hcount]
          split_ifs <;> omega

theorem Request.Ticked.outstanding_le {q q' : Request} (h : Ticked q q') :
    q'.outstanding ≤ q.outstanding := by
  by_cases hterminal : q.state.isTerminal = true
  · rw [h.eq_of_terminal hterminal]
  · exact (h.outstanding_lt (Bool.eq_false_iff.mpr hterminal)).le

namespace FifoScheduler

/-- The steps all requests have before them. -/
def outstanding {ω : Type} (s : FifoScheduler ω) : Nat :=
  ∑ p ∈ Finset.range s.requests.size, (s.request p).outstanding

/-- A tick with something to do gets something done. -/
theorem tick_outstanding {ω : Type} [Clock ω] [InferenceBackend ω] [AlignedBackend ω]
    {s : FifoScheduler ω} (hs : s.Partition) {done : FifoScheduler ω × TickReport}
    (h : s.tick = .ok done) {r : RequestPtr} (hr : s.Live r) : done.1.outstanding < s.outstanding := by
  obtain ⟨-, -, hsize, hticked⟩ := (tick_evolves hs).ok h
  obtain ⟨hlt, hlive⟩ := (hs.live_iff r).mp hr
  unfold outstanding
  rw [hsize]
  refine Finset.sum_lt_sum (fun p hp => ?_) ⟨r, Finset.mem_range.mpr hlt, ?_⟩
  · exact (hticked p (Finset.mem_range.mp hp)).outstanding_le
  · exact (hticked r hlt).outstanding_lt hlive

end FifoScheduler

namespace Simulation

variable {s s' : Simulation} {next : WorkloadRequest}

theorem exists_live (h : s.busy = true) : ∃ r, s.scheduler.Live r := by
  rcases (busy_iff s).mp h with hwaiting | hdecoding
  · obtain ⟨r, hr⟩ := List.exists_mem_of_ne_nil _ hwaiting
    exact ⟨r, .inl hr⟩
  · obtain ⟨r, hr⟩ := List.exists_mem_of_ne_nil _ hdecoding
    exact ⟨r, .inr hr⟩

/-- One while the next record has not arrived. -/
def patience (s : Simulation) : Nat :=
  match s.remaining with
  | [] => 0
  | next :: _ => if next.arrivalMs ≤ elapsedMs s.now then 0 else 1

theorem patience_of_head (h : s.remaining.head? = some next) :
    s.patience = if next.arrivalMs ≤ elapsedMs s.now then 0 else 1 := by
  unfold patience
  cases hremaining : s.remaining with
  | nil =>
      rw [hremaining] at h
      cases h
  | cons next' rest =>
      rw [hremaining] at h
      cases h
      rfl

/-- What every pass of an ending loop makes smaller: records, then steps, then waiting. -/
def todo (s : Simulation) : ℕ ×ₗ ℕ ×ₗ ℕ :=
  toLex (s.remaining.length, toLex (s.scheduler.outstanding, s.patience))

theorem jump_of_le (h : s.now ≤ durationCast next.arrivalMs) :
    s.jump next = .ok (s.jumped (durationCast next.arrivalMs)) := by
  have hforward : 0 ≤ durationCast next.arrivalMs - s.now := by linarith
  unfold jump MockBackend.advance FakeClock.advance
  rw [if_pos hforward]
  change Except.ok (s.jumped (s.now + (durationCast next.arrivalMs - s.now))) = _
  rw [add_sub_cancel]

theorem Jumps.continues (h : s.Jumps next) : s.continues = true := by
  have hne : s.remaining ≠ [] := by
    intro hnil
    have hhead := h.2.1
    rw [hnil] at hhead
    cases hhead
  simp [Simulation.continues, hne]

/-- A jump is made, and lands on the arrival exactly when that is a whole number of nanoseconds. -/
theorem Jumps.lands (h : s.Jumps next) (hnow : 0 ≤ s.now) :
    s.pass = .ok (s.jumped (durationCast next.arrivalMs)) ∧
      (next.arrivalMs ≤ elapsedMs (s.jumped (durationCast next.arrivalMs)).now ↔
        WholeNs next.arrivalMs) := by
  have hms : 0 ≤ next.arrivalMs := by
    have helapsed : 0 ≤ elapsedMs s.now := div_nonneg (by exact_mod_cast hnow) (by norm_num)
    exact helapsed.trans h.2.2.le
  refine ⟨?_, le_elapsedMs_durationCast hms⟩
  rw [pass_of_jumps h]
  exact jump_of_le (le_durationCast hnow h.2.2)

/-- A jump that does not land is made again, from the same state. -/
theorem Jumps.stuck (h : s.Jumps next) (hnow : 0 ≤ s.now) (hwhole : ¬WholeNs next.arrivalMs) :
    (s.jumped (durationCast next.arrivalMs)).continues = true ∧
      (s.jumped (durationCast next.arrivalMs)).pass =
        .ok (s.jumped (durationCast next.arrivalMs)) := by
  have hshort := fun hlands => hwhole ((h.lands hnow).2.mp hlands)
  have hagain : (s.jumped (durationCast next.arrivalMs)).Jumps next :=
    ⟨h.1, h.2.1, not_le.mp hshort⟩
  refine ⟨hagain.continues, ?_⟩
  rw [pass_of_jumps hagain]
  exact jump_of_le le_rfl

/-- A pass makes what is left to do smaller, unless it is a jump that does not land. -/
theorem pass_todo {workload : Workload} (hs : s.Sound workload) (hcontinues : s.continues = true)
    (hpass : s.pass = .ok s') (hwhole : ∀ next, s.Jumps next → WholeNs next.arrivalMs) :
    s'.todo < s.todo := by
  rcases pass_cases (Sound workload) (fun u record rest hu => hu.enqueue) hs hcontinues hpass with
    ⟨batch, m, done, hqueued, hm, hbusy, htick, rfl⟩ | ⟨next, hjumps, -, rfl⟩
  · cases batch with
    | cons record batch =>
        refine Prod.Lex.toLex_lt_toLex.mpr (.inl ?_)
        change m.remaining.length < s.remaining.length
        rw [hqueued.remaining, List.length_append, List.length_cons]
        omega
    | nil =>
        have hsame := hqueued.none rfl
        subst hsame
        obtain ⟨r, hr⟩ := exists_live hbusy
        have hless := FifoScheduler.tick_outstanding hm.partition htick hr
        exact Prod.Lex.toLex_lt_toLex.mpr (.inr ⟨rfl, Prod.Lex.toLex_lt_toLex.mpr (.inl hless)⟩)
  · have hlands := ((hjumps.lands hs.now_nonneg).2).mpr (hwhole next hjumps)
    have hbefore := patience_of_head hjumps.2.1
    rw [if_neg (not_le.mpr hjumps.2.2)] at hbefore
    have hhead : (s.jumped (durationCast next.arrivalMs)).remaining.head? = some next := hjumps.2.1
    have hafter := patience_of_head hhead
    rw [if_pos hlands] at hafter
    refine Prod.Lex.toLex_lt_toLex.mpr (.inr ⟨rfl, Prod.Lex.toLex_lt_toLex.mpr (.inr ⟨rfl, ?_⟩)⟩)
    change (s.jumped (durationCast next.arrivalMs)).patience < s.patience
    rw [hbefore, hafter]
    exact Nat.zero_lt_one

end Simulation

namespace Workload

/-- Whenever the idle branch is taken, the next arrival is a whole number of nanoseconds. -/
def WholeJumps (workload : Workload) : Prop :=
  ∀ s next, workload.Visits s → s.Jumps next → WholeNs next.arrivalMs

/-- Whenever the idle branch is taken, the next record passes the arrival test afterwards. -/
def JumpsLand (workload : Workload) : Prop :=
  ∀ s next, workload.Visits s → s.Jumps next →
    ∃ s', s.pass = .ok s' ∧ next.arrivalMs ≤ elapsedMs s'.now

theorem jumpsLand_iff (workload : Workload) : workload.JumpsLand ↔ workload.WholeJumps := by
  constructor
  · intro h s next hvisits hjumps
    obtain ⟨s', hpass, hlands⟩ := h s next hvisits hjumps
    obtain ⟨hpass', hwhole⟩ := hjumps.lands hvisits.sound.now_nonneg
    rw [hpass'] at hpass
    cases hpass
    exact hwhole.mp hlands
  · intro h s next hvisits hjumps
    obtain ⟨hpass, hwhole⟩ := hjumps.lands hvisits.sound.now_nonneg
    exact ⟨_, hpass, hwhole.mpr (h s next hvisits hjumps)⟩

/-- A jump that does not land is the last thing that happens. -/
theorem not_ends_of_jumps {workload : Workload} {s : Simulation} {next : WorkloadRequest}
    (hvisits : workload.Visits s) (hjumps : s.Jumps next) (hwhole : ¬WholeNs next.arrivalMs) :
    ¬workload.Ends := by
  have hnow := hvisits.sound.now_nonneg
  obtain ⟨hagain, hstuck⟩ := hjumps.stuck hnow hwhole
  rw [ends_iff]
  exact not_ends_of_stuck (hvisits.pass hjumps.continues (hjumps.lands hnow).1) hagain hstuck

/-- **When the simulation ends.** The main loop ends, by returning or by aborting, and every jump of
its clock lands on the next arrival, if and only if the idle branch is only ever taken for an arrival
that is a whole number of nanoseconds; and either of the two alone is equivalent to that. -/
theorem simulation_ends (workload : Workload) :
    (workload.Ends ∧ workload.JumpsLand ↔ workload.WholeJumps) ∧
      (workload.Ends ↔ workload.WholeJumps) := by
  have hends : workload.Ends ↔ workload.WholeJumps := by
    constructor
    · intro hends s next hvisits hjumps
      by_contra hwhole
      exact not_ends_of_jumps hvisits hjumps hwhole hends
    · intro hwhole
      rw [ends_iff]
      refine ends_of_wellFounded (InvImage.wf Simulation.todo wellFounded_lt) ?_
      intro s s' hvisits hcontinues hpass
      have hsound : s.Sound workload := Visits.sound hvisits
      exact Simulation.pass_todo hsound hcontinues hpass (fun next => hwhole s next hvisits)
  refine ⟨⟨fun h => hends.mp h.1, fun h => ⟨hends.mpr h, (jumpsLand_iff workload).mpr h⟩⟩, hends⟩

/-- One record that arrives half a nanosecond after the start. -/
def halfNanosecond : Workload := ⟨[⟨"a", 1 / 2000000, [7], 2, 100⟩], List.pairwise_singleton _ _⟩

/-- The loop jumps to time zero for ever. -/
theorem simulation_never_ends : ¬halfNanosecond.Ends := by
  have hjumps : (Simulation.start halfNanosecond).Jumps ⟨"a", 1 / 2000000, [7], 2, 100⟩ := by
    refine ⟨rfl, rfl, ?_⟩
    change ((0 : Int) : ℚ) / 1000000 < 1 / 2000000
    norm_num
  exact not_ends_of_jumps .start hjumps (by decide +kernel)

end Workload

end Tokamak
