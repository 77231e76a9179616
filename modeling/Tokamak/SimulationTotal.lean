import Tokamak.Refinement
import Tokamak.SimulationEnds
import Tokamak.SimulationTies
import Tokamak.SimulationTimes

/-! The simulation as a whole. With distinct ids it is its replay: same result, same abort, after the
same number of passes. And in exact arithmetic it returns exactly when every arrival it waits for is a
whole number of nanoseconds and no record without a budget is ever prefilled. -/

open Outcome

namespace Tokamak

namespace FifoScheduler

variable {s : FifoScheduler MockBackend} {prefillCost decodeCost : Duration}

/-- Over distinct ids the only abort of a tick is the exhausted budget. -/
theorem tick_exhausts (hs : s.Undisturbed prefillCost decodeCost) (hiso : Isolated [] s)
    (hdistinct : s.DistinctTracked) :
    Ensures s.tick (.tokenBudgetExceeded = ·) (fun _ => True) := by
  refine tick_ensures
    (fun a => a.1.Undisturbed prefillCost decodeCost ∧ Isolated [] a.1 ∧ a.1.DistinctTracked)
    (fun _ b => b.1.Undisturbed prefillCost decodeCost ∧ Isolated [] b.1 ∧ b.1.DistinctTracked) ?_ ?_ ?_
  · refine ((expireDeadlines_isolated hs.partition hiso hdistinct).and
      (expireDeadlines_quiet hs)).imp ?_
    rintro a ⟨⟨-, hiso', hdist'⟩, hquiet, -⟩
    exact ⟨hquiet, hiso', hdist'⟩
  · rintro a ⟨hquiet, hiso', hdist'⟩
    refine ((prefillPhase_isolated hquiet.partition hiso' hdist' ?_).and
      (prefillPhase_quiet hquiet)).imp ?_
    · exact (hquiet.quiet.prefill hquiet.handles.fresh hquiet.prefillCost_nonneg _).imp fun _ h => h.1
    rintro b ⟨⟨-, hiso'', hdist''⟩, hquiet', -⟩
    exact ⟨hquiet', hiso'', hdist''⟩
  · rintro - b ⟨hquiet, hiso', hdist'⟩
    refine (decodePhase_isolated hquiet.partition hiso' hdist' (fun batch hbatch => ?_)
      (fun _ _ _ => rfl)).imp (fun _ _ => trivial)
    exact (hquiet.quiet.decode hquiet.decodeCost_nonneg hbatch).imp (fun _ h => h.1)

end FifoScheduler

/-! ### The simulation is its replay -/

namespace Replay

def result (r : Replay) : SimulationResult := ⟨r.reports, r.requests.map Request.summary⟩

variable {r : Replay}

/-- A pass of a replay aborts where a tick would go over a budget. -/
theorem pass_error_iff {e : Panic} : r.pass = .error e ↔
    e = .tokenBudgetExceeded ∧ r.submit.busy = true ∧ r.submit.funded = false := by
  unfold pass tick
  cases hbusy : r.submit.busy with
  | true =>
      cases hfunded : r.submit.funded with
      | true => simp
      | false => simp [eq_comm]
  | false =>
      cases r.submit.remaining with
      | nil => simp
      | cons next rest => simp

/-- No request is waiting, and every decoding one has a token of its budget left. -/
structure Thrifty (r : Replay) : Prop where
  settled : r.Settled
  funded : ∀ q ∈ r.requests, q.state = .decoding → q.outputTokensEmitted < q.maxOutputTokens

theorem thrifty_start (workload : Workload) : (start workload).Thrifty where
  settled q hq := by cases hq
  funded q hq := by cases hq

/-- Who has emitted the last token of its budget is completed. -/
theorem thrifty_ticked (r : Replay) : r.ticked.Thrifty := by
  refine ⟨settled_ticked r, fun q hq hstate => ?_⟩
  obtain ⟨q', -, rfl⟩ := List.mem_map.mp hq
  by_cases hdecoding : q'.state = .decoding
  · rw [Request.decode_of_decoding _ hdecoding] at hstate ⊢
    by_cases hlast : q'.lastToken = true
    · rw [if_pos hlast] at hstate
      simp at hstate
    · rw [if_neg hlast]
      exact not_le.mp (fun hle => hlast (decide_eq_true hle))
  · rw [Request.decode_of_not_decoding _ hdecoding] at hstate
    exact absurd hstate hdecoding

theorem Thrifty.pass (h : r.Thrifty) {v : Replay} (hpass : r.pass = .ok v) : v.Thrifty := by
  refine ⟨Settled.pass hpass, ?_⟩
  rcases pass_cases hpass with ⟨-, -, rfl⟩ | ⟨-, hrequests, -⟩
  · exact (thrifty_ticked _).funded
  · intro q hq hstate
    rw [hrequests] at hq
    rcases List.mem_append.mp hq with hold | hnew
    · exact h.funded q hold hstate
    · obtain ⟨record, -, rfl⟩ := List.mem_map.mp hnew
      cases hstate

/-- A tick goes over a budget exactly when it prefills a record without one. -/
theorem Thrifty.funded_iff (h : r.Thrifty) : r.submit.funded = true ↔
    ∀ record ∈ r.remaining, record.arrivalMs ≤ elapsedMs r.now →
      0 ≤ durationCast record.deadlineMs → record.maxTokens ≠ 0 := by
  unfold Replay.funded
  rw [List.all_eq_true]
  constructor
  · intro hfunded record hmem harrived hdeadline
    have hbatch := h.settled.mem_batch.mpr ⟨record, hmem, harrived, hdeadline, rfl⟩
    obtain ⟨hculled, hstate⟩ := List.mem_filter.mp hbatch
    have hprefilled : (Simulation.queued r.now record).prefill r.submit.prefilledAt ∈
        requestsIn .decoding r.submit.prefilled := by
      refine List.mem_filter.mpr ⟨List.mem_map.mpr ⟨_, hculled, rfl⟩, ?_⟩
      rw [Request.prefill_of_waiting _ rfl]
      rfl
    have hlt : (0 : Nat) < record.maxTokens := of_decide_eq_true (hfunded _ hprefilled)
    exact hlt.ne'
  · intro hrecords q hq
    refine decide_eq_true ?_
    obtain ⟨hmem, hstate⟩ := List.mem_filter.mp hq
    obtain ⟨q', hq', rfl⟩ := List.mem_map.mp hmem
    by_cases hwaiting : q'.state = .waitingPrefill
    · obtain ⟨record, hrecord, harrived, hdeadline, rfl⟩ :=
        h.settled.mem_batch.mp (List.mem_filter.mpr ⟨hq', decide_eq_true hwaiting⟩)
      exact Nat.pos_of_ne_zero (hrecords record hrecord harrived hdeadline)
    · rw [Request.prefill_of_not_waiting _ hwaiting] at hstate ⊢
      have hdecoding : q'.state = .decoding := of_decide_eq_true hstate
      obtain ⟨q'', hq'', rfl⟩ := List.mem_map.mp hq'
      have hlasting : ¬q''.deadlineAt < r.submit.now := by
        intro hexpired
        unfold Request.expire at hdecoding
        rw [if_pos hexpired] at hdecoding
        split at hdecoding
        · simp at hdecoding
        · simp at hdecoding
        · contradiction
      rw [Request.expire_of_not_expired _ hlasting] at hdecoding ⊢
      rcases List.mem_append.mp hq'' with hold | hnew
      · exact h.funded q'' hold hdecoding
      · obtain ⟨record, -, rfl⟩ := List.mem_map.mp hnew
        cases hdecoding

end Replay

namespace Simulation

variable {workload : Workload} {s : Simulation}

/-- The only abort of a pass is the exhausted budget. -/
theorem Sound.pass_exhausts (hs : s.Sound workload) (hq : s.scheduler.world.Quiet 1000000 5000000)
    (hids : (workload.records.map fun record => record.id).Nodup)
    (hiso : FifoScheduler.Isolated [] s.scheduler) {e : Panic} (h : s.pass = .error e) :
    e = .tokenBudgetExceeded := by
  obtain ⟨batch, m, hm, hqueued, hmsound, hmq, hmiso⟩ := submitArrived_queued
    (fun u => u.Sound workload ∧ u.scheduler.world.Quiet 1000000 5000000 ∧
      FifoScheduler.Isolated [] u.scheduler)
    (fun u record rest hu hremaining => ⟨hu.1.enqueue hremaining, hu.2.1,
      hu.2.2.admitted hu.1.partition rfl rfl⟩) ⟨hs, hq, hiso⟩
  unfold Simulation.pass at h
  rw [hm, ok_bind] at h
  by_cases hbusy : m.busy = true
  · rw [if_pos hbusy] at h
    rcases bind_eq_error.mp h with htick | ⟨done, -, h⟩
    · exact ((FifoScheduler.tick_exhausts (hmsound.undisturbed hmq) hmiso
        (hmsound.distinctTracked hids)).error htick).symm
    · cases h
  · rw [if_neg hbusy] at h
    cases hremaining : m.remaining with
    | nil =>
        rw [hremaining] at h
        cases h
    | cons next rest =>
        rw [hremaining] at h
        have hforward : m.now ≤ durationCast next.arrivalMs := by
          refine le_durationCast hmsound.now_nonneg ?_
          rw [show m.now = s.now by unfold now; rw [hqueued.world]]
          exact hqueued.waits next rest hremaining
        simp only at h
        rw [jump_of_le hforward] at h
        cases h

end Simulation

namespace Workload

variable {workload : Workload} {s : Simulation}

/-- A pass of the simulation, viewed as one of the replay. -/
theorem Visits.pass_map (h : workload.Visits s)
    (hids : (workload.records.map fun record => record.id).Nodup) (hcontinues : s.continues = true) :
    s.pass.map Simulation.replay = s.replay.pass := by
  cases hpass : s.pass with
  | ok s' => exact (Simulation.pass_replays h.sound h.quiet hcontinues hpass).2.symm
  | error e =>
      have hexhausted := h.sound.pass_exhausts h.quiet hids (h.isolated hids) hpass
      cases hreplay : s.replay.pass with
      | ok v =>
          obtain ⟨s', hpass'⟩ := h.sound.pass_total h.quiet hids (h.isolated hids) hreplay
          rw [hpass] at hpass'
          cases hpass'
      | error e' =>
          rw [hexhausted, (Replay.pass_error_iff.mp hreplay).1]
          rfl

/-- **The simulation is its replay.** With distinct ids, and however many tests of the main loop are
allowed: the replay, which has neither queues nor handles nor a backend, is cut off when the simulation
is, aborts when it does and with the same panic, and returns the same reports and summaries. -/
theorem simulation_is_replay (workload : Workload)
    (hids : (workload.records.map fun record => record.id).Nodup) (fuel : Nat) :
    runSimulation fuel workload =
      (whileLoop Replay.continues Replay.pass fuel (.start workload)).map
        (fun out => out.map Replay.result) := by
  have hview : (whileLoop Simulation.continues Simulation.pass fuel (.start workload)).map
      (Except.map Simulation.replay) =
        whileLoop Replay.continues Replay.pass fuel (.start workload) :=
    whileLoop_map Simulation.replay workload.Visits .start
      (fun u hu => Simulation.replay_continues hu.sound.partition)
      (fun u hu hcontinues => hu.pass_map hids hcontinues)
      (fun u v hu hcontinues hpass => hu.pass hcontinues hpass) fuel
  unfold runSimulation
  rw [← hview]
  cases hloop : whileLoop Simulation.continues Simulation.pass fuel (.start workload) with
  | none => rfl
  | some out =>
      cases out with
      | error e => rfl
      | ok t =>
          have hreturns : Outcome.Returns Simulation.continues Simulation.pass (.start workload) t :=
            ⟨fuel, hloop⟩
          have ht : t.Sound workload := Workload.Visits.sound hreturns.visits.1
          exact congrArg (fun result => some (Except.ok result)) ht.replay_result

/-- The second record arrives during the first tick; the replay says so without a scheduler. -/
theorem simulation_is_replay_overlapping :
    ∃ result, runSimulation 3 overlapping = some (.ok result) ∧
      result.tickReports.map (fun report => report.timestamp) = [7000000, 13000000] := by
  have hview : ((whileLoop Replay.continues Replay.pass 3 (.start overlapping)).map
      (fun out => out.map Replay.result)).map (fun out => out.map fun result =>
        result.tickReports.map fun report => report.timestamp) = some (.ok [7000000, 13000000]) := by
    decide +kernel
  rw [← simulation_is_replay overlapping (by decide) 3] at hview
  obtain ⟨out, hout, hview⟩ := Option.map_eq_some_iff.mp hview
  obtain ⟨result, rfl, htimes⟩ := exists_of_map_ok hview
  exact ⟨result, hout, htimes⟩

theorem Visits.thrifty (h : workload.Visits s) : s.replay.Thrifty :=
  (Visits.replay_from .start h).inv (Replay.thrifty_start workload)
    (fun _ _ hu _ hpass => hu.pass hpass)

/-- A record that is prefilled if it is reached has a budget. -/
def Funded (workload : Workload) : Prop :=
  ∀ record ∈ workload.records, 0 ≤ durationCast record.deadlineMs → record.maxTokens ≠ 0

instance (workload : Workload) : Decidable workload.Funded :=
  inferInstanceAs (Decidable (∀ record ∈ workload.records, _ → _))

/-- With budgets for everyone who is prefilled no pass aborts. -/
theorem Visits.pass_ok (h : workload.Visits s)
    (hids : (workload.records.map fun record => record.id).Nodup) (hfunded : workload.Funded) :
    ∃ s', s.pass = .ok s' := by
  cases hreplay : s.replay.pass with
  | ok v => exact h.sound.pass_total h.quiet hids (h.isolated hids) hreplay
  | error e =>
      obtain ⟨-, -, hover⟩ := Replay.pass_error_iff.mp hreplay
      have hwithin : s.replay.submit.funded = true := by
        refine h.thrifty.funded_iff.mpr (fun record hmem _ hdeadline => hfunded record ?_ hdeadline)
        change record ∈ s.remaining at hmem
        rw [h.sound.remaining] at hmem
        exact List.mem_of_mem_drop hmem
      rw [hover] at hwithin
      cases hwithin

/-- **When the simulation returns.** With distinct ids, and the milliseconds of the workload taken as
exact rationals: `run_simulation` returns a result if and only if every arrival it waits for is a whole
number of nanoseconds and every record whose deadline, cut to whole nanoseconds, is not negative has a
budget of at least one token. Everything else (empty prompts, negative deadlines, bursts, idle gaps) is
handled. In doubles a product may be rounded off a whole number of nanoseconds, and onto one. -/
theorem simulation_returns_iff (workload : Workload)
    (hids : (workload.records.map fun record => record.id).Nodup) :
    (∃ result, workload.Returns result) ↔ workload.WholeJumps ∧ workload.Funded := by
  constructor
  · rintro ⟨result, hreturns⟩
    obtain ⟨t, -, hloop⟩ := hreturns.state
    obtain ⟨hvisits, hexit⟩ := hloop.visits
    refine ⟨fun s next hs hjumps => ?_, fun record hrecord hdeadline => ?_⟩
    · by_contra hwhole
      refine not_ends_of_jumps hs hjumps hwhole (ends_iff.mpr ?_)
      obtain ⟨n, hn⟩ := hloop
      exact ⟨n, by rw [hn]; rfl⟩
    · have hempty : t.remaining = [] := by
        have hboth : t.remaining = [] ∧ t.busy = false := by
          simpa [Simulation.continues] using hexit
        exact hboth.1
      rcases Visits.submitted hvisits hrecord with hmem | ⟨s, m, hs, hticks, hmem, harrived⟩
      · rw [hempty] at hmem
        cases hmem
      · have hwithin := (hticks.replayed hs (hloop.of_visits hs)).1
        exact hs.thrifty.funded_iff.mp hwithin record hmem harrived hdeadline
  · rintro ⟨hwhole, hfunded⟩
    have hends : Outcome.Ends Simulation.continues Simulation.pass (.start workload) := by
      refine ends_of_wellFounded (InvImage.wf Simulation.todo wellFounded_lt) ?_
      intro s s' hs hcontinues hpass
      have hvisits : workload.Visits s := hs
      exact Simulation.pass_todo hvisits.sound hcontinues hpass (fun next => hwhole s next hvisits)
    obtain ⟨t, n, hn⟩ := hends.returns (fun s hs _ => Visits.pass_ok hs hids hfunded)
    exact ⟨t.result, n, by unfold runSimulation; rw [hn]; rfl⟩

/-- A budget of zero stops the simulation; with one token each it returns. -/
theorem simulation_returns_iff_budget :
    (¬∃ result, FifoScheduler.zeroBudget.Returns result) ∧ overlapping.WholeJumps ∧ overlapping.Funded := by
  refine ⟨fun h => ?_, (simulation_returns_iff overlapping (by decide)).mp ?_⟩
  · exact absurd ((simulation_returns_iff FifoScheduler.zeroBudget (by decide)).mp h).2 (by decide +kernel)
  · obtain ⟨result, hreturns, -⟩ := Workload.exists_returns (show (runSimulation 3 overlapping).map
      (fun out => out.map fun result => result.requests.length) = some (.ok 2) by decide +kernel)
    exact ⟨result, hreturns⟩

end Workload

end Tokamak
