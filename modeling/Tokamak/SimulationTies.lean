import Tokamak.SimulationDeadlines
import Tokamak.SimulationReplay

/-! Records that arrive together may be replayed in any order. Two sorted orders of one workload
submit the same records in every pass, so the two replays agree on everything but the order of their
requests: a tick maps one function over the requests, and its times and its report only count them. With
distinct ids no abort depends on the order either. -/

open Outcome

namespace Tokamak

namespace Replay

/-- Two replays that differ in the order of their requests and of their records only. -/
structure Shuffled (r r' : Replay) : Prop where
  now : r'.now = r.now
  requests : r.requests.Perm r'.requests
  remaining : r.remaining.Perm r'.remaining
  sorted : r.remaining.Pairwise (fun a b => a.arrivalMs ≤ b.arrivalMs)
  sorted' : r'.remaining.Pairwise (fun a b => a.arrivalMs ≤ b.arrivalMs)
  reports : r'.reports = r.reports

theorem requestsIn_perm {requests requests' : List Request} (h : requests.Perm requests')
    (state : RequestState) : (requestsIn state requests).Perm (requestsIn state requests') :=
  h.filter _

namespace Shuffled

variable {r r' v : Replay}

theorem busy (h : Shuffled r r') : r'.busy = r.busy := by
  unfold Replay.busy
  rw [(requestsIn_perm h.requests .waitingPrefill).length_eq,
    (requestsIn_perm h.requests .decoding).length_eq]

theorem continues (h : Shuffled r r') : r'.continues = r.continues := by
  unfold Replay.continues
  have hempty : r'.remaining.isEmpty = r.remaining.isEmpty := by
    rw [Bool.eq_iff_iff, List.isEmpty_iff_length_eq_zero, List.isEmpty_iff_length_eq_zero,
      h.remaining.length_eq]
  rw [h.busy, hempty]

theorem submit (h : Shuffled r r') : Shuffled r.submit r'.submit := by
  unfold Replay.submit
  rw [h.now]
  exact ⟨rfl, h.requests.append ((h.remaining.filter _).map _), h.remaining.filter _,
    h.sorted.filter _, h.sorted'.filter _, h.reports⟩

theorem culled (h : Shuffled r r') : r.culled.Perm r'.culled := by
  unfold Replay.culled
  rw [h.now]
  exact h.requests.map _

theorem prefillTokens (h : Shuffled r r') : r'.prefillTokens = r.prefillTokens :=
  ((requestsIn_perm h.culled .waitingPrefill).map _).sum_eq.symm

theorem prefilledAt (h : Shuffled r r') : r'.prefilledAt = r.prefilledAt := by
  unfold Replay.prefilledAt
  rw [h.now, h.prefillTokens]

theorem prefilled (h : Shuffled r r') : r.prefilled.Perm r'.prefilled := by
  unfold Replay.prefilled
  rw [h.prefilledAt]
  exact h.culled.map _

theorem stop (h : Shuffled r r') : r'.stop = r.stop := by
  unfold Replay.stop
  rw [h.prefilledAt]

theorem funded (h : Shuffled r r') : r'.funded = r.funded := by
  have hdecoding := requestsIn_perm h.prefilled .decoding
  unfold Replay.funded
  rw [Bool.eq_iff_iff, List.all_eq_true, List.all_eq_true]
  exact forall_congr' (fun q => imp_congr_left hdecoding.mem_iff.symm)

/-- The report of a tick only counts. -/
theorem report (h : Shuffled r r') : r'.report = r.report := by
  have hwaiting := requestsIn_perm h.requests .waitingPrefill
  have hdecoding := requestsIn_perm h.requests .decoding
  have hpending := (requestsIn_perm h.culled .waitingPrefill).length_eq
  have hbatch := requestsIn_perm h.prefilled .decoding
  unfold Replay.report
  rw [h.stop, h.now, h.prefillTokens, hpending, hbatch.length_eq, hbatch.countP_eq,
    hwaiting.countP_eq, hdecoding.countP_eq]

theorem tick (h : Shuffled r r') (htick : r.tick = .ok v) :
    ∃ v', r'.tick = .ok v' ∧ Shuffled v v' := by
  unfold Replay.tick at htick ⊢
  rw [h.funded]
  split_ifs at htick ⊢ with hfunded
  cases htick
  unfold Replay.ticked
  refine ⟨_, rfl, h.stop, ?_, h.remaining, h.sorted, h.sorted', ?_⟩
  · simp only [h.stop]
    exact h.prefilled.map _
  · simp only [h.reports, h.report]

/-- The two next records arrive together, whichever they are. -/
theorem head_arrival (h : Shuffled r r') {next next' : WorkloadRequest}
    {rest rest' : List WorkloadRequest} (hr : r.remaining = next :: rest)
    (hr' : r'.remaining = next' :: rest') : next'.arrivalMs = next.arrivalMs := by
  have hsorted := h.sorted
  have hsorted' := h.sorted'
  have hperm := h.remaining
  rw [hr] at hsorted hperm
  rw [hr'] at hsorted' hperm
  have hleft : next ∈ next' :: rest' := hperm.mem_iff.mp List.mem_cons_self
  have hright : next' ∈ next :: rest := hperm.mem_iff.mpr List.mem_cons_self
  refine le_antisymm ?_ ?_
  · rcases List.mem_cons.mp hleft with rfl | hmem
    · exact le_rfl
    · exact (List.pairwise_cons.mp hsorted').1 next hmem
  · rcases List.mem_cons.mp hright with rfl | hmem
    · exact le_rfl
    · exact (List.pairwise_cons.mp hsorted).1 next' hmem

/-- A pass keeps two replays in step. -/
theorem pass (h : Shuffled r r') (hpass : r.pass = .ok v) :
    ∃ v', r'.pass = .ok v' ∧ Shuffled v v' := by
  have hs := h.submit
  unfold Replay.pass at hpass ⊢
  rw [hs.busy]
  by_cases hbusy : r.submit.busy = true
  · rw [if_pos hbusy] at hpass ⊢
    exact hs.tick hpass
  · rw [if_neg hbusy] at hpass ⊢
    cases hremaining : r.submit.remaining with
    | nil =>
        have hempty : r'.submit.remaining = [] := by
          have hperm := hs.remaining
          rw [hremaining] at hperm
          exact hperm.symm.eq_nil
        rw [hremaining] at hpass
        cases hpass
        rw [hempty]
        exact ⟨_, rfl, hs⟩
    | cons next rest =>
        cases hremaining' : r'.submit.remaining with
        | nil =>
            have hperm := hs.remaining
            rw [hremaining, hremaining'] at hperm
            exact absurd hperm.eq_nil (List.cons_ne_nil _ _)
        | cons next' rest' =>
            rw [hremaining] at hpass
            cases hpass
            refine ⟨_, rfl, ?_, hs.requests, hs.remaining, hs.sorted, hs.sorted', hs.reports⟩
            change durationCast next'.arrivalMs = durationCast next.arrivalMs
            rw [hs.head_arrival hremaining hremaining']

end Shuffled

end Replay

/-! ### Distinct ids -/

namespace Simulation

variable {workload : Workload} {s s' : Simulation}

/-- The ids of the requests are those of the records. -/
theorem Sound.record_id (hs : s.Sound workload) {p : RequestPtr} (hp : p < s.scheduler.requests.size) :
    (workload.records.map fun record => record.id)[p]? = some (s.scheduler.requestId p) := by
  have hsome := List.getElem?_eq_getElem (lt_of_lt_of_le hp hs.size_le)
  rw [List.getElem?_map, hsome, FifoScheduler.requestId, (hs.serves p _ hp hsome).id]
  rfl

theorem Sound.requestId_inj (hs : s.Sound workload)
    (hids : (workload.records.map fun record => record.id).Nodup) {p r : RequestPtr}
    (hp : p < s.scheduler.requests.size) (hr : r < s.scheduler.requests.size)
    (heq : s.scheduler.requestId p = s.scheduler.requestId r) : p = r := by
  have hsame := (hs.record_id hp).trans ((congrArg some heq).trans (hs.record_id hr).symm)
  exact (List.getElem?_inj (by simpa using lt_of_lt_of_le hp hs.size_le) hids).mp hsame

theorem Sound.distinctTracked (hs : s.Sound workload)
    (hids : (workload.records.map fun record => record.id).Nodup) : s.scheduler.DistinctTracked :=
  fun p r hp hr => hs.requestId_inj hids ((hs.partition.live_iff p).mp hp).1
    ((hs.partition.live_iff r).mp hr).1

/-- No two summaries have one id. -/
theorem Sound.nodup_summaries (hs : s.Sound workload)
    (hids : (workload.records.map fun record => record.id).Nodup) :
    (s.result.requests.map fun r => r.id).Nodup := by
  rw [hs.summaries, List.map_map]
  refine List.Nodup.map_on ?_ List.nodup_range
  intro p hp r hr heq
  exact hs.requestId_inj hids (List.mem_range.mp hp) (List.mem_range.mp hr) heq

theorem Sound.pass_isolated (hs : s.Sound workload)
    (hids : (workload.records.map fun record => record.id).Nodup)
    (hiso : FifoScheduler.Isolated [] s.scheduler) (hcontinues : s.continues = true)
    (hpass : s.pass = .ok s') : FifoScheduler.Isolated [] s'.scheduler := by
  rcases pass_cases (fun u => u.Sound workload ∧ FifoScheduler.Isolated [] u.scheduler)
      (fun u record rest hu hremaining => ⟨hu.1.enqueue hremaining,
        hu.2.admitted hu.1.partition rfl rfl⟩) ⟨hs, hiso⟩ hcontinues hpass
    with ⟨batch, m, done, -, ⟨hm, hmiso⟩, -, htick, rfl⟩ | ⟨next, -, -, rfl⟩
  · exact ((FifoScheduler.tick_isolated hm.partition hmiso (hm.distinctTracked hids)).ok htick).2
  · exact ⟨hiso.toHandlesLive.world ⟨fun _ => Iff.rfl, rfl⟩, hiso.owner, hiso.counts, hiso.none,
      hiso.tokens⟩

/-- With distinct ids the simulation aborts only where the replay does. -/
theorem Sound.pass_total (hs : s.Sound workload) (hq : s.scheduler.world.Quiet 1000000 5000000)
    (hids : (workload.records.map fun record => record.id).Nodup)
    (hiso : FifoScheduler.Isolated [] s.scheduler) {v : Replay} (h : s.replay.pass = .ok v) :
    ∃ s', s.pass = .ok s' := by
  obtain ⟨batch, m, hm, hqueued, hmsound, hmq, hmiso⟩ := submitArrived_queued
    (fun u => u.Sound workload ∧ u.scheduler.world.Quiet 1000000 5000000 ∧
      FifoScheduler.Isolated [] u.scheduler)
    (fun u record rest hu hremaining => ⟨hu.1.enqueue hremaining, hu.2.1,
      hu.2.2.admitted hu.1.partition rfl rfl⟩) ⟨hs, hq, hiso⟩
  unfold Replay.pass at h
  rw [← hs.replay_queued hqueued, replay_busy hmsound.partition] at h
  unfold Simulation.pass
  rw [hm, ok_bind]
  by_cases hbusy : m.busy = true
  · rw [if_pos hbusy] at h ⊢
    have hundisturbed := hmsound.undisturbed hmq
    have hreplay : m.replay.funded = true := by
      unfold Replay.tick at h
      split_ifs at h with hfunded
      exact hfunded
    have hfunded : m.scheduler.DecodesWithinBudget := by
      intro a b ha hb r hr
      have hexpired : Expired m a.1 := ((expireDeadlines_replays hundisturbed).ok ha).1
      have hstarted : Started m b.1 b.2 := hexpired.prefillPhase.ok hb
      have hmem := hstarted.undisturbed.partition.decoding_outlines.mem_iff.mp
        (List.mem_map.mpr ⟨r, hr, rfl⟩)
      rw [hstarted.outlines] at hmem
      have hbudget := List.all_eq_true.mp hreplay (b.1.request r).outline hmem
      exact of_decide_eq_true hbudget
    obtain ⟨done, hdone⟩ := FifoScheduler.tick_total hundisturbed hmiso
      (hmsound.distinctTracked hids) hfunded
    rw [hdone]
    exact ⟨_, rfl⟩
  · rw [if_neg hbusy]
    cases hremaining : m.remaining with
    | nil => exact ⟨m, rfl⟩
    | cons next rest =>
        have hforward : m.now ≤ durationCast next.arrivalMs := by
          refine le_durationCast hmsound.now_nonneg ?_
          rw [show m.now = s.now by unfold now; rw [hqueued.world]]
          exact hqueued.waits next rest hremaining
        simp only
        unfold jump
        rw [MockBackend.advance_of_nonneg (by linarith)]
        exact ⟨_, rfl⟩

end Simulation

namespace Workload

variable {workload : Workload} {s : Simulation}

theorem Visits.isolated (h : workload.Visits s)
    (hids : (workload.records.map fun record => record.id).Nodup) :
    FifoScheduler.Isolated [] s.scheduler := by
  let kept : Simulation → Prop := fun u =>
    u.Sound workload ∧ FifoScheduler.Isolated [] u.scheduler
  have hall : kept s := by
    refine Outcome.Visits.inv h ⟨.start workload, FifoScheduler.isolated_new _
      (MockBackend.fresh_new _ _ _)⟩ ?_
    rintro u u' ⟨hsound, hiso⟩ hcontinues hpass
    exact ⟨hsound.pass hcontinues hpass, hsound.pass_isolated hids hiso hcontinues hpass⟩
  exact hall.2

/-- What the replay returns, the simulation returns. -/
theorem returns_of_replay (hids : (workload.records.map fun record => record.id).Nodup) {r : Replay}
    (h : Outcome.Returns Replay.continues Replay.pass (.start workload) r) :
    workload.Returns ⟨r.reports, r.requests.map Request.summary⟩ := by
  let matched : Replay → Simulation → Prop := fun r u => workload.Visits u ∧ u.replay = r
  have hall : ∃ u, Outcome.Returns Simulation.continues Simulation.pass (.start workload) u ∧
      matched r u := by
    refine h.related (R := matched) ⟨.start, rfl⟩ ?_ ?_
    · rintro _ u ⟨hvisits, rfl⟩
      exact (Simulation.replay_continues hvisits.sound.partition).symm
    · rintro _ u v ⟨hvisits, rfl⟩ hcontinues hpass
      have hcontinues' : u.continues = true :=
        (Simulation.replay_continues hvisits.sound.partition).symm.trans hcontinues
      obtain ⟨u', hpass'⟩ :=
        hvisits.sound.pass_total hvisits.quiet hids (hvisits.isolated hids) hpass
      have hreplay := (Simulation.pass_replays hvisits.sound hvisits.quiet hcontinues' hpass').2
      rw [hpass] at hreplay
      exact ⟨u', hpass', hvisits.pass hcontinues' hpass', (Except.ok.inj hreplay).symm⟩
  obtain ⟨u, ⟨n, hn⟩, hvisits, rfl⟩ := hall
  refine ⟨n, ?_⟩
  unfold runSimulation
  rw [hn, ← hvisits.sound.replay_result]
  rfl

/-- What the simulation returns, the replay returns. -/
theorem Returns.replay {result : SimulationResult} (h : workload.Returns result) :
    ∃ r, result = ⟨r.reports, r.requests.map Request.summary⟩ ∧
      Outcome.Returns Replay.continues Replay.pass (.start workload) r := by
  obtain ⟨s, rfl, hreturns⟩ := h.state
  obtain ⟨hvisits, hexit⟩ := hreturns.visits
  have hs : s.Sound workload := Workload.Visits.sound hvisits
  have hexit' : s.replay.continues = false := (Simulation.replay_continues hs.partition).trans hexit
  exact ⟨s.replay, hs.replay_result, .of_exit (Visits.replay_from .start hvisits) hexit'⟩

/-- One direction of the theorem below: the second order returns what the first one does, up to the
order of the summaries. -/
theorem returns_of_perm {workload' : Workload} (hperm : workload.records.Perm workload'.records)
    (hids : (workload.records.map fun record => record.id).Nodup) {result : SimulationResult}
    (h : workload.Returns result) :
    ∃ result', workload'.Returns result' ∧ result'.tickReports = result.tickReports ∧
      result.requests.Perm result'.requests := by
  obtain ⟨r, rfl, hreturns⟩ := h.replay
  have hstart : Replay.Shuffled (.start workload) (.start workload') :=
    ⟨rfl, .refl _, hperm, workload.sorted, workload'.sorted, rfl⟩
  obtain ⟨r', hreturns', hshuffled⟩ := hreturns.related hstart (fun _ _ hR => hR.continues)
    (fun _ _ _ hR _ hpass => hR.pass hpass)
  have hids' : (workload'.records.map fun record => record.id).Nodup :=
    (hperm.map _).nodup_iff.mp hids
  exact ⟨_, returns_of_replay hids' hreturns', hshuffled.reports, hshuffled.requests.map _⟩

/-- A simulation returns one result at most. -/
theorem Returns.unique {result result' : SimulationResult} (h : workload.Returns result)
    (h' : workload.Returns result') : result' = result := by
  obtain ⟨s, rfl, hs⟩ := h.state
  obtain ⟨s', rfl, hs'⟩ := h'.state
  rw [Outcome.Returns.unique hs hs']

theorem Returns.nodup_ids {result : SimulationResult} (h : workload.Returns result)
    (hids : (workload.records.map fun record => record.id).Nodup) :
    (result.requests.map fun r => r.id).Nodup := by
  obtain ⟨s, rfl, hreturns⟩ := h.state
  exact (Workload.Visits.sound hreturns.visits.1).nodup_summaries hids

/-- **The order of ties does not matter.** For any two orders of one workload that are both sorted by
arrival, with distinct ids: the simulation returns from one if and only if it returns from the other,
the tick reports are the same, and the summaries are the same up to their order, so each id has the
same summary. -/
theorem tie_order_irrelevant (workload workload' : Workload)
    (hperm : workload.records.Perm workload'.records)
    (hids : (workload.records.map fun record => record.id).Nodup) :
    ((∃ result, workload.Returns result) ↔ ∃ result, workload'.Returns result) ∧
      ∀ result result', workload.Returns result → workload'.Returns result' →
        result'.tickReports = result.tickReports ∧ result.requests.Perm result'.requests ∧
          ∀ r ∈ result.requests, ∀ r' ∈ result'.requests, r'.id = r.id → r' = r := by
  have hids' : (workload'.records.map fun record => record.id).Nodup :=
    (hperm.map _).nodup_iff.mp hids
  refine ⟨⟨?_, ?_⟩, ?_⟩
  · rintro ⟨result, h⟩
    obtain ⟨result', h', -⟩ := returns_of_perm hperm hids h
    exact ⟨result', h'⟩
  · rintro ⟨result, h⟩
    obtain ⟨result', h', -⟩ := returns_of_perm hperm.symm hids' h
    exact ⟨result', h'⟩
  · intro result result' h h'
    obtain ⟨other, hother, hreports, hrequests⟩ := returns_of_perm hperm hids h
    have heq := hother.unique h'
    subst heq
    refine ⟨hreports, hrequests, ?_⟩
    intro r hr r' hr' hid
    exact List.inj_on_of_nodup_map (h.nodup_ids hids) (hrequests.mem_iff.mpr hr') hr hid

/-- The two records of `together`, the other way round. -/
def swapped : Workload := ⟨[⟨"b", 0, [7], 1, 100⟩, ⟨"a", 0, [7, 8], 2, 100⟩], by simp⟩

theorem tie_order_irrelevant_swapped :
    ∃ result result', together.Returns result ∧ swapped.Returns result' ∧
      result.requests ≠ result'.requests ∧ result.requests.Perm result'.requests := by
  have hperm : together.records.Perm swapped.records := List.Perm.swap _ _ _
  have hids : (together.records.map fun record => record.id).Nodup := by decide
  obtain ⟨result, hreturns, horder⟩ := Workload.exists_returns (show (runSimulation 3 together).map
    (fun out => out.map fun result => result.requests.map fun r => r.id) = some (.ok ["a", "b"]) by
    decide +kernel)
  obtain ⟨result', hreturns', horder'⟩ := Workload.exists_returns (show (runSimulation 3 swapped).map
    (fun out => out.map fun result => result.requests.map fun r => r.id) = some (.ok ["b", "a"]) by
    decide +kernel)
  refine ⟨result, result', hreturns, hreturns', ?_,
    ((tie_order_irrelevant together swapped hperm hids).2 result result' hreturns hreturns').2.1⟩
  intro heq
  rw [heq, horder'] at horder
  exact absurd horder (by decide)

end Workload

end Tokamak
