import Tokamak.SchedulerClock
import Tokamak.SchedulerEvolution
import Tokamak.Simulation

/-! What one pass of the simulation's main loop does, said once. The records that have arrived are
queued at the time of the pass, in order; then either the scheduler ticks or, if nothing was queued
and nothing is live, the clock jumps to the next arrival. -/

open Outcome

namespace Tokamak

/-! ### Time -/

/-- The time is a whole number of nanoseconds. -/
def WholeNs (ms : ℚ) : Prop := (ms * 1000000).den = 1

instance (ms : ℚ) : Decidable (WholeNs ms) := inferInstanceAs (Decidable (_ = _))

theorem durationCast_of_nonneg {ms : ℚ} (h : 0 ≤ ms) : durationCast ms = ⌊ms * 1000000⌋ := by
  have hnum : 0 ≤ (ms * 1000000).num := Rat.num_nonneg.mpr (by positivity)
  unfold durationCast
  rw [Int.tdiv_eq_ediv_of_nonneg hnum, Rat.floor_def']

/-- An arrival in the future is truncated to a time that is not in the past. -/
theorem le_durationCast {now : TimePoint} (hnow : 0 ≤ now) {ms : ℚ} (h : elapsedMs now < ms) :
    now ≤ durationCast ms := by
  have hcast : (0 : ℚ) ≤ now := by exact_mod_cast hnow
  unfold elapsedMs at h
  have hms : 0 ≤ ms := (div_nonneg hcast (by norm_num)).trans h.le
  rw [durationCast_of_nonneg hms]
  refine Int.le_floor.mpr ?_
  rw [div_lt_iff₀ (by norm_num)] at h
  exact h.le

/-- Truncation loses nothing exactly when there is nothing to lose. -/
theorem le_elapsedMs_durationCast {ms : ℚ} (h : 0 ≤ ms) :
    ms ≤ elapsedMs (durationCast ms) ↔ WholeNs ms := by
  unfold elapsedMs WholeNs
  rw [durationCast_of_nonneg h, le_div_iff₀ (by norm_num)]
  constructor
  · intro hle
    have heq : ms * 1000000 = (⌊ms * 1000000⌋ : ℚ) := le_antisymm hle (Int.floor_le _)
    rw [heq]
    exact Rat.den_intCast _
  · intro hden
    have heq : ms * 1000000 = ((ms * 1000000).num : ℚ) := (Rat.coe_int_num_of_den_eq_one hden).symm
    rw [heq, Int.floor_intCast]

namespace Simulation

/-! ### Queueing -/

/-- The request a record becomes when it is submitted at time `now`. -/
def queued (now : TimePoint) (record : WorkloadRequest) : Request :=
  ((⟨record.id, .new now, now + durationCast record.deadlineMs, record.maxTokens, 0,
    record.promptTokenIds, 0, []⟩ : Request).enter .admitted now).enter .waitingPrefill now

/-- A submission in closed form. -/
def enqueue (s : Simulation) (record : WorkloadRequest) (rest : List WorkloadRequest) : Simulation :=
  { s with
    scheduler := s.scheduler.admitted (queued s.now record) s.scheduler.world
    remaining := rest
    submitted := s.submitted ++ [s.scheduler.requests.size] }

theorem submitRecord_eq (s : Simulation) (record : WorkloadRequest) (rest : List WorkloadRequest) :
    s.submitRecord record rest = .ok (s.enqueue record rest) := by
  unfold submitRecord
  simp only
  rw [FifoScheduler.submit_of_received rfl]
  rfl

/-- What the submission loop does: the records of `batch` have arrived, are queued in order, and the
next one has not arrived. -/
structure Queued (s : Simulation) (batch : List WorkloadRequest) (m : Simulation) : Prop where
  remaining : s.remaining = batch ++ m.remaining
  arrived : ∀ record ∈ batch, record.arrivalMs ≤ elapsedMs s.now
  waits : ∀ next rest, m.remaining = next :: rest → elapsedMs s.now < next.arrivalMs
  world : m.scheduler.world = s.scheduler.world
  decoding : m.scheduler.decoding = s.scheduler.decoding
  waiting : m.scheduler.waiting =
    s.scheduler.waiting ++ List.range' s.scheduler.requests.size batch.length
  submitted : m.submitted = s.submitted ++ List.range' s.scheduler.requests.size batch.length
  reports : m.reports = s.reports
  size : m.scheduler.requests.size = s.scheduler.requests.size + batch.length
  old : ∀ p < s.scheduler.requests.size, m.scheduler.request p = s.scheduler.request p
  new : ∀ j record, batch[j]? = some record →
    m.scheduler.request (s.scheduler.requests.size + j) = queued s.now record
  none : batch = [] → m = s

namespace Queued

variable {s m : Simulation}

theorem nil (h : ∀ next rest, s.remaining = next :: rest → elapsedMs s.now < next.arrivalMs) :
    Queued s [] s where
  remaining := rfl
  arrived record hrecord := by cases hrecord
  waits := h
  world := rfl
  decoding := rfl
  waiting := (List.append_nil _).symm
  submitted := (List.append_nil _).symm
  reports := rfl
  size := rfl
  old _ _ := rfl
  new j record h := by cases h
  none _ := rfl

theorem cons {record : WorkloadRequest} {rest batch : List WorkloadRequest}
    (hremaining : s.remaining = record :: rest) (harrived : record.arrivalMs ≤ elapsedMs s.now)
    (h : Queued (s.enqueue record rest) batch m) : Queued s (record :: batch) m where
  remaining := by
    rw [hremaining, List.cons_append, ← h.remaining]
    rfl
  arrived record' hmem := by
    rcases List.mem_cons.mp hmem with rfl | hmem
    · exact harrived
    · exact h.arrived record' hmem
  waits := h.waits
  world := h.world
  decoding := h.decoding
  waiting := by
    rw [h.waiting, List.length_cons, List.range'_succ, ← List.singleton_append, ← List.append_assoc]
    rfl
  submitted := by
    rw [h.submitted, List.length_cons, List.range'_succ, ← List.singleton_append,
      ← List.append_assoc]
    rfl
  reports := h.reports
  size := by
    rw [h.size, List.length_cons]
    change s.scheduler.requests.size + 1 + batch.length = _
    omega
  old p hp := by
    rw [h.old p (Nat.lt_succ_of_lt hp)]
    exact FifoScheduler.request_admitted_of_lt s.scheduler _ _ hp
  new j record' hj := by
    cases j with
    | zero =>
        cases hj
        rw [Nat.add_zero, h.old _ (Nat.lt_succ_self _)]
        exact FifoScheduler.request_admitted_self s.scheduler _ _
    | succ j =>
        have hnew := h.new j record' hj
        rw [show (s.enqueue record rest).scheduler.requests.size = s.scheduler.requests.size + 1 from
          rfl] at hnew
        rw [show s.scheduler.requests.size + (j + 1) = s.scheduler.requests.size + 1 + j by omega]
        exact hnew
  none h := by cases h

end Queued

/-- The submission loop never aborts, and an invariant of a single submission survives it. -/
theorem submitArrived_queued (inv : Simulation → Prop)
    (hstep : ∀ s record rest, inv s → s.remaining = record :: rest → inv (s.enqueue record rest))
    {s : Simulation} (hs : inv s) :
    ∃ batch m, s.submitArrived (elapsedMs s.now) s.remaining = .ok m ∧ Queued s batch m ∧ inv m := by
  have hall : ∀ (elapsed : ℚ) (todo : List WorkloadRequest) (s : Simulation), inv s →
      elapsedMs s.now = elapsed → s.remaining = todo →
        ∃ batch m, s.submitArrived elapsed todo = .ok m ∧ Queued s batch m ∧ inv m := by
    intro elapsed todo
    induction todo with
    | nil =>
        intro s hs helapsed hremaining
        refine ⟨[], s, rfl, Queued.nil (fun next rest h => ?_), hs⟩
        rw [hremaining] at h
        cases h
    | cons record rest ih =>
        intro s hs helapsed hremaining
        unfold submitArrived
        split_ifs with harrived
        · rw [submitRecord_eq, ok_bind]
          obtain ⟨batch, m, hm, hqueued, hinv⟩ :=
            ih (s.enqueue record rest) (hstep s record rest hs hremaining) helapsed rfl
          exact ⟨record :: batch, m, hm, hqueued.cons hremaining (helapsed ▸ harrived), hinv⟩
        · refine ⟨[], s, rfl, Queued.nil (fun next rest' h => ?_), hs⟩
          rw [hremaining] at h
          cases h
          rw [helapsed]
          exact not_le.mp harrived
  exact hall (elapsedMs s.now) s.remaining s hs rfl rfl

/-! ### The pass -/

theorem busy_iff (s : Simulation) :
    s.busy = true ↔ s.scheduler.waiting ≠ [] ∨ s.scheduler.decoding ≠ [] := by
  simp [busy, FifoScheduler.waitingCount, FifoScheduler.decodingCount, List.length_pos_iff]

/-- The branch of the pass that moves the clock: nothing is live and the next record has not
arrived. -/
def Jumps (s : Simulation) (next : WorkloadRequest) : Prop :=
  s.busy = false ∧ s.remaining.head? = some next ∧ elapsedMs s.now < next.arrivalMs

/-- The state after a jump. -/
def jumped (s : Simulation) (t : TimePoint) : Simulation :=
  { s with scheduler := { s.scheduler with world := { s.scheduler.world with clock := ⟨t⟩ } } }

/-- The state after a tick. -/
def ticked (s : Simulation) (done : FifoScheduler MockBackend × TickReport) : Simulation :=
  { s with scheduler := done.1, reports := s.reports ++ [done.2] }

theorem jump_ok {s s' : Simulation} {next : WorkloadRequest} (h : s.jump next = .ok s') :
    s.now ≤ durationCast next.arrivalMs ∧ s' = s.jumped (durationCast next.arrivalMs) := by
  obtain ⟨w, hw, h⟩ := bind_eq_ok.mp h
  obtain ⟨hforward, rfl⟩ := MockBackend.advance_ok (callBackend_eq_ok.mp hw)
  cases h
  refine ⟨by linarith, ?_⟩
  unfold jumped
  rw [show s.scheduler.world.clock.current + (durationCast next.arrivalMs - s.now) =
    durationCast next.arrivalMs from add_sub_cancel _ _]

/-- Where nothing is queued and nothing is live, the pass is the jump. -/
theorem pass_of_jumps {s : Simulation} {next : WorkloadRequest} (h : s.Jumps next) :
    s.pass = s.jump next := by
  obtain ⟨hidle, hhead, hfuture⟩ := h
  obtain ⟨rest, hremaining⟩ := List.head?_eq_some_iff.mp hhead
  have hnone : s.submitArrived (elapsedMs s.now) s.remaining = .ok s := by
    rw [hremaining, submitArrived, if_neg (not_le.mpr hfuture)]
  unfold pass
  rw [hnone, ok_bind, hidle, hremaining]
  rfl

/-- The branch of the pass that ticks: the records that have arrived are submitted, which leads to `m`,
and something is runnable. -/
def Ticks (s m : Simulation) : Prop :=
  s.submitArrived (elapsedMs s.now) s.remaining = .ok m ∧ m.busy = true

/-- Every pass of the main loop is of one of the two kinds; an invariant of a single submission holds
where the tick starts. -/
theorem pass_ticks (inv : Simulation → Prop)
    (hstep : ∀ s record rest, inv s → s.remaining = record :: rest → inv (s.enqueue record rest))
    {s s' : Simulation} (hs : inv s) (hcontinues : s.continues = true) (h : s.pass = .ok s') :
    (∃ batch m done, s.Ticks m ∧ Queued s batch m ∧ inv m ∧ m.scheduler.tick = .ok done ∧
      s' = m.ticked done) ∨
    ∃ next, s.Jumps next ∧ s.now ≤ durationCast next.arrivalMs ∧
      s' = s.jumped (durationCast next.arrivalMs) := by
  obtain ⟨batch, m, hm, hqueued, hinv⟩ := submitArrived_queued inv hstep hs
  unfold pass at h
  rw [hm, ok_bind] at h
  by_cases hbusy : m.busy = true
  · rw [if_pos hbusy] at h
    obtain ⟨done, htick, h⟩ := bind_eq_ok.mp h
    cases h
    exact .inl ⟨batch, m, done, ⟨hm, hbusy⟩, hqueued, hinv, htick, rfl⟩
  · rw [if_neg hbusy] at h
    -- a queued record would have made the scheduler busy
    have hbatch : batch = [] := by
      by_contra hne
      refine hbusy ((busy_iff m).mpr (.inl ?_))
      rw [hqueued.waiting]
      simp [hne]
    have hsame := hqueued.none hbatch
    subst hsame
    have hidle : m.busy = false := Bool.eq_false_iff.mpr hbusy
    cases hremaining : m.remaining with
    | nil =>
        rw [continues, hidle, hremaining] at hcontinues
        cases hcontinues
    | cons next rest =>
        rw [hremaining] at h
        obtain ⟨hforward, hs'⟩ := jump_ok h
        refine .inr ⟨next, ⟨hidle, ?_, hqueued.waits next rest hremaining⟩, hforward, hs'⟩
        rw [hremaining]
        rfl

theorem pass_cases (inv : Simulation → Prop)
    (hstep : ∀ s record rest, inv s → s.remaining = record :: rest → inv (s.enqueue record rest))
    {s s' : Simulation} (hs : inv s) (hcontinues : s.continues = true) (h : s.pass = .ok s') :
    (∃ batch m done, Queued s batch m ∧ inv m ∧ m.busy = true ∧ m.scheduler.tick = .ok done ∧
      s' = m.ticked done) ∨
    ∃ next, s.Jumps next ∧ s.now ≤ durationCast next.arrivalMs ∧
      s' = s.jumped (durationCast next.arrivalMs) := by
  refine (pass_ticks inv hstep hs hcontinues h).imp_left ?_
  rintro ⟨batch, m, done, hticks, hqueued, hinv, htick, hs'⟩
  exact ⟨batch, m, done, hqueued, hinv, hticks.2, htick, hs'⟩

end Simulation

end Tokamak
