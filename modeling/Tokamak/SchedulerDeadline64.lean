import Tokamak.SchedulerDeadline

/-! Deadlines on the machine. Elsewhere a time point is an unbounded integer; in the source it is a
64-bit count of nanoseconds, and the sum of the constructor wraps. Here the constructor computes on
`Int64` and the rest of the scheduler is the one of the unbounded model: it only compares. The two
constructors agree as long as the sum fits, and beyond that a deadline lies before its own request. -/

open Outcome

namespace Tokamak

/-! ### Sums on the machine -/

section Sums

variable {t d : Int64}

theorem toInt_nonneg (h : 0 ≤ t) : 0 ≤ t.toInt := Int64.le_iff_toInt_le.mp h

theorem toInt_add_of_fits (ht : 0 ≤ t) (hd : 0 ≤ d) (hfits : t.toInt + d.toInt < 2 ^ 63) :
    (t + d).toInt = t.toInt + d.toInt := by
  have htn := toInt_nonneg ht
  have hdn := toInt_nonneg hd
  rw [Int64.toInt_add]
  exact Int.bmod_eq_of_le_mul_two (by omega) (by omega)

/-- A sum wraps at most once, and then it is negative. -/
theorem toInt_add_of_wraps (hwraps : 2 ^ 63 ≤ t.toInt + d.toInt) :
    (t + d).toInt = t.toInt + d.toInt - 2 ^ 64 ∧ (t + d).toInt < 0 := by
  have htmax := Int64.toInt_lt t
  have hdmax := Int64.toInt_lt d
  have hsum : (t + d).toInt = t.toInt + d.toInt - 2 ^ 64 := by
    rw [Int64.toInt_add, ← Int.sub_bmod_right]
    exact Int.bmod_eq_of_le_mul_two (by omega) (by omega)
  exact ⟨hsum, by omega⟩

end Sums

/-! ### The constructor -/

/-- `clock.now() + deadline_from_now`. -/
def deadlineAt64 (now deadlineFromNow : Int64) : Int64 := now + deadlineFromNow

namespace Request

variable {ω : Type} [Clock ω]

/-- The constructor with a prompt, on 64-bit time points. -/
def construct64 (id : RequestId) (w : ω) (deadlineFromNow : Int64) (maxOutputTokens : Nat)
    (promptTokenIds : List UInt32) (priority : Int) : Request × ω :=
  let created := Clock.now w
  let deadline := Clock.now created.2
  (⟨id, .new created.1, (deadlineAt64 (Int64.ofInt deadline.1) deadlineFromNow).toInt,
    maxOutputTokens, 0, promptTokenIds, priority, []⟩, deadline.2)

end Request

namespace FifoScheduler

/-- One step of a scheduler whose requests are constructed on 64-bit time points. -/
inductive MachineOp where
  | submit (id : RequestId) (deadlineFromNow : Int64) (maxOutputTokens : Nat)
      (promptTokenIds : List UInt32) (priority : Int)
  | op (op : SchedulerOp MockBackend)

def applyMachine (s : FifoScheduler MockBackend) : MachineOp → Except Panic (FifoScheduler MockBackend)
  | .submit id deadlineFromNow maxOutputTokens promptTokenIds priority => do
      let made :=
        Request.construct64 id s.world deadlineFromNow maxOutputTokens promptTokenIds priority
      let done ← { s with world := made.2 }.submit made.1
      .ok done.1
  | .op op => s.apply op

/-- A request that is submitted when the clock shows `t` is expired after `t + deadlineFromNow` only,
in unbounded integers: whatever happened before and whatever happens in between. -/
def NeverEarly (t deadlineFromNow : Int64) : Prop :=
  ∀ (clock : FakeClock) (prefillCost decodeCost : Duration) (front back : List MachineOp)
    (id : RequestId) (maxOutputTokens : Nat) (promptTokenIds : List UInt32) (priority : Int)
    (s u : FifoScheduler MockBackend),
    run applyMachine (new (MockBackend.new clock prefillCost decodeCost)) front = .ok s →
    s.clockNow = t.toInt →
    run applyMachine s (.submit id deadlineFromNow maxOutputTokens promptTokenIds priority :: back) =
      .ok u →
    u.ExpiresNow s.requests.size → t.toInt + deadlineFromNow.toInt < u.clockNow

section Machine

variable {s u : FifoScheduler MockBackend}

/-- What the client gave a request, no operation changes. -/
theorem apply_sameTerms {ω : Type} [Clock ω] [InferenceBackend ω] [AlignedBackend ω] [Environment ω]
    {s u : FifoScheduler ω} (hs : s.Partition) {op : SchedulerOp ω} (h : s.apply op = .ok u)
    {p : RequestPtr} (hp : p < s.requests.size) : (s.request p).SameTerms (u.request p) := by
  have hsame : ∀ v : FifoScheduler ω, v.request p = s.request p →
      (s.request p).SameTerms (v.request p) := fun v heq => heq ▸ .refl _
  cases op with
  | submit id deadlineFromNow maxOutputTokens promptTokenIds priority =>
      rw [apply_submit] at h
      cases h
      exact hsame _ (request_admitted_of_lt s _ _ hp)
  | cancel id =>
      rcases (cancel_cancelled hs h).request p with heq | ⟨-, -, τ, heq⟩
      · exact hsame u heq
      · rw [heq]
        exact Request.sameTerms_enter _ _ _
  | tick =>
      obtain ⟨done, htick, h⟩ := bind_eq_ok.mp h
      cases h
      exact (((tick_evolves hs).ok htick).2.2.2 p hp).sameTerms
  | event e =>
      obtain ⟨w, -, h⟩ := bind_eq_ok.mp h
      cases h
      exact .refl _

/-- A submission on the machine in closed form. -/
theorem applyMachine_submit (s : FifoScheduler MockBackend) (id : RequestId) (deadlineFromNow : Int64)
    (maxOutputTokens : Nat) (promptTokenIds : List UInt32) (priority : Int) :
    ∃ q, s.applyMachine (.submit id deadlineFromNow maxOutputTokens promptTokenIds priority) =
        .ok (s.admitted q s.world) ∧ q.state = .waitingPrefill ∧
      q.deadlineAt = (deadlineAt64 (Int64.ofInt s.clockNow) deadlineFromNow).toInt := by
  let made :=
    (Request.construct64 id s.world deadlineFromNow maxOutputTokens promptTokenIds priority).1
  refine ⟨(made.enter .admitted s.clockNow).enter .waitingPrefill s.clockNow, ?_, rfl, rfl⟩
  unfold applyMachine
  simp only
  rw [submit_of_received rfl]
  rfl

/-- What holds between two steps, of the scheduler and of one request it owns. -/
structure Dated (r : RequestPtr) (deadlineAt : TimePoint) (s : FifoScheduler MockBackend) : Prop where
  partition : s.Partition
  handles : HandlesLive (fun _ => False) s
  lt : r < s.requests.size
  deadlineAt : (s.request r).deadlineAt = deadlineAt

theorem applyMachine_sound (hs : s.Partition) (hlive : HandlesLive (fun _ => False) s)
    {op : MachineOp} (h : s.applyMachine op = .ok u) :
    u.Partition ∧ HandlesLive (fun _ => False) u ∧ s.requests.size ≤ u.requests.size ∧
      ∀ p < s.requests.size, (u.request p).deadlineAt = (s.request p).deadlineAt := by
  cases op with
  | submit id deadlineFromNow maxOutputTokens promptTokenIds priority =>
      obtain ⟨q, heq, hq, -⟩ :=
        applyMachine_submit s id deadlineFromNow maxOutputTokens promptTokenIds priority
      rw [heq] at h
      cases h
      refine ⟨hs.admitted hq _, hlive.of_eq rfl rfl, Nat.le_succ _, fun p hp => ?_⟩
      rw [request_admitted_of_lt s _ _ hp]
  | op op =>
      obtain ⟨hpart, hlive'⟩ := (apply_live hs hlive op).ok h
      exact ⟨hpart, hlive', ((apply_evolves hs op).ok h).2.1,
        fun p hp => (apply_sameTerms hs h hp).deadlineAt⟩

theorem Dated.run {r : RequestPtr} {deadlineAt : TimePoint} (h : Dated r deadlineAt s)
    {ops : List MachineOp} (hrun : Outcome.run applyMachine s ops = .ok u) :
    Dated r deadlineAt u := by
  have hall : Ensures (Outcome.run applyMachine s ops) (fun _ => True) (Dated r deadlineAt) := by
    refine run_ensures (fun v op hv => ?_) s h ops
    refine ensures_iff.mpr ⟨fun v' hstep => ?_, fun _ _ => trivial⟩
    obtain ⟨hpart, hlive, hsize, hdeadline⟩ := applyMachine_sound hv.partition hv.handles hstep
    exact ⟨hpart, hlive, lt_of_lt_of_le hv.lt hsize, (hdeadline r hv.lt).trans hv.deadlineAt⟩
  exact hall.ok hrun

theorem run_sound (clock : FakeClock) (prefillCost decodeCost : Duration) {ops : List MachineOp}
    (hrun : run applyMachine (new (MockBackend.new clock prefillCost decodeCost)) ops = .ok s) :
    s.Partition ∧ HandlesLive (fun _ => False) s := by
  have hall : Ensures (run applyMachine (new (MockBackend.new clock prefillCost decodeCost)) ops)
      (fun _ => True) (fun s => s.Partition ∧ HandlesLive (fun _ => False) s) := by
    refine run_ensures (fun v op hv => ?_) _ ⟨partition_new _,
      HandlesLive.start _ (MockBackend.fresh_new clock prefillCost decodeCost)⟩ ops
    refine ensures_iff.mpr ⟨fun v' hstep => ?_, fun _ _ => trivial⟩
    obtain ⟨hpart, hlive, -⟩ := applyMachine_sound hv.1 hv.2 hstep
    exact ⟨hpart, hlive⟩
  exact hall.ok hrun

/-- A submission dates the request it adds. -/
theorem dated_submit (hs : s.Partition) (hlive : HandlesLive (fun _ => False) s) {t : Int64}
    (hnow : s.clockNow = t.toInt) (id : RequestId) (deadlineFromNow : Int64) (maxOutputTokens : Nat)
    (promptTokenIds : List UInt32) (priority : Int) :
    ∃ u, s.applyMachine (.submit id deadlineFromNow maxOutputTokens promptTokenIds priority) = .ok u ∧
      u.clockNow = s.clockNow ∧ u.Live s.requests.size ∧
      Dated s.requests.size (deadlineAt64 t deadlineFromNow).toInt u := by
  obtain ⟨q, heq, hq, hdeadline⟩ :=
    applyMachine_submit s id deadlineFromNow maxOutputTokens promptTokenIds priority
  obtain ⟨hpart, hlive', -, -⟩ := applyMachine_sound hs hlive heq
  rw [hnow, Int64.ofInt_toInt] at hdeadline
  refine ⟨_, heq, rfl, ?_, hpart, hlive', Nat.lt_succ_self _, ?_⟩
  · refine (hpart.live_iff _).mpr ⟨Nat.lt_succ_self _, ?_⟩
    rw [state, request_admitted_self, hq]
    rfl
  · rw [request_admitted_self]
    exact hdeadline

/-- A deadline that fits is kept. -/
theorem neverEarly_of_fits {t d : Int64} (ht : 0 ≤ t) (hd : 0 ≤ d)
    (hfits : t.toInt + d.toInt < 2 ^ 63) : NeverEarly t d := by
  intro clock prefillCost decodeCost front back id maxOutputTokens promptTokenIds priority s u hfront
    hnow hback hexpires
  obtain ⟨hs, hlive⟩ := run_sound clock prefillCost decodeCost hfront
  obtain ⟨v, hsubmit, -, -, hdated⟩ :=
    dated_submit hs hlive hnow id d maxOutputTokens promptTokenIds priority
  rw [run_cons, hsubmit] at hback
  have hu := hdated.run hback
  have hlate := (expiresNow_iff hu.partition hu.handles hexpires.1).mp hexpires
  rw [hu.deadlineAt, deadlineAt64, toInt_add_of_fits ht hd hfits] at hlate
  exact hlate

/-- A deadline that wraps has passed when the request is submitted. -/
theorem not_neverEarly_of_wraps {t d : Int64} (ht : 0 ≤ t) (hd : 0 ≤ d)
    (hwraps : 2 ^ 63 ≤ t.toInt + d.toInt) : ¬NeverEarly t d := by
  intro hnever
  let s := new (MockBackend.new ⟨t.toInt⟩ 0 0)
  obtain ⟨hs, hlive⟩ := run_sound ⟨t.toInt⟩ 0 0 (run_nil s)
  obtain ⟨u, hsubmit, hclock, hr, hdated⟩ := dated_submit hs hlive rfl "a" d 1 [] 0
  have hrun : run applyMachine s [.submit "a" d 1 [] 0] = .ok u := by
    rw [run_cons, hsubmit]
    exact run_nil u
  have hnow : u.clockNow = t.toInt := hclock
  have hexpires : u.ExpiresNow s.requests.size := by
    refine (expiresNow_iff hdated.partition hdated.handles hr).mpr ?_
    rw [hdated.deadlineAt, hnow]
    exact lt_of_lt_of_le (toInt_add_of_wraps hwraps).2 (toInt_nonneg ht)
  have hlate := hnever ⟨t.toInt⟩ 0 0 [] [] "a" 1 [] 0 s u (run_nil s) rfl hrun hexpires
  rw [hnow] at hlate
  exact absurd hlate (not_lt.mpr (le_add_of_nonneg_right (toInt_nonneg hd)))

/-- **A deadline is honoured as long as it fits into 64 bits.** For every reading `t` of the clock and
every duration that is not negative, each of these holds if and only if `t + deadline_from_now` is
below `2 ^ 63`: no run expires the request early; its deadline does not precede `t`; and no shorter
duration gives a later deadline. -/
theorem deadline_honoured_iff (b : MockBackend) (t deadlineFromNow : Int64)
    (hnow : b.clock.current = t.toInt) (ht : 0 ≤ t) (hd : 0 ≤ deadlineFromNow) (id : RequestId)
    (maxOutputTokens : Nat) (promptTokenIds : List UInt32) (priority : Int) :
    (NeverEarly t deadlineFromNow ↔ t.toInt + deadlineFromNow.toInt < 2 ^ 63) ∧
    (t.toInt ≤ (Request.construct64 id b deadlineFromNow maxOutputTokens promptTokenIds
        priority).1.deadlineAt ↔ t.toInt + deadlineFromNow.toInt < 2 ^ 63) ∧
    ((∀ d : Int64, 0 ≤ d → d ≤ deadlineFromNow →
      (Request.construct64 id b d maxOutputTokens promptTokenIds priority).1.deadlineAt ≤
        (Request.construct64 id b deadlineFromNow maxOutputTokens promptTokenIds
          priority).1.deadlineAt) ↔ t.toInt + deadlineFromNow.toInt < 2 ^ 63) := by
  have hdeadline : ∀ d : Int64, (Request.construct64 id b d maxOutputTokens promptTokenIds
      priority).1.deadlineAt = (t + d).toInt := by
    intro d
    change (deadlineAt64 (Int64.ofInt b.clock.current) d).toInt = _
    rw [hnow, Int64.ofInt_toInt]
    rfl
  have htn := toInt_nonneg ht
  have hdn := toInt_nonneg hd
  simp only [hdeadline]
  refine ⟨⟨fun hnever => ?_, neverEarly_of_fits ht hd⟩, ⟨fun hle => ?_, fun hfits => ?_⟩,
    ⟨fun hmono => ?_, fun hfits d hd' hle => ?_⟩⟩
  · by_contra hwraps
    exact not_neverEarly_of_wraps ht hd (not_lt.mp hwraps) hnever
  · by_contra hwraps
    exact absurd hle (not_le.mpr ((toInt_add_of_wraps (not_lt.mp hwraps)).2.trans_le htn))
  · rw [toInt_add_of_fits ht hd hfits]
    exact le_add_of_nonneg_right hdn
  · -- no deadline at all is longer than one that wraps
    by_contra hwraps
    have hzero := hmono 0 (Int64.le_refl 0) hd
    rw [Int64.add_zero] at hzero
    exact absurd hzero (not_le.mpr ((toInt_add_of_wraps (not_lt.mp hwraps)).2.trans_le htn))
  · have hle' : d.toInt ≤ deadlineFromNow.toInt := Int64.le_iff_toInt_le.mp hle
    rw [toInt_add_of_fits ht hd hfits, toInt_add_of_fits ht hd' (by omega)]
    exact Int.add_le_add_left hle' _

/-- One nanosecond into the epoch, the longest duration gives the earliest deadline there is. -/
theorem deadline_honoured_longest : (0 : Int64) ≤ 1 ∧ (0 : Int64) ≤ Int64.maxValue ∧
    deadlineAt64 1 Int64.maxValue = Int64.minValue ∧ ¬NeverEarly 1 Int64.maxValue :=
  ⟨by decide, by decide, by decide, not_neverEarly_of_wraps (by decide) (by decide) (by decide)⟩

/-- A second from the start of the epoch. -/
theorem deadline_honoured_second : NeverEarly 0 1000000000 :=
  (deadline_honoured_iff (MockBackend.new ⟨0⟩ 1 5) 0 1000000000 (by decide) (by decide) (by decide)
    "a" 1 [] 0).1.mpr (by decide)

end Machine

end FifoScheduler

end Tokamak
