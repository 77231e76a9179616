import Tokamak.AnalysisLatency
import Tokamak.LifecycleHistory

/-! What cancelled requests contribute to the metrics. A request may be cancelled before its first token
or after it, and no filter asks for the final state: the samples take every request that reached its
milestones, and the attainment rate counts every terminal request. So a cancelled request is in no
end-to-end time, it is among the times to the first token if it had one, and it lowers the attainment
rate wherever that is not zero. -/

open Outcome

namespace Tokamak

/-! ### Filters -/

section Filters

variable {α β : Type} {keep : α → Bool} {f : α → Option β} {items : List α}

theorem length_filterMap_filter_le (keep : α → Bool) (f : α → Option β) (items : List α) :
    ((items.filter keep).filterMap f).length ≤ (items.filterMap f).length :=
  (List.filter_sublist.filterMap f).length_le

/-- Dropping elements changes what a list yields exactly if a dropped one yields something. -/
theorem filterMap_filter_eq_iff :
    (items.filter keep).filterMap f = items.filterMap f ↔
      ∀ a ∈ items, keep a = false → f a = none := by
  induction items with
  | nil => simp
  | cons a rest ih =>
      rw [List.forall_mem_cons, ← ih]
      cases hkeep : keep a with
      | true =>
          rw [List.filter_cons_of_pos hkeep]
          cases hf : f a with
          | none => simp [List.filterMap_cons_none hf]
          | some b => simp [List.filterMap_cons_some hf]
      | false =>
          rw [List.filter_cons_of_neg (by simp [hkeep])]
          cases hf : f a with
          | none => simp [List.filterMap_cons_none hf]
          | some b =>
              -- the full list yields one more
              refine iff_of_false (fun heq => ?_) (fun h => by simpa using h.1)
              have hle := length_filterMap_filter_le keep f rest
              rw [heq, List.filterMap_cons_some hf, List.length_cons] at hle
              omega

end Filters

/-! ### Summaries of lifecycles -/

/-- The summary of a request whose lifecycle a sequence of legal calls has led to. -/
def RequestSummary.FromLifecycle (r : RequestSummary) : Prop :=
  ∃ (q : Request) (t₀ : TimePoint) (calls : List (TimedCall FakeClock)),
    run RequestLifecycle.apply (.new t₀) calls = .ok q.lifecycle ∧ r = q.summary

namespace RequestLifecycle

variable {ω : Type} [Clock ω] {lc lc' : RequestLifecycle} {c : TimedCall ω}

/-- A lifecycle that went past `received` was admitted, unless it ended at once. -/
def Admitted (lc : RequestLifecycle) : Prop :=
  (lc.state = .received ∨ lc.state = .rejected ∨ lc.state = .cancelled ∨
    lc.admittedAt.isSome = true) ∧ (lc.firstTokenAt.isSome = true → lc.admittedAt.isSome = true)

theorem Admitted.apply (h : Admitted lc) (hcall : lc.apply c = .ok lc') : Admitted lc' := by
  rcases apply_cases hcall with ⟨target, hvalid, rfl, -⟩ | ⟨hstate, -, rfl, -⟩ | ⟨rfl, -⟩
  · have hkept : lc.admittedAt.isSome = true → (lc.enter target c.reading).admittedAt.isSome = true := by
      intro hsome
      rw [admittedAt_enter]
      split_ifs
      · rfl
      · exact hsome
    refine ⟨?_, fun hfirst => hkept (h.2 hfirst)⟩
    rw [state_enter]
    rcases h.1 with hstate | hstate | hstate | hsome
    · rw [hstate] at hvalid
      cases target with
      | admitted => exact .inr (.inr (.inr rfl))
      | rejected => exact .inr (.inl rfl)
      | cancelled => exact .inr (.inr (.inl rfl))
      | _ => cases hvalid
    · rw [hstate] at hvalid
      cases hvalid
    · rw [hstate] at hvalid
      cases hvalid
    · exact .inr (.inr (.inr (hkept hsome)))
  · have hsome : lc.admittedAt.isSome = true := by
      rcases h.1 with h | h | h | h
      · rw [hstate] at h
        cases h
      · rw [hstate] at h
        cases h
      · rw [hstate] at h
        cases h
      · exact h
    exact ⟨.inr (.inr (.inr hsome)), fun _ => hsome⟩
  · exact h

theorem Admitted.run {t₀ : TimePoint} {calls : List (TimedCall ω)}
    (hrun : Outcome.run RequestLifecycle.apply (new t₀) calls = .ok lc) : Admitted lc := by
  have hall : Ensures (Outcome.run RequestLifecycle.apply (new t₀) calls) (fun _ => True) Admitted := by
    refine run_ensures (fun lc c h => ?_) _ ⟨.inl rfl, nofun⟩ calls
    exact ensures_iff.mpr ⟨fun lc' hcall => h.apply hcall, fun _ _ => trivial⟩
  exact hall.ok hrun

end RequestLifecycle

namespace RequestSummary

variable {r : RequestSummary}

/-- A cancelled request never completed. -/
theorem FromLifecycle.completedAt (h : r.FromLifecycle) (hstate : r.finalState = .cancelled) :
    r.completedAt = none := by
  obtain ⟨q, t₀, calls, hrun, rfl⟩ := h
  have hdone := (RequestLifecycle.Recorded.new t₀).run hrun
  cases hcompleted : q.summary.completedAt with
  | none => rfl
  | some t =>
      have hentered : q.lifecycle.enteredAtState .completed = some t := by
        rw [← hdone.completedAt]
        exact hcompleted
      have hcurrent := hdone.terminal_unique ((hdone.stateEnteredAt _ _).mp hentered) rfl
      have hcancelled : q.lifecycle.state = .cancelled := hstate
      rw [hcurrent] at hcancelled
      cases hcancelled

/-- A request with a first token was admitted. -/
theorem FromLifecycle.admittedAt (h : r.FromLifecycle) {t : TimePoint}
    (hfirst : r.firstTokenAt = some t) : ∃ a, r.admittedAt = some a := by
  obtain ⟨q, t₀, calls, hrun, rfl⟩ := h
  have hadmitted := (RequestLifecycle.Admitted.run hrun).2
  change q.lifecycle.firstTokenAt = some t at hfirst
  rw [hfirst] at hadmitted
  exact Option.isSome_iff_exists.mp (hadmitted rfl)

/-- It is cancelled requests that are to be left out. -/
def isKept (r : RequestSummary) : Bool := decide (r.finalState ≠ .cancelled)

theorem isKept_eq_false : r.isKept = false ↔ r.finalState = .cancelled := by
  unfold isKept
  rw [decide_eq_false_iff_not, not_not]

end RequestSummary

/-- The list with every cancelled summary removed. -/
def withoutCancelled (requests : List RequestSummary) : List RequestSummary :=
  requests.filter RequestSummary.isKept

/-- No cancelled request had a first token. -/
def NoCancelledToken (requests : List RequestSummary) : Prop :=
  ∀ r ∈ requests, r.finalState = .cancelled → r.firstTokenAt = none

/-- No request is cancelled, or none that is terminal met its deadline. -/
def NoDilutedRate (requests : List RequestSummary) : Prop :=
  (∀ r ∈ requests, r.finalState ≠ .cancelled) ∨
    ∀ r ∈ requests, r.finalState.isTerminal = true → r.metDeadline = false

/-! ### The samples -/

section Samples

variable {requests : List RequestSummary}

/-- The value a request contributes to a sample. -/
def latencyOf (milestone : RequestSummary → Option TimePoint) (r : RequestSummary) : Option ℚ :=
  match r.admittedAt, milestone r with
  | some admitted, some reached => some (toMs (reached - admitted))
  | _, _ => none

theorem latencySample_eq (milestone : RequestSummary → Option TimePoint)
    (requests : List RequestSummary) :
    latencySample milestone requests = requests.filterMap (latencyOf milestone) := rfl

theorem latencyOf_of_none {milestone : RequestSummary → Option TimePoint} {r : RequestSummary}
    (h : milestone r = none) : latencyOf milestone r = none := by
  unfold latencyOf
  rw [h]
  split
  · rename_i hsome
    cases hsome
  · rfl

theorem ttftMs_eq_iff (hreach : ∀ r ∈ requests, r.FromLifecycle) :
    ttftMs (withoutCancelled requests) = ttftMs requests ↔ NoCancelledToken requests := by
  unfold ttftMs withoutCancelled NoCancelledToken
  rw [latencySample_eq, latencySample_eq, filterMap_filter_eq_iff]
  refine forall₂_congr (fun r hr => ?_)
  rw [RequestSummary.isKept_eq_false]
  refine imp_congr_right (fun _ => ⟨fun hnone => ?_, latencyOf_of_none⟩)
  cases hfirst : r.firstTokenAt with
  | none => rfl
  | some t =>
      obtain ⟨a, ha⟩ := (hreach r hr).admittedAt hfirst
      simp only [latencyOf, ha, hfirst] at hnone
      cases hnone

theorem e2eMs_eq (hreach : ∀ r ∈ requests, r.FromLifecycle) :
    e2eMs (withoutCancelled requests) = e2eMs requests := by
  unfold e2eMs withoutCancelled
  rw [latencySample_eq, latencySample_eq, filterMap_filter_eq_iff]
  intro r hr hdropped
  exact latencyOf_of_none ((hreach r hr).completedAt (RequestSummary.isKept_eq_false.mp hdropped))

theorem computeLatencyStats_eq (hreach : ∀ r ∈ requests, r.FromLifecycle)
    (h : NoCancelledToken requests) :
    computeLatencyStats (withoutCancelled requests) = computeLatencyStats requests := by
  unfold computeLatencyStats
  rw [(ttftMs_eq_iff hreach).mpr h, e2eMs_eq hreach]

/-! ### The attainment rate -/

theorem attainingCount_eq (hreach : ∀ r ∈ requests, r.FromLifecycle) :
    attainingCount (withoutCancelled requests) = attainingCount requests := by
  unfold attainingCount withoutCancelled
  rw [List.countP_filter]
  refine List.countP_congr (fun r hr => ?_)
  simp only [Bool.and_eq_true]
  refine ⟨fun h => h.1, fun h => ⟨h, ?_⟩⟩
  by_contra hdropped
  have hstate := RequestSummary.isKept_eq_false.mp (Bool.eq_false_iff.mpr hdropped)
  have hmissed : r.metDeadline = false := by
    unfold RequestSummary.metDeadline
    rw [(hreach r hr).completedAt hstate]
  rw [hmissed] at h
  cases h.2

/-- A share of the whole, zero where there is no whole. -/
theorem share_eq_iff {a k c : Nat} (hle : a ≤ k) :
    (if 0 < k then (a : ℚ) / k else 0) = (if 0 < k + c then (a : ℚ) / ((k + c : ℕ) : ℚ) else 0) ↔
      c = 0 ∨ a = 0 := by
  rcases Nat.eq_zero_or_pos a with rfl | ha
  · simp
  · have hk : 0 < k := lt_of_lt_of_le ha hle
    have hkq : (k : ℚ) ≠ 0 := by exact_mod_cast hk.ne'
    have hcq : ((k + c : ℕ) : ℚ) ≠ 0 := by exact_mod_cast (Nat.add_pos_left hk c).ne'
    have haq : (a : ℚ) ≠ 0 := by exact_mod_cast ha.ne'
    rw [if_pos hk, if_pos (Nat.add_pos_left hk c), div_eq_div_iff hkq hcq,
      mul_right_inj' haq]
    constructor
    · intro heq
      have hsum : k + c = k := by exact_mod_cast heq
      exact .inl (by omega)
    · rintro (rfl | hzero)
      · rfl
      · exact absurd hzero ha.ne'

/-- Every cancelled request is in the denominator. -/
theorem sloAttainmentRate_eq_iff (hreach : ∀ r ∈ requests, r.FromLifecycle) (simWallTime : Duration) :
    (computeThroughputStats (withoutCancelled requests) simWallTime).sloAttainmentRate =
      (computeThroughputStats requests simWallTime).sloAttainmentRate ↔ NoDilutedRate requests := by
  have hdropped : (requests.filter fun r => !r.isKept).countP (fun r => r.finalState.isTerminal) =
      requests.countP (fun r => !r.isKept) := by
    rw [List.countP_filter]
    refine List.countP_congr (fun r _ => ?_)
    rw [Bool.and_eq_true, Bool.not_eq_true']
    refine and_iff_right_of_imp (fun hdropped => ?_)
    rw [RequestSummary.isKept_eq_false.mp hdropped]
    rfl
  have hsplit : requests.countP (fun r => r.finalState.isTerminal) =
      (withoutCancelled requests).countP (fun r => r.finalState.isTerminal) +
        requests.countP (fun r => !r.isKept) := by
    rw [List.countP_eq_countP_filter_add requests _ RequestSummary.isKept, hdropped]
    rfl
  have hle : attainingCount requests ≤
      (withoutCancelled requests).countP (fun r => r.finalState.isTerminal) := by
    rw [← attainingCount_eq hreach]
    exact List.countP_mono_left (fun r _ h => (Bool.and_eq_true_iff.mp h).1)
  have hnone : requests.countP (fun r => !r.isKept) = 0 ↔ ∀ r ∈ requests, r.finalState ≠ .cancelled := by
    rw [List.countP_eq_zero]
    refine forall₂_congr (fun r _ => not_congr ?_)
    rw [Bool.not_eq_true', RequestSummary.isKept_eq_false]
  have hmissed : attainingCount requests = 0 ↔
      ∀ r ∈ requests, r.finalState.isTerminal = true → r.metDeadline = false := by
    unfold attainingCount
    rw [List.countP_eq_zero]
    refine forall₂_congr (fun r _ => ?_)
    rw [Bool.and_eq_true, not_and, Bool.not_eq_true]
  unfold NoDilutedRate
  rw [← hnone, ← hmissed, ← share_eq_iff hle, ← hsplit]
  unfold computeThroughputStats
  simp only
  rw [attainingCount_eq hreach]

end Samples

/-! ### In company -/

section Company

variable {requests : List RequestSummary}

/-- A request that is admitted at 0 and has its first and last token at `t`. -/
def completedCalls (t : TimePoint) : List (TimedCall FakeClock) :=
  [⟨.transitionTo .admitted, ⟨0⟩⟩, ⟨.transitionTo .waitingPrefill, ⟨0⟩⟩,
    ⟨.transitionTo .prefilling, ⟨0⟩⟩, ⟨.transitionTo .waitingDecode, ⟨0⟩⟩,
    ⟨.transitionTo .decoding, ⟨0⟩⟩, ⟨.recordFirstToken, ⟨t⟩⟩, ⟨.transitionTo .completed, ⟨t⟩⟩]

theorem exists_completed (t : TimePoint) :
    ∃ r : RequestSummary, r.FromLifecycle ∧ r.finalState ≠ .cancelled ∧
      latencyOf (fun r => r.firstTokenAt) r = some (toMs t) := by
  have hrun : run RequestLifecycle.apply (.new 0) (completedCalls t) =
      .ok ((((((((RequestLifecycle.new 0).enter .admitted 0).enter .waitingPrefill 0).enter
        .prefilling 0).enter .waitingDecode 0).enter .decoding 0).stampFirstToken t).enter
          .completed t) := by
    simp only [completedCalls, run_cons, run_nil]
    rfl
  refine ⟨Request.summary ⟨"b", _, 0, 1, 1, [], 0, []⟩, ⟨_, 0, completedCalls t, hrun, rfl⟩, nofun, ?_⟩
  change some (toMs (t - 0)) = _
  rw [Int.sub_zero]

/-- What one more request adds to a sample. -/
theorem ttftMs_concat {r : RequestSummary} {v : ℚ}
    (h : latencyOf (fun r => r.firstTokenAt) r = some v) :
    ttftMs (requests ++ [r]) = ttftMs requests ++ [v] := by
  unfold ttftMs
  rw [latencySample_eq, latencySample_eq, List.filterMap_append, List.filterMap_cons_some h]
  rfl

theorem ttft_mean {stats : LatencyStats} (h : computeLatencyStats requests = some stats)
    (hne : ttftMs requests ≠ []) :
    stats.ttft.mean = (ttftMs requests).sum / (ttftMs requests).length := by
  obtain ⟨stats', heq, hsummary, -⟩ := computeLatencyStats_total requests
  rw [h] at heq
  cases heq
  exact (hsummary hne).mean

/-- A first token of a cancelled request moves the mean, if the next request is slow enough. -/
theorem exists_company (hreach : ∀ r ∈ requests, r.FromLifecycle)
    (htoken : ¬NoCancelledToken requests) :
    ∃ r : RequestSummary, r.FromLifecycle ∧ r.finalState ≠ .cancelled ∧
      computeLatencyStats (withoutCancelled (requests ++ [r])) ≠
        computeLatencyStats (requests ++ [r]) := by
  have hlt : (ttftMs (withoutCancelled requests)).length < (ttftMs requests).length := by
    have hsub : (ttftMs (withoutCancelled requests)).Sublist (ttftMs requests) :=
      List.filter_sublist.filterMap _
    refine lt_of_le_of_ne hsub.length_le (fun heq => htoken ?_)
    exact (ttftMs_eq_iff hreach).mp (hsub.eq_of_length heq)
  have hltq : ((ttftMs (withoutCancelled requests)).length : ℚ) + 1 ≤ (ttftMs requests).length := by
    exact_mod_cast hlt
  generalize hkept : ttftMs (withoutCancelled requests) = kept at hlt hltq
  generalize hall : ttftMs requests = all at hlt hltq
  -- the means would agree for one value of the new request only
  let bound : ℚ := all.sum * (kept.length + 1) - kept.sum * (all.length + 1)
  let t : TimePoint := max 0 ⌈bound * 1000000⌉ + 1
  have ht : 0 ≤ t := add_nonneg (le_max_left _ _) zero_le_one
  have hpos : 0 ≤ toMs t := div_nonneg (by exact_mod_cast ht) (by norm_num)
  have hbound : bound < toMs t := by
    have hceil : bound * 1000000 ≤ (⌈bound * 1000000⌉ : ℚ) := Int.le_ceil _
    have hlt : (⌈bound * 1000000⌉ : ℚ) < (t : ℚ) := by
      exact_mod_cast Int.lt_add_one_of_le (le_max_right 0 ⌈bound * 1000000⌉)
    rw [toMs, lt_div_iff₀ (by norm_num)]
    exact hceil.trans_lt hlt
  obtain ⟨r, hr, hstate, hvalue⟩ := exists_completed t
  refine ⟨r, hr, hstate, fun heq => ?_⟩
  have hrest : withoutCancelled (requests ++ [r]) = withoutCancelled requests ++ [r] := by
    unfold withoutCancelled
    rw [List.filter_append, List.filter_cons_of_pos (by simpa [RequestSummary.isKept] using hstate)]
    rfl
  obtain ⟨stats, hstats, -⟩ := computeLatencyStats_total (requests ++ [r])
  have hmean := ttft_mean hstats (by rw [ttftMs_concat hvalue]; simp)
  rw [← heq, hrest] at hstats
  rw [ttft_mean hstats (by rw [ttftMs_concat hvalue]; simp), ttftMs_concat hvalue,
    ttftMs_concat hvalue, hkept, hall] at hmean
  simp only [List.sum_append, List.sum_singleton, List.length_append, List.length_singleton,
    Nat.cast_add, Nat.cast_one] at hmean
  rw [div_eq_div_iff (by positivity) (by positivity)] at hmean
  have hone : toMs t ≤ toMs t * (all.length - kept.length) :=
    le_mul_of_one_le_right hpos (by linarith)
  have hexact : toMs t * (all.length - kept.length) = bound := by
    change _ = all.sum * (kept.length + 1) - kept.sum * (all.length + 1)
    linarith
  linarith

end Company

/-- Without the cancelled requests the latency figures and the attainment rate are the same. -/
def Unaffected (requests : List RequestSummary) (simWallTime : Duration) : Prop :=
  computeLatencyStats (withoutCancelled requests) = computeLatencyStats requests ∧
    (computeThroughputStats (withoutCancelled requests) simWallTime).sloAttainmentRate =
      (computeThroughputStats requests simWallTime).sloAttainmentRate

/-- **Cancelled requests count with what they reached.** For every list of summaries of legal lifecycles:
the metrics are unaffected if no cancelled request had a first token and the attainment rate is not
diluted. The rate is unaffected exactly under that condition. The end-to-end times never change, the
times to the first token change exactly if a cancelled request had one; and in the company of any
further requests the latency figures stay unaffected exactly if none had. -/
theorem cancelled_unaffected_iff (requests : List RequestSummary)
    (hreach : ∀ r ∈ requests, r.FromLifecycle) (simWallTime : Duration) :
    (NoCancelledToken requests ∧ NoDilutedRate requests → Unaffected requests simWallTime) ∧
    ((computeThroughputStats (withoutCancelled requests) simWallTime).sloAttainmentRate =
      (computeThroughputStats requests simWallTime).sloAttainmentRate ↔ NoDilutedRate requests) ∧
    e2eMs (withoutCancelled requests) = e2eMs requests ∧
    (ttftMs (withoutCancelled requests) = ttftMs requests ↔ NoCancelledToken requests) ∧
    ((∀ others : List RequestSummary, (∀ r ∈ others, r.FromLifecycle ∧ r.finalState ≠ .cancelled) →
      computeLatencyStats (withoutCancelled (requests ++ others)) =
        computeLatencyStats (requests ++ others)) ↔ NoCancelledToken requests) := by
  refine ⟨fun h => ⟨computeLatencyStats_eq hreach h.1, (sloAttainmentRate_eq_iff hreach _).mpr h.2⟩,
    sloAttainmentRate_eq_iff hreach _, e2eMs_eq hreach, ttftMs_eq_iff hreach,
    fun hothers => ?_, fun htoken others hothers => ?_⟩
  · by_contra htoken
    obtain ⟨r, hr, hstate, hne⟩ := exists_company hreach htoken
    refine hne (hothers [r] (fun r' hr' => ?_))
    rw [List.mem_singleton.mp hr']
    exact ⟨hr, hstate⟩
  · refine computeLatencyStats_eq (fun r hr => ?_) (fun r hr hcancelled => ?_)
    · exact (List.mem_append.mp hr).elim (hreach r) (fun hr => (hothers r hr).1)
    · rcases List.mem_append.mp hr with hr | hr
      · exact htoken r hr hcancelled
      · exact absurd hcancelled (hothers r hr).2

/-! ### Three requests -/

theorem fromLifecycle_of_run {r : RequestSummary} (q : Request) (calls : List (TimedCall FakeClock))
    (h : (run RequestLifecycle.apply (.new 0) calls).map
      (fun lc => Request.summary { q with lifecycle := lc }) = .ok r) : r.FromLifecycle := by
  obtain ⟨lc, hrun, rfl⟩ := exists_of_map_ok h
  exact ⟨{ q with lifecycle := lc }, 0, calls, hrun, rfl⟩

/-- Cancelled at 9, with its first token at 6. -/
def cancelledDecoding : RequestSummary :=
  ⟨"a", .cancelled, 1000, some 1, some 1, some 3, some 4, some 4, some 6, none, 1, 4⟩

/-- Cancelled while it waited for its prefill. -/
def cancelledWaiting : RequestSummary :=
  ⟨"b", .cancelled, 1000, some 1, some 1, none, none, none, none, none, 0, 4⟩

/-- Completed before its deadline. -/
def completedInTime : RequestSummary :=
  ⟨"c", .completed, 1000, some 0, some 0, some 0, some 0, some 0, some 9, some 9, 1, 1⟩

theorem fromLifecycle_cancelledDecoding : cancelledDecoding.FromLifecycle :=
  fromLifecycle_of_run ⟨"a", .new 0, 1000, 4, 1, [], 0, [5]⟩
    RequestLifecycle.cancelledTwice (by decide +kernel)

theorem fromLifecycle_cancelledWaiting : cancelledWaiting.FromLifecycle :=
  fromLifecycle_of_run ⟨"b", .new 0, 1000, 4, 0, [], 0, []⟩
    [⟨.transitionTo .admitted, ⟨1⟩⟩, ⟨.transitionTo .waitingPrefill, ⟨1⟩⟩, ⟨.cancel, ⟨2⟩⟩]
    (by decide +kernel)

theorem fromLifecycle_completedInTime : completedInTime.FromLifecycle :=
  fromLifecycle_of_run ⟨"c", .new 0, 1000, 1, 1, [], 0, [5]⟩ (completedCalls 9)
    (by decide +kernel)

/-- The cancelled request's first token is in the sample, and the rate is one half instead of one. -/
theorem cancelled_unaffected_decoding :
    (∀ r ∈ [cancelledDecoding, completedInTime], r.FromLifecycle) ∧
      computeLatencyStats (withoutCancelled [cancelledDecoding, completedInTime]) ≠
        computeLatencyStats [cancelledDecoding, completedInTime] ∧
      (computeThroughputStats (withoutCancelled [cancelledDecoding, completedInTime]) 10).sloAttainmentRate
        = 1 ∧
      (computeThroughputStats [cancelledDecoding, completedInTime] 10).sloAttainmentRate = 1 / 2 := by
  refine ⟨fun r hr => ?_, by decide +kernel, by decide +kernel, by decide +kernel⟩
  rcases List.mem_pair.mp hr with rfl | rfl
  · exact fromLifecycle_cancelledDecoding
  · exact fromLifecycle_completedInTime

/-- A request that was cancelled in the queue changes the rate only. -/
theorem cancelled_unaffected_waiting :
    computeLatencyStats (withoutCancelled [cancelledWaiting, completedInTime]) =
        computeLatencyStats [cancelledWaiting, completedInTime] ∧
      (computeThroughputStats (withoutCancelled [cancelledWaiting, completedInTime]) 10).sloAttainmentRate
        ≠ (computeThroughputStats [cancelledWaiting, completedInTime] 10).sloAttainmentRate := by
  have hreach : ∀ r ∈ [cancelledWaiting, completedInTime], r.FromLifecycle := by
    intro r hr
    rcases List.mem_pair.mp hr with rfl | rfl
    · exact fromLifecycle_cancelledWaiting
    · exact fromLifecycle_completedInTime
  have htoken : NoCancelledToken [cancelledWaiting, completedInTime] := by
    unfold NoCancelledToken
    decide
  have hdiluted : ¬NoDilutedRate [cancelledWaiting, completedInTime] := by
    unfold NoDilutedRate
    decide
  have hiff := cancelled_unaffected_iff [cancelledWaiting, completedInTime] hreach 10
  have halone := hiff.2.2.2.2.mpr htoken [] (fun _ hr => absurd hr List.not_mem_nil)
  rw [List.append_nil] at halone
  exact ⟨halone, mt hiff.2.1.mp hdiluted⟩

end Tokamak
