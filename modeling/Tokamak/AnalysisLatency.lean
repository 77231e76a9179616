import Tokamak.Analysis
import Tokamak.Interpolation

/-! The latency figures of a run. A sample is sorted, and percentiles are interpolated between its
neighbouring values; an index past the end of the sample would be undefined behaviour, and is an
absent value here. All figures depend on the summaries only and not on their order. -/

open Interpolation

namespace Tokamak

/-- One half of the source's `LatencyStats`: the six figures of a sample, in milliseconds. -/
structure LatencyFigures where
  p50 : ℚ
  p90 : ℚ
  p99 : ℚ
  min : ℚ
  mean : ℚ
  max : ℚ
  deriving DecidableEq, Repr

structure LatencyStats where
  ttft : LatencyFigures
  e2e : LatencyFigures
  deriving DecidableEq, Repr

/-- Linear interpolation between ranks. The caller sorts the values and guards the empty case. -/
def percentile (sortedValues : List ℚ) (p : ℚ) : Option ℚ :=
  if sortedValues.length = 1 then sortedValues.head?
  else do
    let rank : ℚ := p / 100 * ((sortedValues.length - 1 : ℕ) : ℚ)
    let lower := ⌊rank⌋₊
    let upper := ⌈rank⌉₊
    let weight : ℚ := rank - lower
    let low ← sortedValues[lower]?
    let high ← sortedValues[upper]?
    some (low + weight * (high - low))

def toMs (d : Duration) : ℚ := d / 1000000

/-- The values of the requests that were admitted and reached the later milestone. -/
def latencySample (milestone : RequestSummary → Option TimePoint) (requests : List RequestSummary) :
    List ℚ :=
  requests.filterMap fun r =>
    match r.admittedAt, milestone r with
    | some admitted, some reached => some (toMs (reached - admitted))
    | _, _ => none

def ttftMs (requests : List RequestSummary) : List ℚ :=
  latencySample (fun r => r.firstTokenAt) requests

def e2eMs (requests : List RequestSummary) : List ℚ :=
  latencySample (fun r => r.completedAt) requests

/-- The six figures of one sample; those of an empty one stay zero. -/
def latencyFigures (values : List ℚ) : Option LatencyFigures :=
  let sorted := values.insertionSort (· ≤ ·)
  if sorted.isEmpty then some ⟨0, 0, 0, 0, 0, 0⟩
  else do
    let p50 ← percentile sorted 50
    let p90 ← percentile sorted 90
    let p99 ← percentile sorted 99
    let min ← sorted.head?
    let max ← sorted.getLast?
    some ⟨p50, p90, p99, min, sorted.sum / sorted.length, max⟩

def computeLatencyStats (requests : List RequestSummary) : Option LatencyStats := do
  let ttft ← latencyFigures (ttftMs requests)
  let e2e ← latencyFigures (e2eMs requests)
  some ⟨ttft, e2e⟩

/-! ### Percentiles -/

/-- A sorted sample as a sequence. Past its end it has no values; nothing reads them. -/
def ranked (sortedValues : List ℚ) (i : ℕ) : ℚ := sortedValues.getD i 0

section Percentiles

variable {sorted : List ℚ} {p q : ℚ}

theorem getElem?_eq_ranked {i : ℕ} (h : i < sorted.length) : sorted[i]? = some (ranked sorted i) := by
  rw [ranked, List.getD_eq_getElem?_getD, List.getElem?_eq_getElem h]
  rfl

/-- The rank of a percentile lies within the sample. -/
theorem rank_bounds (hp : 0 ≤ p) (hp' : p ≤ 100) (n : ℕ) : 0 ≤ p / 100 * (n : ℚ) ∧ p / 100 * n ≤ n := by
  have hn : (0 : ℚ) ≤ n := Nat.cast_nonneg n
  refine ⟨mul_nonneg (div_nonneg hp (by norm_num)) hn, ?_⟩
  exact mul_le_of_le_one_left hn (by linarith)

/-- A percentile is the interpolation of the sample at its rank, and no index is out of range. -/
theorem percentile_eq (hne : sorted ≠ []) (hp : 0 ≤ p) (hp' : p ≤ 100) :
    percentile sorted p = some (lerp (ranked sorted) (p / 100 * ((sorted.length - 1 : ℕ) : ℚ))) := by
  have hpos : 0 < sorted.length := List.length_pos_iff.mpr hne
  obtain ⟨hrank, hrank'⟩ := rank_bounds hp hp' (sorted.length - 1)
  unfold percentile
  split_ifs with hone
  · rw [hone, Nat.sub_self, Nat.cast_zero, mul_zero, ← Nat.cast_zero (R := ℚ), lerp_natCast,
      List.head?_eq_getElem?]
    exact getElem?_eq_ranked hpos
  · have hlower : ⌊p / 100 * ((sorted.length - 1 : ℕ) : ℚ)⌋₊ < sorted.length := by
      have hle := Nat.floor_le_of_le hrank'
      omega
    have hupper : ⌈p / 100 * ((sorted.length - 1 : ℕ) : ℚ)⌉₊ < sorted.length := by
      have hle := Nat.ceil_le.mpr hrank'
      omega
    simp only [getElem?_eq_ranked hlower, getElem?_eq_ranked hupper, Option.bind_eq_bind,
      Option.bind_some]
    rw [lerp_eq_ceil _ hrank]

/-- A sample in order is a sequence that does not go down. -/
theorem ranked_mono (hsorted : sorted.Pairwise (· ≤ ·)) (i j : ℕ) (hij : i ≤ j)
    (hj : j ≤ sorted.length - 1) (hne : sorted ≠ []) : ranked sorted i ≤ ranked sorted j := by
  have hpos : 0 < sorted.length := List.length_pos_iff.mpr hne
  have hj' : j < sorted.length := by omega
  have hi' : i < sorted.length := lt_of_le_of_lt hij hj'
  unfold ranked
  rw [List.getD_eq_getElem _ _ hi', List.getD_eq_getElem _ _ hj']
  rcases hij.lt_or_eq with hlt | rfl
  · exact List.pairwise_iff_getElem.mp hsorted i j hi' hj' hlt
  · exact le_rfl

end Percentiles

/-! ### The figures of a sample -/

/-- The `p`-th percentile of a sample: its sorted values, interpolated at the rank `p/100 * (n - 1)`. -/
def interpolated (values : List ℚ) (p : ℚ) : ℚ :=
  lerp (ranked (values.insertionSort (· ≤ ·))) (p / 100 * ((values.length - 1 : ℕ) : ℚ))

/-- What the figures of a sample that is not empty say about it. -/
structure LatencyFigures.Summarises (figures : LatencyFigures) (values : List ℚ) : Prop where
  min : IsLeast {v | v ∈ values} figures.min
  max : IsGreatest {v | v ∈ values} figures.max
  mean : figures.mean = values.sum / values.length
  p50 : figures.p50 = interpolated values 50
  p90 : figures.p90 = interpolated values 90
  p99 : figures.p99 = interpolated values 99
  ordered : figures.min ≤ figures.p50 ∧ figures.p50 ≤ figures.p90 ∧ figures.p90 ≤ figures.p99 ∧
    figures.p99 ≤ figures.max
  mean_between : figures.min ≤ figures.mean ∧ figures.mean ≤ figures.max

section Figures

variable {values values' : List ℚ} {p q : ℚ}

theorem insertionSort_ne_nil (hne : values ≠ []) : values.insertionSort (· ≤ ·) ≠ [] := by
  rw [← List.length_pos_iff, List.length_insertionSort]
  exact List.length_pos_iff.mpr hne

theorem ranked_insertionSort_mono (hne : values ≠ []) (i j : ℕ) (hij : i ≤ j)
    (hj : j ≤ values.length - 1) :
    ranked (values.insertionSort (· ≤ ·)) i ≤ ranked (values.insertionSort (· ≤ ·)) j := by
  rw [← List.length_insertionSort (· ≤ ·) values] at hj
  exact ranked_mono (List.pairwise_insertionSort _ values) i j hij hj (insertionSort_ne_nil hne)

theorem ranked_mem {i : ℕ} (hi : i < values.length) :
    ranked (values.insertionSort (· ≤ ·)) i ∈ values := by
  rw [← List.length_insertionSort (· ≤ ·) values] at hi
  exact (List.perm_insertionSort _ values).mem_iff.mp (List.mem_of_getElem? (getElem?_eq_ranked hi))

/-- Every value has a place in the sorted sample. -/
theorem exists_ranked {v : ℚ} (hv : v ∈ values) :
    ∃ i ≤ values.length - 1, ranked (values.insertionSort (· ≤ ·)) i = v := by
  have hperm : (values.insertionSort (· ≤ ·)).Perm values := List.perm_insertionSort _ values
  obtain ⟨i, hi, heq⟩ := List.mem_iff_getElem.mp (hperm.mem_iff.mpr hv)
  have hlen := hperm.length_eq
  refine ⟨i, by omega, ?_⟩
  rw [ranked, List.getD_eq_getElem _ _ hi, heq]

theorem isLeast_ranked (hne : values ≠ []) :
    IsLeast {v | v ∈ values} (ranked (values.insertionSort (· ≤ ·)) 0) := by
  refine ⟨ranked_mem (List.length_pos_iff.mpr hne), fun v hv => ?_⟩
  obtain ⟨i, hi, rfl⟩ := exists_ranked hv
  exact ranked_insertionSort_mono hne 0 i (Nat.zero_le i) hi

theorem isGreatest_ranked (hne : values ≠ []) :
    IsGreatest {v | v ∈ values} (ranked (values.insertionSort (· ≤ ·)) (values.length - 1)) := by
  have hpos : 0 < values.length := List.length_pos_iff.mpr hne
  refine ⟨ranked_mem (by omega), fun v hv => ?_⟩
  obtain ⟨i, hi, rfl⟩ := exists_ranked hv
  exact ranked_insertionSort_mono hne i _ hi le_rfl

/-- A larger percentile is no smaller, and all of them lie between the ends of the sorted sample. -/
theorem interpolated_mono (hne : values ≠ []) (hp : 0 ≤ p) (hpq : p ≤ q) (hq : q ≤ 100) :
    interpolated values p ≤ interpolated values q := by
  refine lerp_mono (n := values.length - 1) (ranked_insertionSort_mono hne)
    (rank_bounds hp (hpq.trans hq) _).1 ?_ (rank_bounds (hp.trans hpq) hq _).2
  exact mul_le_mul_of_nonneg_right (by linarith) (Nat.cast_nonneg _)

theorem interpolated_zero (values : List ℚ) :
    interpolated values 0 = ranked (values.insertionSort (· ≤ ·)) 0 := by
  rw [interpolated, zero_div, zero_mul, ← Nat.cast_zero (R := ℚ), lerp_natCast]

theorem interpolated_hundred (values : List ℚ) :
    interpolated values 100 = ranked (values.insertionSort (· ≤ ·)) (values.length - 1) := by
  rw [interpolated, div_self (by norm_num), one_mul, lerp_natCast]

/-- The figures of a sample that is not empty can all be computed. -/
theorem latencyFigures_summarises (hne : values ≠ []) :
    ∃ figures, latencyFigures values = some figures ∧ figures.Summarises values := by
  have hlen : (values.insertionSort (· ≤ ·)).length = values.length :=
    List.length_insertionSort _ values
  have hpos : 0 < values.length := List.length_pos_iff.mpr hne
  have hne' := insertionSort_ne_nil hne
  have hp : ∀ p : ℚ, 0 ≤ p → p ≤ 100 →
      percentile (values.insertionSort (· ≤ ·)) p = some (interpolated values p) := by
    intro p hp hp'
    rw [percentile_eq hne' hp hp', hlen]
    rfl
  have hmin : (values.insertionSort (· ≤ ·)).head? =
      some (ranked (values.insertionSort (· ≤ ·)) 0) := by
    rw [List.head?_eq_getElem?]
    exact getElem?_eq_ranked (hlen.symm ▸ hpos)
  have hmax : (values.insertionSort (· ≤ ·)).getLast? =
      some (ranked (values.insertionSort (· ≤ ·)) (values.length - 1)) := by
    rw [List.getLast?_eq_getElem?, hlen]
    exact getElem?_eq_ranked (by omega)
  have hleast := isLeast_ranked hne
  have hgreatest := isGreatest_ranked hne
  refine ⟨⟨interpolated values 50, interpolated values 90, interpolated values 99,
    ranked (values.insertionSort (· ≤ ·)) 0, values.sum / values.length,
    ranked (values.insertionSort (· ≤ ·)) (values.length - 1)⟩, ?_, hleast, hgreatest, rfl, rfl, rfl,
    rfl, ⟨?_, ?_, ?_, ?_⟩, mean_bounds hne hleast.2 hgreatest.2⟩
  · unfold latencyFigures
    simp only
    rw [if_neg (by rw [List.isEmpty_iff]; exact hne'), hp 50 (by norm_num) (by norm_num),
      hp 90 (by norm_num) (by norm_num), hp 99 (by norm_num) (by norm_num), hmin, hmax,
      (List.perm_insertionSort _ values).sum_eq, hlen]
    rfl
  · rw [← interpolated_zero]
    exact interpolated_mono hne le_rfl (by norm_num) (by norm_num)
  · exact interpolated_mono hne (by norm_num) (by norm_num) (by norm_num)
  · exact interpolated_mono hne (by norm_num) (by norm_num) (by norm_num)
  · rw [← interpolated_hundred]
    exact interpolated_mono hne (by norm_num) (by norm_num) le_rfl

theorem latencyFigures_perm (h : values.Perm values') : latencyFigures values = latencyFigures values' := by
  unfold latencyFigures
  rw [insertionSort_eq_of_perm h]

theorem latencyFigures_nil : latencyFigures [] = some ⟨0, 0, 0, 0, 0, 0⟩ := rfl

theorem latencyFigures_total (values : List ℚ) : ∃ figures, latencyFigures values = some figures ∧
    (values ≠ [] → figures.Summarises values) := by
  by_cases hne : values = []
  · subst hne
    exact ⟨_, latencyFigures_nil, fun h => absurd rfl h⟩
  · obtain ⟨figures, heq, hsummary⟩ := latencyFigures_summarises hne
    exact ⟨figures, heq, fun _ => hsummary⟩

end Figures

/-! ### The metrics of a run -/

section Metrics

variable {requests requests' : List RequestSummary}

/-- The latency figures of any list can be computed. -/
theorem computeLatencyStats_total (requests : List RequestSummary) :
    ∃ stats, computeLatencyStats requests = some stats ∧
      (ttftMs requests ≠ [] → stats.ttft.Summarises (ttftMs requests)) ∧
      (e2eMs requests ≠ [] → stats.e2e.Summarises (e2eMs requests)) := by
  obtain ⟨ttft, httft, hsummary⟩ := latencyFigures_total (ttftMs requests)
  obtain ⟨e2e, he2e, hsummary'⟩ := latencyFigures_total (e2eMs requests)
  refine ⟨⟨ttft, e2e⟩, ?_, hsummary, hsummary'⟩
  unfold computeLatencyStats
  rw [httft, he2e]
  rfl

theorem computeLatencyStats_perm (h : requests.Perm requests') :
    computeLatencyStats requests = computeLatencyStats requests' := by
  have hsample : ∀ milestone, latencyFigures (latencySample milestone requests) =
      latencyFigures (latencySample milestone requests') :=
    fun milestone => latencyFigures_perm (h.filterMap _)
  unfold computeLatencyStats ttftMs e2eMs
  rw [hsample, hsample]

theorem computeThroughputStats_perm (h : requests.Perm requests') (simWallTime : Duration) :
    computeThroughputStats requests simWallTime = computeThroughputStats requests' simWallTime := by
  unfold computeThroughputStats attainingCount
  rw [(h.map _).sum_eq, ((h.filter _).map _).sum_eq, h.countP_eq, h.countP_eq]

theorem goodput_bounds (requests : List RequestSummary) (simWallTime : Duration) :
    0 ≤ (computeThroughputStats requests simWallTime).goodputTokensPerSec ∧
      (computeThroughputStats requests simWallTime).goodputTokensPerSec ≤
        (computeThroughputStats requests simWallTime).throughputTokensPerSec := by
  have htokens : ∀ v ∈ requests.map (fun r => (r.outputTokensEmitted : ℚ)), 0 ≤ v := by
    intro v hv
    obtain ⟨r, -, rfl⟩ := List.mem_map.mp hv
    exact Nat.cast_nonneg _
  have hgood : ((requests.filter fun r => r.finalState.isTerminal && r.metDeadline).map
      fun r => (r.outputTokensEmitted : ℚ)).Sublist
        (requests.map fun r => (r.outputTokensEmitted : ℚ)) := List.filter_sublist.map _
  unfold computeThroughputStats
  simp only
  split_ifs with hwall
  · exact ⟨div_nonneg (List.sum_nonneg fun v hv => htokens v (hgood.subset hv)) hwall.le,
      div_le_div_of_nonneg_right (hgood.sum_le_sum htokens) hwall.le⟩
  · exact ⟨le_rfl, le_rfl⟩

theorem sloAttainmentRate_bounds (requests : List RequestSummary) (simWallTime : Duration) :
    0 ≤ (computeThroughputStats requests simWallTime).sloAttainmentRate ∧
      (computeThroughputStats requests simWallTime).sloAttainmentRate ≤ 1 := by
  have hle : attainingCount requests ≤ requests.countP (fun r => r.finalState.isTerminal) :=
    List.countP_mono_left (fun r _ h => (Bool.and_eq_true_iff.mp h).1)
  unfold computeThroughputStats
  simp only
  split_ifs with hterminal
  · refine ⟨div_nonneg (Nat.cast_nonneg _) (Nat.cast_nonneg _), ?_⟩
    exact div_le_one_of_le₀ (by exact_mod_cast hle) (Nat.cast_nonneg _)
  · exact ⟨le_rfl, zero_le_one⟩

/-- **The metrics are well formed and do not depend on the order.** For every list of summaries and every
wall time: the latency figures can be computed, no index is out of range; where a sample is not
empty its figures are the least value, the interpolated percentiles, the mean and the greatest
value, in order; goodput is between zero and throughput, and the attainment rate between zero and
one; and a permutation of the list changes none of them. -/
theorem metrics_well_formed (requests : List RequestSummary) (simWallTime : Duration) :
    (∃ stats, computeLatencyStats requests = some stats ∧
      (ttftMs requests ≠ [] → stats.ttft.Summarises (ttftMs requests)) ∧
      (e2eMs requests ≠ [] → stats.e2e.Summarises (e2eMs requests))) ∧
    (0 ≤ (computeThroughputStats requests simWallTime).goodputTokensPerSec ∧
      (computeThroughputStats requests simWallTime).goodputTokensPerSec ≤
        (computeThroughputStats requests simWallTime).throughputTokensPerSec) ∧
    (0 ≤ (computeThroughputStats requests simWallTime).sloAttainmentRate ∧
      (computeThroughputStats requests simWallTime).sloAttainmentRate ≤ 1) ∧
    (∀ requests', requests.Perm requests' →
      computeLatencyStats requests' = computeLatencyStats requests ∧
      computeThroughputStats requests' simWallTime = computeThroughputStats requests simWallTime) := by
  exact ⟨computeLatencyStats_total requests, goodput_bounds requests simWallTime,
    sloAttainmentRate_bounds requests simWallTime, fun requests' h =>
      ⟨(computeLatencyStats_perm h).symm, (computeThroughputStats_perm h simWallTime).symm⟩⟩

/-- Three samples out of order. -/
example : latencyFigures [8, 7, 10] = some ⟨8, 48 / 5, 249 / 25, 7, 25 / 3, 10⟩ := by decide +kernel

end Metrics

end Tokamak
