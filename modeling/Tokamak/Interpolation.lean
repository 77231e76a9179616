import Mathlib

/-! Linear interpolation between the values of a sequence, and what is read off the sorted values of a
finite sample. `lerp` is the piecewise linear function through the points of a sequence; over a
sequence that does not go down it does not go down either. -/

namespace Interpolation

universe u

/-! ### Sequences -/

section Lerp

variable {K : Type u} [Field K] [LinearOrder K] [IsStrictOrderedRing K] [FloorSemiring K]
  {f : ℕ → K} {x y : K} {k n : ℕ}

/-- The piecewise linear function through the points `(k, f k)`. -/
def lerp (f : ℕ → K) (x : K) : K := f ⌊x⌋₊ + (x - ⌊x⌋₊) * (f (⌊x⌋₊ + 1) - f ⌊x⌋₊)

/-- On a segment, its right end included, the function is the line through the two points. -/
theorem lerp_of_mem (hk : (k : K) ≤ x) (hk' : x ≤ k + 1) :
    lerp f x = f k + (x - k) * (f (k + 1) - f k) := by
  rcases hk'.lt_or_eq with hlt | rfl
  · have hfloor : ⌊x⌋₊ = k := (Nat.floor_eq_iff ((Nat.cast_nonneg k).trans hk)).mpr ⟨hk, hlt⟩
    rw [lerp, hfloor]
  · have hfloor : ⌊(k : K) + 1⌋₊ = k + 1 := by
      rw [← Nat.cast_succ]
      exact Nat.floor_natCast _
    rw [lerp, hfloor]
    push_cast
    ring

@[simp] theorem lerp_natCast (f : ℕ → K) (k : ℕ) : lerp f k = f k := by
  rw [lerp_of_mem le_rfl (le_add_of_nonneg_right zero_le_one), sub_self, zero_mul, add_zero]

omit [IsStrictOrderedRing K] in
/-- The upper neighbour may be taken by rounding up. -/
theorem lerp_eq_ceil (f : ℕ → K) (hx : 0 ≤ x) :
    f ⌊x⌋₊ + (x - ⌊x⌋₊) * (f ⌈x⌉₊ - f ⌊x⌋₊) = lerp f x := by
  rcases (Nat.floor_le hx).eq_or_lt with heq | hlt
  · -- on a point of the sequence neither neighbour has any weight
    rw [lerp, heq, sub_self, zero_mul, zero_mul]
  · have hceil : ⌈x⌉₊ = ⌊x⌋₊ + 1 := by
      refine (Nat.ceil_eq_iff (Nat.succ_ne_zero _)).mpr ⟨hlt, ?_⟩
      push_cast
      exact (Nat.lt_floor_add_one x).le
    rw [lerp, hceil]

/-- Within the range of the sequence every point lies on a segment. -/
theorem exists_segment (hx : 0 ≤ x) (hxn : x ≤ n) (hn : 0 < n) :
    ∃ k, k + 1 ≤ n ∧ (k : K) ≤ x ∧ x ≤ k + 1 := by
  rcases hxn.lt_or_eq with hlt | rfl
  · exact ⟨⌊x⌋₊, Nat.floor_lt hx |>.mpr hlt, Nat.floor_le hx, (Nat.lt_floor_add_one x).le⟩
  · refine ⟨n - 1, by omega, ?_, ?_⟩
    · exact_mod_cast Nat.sub_le n 1
    · rw [← Nat.cast_succ]
      exact_mod_cast (by omega : n ≤ n - 1 + 1)

/-- On a segment the values lie between those of its ends. -/
theorem lerp_bounds (hf : ∀ i j, i ≤ j → j ≤ n → f i ≤ f j) (hkn : k + 1 ≤ n) (hk : (k : K) ≤ x)
    (hk' : x ≤ k + 1) :
    f k ≤ lerp f x ∧ lerp f x ≤ f (k + 1) := by
  have hstep : 0 ≤ f (k + 1) - f k := sub_nonneg.mpr (hf k (k + 1) (Nat.le_succ k) hkn)
  rw [lerp_of_mem hk hk']
  constructor
  · exact le_add_of_nonneg_right (mul_nonneg (sub_nonneg.mpr hk) hstep)
  · calc f k + (x - k) * (f (k + 1) - f k)
        ≤ f k + 1 * (f (k + 1) - f k) :=
          add_le_add_right (mul_le_mul_of_nonneg_right (by linarith) hstep) _
      _ = f (k + 1) := by ring

/-- Interpolation keeps the order. -/
theorem lerp_mono (hf : ∀ i j, i ≤ j → j ≤ n → f i ≤ f j) (hx : 0 ≤ x) (hxy : x ≤ y) (hy : y ≤ n) :
    lerp f x ≤ lerp f y := by
  rcases Nat.eq_zero_or_pos n with rfl | hn
  · have hzero : y ≤ x := hy.trans (by simpa using hx)
    rw [le_antisymm hxy hzero]
  · obtain ⟨i, hin, hi, hi'⟩ := exists_segment hx (hxy.trans hy) hn
    obtain ⟨j, hjn, hj, hj'⟩ := exists_segment (hx.trans hxy) hy hn
    rcases lt_trichotomy i j with hij | rfl | hij
    · calc lerp f x ≤ f (i + 1) := (lerp_bounds hf hin hi hi').2
        _ ≤ f j := hf (i + 1) j hij (by omega)
        _ ≤ lerp f y := (lerp_bounds hf hjn hj hj').1
    · have hstep : 0 ≤ f (i + 1) - f i := sub_nonneg.mpr (hf i (i + 1) (Nat.le_succ i) hin)
      rw [lerp_of_mem hi hi', lerp_of_mem hj hj']
      exact add_le_add_right (mul_le_mul_of_nonneg_right (by linarith) hstep) _
    · -- the segments meet in one point
      have hcast : (j : K) + 1 ≤ i := by exact_mod_cast hij
      rw [le_antisymm hxy (hj'.trans (hcast.trans hi))]

end Lerp

/-! ### Samples -/

section Sample

variable {K : Type u} [LinearOrder K] {values values' : List K}

/-- Sorting forgets the order. -/
theorem insertionSort_eq_of_perm (h : values.Perm values') :
    values.insertionSort (· ≤ ·) = values'.insertionSort (· ≤ ·) :=
  (((List.perm_insertionSort _ values).trans h).trans
    (List.perm_insertionSort _ values').symm).eq_of_sortedLE List.sortedLE_insertionSort
      List.sortedLE_insertionSort

variable [Field K] [IsStrictOrderedRing K]

/-- The mean of a sample lies between any bounds of its values. -/
theorem mean_bounds (hne : values ≠ []) {low high : K} (hlow : ∀ v ∈ values, low ≤ v)
    (hhigh : ∀ v ∈ values, v ≤ high) :
    low ≤ values.sum / values.length ∧ values.sum / values.length ≤ high := by
  have hlen : (0 : K) < values.length := by exact_mod_cast List.length_pos_iff.mpr hne
  constructor
  · rw [le_div_iff₀ hlen, mul_comm, ← nsmul_eq_mul]
    exact List.card_nsmul_le_sum values low hlow
  · rw [div_le_iff₀ hlen, mul_comm, ← nsmul_eq_mul]
    exact List.sum_le_card_nsmul values high hhigh

end Sample

end Interpolation
