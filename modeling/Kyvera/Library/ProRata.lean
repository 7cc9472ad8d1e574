import Mathlib

/-!
# Pro-rata shares

A pool divided among weights, each share rounded down: the shares never add up to more than the
pool, and fall short of it by less than one unit for each weight.
-/

namespace ProRata

/-- The part of a weight, rounded down. -/
def share (pool weight totalWeight : ℕ) : ℕ := pool * weight / totalWeight

/-- The sum of the parts of all weights. -/
def paid (pool totalWeight : ℕ) (weights : List ℕ) : ℕ :=
  (weights.map fun w => share pool w totalWeight).sum

@[simp] theorem paid_nil (pool totalWeight : ℕ) : paid pool totalWeight [] = 0 := rfl

@[simp] theorem paid_cons (pool totalWeight w : ℕ) (weights : List ℕ) :
    paid pool totalWeight (w :: weights) =
      share pool w totalWeight + paid pool totalWeight weights := rfl

theorem share_le_paid (pool totalWeight : ℕ) {weight : ℕ} {weights : List ℕ}
    (h : weight ∈ weights) : share pool weight totalWeight ≤ paid pool totalWeight weights :=
  List.le_sum_of_mem (List.mem_map.2 ⟨weight, h, rfl⟩)

/-- The parts are at most the part of the sum of the weights. -/
theorem paid_le_share_sum (pool totalWeight : ℕ) (weights : List ℕ) :
    paid pool totalWeight weights ≤ share pool weights.sum totalWeight := by
  induction weights with
  | nil => exact Nat.zero_le _
  | cons w rest ih =>
      rw [paid_cons, List.sum_cons]
      apply (Nat.add_le_add_left ih _).trans
      unfold share
      rw [Nat.mul_add]
      exact Nat.div_add_div_le_add_div

theorem paid_le_pool (pool : ℕ) (weights : List ℕ) : paid pool weights.sum weights ≤ pool := by
  apply (paid_le_share_sum pool weights.sum weights).trans
  by_cases h : weights.sum = 0
  · rw [share, h, Nat.div_zero]
    exact Nat.zero_le _
  · exact (Nat.mul_div_cancel _ (Nat.pos_of_ne_zero h)).le

theorem share_le_pool {pool weight totalWeight : ℕ} (h : weight ≤ totalWeight) :
    share pool weight totalWeight ≤ pool := by
  unfold share
  apply Nat.div_le_of_le_mul
  rw [Nat.mul_comm totalWeight]
  exact Nat.mul_le_mul_left pool h

theorem share_mono (pool others : ℕ) {weight weight' : ℕ} (h : weight ≤ weight') :
    share pool weight (weight + others) ≤ share pool weight' (weight' + others) := by
  by_cases hzero : weight' + others = 0
  · have hweight : weight = 0 := by omega
    simp [share, hweight]
  · obtain ⟨more, rfl⟩ := Nat.exists_eq_add_of_le h
    have hexact : share pool weight (weight + others) * (weight + others) ≤ pool * weight :=
      Nat.div_mul_le_self _ _
    have hpool : share pool weight (weight + others) ≤ pool :=
      share_le_pool (Nat.le_add_right _ _)
    refine (Nat.le_div_iff_mul_le (Nat.pos_of_ne_zero hzero)).2 ?_
    calc share pool weight (weight + others) * (weight + more + others)
        = share pool weight (weight + others) * (weight + others) +
            share pool weight (weight + others) * more := by ring
      _ ≤ pool * weight + pool * more := Nat.add_le_add hexact (Nat.mul_le_mul_right more hpool)
      _ = pool * (weight + more) := by ring

theorem share_anti (pool weight : ℕ) {totalWeight totalWeight' : ℕ} (h : totalWeight ≤ totalWeight')
    (hpos : 0 < totalWeight) : share pool weight totalWeight' ≤ share pool weight totalWeight :=
  Nat.div_le_div_left h hpos

/-- Weights that add up to no more than one of them alone have together no more than its part, next
to the same other weights. -/
theorem paid_le_share (pool others : ℕ) {weight : ℕ} {weights : List ℕ} (h : weights.sum ≤ weight) :
    paid pool (weights.sum + others) weights ≤ share pool weight (weight + others) :=
  (paid_le_share_sum pool _ weights).trans (share_mono pool others h)

/-- Rounding down takes less than one unit from each part. -/
theorem mul_sum_add_length_le (pool : ℕ) {totalWeight : ℕ} (h : 0 < totalWeight)
    (weights : List ℕ) :
    pool * weights.sum + weights.length ≤
      totalWeight * (paid pool totalWeight weights + weights.length) := by
  induction weights with
  | nil => exact Nat.zero_le _
  | cons w rest ih =>
      have hpart : pool * w < totalWeight * (share pool w totalWeight + 1) :=
        Nat.lt_mul_div_succ (pool * w) h
      calc pool * (w + rest.sum) + (rest.length + 1)
          = pool * w + 1 + (pool * rest.sum + rest.length) := by ring
        _ ≤ totalWeight * (share pool w totalWeight + 1) +
              totalWeight * (paid pool totalWeight rest + rest.length) :=
            Nat.add_le_add hpart ih
        _ = totalWeight * (share pool w totalWeight + paid pool totalWeight rest +
              (rest.length + 1)) := by ring

theorem pool_lt_paid_add_length (pool : ℕ) {weights : List ℕ} (h : 0 < weights.sum) :
    pool < paid pool weights.sum weights + weights.length := by
  have hsum := mul_sum_add_length_le pool h weights
  have hlength : 0 < weights.length := by
    apply List.length_pos_iff.2
    rintro rfl
    exact Nat.lt_irrefl 0 h
  rw [Nat.mul_comm pool] at hsum
  exact Nat.lt_of_mul_lt_mul_left (Nat.lt_of_lt_of_le (Nat.lt_add_of_pos_right hlength) hsum)

end ProRata
