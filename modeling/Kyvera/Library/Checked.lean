import Mathlib

/-!
# Checked and saturating 64-bit arithmetic

The overflow-aware operations on `UInt64`, each with the one fact its users need: what it says
about the natural numbers behind its arguments.
-/

namespace U64

/-- The number of values of a 64-bit integer. -/
abbrev size : ℕ := 18446744073709551616

/-- The largest 64-bit integer. -/
def max : UInt64 := 18446744073709551615

/-- The sum, unless it leaves the range. -/
def checkedAdd (a b : UInt64) : Option UInt64 :=
  if a.toNat + b.toNat < size then some (a + b) else none

/-- The difference, unless it is negative. -/
def checkedSub (a b : UInt64) : Option UInt64 := if b ≤ a then some (a - b) else none

/-- The product, unless it leaves the range. -/
def checkedMul (a b : UInt64) : Option UInt64 :=
  if a.toNat * b.toNat < size then some (a * b) else none

/-- The sum, capped at `max`. -/
def saturatingAdd (a b : UInt64) : UInt64 := (checkedAdd a b).getD max

/-- The difference, cut off at zero. -/
def saturatingSub (a b : UInt64) : UInt64 := (checkedSub a b).getD 0

/-- The product, capped at `max`. -/
def saturatingMul (a b : UInt64) : UInt64 := (checkedMul a b).getD max

theorem toNat_lt_size (a : UInt64) : a.toNat < size := a.toNat_lt

theorem exists_toNat_eq {n : ℕ} (h : n < size) : ∃ c : UInt64, c.toNat = n :=
  ⟨UInt64.ofNat n, UInt64.toNat_ofNat_of_lt' h⟩

theorem toNat_add_of_lt {a b : UInt64} (h : a.toNat + b.toNat < size) :
    (a + b).toNat = a.toNat + b.toNat := by
  rw [UInt64.toNat_add, Nat.mod_eq_of_lt h]

theorem toNat_mul_of_lt {a b : UInt64} (h : a.toNat * b.toNat < size) :
    (a * b).toNat = a.toNat * b.toNat := by
  rw [UInt64.toNat_mul, Nat.mod_eq_of_lt h]

theorem toNat_sub_of_le {a b : UInt64} (h : b ≤ a) : (a - b).toNat + b.toNat = a.toNat := by
  rw [UInt64.toNat_sub_of_le _ _ h]
  exact Nat.sub_add_cancel (UInt64.le_iff_toNat_le.1 h)

theorem checkedAdd_eq_some_iff {a b c : UInt64} :
    checkedAdd a b = some c ↔ c.toNat = a.toNat + b.toNat := by
  unfold checkedAdd
  split_ifs with h
  · rw [Option.some_inj, ← UInt64.toNat_inj, toNat_add_of_lt h, eq_comm]
  · have := toNat_lt_size c
    simp only [false_iff]
    omega

theorem checkedAdd_eq_none_iff {a b : UInt64} :
    checkedAdd a b = none ↔ size ≤ a.toNat + b.toNat := by
  simp [checkedAdd]

theorem checkedAdd_of_lt {a b : UInt64} (h : a.toNat + b.toNat < size) :
    checkedAdd a b = some (a + b) :=
  if_pos h

theorem checkedAdd_of_not_lt {a b : UInt64} (h : ¬ a.toNat + b.toNat < size) :
    checkedAdd a b = none :=
  if_neg h

theorem lt_size_of_checkedAdd {a b c : UInt64} (h : checkedAdd a b = some c) :
    a.toNat + b.toNat < size := by
  rw [← checkedAdd_eq_some_iff.1 h]
  exact toNat_lt_size c

/-- A part of a product is computed if the product fits, and is then the exact part. -/
theorem checkedMul_map_div_eq_some_iff {a b d c : UInt64} :
    (checkedMul a b).map (· / d) = some c ↔
      a.toNat * b.toNat < size ∧ c.toNat = a.toNat * b.toNat / d.toNat := by
  unfold checkedMul
  split_ifs with h
  · rw [Option.map_some, Option.some_inj, ← UInt64.toNat_inj, UInt64.toNat_div, toNat_mul_of_lt h,
      eq_comm, and_iff_right h]
  · simp [h]

/-- A computation that goes on with the sum goes on with the wrapping sum, if it fits. -/
theorem exists_checkedAdd_iff {a b : UInt64} {P : UInt64 → Prop} :
    (∃ c, checkedAdd a b = some c ∧ P c) ↔ a.toNat + b.toNat < size ∧ P (a + b) := by
  unfold checkedAdd
  split_ifs with h <;> simp [h]

theorem toNat_saturatingAdd (a b : UInt64) :
    (saturatingAdd a b).toNat = min (a.toNat + b.toNat) (size - 1) := by
  unfold saturatingAdd
  rcases h : checkedAdd a b with _ | c
  · rw [checkedAdd_eq_none_iff] at h
    rw [min_eq_right (by omega)]
    rfl
  · rw [checkedAdd_eq_some_iff] at h
    have := toNat_lt_size c
    simp only [Option.getD_some, h]
    omega

theorem toNat_saturatingMul (a b : UInt64) :
    (saturatingMul a b).toNat = min (a.toNat * b.toNat) (size - 1) := by
  unfold saturatingMul checkedMul
  split_ifs with h
  · rw [min_eq_left (by omega)]
    exact toNat_mul_of_lt h
  · rw [min_eq_right (by omega)]
    rfl

/-- The quotient of a capped product is that of the product exactly below the first multiple of the
divisor beyond the cap. -/
theorem toNat_saturatingMul_div_eq_iff {a b d : UInt64} (hd : 0 < d.toNat) :
    (saturatingMul a b / d).toNat = a.toNat * b.toNat / d.toNat ↔
      a.toNat * b.toNat < ((size - 1) / d.toNat + 1) * d.toNat := by
  rw [UInt64.toNat_div, toNat_saturatingMul]
  generalize a.toNat * b.toNat = product
  rw [← Nat.div_lt_iff_lt_mul hd, Nat.lt_succ_iff]
  rcases Nat.le_total product (size - 1) with hle | hge
  · rw [min_eq_left hle]
    exact iff_of_true rfl (Nat.div_le_div_right hle)
  · rw [min_eq_right hge]
    constructor
    · exact fun h => h.ge
    · exact fun h => le_antisymm (Nat.div_le_div_right hge) h

/-- A running sum that saturates is the sum, capped. -/
theorem toNat_foldl_saturatingAdd (l : List UInt64) (a : UInt64) :
    (l.foldl saturatingAdd a).toNat = min (a.toNat + (l.map UInt64.toNat).sum) (size - 1) := by
  induction l generalizing a with
  | nil =>
      have := toNat_lt_size a
      simp only [List.foldl_nil, List.map_nil, List.sum_nil]
      omega
  | cons b rest ih =>
      rw [List.foldl_cons, ih, toNat_saturatingAdd, List.map_cons, List.sum_cons]
      omega

theorem toNat_saturatingSub (a b : UInt64) :
    (saturatingSub a b).toNat = a.toNat - b.toNat := by
  unfold saturatingSub checkedSub
  split_ifs with h
  · exact UInt64.toNat_sub_of_le _ _ h
  · rw [UInt64.le_iff_toNat_le] at h
    simp only [Option.getD_none, UInt64.toNat_zero]
    omega

theorem saturatingSub_zero (a : UInt64) : saturatingSub a 0 = a := by
  rw [← UInt64.toNat_inj, toNat_saturatingSub]
  rfl

end U64
