import Kyvera.Consensus.Coinbase
import Kyvera.Consensus.Genesis
import Kyvera.Library.Schedule

/-!
# The emission schedule

The reward is halved from interval to interval until nothing is left of it.  But the number of
halvings is cut to 32 bits, so that after `2 ^ 32` intervals the schedule begins again, and what is
mined in one period is mined in every later one as well.
-/

namespace Kyvera

open Schedule

/-! ## One reward -/

/-- The reward of the `n`th epoch. -/
def rewardAt (n : ℕ) : ℕ := (calculateBlockReward (UInt64.ofNat n)).toNat

/-- The rewards of the epochs before the `n`th one. -/
def scheduled (n : ℕ) : ℕ := ∑ i ∈ Finset.range n, rewardAt i

theorem scheduled_succ (n : ℕ) : scheduled (n + 1) = scheduled n + rewardAt n :=
  Finset.sum_range_succ _ _

theorem rewardAt_toNat (height : UInt64) :
    rewardAt height.toNat = (calculateBlockReward height).toNat := by
  rw [rewardAt, UInt64.ofNat_toNat]

/-- Heights after which the schedule starts again. -/
def schedulePeriod : ℕ := 2 ^ 32 * 290000

/-- The schedule as it repeats itself. -/
def wrappedReward (n : ℕ) : ℕ := halved 50000000000 (n / 290000 % 2 ^ 32)

theorem toNat_calculateBlockReward (height : UInt64) :
    (calculateBlockReward height).toNat = wrappedReward height.toNat := by
  have hcount : ((height / HALVING_INTERVAL).toUInt32).toNat = height.toNat / 290000 % 2 ^ 32 := by
    rw [UInt64.toNat_toUInt32, UInt64.toNat_div]
    rfl
  unfold calculateBlockReward wrappedReward
  dsimp only
  rw [← hcount]
  generalize (height / HALVING_INTERVAL).toUInt32 = count
  split_ifs with hlt
  · rw [UInt64.toNat_shiftRight, UInt32.toNat_toUInt64, Nat.mod_eq_of_lt hlt,
      Nat.shiftRight_eq_div_pow]
    rfl
  · rw [UInt64.toNat_zero, eq_comm, halved_eq_zero_iff]
    calc 50000000000 < 2 ^ 64 := by decide
      _ ≤ 2 ^ count.toNat := Nat.pow_le_pow_right two_pos (Nat.not_lt.1 hlt)

theorem rewardAt_eq_wrappedReward {n : ℕ} (hn : n < U64.size) : rewardAt n = wrappedReward n := by
  rw [rewardAt, toNat_calculateBlockReward, UInt64.toNat_ofNat_of_lt' hn]

theorem wrappedReward_periodic : Function.Periodic wrappedReward schedulePeriod := by
  intro n
  rw [wrappedReward, schedulePeriod, Nat.add_mul_div_right n _ (by decide), Nat.add_mod_right]
  rfl

/-- At a height the reward is that of a schedule that only ever halves: no earlier reward is
smaller, and none is zero already. -/
structure OnlyHalved (height : UInt64) : Prop where
  exact : (calculateBlockReward height).toNat =
    GENESIS_BLOCK_REWARD.toNat / 2 ^ (height.toNat / HALVING_INTERVAL.toNat)
  nonincreasing : ∀ earlier ≤ height, calculateBlockReward height ≤ calculateBlockReward earlier
  zero : ∀ earlier ≤ height, calculateBlockReward earlier = 0 → calculateBlockReward height = 0

theorem halved_reward_eq_zero {count : ℕ} (h : 36 ≤ count) : halved 50000000000 count = 0 := by
  rw [halved_eq_zero_iff]
  calc 50000000000 < 2 ^ 36 := by decide
    _ ≤ 2 ^ count := Nat.pow_le_pow_right two_pos h

theorem wrappedReward_eq_halved_iff (n : ℕ) :
    wrappedReward n = halved 50000000000 (n / 290000) ↔
      n / 290000 < 2 ^ 32 ∨ 36 ≤ n / 290000 % 2 ^ 32 := by
  unfold wrappedReward
  generalize n / 290000 = count
  by_cases hlt : count < 2 ^ 32
  · rw [Nat.mod_eq_of_lt hlt]
    exact iff_of_true rfl (Or.inl hlt)
  · have hle : 36 ≤ count := by omega
    rw [halved_reward_eq_zero hle, or_iff_right hlt]
    constructor
    · intro hzero
      by_contra hmod
      rw [halved_eq_zero_iff] at hzero
      have hpow : 2 ^ (count % 2 ^ 32) ≤ 2 ^ 35 := Nat.pow_le_pow_right two_pos (by omega)
      exact absurd (hzero.trans_le hpow) (by decide)
    · exact halved_reward_eq_zero

/-- A reward that is not cut short is at most every earlier one. -/
theorem wrappedReward_le {n m : ℕ} (hle : m ≤ n)
    (hn : wrappedReward n = halved 50000000000 (n / 290000)) :
    wrappedReward n ≤ wrappedReward m := by
  rw [hn]
  calc halved 50000000000 (n / 290000)
      ≤ halved 50000000000 (m / 290000) := halved_antitone _ (Nat.div_le_div_right hle)
    _ ≤ halved 50000000000 (m / 290000 % 2 ^ 32) := halved_antitone _ (Nat.mod_le _ _)

/-- The schedule only halves up to a height exactly when the number of halvings there fits into 32
bits, or its lower 32 bits are enough to use up the reward. -/
theorem onlyHalved_iff (height : UInt64) :
    OnlyHalved height ↔ height.toNat / HALVING_INTERVAL.toNat < 2 ^ 32 ∨
      36 ≤ height.toNat / HALVING_INTERVAL.toNat % 2 ^ 32 := by
  have hcond := wrappedReward_eq_halved_iff height.toNat
  rw [← toNat_calculateBlockReward] at hcond
  constructor
  · intro h
    exact hcond.1 h.exact
  · intro h
    have hexact := hcond.2 h
    have hle : ∀ earlier ≤ height,
        calculateBlockReward height ≤ calculateBlockReward earlier := by
      intro earlier he
      rw [UInt64.le_iff_toNat_le] at he ⊢
      rw [toNat_calculateBlockReward] at hexact ⊢
      rw [toNat_calculateBlockReward]
      exact wrappedReward_le he hexact
    refine ⟨hexact, hle, fun earlier he hzero => ?_⟩
    have hlast := hle earlier he
    rw [hzero] at hlast
    exact UInt64.le_antisymm hlast UInt64.zero_le

/-- After `2 ^ 32` intervals the full reward is paid again, although nothing was left of it. -/
theorem not_onlyHalved_second_period :
    (calculateBlockReward 1245540515840000).toNat ≠ GENESIS_BLOCK_REWARD.toNat /
        2 ^ ((1245540515840000 : UInt64).toNat / HALVING_INTERVAL.toNat) ∧
      calculateBlockReward 10440000 = 0 ∧
      calculateBlockReward 1245540515840000 = GENESIS_BLOCK_REWARD := by
  refine ⟨?_, by decide, by decide⟩
  have hused : ∀ count, 36 ≤ count → GENESIS_BLOCK_REWARD.toNat / 2 ^ count = 0 :=
    fun count h => halved_reward_eq_zero h
  rw [hused _ (by decide)]
  decide

/-! ## Sums of rewards -/

theorem scheduled_eq {n : ℕ} (hn : n ≤ U64.size) :
    scheduled n = ∑ i ∈ Finset.range n, wrappedReward i := by
  apply Finset.sum_congr rfl
  intro i hi
  exact rewardAt_eq_wrappedReward (lt_of_lt_of_le (Finset.mem_range.1 hi) hn)

theorem sum_wrappedReward_period :
    ∑ i ∈ Finset.range schedulePeriod, wrappedReward i = 28999999995650000 := by
  unfold schedulePeriod wrappedReward
  rw [sum_range_halved_mod (show 50000000000 < 2 ^ 36 by decide) (by decide) (by decide)]
  decide

theorem scheduled_mul_add {k n : ℕ} (hn : n ≤ 290000) (hk : k * schedulePeriod + n ≤ U64.size) :
    scheduled (k * schedulePeriod + n) = k * 28999999995650000 + n * 50000000000 := by
  have hfull : ∑ i ∈ Finset.range n, wrappedReward i = n * 50000000000 := by
    rw [Finset.sum_congr rfl (g := fun _ => 50000000000), Finset.sum_const, Finset.card_range,
      smul_eq_mul]
    intro i hi
    have hlt := (Finset.mem_range.1 hi).trans_le hn
    rw [wrappedReward, Nat.div_eq_of_lt hlt]
    rfl
  rw [scheduled_eq hk, sum_range_mul_add wrappedReward_periodic, sum_wrappedReward_period, hfull,
    smul_eq_mul]

theorem scheduled_mono : Monotone scheduled := by
  intro n m h
  exact Finset.sum_le_sum_of_subset (Finset.range_subset_range.2 h)

/-- Over all heights more is scheduled than fits into 64 bits. -/
theorem size_le_scheduled : U64.size ≤ scheduled U64.size := by
  have hperiods := scheduled_mul_add (k := 637) (n := 0) (Nat.zero_le _) (by decide)
  rw [Nat.add_zero, Nat.zero_mul, Nat.add_zero] at hperiods
  calc U64.size ≤ 637 * 28999999995650000 := by decide
    _ = scheduled (637 * schedulePeriod) := hperiods.symm
    _ ≤ scheduled U64.size := scheduled_mono (by decide)

/-- The heights up to which the schedule stays within the mining allocation. -/
theorem scheduled_le_allocation_iff (n : ℕ) :
    scheduled n ≤ MINING_ALLOCATION.toNat ↔ n ≤ 31 * schedulePeriod + 20000 := by
  have hlast : scheduled (31 * schedulePeriod + 20000) = 31 * 28999999995650000 +
      20000 * 50000000000 := scheduled_mul_add (by decide) (by decide)
  have hover : scheduled (31 * schedulePeriod + 20001) = 31 * 28999999995650000 +
      20001 * 50000000000 := scheduled_mul_add (by decide) (by decide)
  have hallocation : MINING_ALLOCATION.toNat = 900000000000000000 := rfl
  constructor
  · intro h
    by_contra hgt
    have hle := scheduled_mono (show 31 * schedulePeriod + 20001 ≤ n by omega)
    omega
  · intro h
    have hle := scheduled_mono h
    omega

/-! ## The loop -/

/-- The loop adds the rewards that are left, and stays at the largest value once it is reached. -/
theorem minedLoop_eq_some (left : ℕ) {total height : UInt64}
    (h : height.toNat + left < U64.size) :
    ∃ s, minedLoop left total height = some s ∧
      s.toNat = min (total.toNat + ∑ i ∈ Finset.range left, rewardAt (height.toNat + i))
        (U64.size - 1) := by
  induction left generalizing total height with
  | zero =>
      have := U64.toNat_lt_size total
      refine ⟨total, rfl, ?_⟩
      rw [Finset.sum_range_zero]
      omega
  | succ left ih =>
      obtain ⟨next, hnext⟩ : ∃ next, U64.checkedAdd height 1 = some next := by
        rw [← Option.isSome_iff_exists, ← Option.ne_none_iff_isSome, Ne,
          U64.checkedAdd_eq_none_iff, UInt64.toNat_one]
        omega
      have hvalue : next.toNat = height.toNat + 1 := U64.checkedAdd_eq_some_iff.1 hnext
      have hleft : next.toNat + left < U64.size := by omega
      obtain ⟨s, hs, hsum⟩ :=
        @ih (U64.saturatingAdd total (calculateBlockReward height)) next hleft
      refine ⟨s, ?_, ?_⟩
      · rw [minedLoop, hnext]
        exact hs
      · have hshift : ∑ i ∈ Finset.range left, rewardAt (next.toNat + i) =
            ∑ i ∈ Finset.range left, rewardAt (height.toNat + (i + 1)) := by
          apply Finset.sum_congr rfl
          intro i _
          rw [hvalue, Nat.add_assoc, Nat.add_comm 1 i]
        rw [hsum, U64.toNat_saturatingAdd, hshift, Finset.sum_range_succ', Nat.add_zero,
          rewardAt_toNat]
        omega

/-- Below the last height the mined supply is what is scheduled, capped at the largest value. -/
theorem calculateMinedSupply_eq_some {epoch : UInt64} (h : epoch.toNat + 1 < U64.size) :
    ∃ s, calculateMinedSupply epoch = some s ∧
      s.toNat = min (scheduled (epoch.toNat + 1)) (U64.size - 1) := by
  have hfit : (0 : UInt64).toNat + (epoch.toNat + 1) < U64.size := by
    rw [UInt64.toNat_zero]
    omega
  obtain ⟨s, hs, hsum⟩ := @minedLoop_eq_some (epoch.toNat + 1) 0 0 hfit
  refine ⟨s, hs, ?_⟩
  rw [hsum, UInt64.toNat_zero, Nat.zero_add, scheduled]
  simp only [Nat.zero_add]

/-- A loop that has to count beyond the last height does not end. -/
theorem minedLoop_eq_none {left : ℕ} {total height : UInt64}
    (h : U64.size ≤ height.toNat + left) : minedLoop left total height = none := by
  induction left generalizing total height with
  | zero =>
      have := U64.toNat_lt_size height
      omega
  | succ left ih =>
      rw [minedLoop]
      rcases hnext : U64.checkedAdd height 1 with _ | next
      · rfl
      · have hvalue : next.toNat = height.toNat + 1 := U64.checkedAdd_eq_some_iff.1 hnext
        exact ih (by omega)

/-- The loop ends, with the exact sum of the rewards, and within the mining allocation. -/
def MinedWithinAllocation (height : UInt64) : Prop :=
  ∃ supply, calculateMinedSupply height = some supply ∧
    supply.toNat = ∑ i ∈ Finset.range (height.toNat + 1),
      (calculateBlockReward (UInt64.ofNat i)).toNat ∧
    supply ≤ MINING_ALLOCATION

/-- The mined supply is exact and within the allocation exactly for the heights before the 20001st
epoch of the 32nd run of the schedule. -/
theorem minedWithinAllocation_iff (height : UInt64) :
    MinedWithinAllocation height ↔ height.toNat < 31 * schedulePeriod + 20000 := by
  have hallocation := scheduled_le_allocation_iff (height.toNat + 1)
  rw [← Nat.add_one_le_iff, ← hallocation]
  constructor
  · rintro ⟨supply, -, hsum, hle⟩
    rw [UInt64.le_iff_toNat_le, hsum] at hle
    exact hle
  · intro hle
    have hlt : height.toNat + 1 < U64.size := by
      have hperiods : 31 * schedulePeriod + 20000 < U64.size := by decide
      exact (hallocation.1 hle).trans_lt hperiods
    obtain ⟨supply, hsupply, hvalue⟩ := calculateMinedSupply_eq_some hlt
    have hmax : MINING_ALLOCATION.toNat ≤ U64.size - 1 := by decide
    rw [min_eq_left (hle.trans hmax)] at hvalue
    refine ⟨supply, hsupply, hvalue, ?_⟩
    rw [UInt64.le_iff_toNat_le, hvalue]
    exact hle

/-- The 20001st epoch of the 32nd run of the schedule exceeds the allocation, and for the last
height of all the loop does not end. -/
theorem calculateMinedSupply_beyond_allocation :
    (∃ supply, calculateMinedSupply 38611755991060000 = some supply ∧
      MINING_ALLOCATION < supply) ∧ calculateMinedSupply U64.max = none := by
  refine ⟨?_, minedLoop_eq_none (by decide)⟩
  obtain ⟨supply, hsupply, hvalue⟩ := calculateMinedSupply_eq_some
    (show (38611755991060000 : UInt64).toNat + 1 < U64.size by decide)
  have hover : scheduled (31 * schedulePeriod + 20001) = 31 * 28999999995650000 +
      20001 * 50000000000 := scheduled_mul_add (by decide) (by decide)
  refine ⟨supply, hsupply, UInt64.lt_iff_toNat_lt.2 ?_⟩
  have hheight : (38611755991060000 : UInt64).toNat + 1 = 31 * schedulePeriod + 20001 := rfl
  rw [hvalue, hheight, hover]
  decide

end Kyvera
