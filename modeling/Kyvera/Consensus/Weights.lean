import Kyvera.Consensus.Validators
import Kyvera.Consensus.Genesis

/-!
# The weight of a validator

The bonus of a validator is computed in 64 bits: the product of the stake and the basis points is
capped, and then divided.  So a validator with a large stake has the bonus of a smaller one.
-/

namespace Kyvera

/-! ## The full bonus -/

/-- The bonus of an account in basis points, which is none without a tier. -/
def Account.bonusBps (a : Account) : UInt64 :=
  (a.validatorTier.map ValidatorTier.rewardBonusBps).getD 0

/-- The stake with the bonus of its tier, computed exactly. -/
def Account.fullWeight (a : Account) : ℕ :=
  a.stakedBalance.toNat + a.stakedBalance.toNat * a.bonusBps.toNat / 10000

/-- The smallest stake whose bonus is cut short. -/
def cutBonusStake : UInt64 := 5270498306774160

/-- The weight carries the full bonus of its tier. -/
def Account.HasFullWeight (a : Account) : Prop :=
  (calculateValidatorWeight a).toNat = a.fullWeight

/-- The weights of two accounts are in the proportion of their stakes, up to the rounding of the
two bonuses. -/
def Account.Proportional (a b : Account) : Prop :=
  (calculateValidatorWeight a).toNat * b.stakedBalance.toNat ≤
    (calculateValidatorWeight b).toNat * a.stakedBalance.toNat + a.stakedBalance.toNat

section Weight

variable {a b : Account}

/-- An account with the tier of its stake that has less than 25,000 KYV at stake has a bonus of at
most 15%. -/
theorem bonusBps_le_or_nexus
    (htier : a.validatorTier = ValidatorTier.fromStakedBalance a.stakedBalance) :
    (a.bonusBps.toNat ≤ 1500 ∧ a.stakedBalance.toNat < 25000000000000) ∨
      a.bonusBps.toNat = 3500 := by
  unfold Account.bonusBps
  rw [htier, ValidatorTier.fromStakedBalance]
  split_ifs with hnexus hkinetic higniter
  · exact Or.inr rfl
  all_goals
    rw [UInt64.le_iff_toNat_le, Nat.not_le] at hnexus
    exact Or.inl ⟨by decide, hnexus⟩

theorem toNat_calculateValidatorWeight (hsupply : a.stakedBalance ≤ TOTAL_SUPPLY) :
    (calculateValidatorWeight a).toNat =
      a.stakedBalance.toNat + (U64.saturatingMul a.stakedBalance a.bonusBps / 10000).toNat := by
  have hstake : a.stakedBalance.toNat ≤ 1500000000000000000 := UInt64.le_iff_toNat_le.1 hsupply
  have hbonus : (U64.saturatingMul a.stakedBalance a.bonusBps / 10000).toNat <
      1844674407370956 := by
    have hmax : (U64.saturatingMul a.stakedBalance a.bonusBps).toNat < 18446744073709551616 :=
      U64.toNat_lt_size _
    have hbps : (10000 : UInt64).toNat = 10000 := rfl
    rw [UInt64.toNat_div, hbps]
    omega
  show (U64.saturatingAdd _ (U64.saturatingMul a.stakedBalance a.bonusBps / 10000)).toNat = _
  rw [U64.toNat_saturatingAdd]
  unfold U64.size
  omega

theorem proportional_of_full (ha : a.HasFullWeight) (hb : b.HasFullWeight)
    (htier : a.validatorTier = b.validatorTier) : a.Proportional b := by
  unfold Account.Proportional
  rw [ha, hb, Account.fullWeight, Account.fullWeight, Account.bonusBps, Account.bonusBps, htier]
  generalize ((b.validatorTier.map ValidatorTier.rewardBonusBps).getD 0).toNat = bps
  generalize a.stakedBalance.toNat = stake
  generalize b.stakedBalance.toNat = other
  have hfloor : stake * bps / 10000 * 10000 ≤ stake * bps := Nat.div_mul_le_self _ _
  have hceil : other * bps < (other * bps / 10000 + 1) * 10000 :=
    Nat.lt_mul_of_div_lt (Nat.lt_succ_self _) (by decide)
  have hleft := Nat.mul_le_mul_right other hfloor
  have hright := Nat.mul_le_mul_right stake hceil.le
  nlinarith

/-- Within the supply, and with the tier of its stake, an account has a weight with the full bonus
exactly below the cut. -/
theorem hasFullWeight_iff (hsupply : a.stakedBalance ≤ TOTAL_SUPPLY)
    (htier : a.validatorTier = ValidatorTier.fromStakedBalance a.stakedBalance) :
    a.HasFullWeight ↔ a.stakedBalance < cutBonusStake := by
  have hexact := U64.toNat_saturatingMul_div_eq_iff (a := a.stakedBalance) (b := a.bonusBps)
    (d := 10000) (by decide)
  have hcut : cutBonusStake.toNat = 5270498306774160 := rfl
  have hcap : ((U64.size - 1) / (10000 : UInt64).toNat + 1) * (10000 : UInt64).toNat =
      18446744073709560000 := rfl
  unfold Account.HasFullWeight
  rw [toNat_calculateValidatorWeight hsupply, Account.fullWeight, Nat.add_right_inj]
  refine hexact.trans ?_
  rw [hcap, UInt64.lt_iff_toNat_lt, hcut]
  rcases bonusBps_le_or_nexus htier with ⟨hbps, hstake⟩ | hbps
  · have hproduct := Nat.mul_le_mul hstake.le hbps
    exact iff_of_true (by omega) (by omega)
  · rw [hbps]
    omega

/-- Within the supply, and with the tier of its stake, an account has a weight with the full bonus
exactly below the cut; and below it the weights of two accounts of one tier are in the proportion
of their stakes. -/
theorem calculateValidatorWeight_full_iff (hsupply : a.stakedBalance ≤ TOTAL_SUPPLY)
    (htier : a.validatorTier = ValidatorTier.fromStakedBalance a.stakedBalance) :
    (a.HasFullWeight ↔ a.stakedBalance < cutBonusStake) ∧
      ∀ b : Account, b.stakedBalance ≤ TOTAL_SUPPLY →
        b.validatorTier = ValidatorTier.fromStakedBalance b.stakedBalance →
        a.validatorTier = b.validatorTier → a.stakedBalance < cutBonusStake →
        b.stakedBalance < cutBonusStake → a.Proportional b := by
  refine ⟨hasFullWeight_iff hsupply htier, fun b hsupply' htier' hsame ha hb => ?_⟩
  exact proportional_of_full ((hasFullWeight_iff hsupply htier).2 ha)
    ((hasFullWeight_iff hsupply' htier').2 hb) hsame

end Weight

/-- A validator with the given stake, and its tier. -/
def stakedValidator (stake : UInt64) : Account :=
  { Account.new "kyv1v" with stakedBalance := stake }.updateValidatorTier

/-- The smallest stake of the top tier has its bonus of 35%, in proportion to a stake of twice the
size. -/
theorem calculateValidatorWeight_full_smallest_nexus :
    (stakedValidator 25000000000000).HasFullWeight ∧
      (stakedValidator 25000000000000).Proportional (stakedValidator 50000000000000) := by
  have h := calculateValidatorWeight_full_iff (a := stakedValidator 25000000000000)
    (by decide) (by decide)
  exact ⟨h.1.2 (by decide), h.2 (stakedValidator 50000000000000) (by decide) (by decide)
    (by decide) (by decide) (by decide)⟩

/-- Ten million KYV have a bonus of less than 19%, and a hundred times as many have the same
bonus. -/
theorem calculateValidatorWeight_cut :
    (stakedValidator 10000000000000000).stakedBalance ≤ TOTAL_SUPPLY ∧
      (stakedValidator 10000000000000000).fullWeight = 13500000000000000 ∧
      calculateValidatorWeight (stakedValidator 10000000000000000) = 11844674407370955 ∧
      calculateValidatorWeight (stakedValidator 1000000000000000000) = 1001844674407370955 ∧
      ¬ (stakedValidator 10000000000000000).HasFullWeight ∧
      ¬ (stakedValidator 10000000000000000).Proportional
        (stakedValidator 1000000000000000000) := by
  refine ⟨by decide, by decide, by decide, by decide, ?_, ?_⟩
  · unfold Account.HasFullWeight
    decide
  · unfold Account.Proportional
    decide

end Kyvera
