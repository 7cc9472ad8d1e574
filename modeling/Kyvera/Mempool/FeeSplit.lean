import Kyvera.Mempool.Fees
import Kyvera.Consensus.Coinbase
import Kyvera.Storage.StateTrie
import Kyvera.Consensus.Genesis

/-!
# The three computations of the fee split

The split of a fee is computed in basis points, the validators' share once more in percent, and the
share of the treasury once more as a tenth.  Where no product leaves 64 bits, they agree and the
parts add up to the fee.  Of the products, that for the burned half is the largest.
-/

namespace Kyvera

open Effect

section Split

variable {bps fee share burn validator treasury : UInt64}

theorem feeShare_eq_some_iff :
    feeShare bps fee = some share ↔
      fee.toNat * bps.toNat < U64.size ∧ share.toNat = fee.toNat * bps.toNat / 10000 := by
  rw [feeShare, U64.checkedMul_map_div_eq_some_iff]
  rfl

/-- A fee is split if its product for the burned half fits.  The burned part is what the other two
leave over. -/
theorem calculateFeeSplit_eq_some_iff :
    calculateFeeSplit fee = some (burn, validator, treasury) ↔
      fee.toNat * BURN_SHARE_BPS.toNat < U64.size ∧
      validator.toNat = 4 * fee.toNat / 10 ∧ treasury.toNat = fee.toNat / 10 ∧
      burn.toNat = fee.toNat - validator.toNat - treasury.toNat := by
  have hburn : BURN_SHARE_BPS.toNat = 5000 := rfl
  have hvalidator : VALIDATOR_SHARE_BPS.toNat = 4000 := rfl
  have htreasury : TREASURY_SHARE_BPS.toNat = 1000 := rfl
  unfold calculateFeeSplit calculateBurnAmount calculateValidatorAmount calculateTreasuryAmount
  simp only [Option.bind_eq_bind, Option.bind_eq_some_iff, feeShare_eq_some_iff,
    U64.checkedAdd_eq_some_iff, U64.toNat_saturatingSub, Option.pure_def, Option.some_inj,
    Prod.mk.injEq, hburn, hvalidator, htreasury]
  constructor
  · rintro ⟨half, ⟨hfit, hhalf⟩, _, ⟨-, hv⟩, _, ⟨-, ht⟩, _, hb, rfl, rfl, rfl⟩
    refine ⟨hfit, ?_, ?_, ?_⟩ <;> omega
  · rintro ⟨hfit, hv, ht, hb⟩
    have hlt : fee.toNat * 5000 / 10000 < U64.size := (Nat.div_le_self _ _).trans_lt hfit
    obtain ⟨half, hhalf⟩ := U64.exists_toNat_eq hlt
    refine ⟨half, ⟨hfit, hhalf⟩, validator, ⟨?_, ?_⟩, treasury, ⟨?_, ?_⟩, burn, ?_, rfl, rfl, rfl⟩
    · exact (Nat.mul_le_mul_left _ (by decide)).trans_lt hfit
    · omega
    · exact (Nat.mul_le_mul_left _ (by decide)).trans_lt hfit
    · omega
    · omega

end Split

/-- The three parts of a fee are the exact ones, they add up to the fee, the burned part is the
largest, and the other computations of the split arrive at the same parts. -/
structure ExactSplit (fee burn validator treasury : UInt64) : Prop where
  forty : validator.toNat = 4 * fee.toNat / 10
  ten : treasury.toNat = fee.toNat / 10
  rest : burn.toNat = fee.toNat - validator.toNat - treasury.toNat
  sum : burn.toNat + validator.toNat + treasury.toNat = fee.toNat
  validator_le : validator ≤ burn
  treasury_le : treasury ≤ validator
  share : calculateValidatorFeeShare fee = some validator
  credited : ∀ (db db' : KyveraDb) (u : Unit), (applyFeeSplit fee).run db = (.ok u, db') ↔
    (db.account TREASURY_ADDRESS).Room treasury ∧ db' = db.pay TREASURY_ADDRESS treasury

/-- The fee split is computed without overflow, and exactly, for the fees whose product for the
burned half fits into 64 bits, and for no others. -/
theorem calculateFeeSplit_exact_iff (fee : UInt64) :
    (∃ burn validator treasury, calculateFeeSplit fee = some (burn, validator, treasury) ∧
      ExactSplit fee burn validator treasury) ↔
      fee.toNat * BURN_SHARE_BPS.toNat < U64.size := by
  constructor
  · rintro ⟨burn, validator, treasury, hsplit, -⟩
    exact (calculateFeeSplit_eq_some_iff.1 hsplit).1
  · intro hfit
    have hvalue : ∀ n, n ≤ fee.toNat → ∃ part : UInt64, part.toNat = n := by
      intro n hn
      exact U64.exists_toNat_eq (hn.trans_lt (U64.toNat_lt_size fee))
    have hburn : BURN_SHARE_BPS.toNat = 5000 := rfl
    obtain ⟨validator, hv⟩ := hvalue (4 * fee.toNat / 10) (by omega)
    obtain ⟨treasury, ht⟩ := hvalue (fee.toNat / 10) (by omega)
    obtain ⟨burn, hb⟩ := hvalue (fee.toNat - validator.toNat - treasury.toNat) (by omega)
    have htenth : fee / 10 = treasury := by
      rw [← UInt64.toNat_inj, ht, UInt64.toNat_div]
      rfl
    refine ⟨burn, validator, treasury, calculateFeeSplit_eq_some_iff.2 ⟨hfit, hv, ht, hb⟩, ?_⟩
    refine ⟨hv, ht, hb, by omega, ?_, ?_, ?_, ?_⟩
    · rw [UInt64.le_iff_toNat_le]
      omega
    · rw [UInt64.le_iff_toNat_le]
      omega
    · rw [hburn] at hfit
      rw [calculateValidatorFeeShare_eq_some_iff]
      omega
    · intro db db' u
      rw [applyFeeSplit, htenth]
      exact run_creditNonzero_eq_ok_iff

/-- Four million KYV are within the supply, but the split of such a fee overflows. -/
theorem calculateFeeSplit_four_million :
    (4000000000000000 : UInt64) ≤ TOTAL_SUPPLY ∧
      calculateFeeSplit 4000000000000000 = none ∧
      calculateValidatorFeeShare 4000000000000000 = some 1600000000000000 := by
  decide

end Kyvera
