import Kyvera.Types.Transaction
import Kyvera.Library.Checked

/-!
# The fee system

Minimum fees, and the split of a collected fee into its burned, validator and treasury parts.
Products and sums are checked: `none` is an overflow, a panic.
-/

namespace Kyvera

/-- Minimum fees, in units of KYV. -/
def FEE_TRANSFER : UInt64 := 1000000

def FEE_CONTRACT_CALL : UInt64 := 5000000

def FEE_CONTRACT_DEPLOY : UInt64 := 100000000

def FEE_STAKE_LOCK : UInt64 := 1000000

def FEE_STAKE_UNLOCK : UInt64 := 1000000

/-- Shares of a fee in basis points: half is burned, 40% is for validators, 10% for the
treasury. -/
def BURN_SHARE_BPS : UInt64 := 5000

def VALIDATOR_SHARE_BPS : UInt64 := 4000

def TREASURY_SHARE_BPS : UInt64 := 1000

/-- The minimum fee of a transaction type. -/
def minimumFee : TransactionType → UInt64
  | .transfer => FEE_TRANSFER
  | .contractCall => FEE_CONTRACT_CALL
  | .contractDeploy => FEE_CONTRACT_DEPLOY
  | .stakeLock => FEE_STAKE_LOCK
  | .stakeUnlock => FEE_STAKE_UNLOCK

/-- Whether a transaction pays at least the minimum fee of its type. -/
def feeIsSufficient (tx : Transaction) : Bool := tx.fee ≥ minimumFee tx.transactionType

/-- A share of a fee, given in basis points. -/
def feeShare (bps fee : UInt64) : Option UInt64 := (U64.checkedMul fee bps).map (· / 10000)

def calculateBurnAmount (fee : UInt64) : Option UInt64 := feeShare BURN_SHARE_BPS fee

def calculateValidatorAmount (fee : UInt64) : Option UInt64 := feeShare VALIDATOR_SHARE_BPS fee

def calculateTreasuryAmount (fee : UInt64) : Option UInt64 := feeShare TREASURY_SHARE_BPS fee

/-- The burned, validator and treasury parts of a fee.  Rounding dust is burned. -/
def calculateFeeSplit (fee : UInt64) : Option (UInt64 × UInt64 × UInt64) := do
  let burn ← calculateBurnAmount fee
  let validator ← calculateValidatorAmount fee
  let treasury ← calculateTreasuryAmount fee
  let dust := U64.saturatingSub (U64.saturatingSub (U64.saturatingSub fee burn) validator) treasury
  return (← U64.checkedAdd burn dust, validator, treasury)

/-- All fees of a list of transactions. -/
def totalFees (transactions : List Transaction) : Option UInt64 :=
  transactions.foldlM (fun sum tx => U64.checkedAdd sum tx.fee) 0

/-- The sum that `totalFees` computes, as a natural number. -/
def feeSum (transactions : List Transaction) : ℕ := (transactions.map fun tx => tx.fee.toNat).sum

theorem foldlM_fee_eq_some_iff {txs : List Transaction} {start total : UInt64} :
    txs.foldlM (fun sum tx => U64.checkedAdd sum tx.fee) start = some total ↔
      total.toNat = start.toNat + feeSum txs := by
  induction txs generalizing start with
  | nil => simp [feeSum, ← UInt64.toNat_inj, eq_comm]
  | cons tx rest ih =>
      have step : feeSum (tx :: rest) = tx.fee.toNat + feeSum rest := rfl
      rw [List.foldlM_cons, step]
      rcases h : U64.checkedAdd start tx.fee with _ | mid
      · have hover := U64.checkedAdd_eq_none_iff.1 h
        have := U64.toNat_lt_size total
        simp only [Option.bind_eq_bind, Option.bind_none, reduceCtorEq, false_iff]
        omega
      · have hmid := U64.checkedAdd_eq_some_iff.1 h
        rw [Option.bind_eq_bind, Option.bind_some, ih, hmid, Nat.add_assoc]

/-- The fees of a list add up to `total` as natural numbers, without overflow on the way. -/
theorem totalFees_eq_some_iff {txs : List Transaction} {total : UInt64} :
    totalFees txs = some total ↔ total.toNat = feeSum txs := by
  rw [totalFees, foldlM_fee_eq_some_iff]
  simp

end Kyvera
