import Kyvera.Storage.StateTrie
import Kyvera.Consensus.Coinbase

/-!
# Validator rewards and slashing

An epoch block pays its miner through the coinbase and, whoever mined it, every validator a share
of the collected fees in proportion to its weight.
-/

namespace Kyvera

open Effect

/-- Minor slashing: 1%, in basis points. -/
def MINOR_SLASH_BPS : UInt64 := 100

/-- Major slashing: 10%, in basis points. -/
def MAJOR_SLASH_BPS : UInt64 := 1000

/-- The active validators. -/
def getActiveValidatorSet : DbM (List Account) := getValidators

/-- The reward weight of a validator: its stake and its tier bonus. -/
def calculateValidatorWeight (account : Account) : UInt64 :=
  let bonusBps := (account.validatorTier.map ValidatorTier.rewardBonusBps).getD 0
  let bonus := U64.saturatingMul account.stakedBalance bonusBps / 10000
  U64.saturatingAdd account.stakedBalance bonus

/-- One validator's part of the pool.  The product and the quotient are taken in 128 bits. -/
def validatorShare (totalShare weight : UInt64) (totalWeight : ℕ) : UInt64 :=
  UInt64.ofNat (totalShare.toNat * weight.toNat / totalWeight)

/-- Pay every validator of the list its part and sum up what was paid. -/
def distributeLoop (totalShare : UInt64) (totalWeight : ℕ) :
    UInt64 → List (String × UInt64) → DbM UInt64
  | distributed, [] => pure distributed
  | distributed, (address, weight) :: rest => do
      let share := validatorShare totalShare weight totalWeight
      if share > 0 then do
        creditAccount address share
        distributeLoop totalShare totalWeight (U64.saturatingAdd distributed share) rest
      else
        distributeLoop totalShare totalWeight distributed rest

/-- Distribute the validators' share of the fees in proportion to their weights; the result is
what was actually distributed. -/
def distributeValidatorRewards (totalShare : UInt64) : DbM UInt64 :=
  if totalShare = 0 then pure 0
  else do
    let validators ← getActiveValidatorSet
    if validators.isEmpty then pure 0
    else
      let weights := validators.map fun v => (v.address, calculateValidatorWeight v)
      let totalWeight := (weights.map fun e => e.2.toNat).sum
      if totalWeight = 0 then pure 0
      else distributeLoop totalShare totalWeight 0 weights

/-- Apply the rewards of an epoch block: the coinbase, then the validators' share of the fees.
What is not distributed goes to the treasury. -/
def applyEpochRewards (coinbase : Transaction) (totalFeesCollected : UInt64) : DbM Unit := do
  applyCoinbase coinbase 0
  let validatorShare ← Prog.orPanic (calculateValidatorFeeShare totalFeesCollected)
  let distributed ← distributeValidatorRewards validatorShare
  let leftover := U64.saturatingSub validatorShare distributed
  creditNonzero TREASURY_ADDRESS leftover

/-- Slash a stake by the given basis points; the slashed amount goes to the treasury. -/
def slashValidator (address : String) (slashBps : UInt64) : DbM UInt64 := do
  let account ← Prog.okOr s!"No account found for {address}" (← getAccount address)
  if account.stakedBalance = 0 then
    .err s!"{address} has no staked balance to slash"
  else do
    let slashAmount := U64.saturatingMul account.stakedBalance slashBps / 10000
    if slashAmount = 0 then pure 0
    else do
      -- A slash above 10,000 basis points takes more than the stake: the subtraction overflows.
      let stakedBalance ← Prog.orPanic (U64.checkedSub account.stakedBalance slashAmount)
      saveAccount { account with stakedBalance := stakedBalance }.updateValidatorTier
      creditAccount TREASURY_ADDRESS slashAmount
      return slashAmount

end Kyvera
