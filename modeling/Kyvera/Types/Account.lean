import Kyvera.Library.Checked

/-!
# Accounts and validator tiers

Amounts are in the smallest unit of KYV, as 64-bit integers.
-/

namespace Kyvera

/-- The three validator tiers. -/
inductive ValidatorTier where
  | igniter
  | kinetic
  | nexus
  deriving DecidableEq, Repr

namespace ValidatorTier

/-- Minimum stake of a tier: 500, 5,000 and 25,000 KYV. -/
def minimumStake : ValidatorTier → UInt64
  | igniter => 500000000000
  | kinetic => 5000000000000
  | nexus => 25000000000000

/-- Reward bonus of a tier in basis points. -/
def rewardBonusBps : ValidatorTier → UInt64
  | igniter => 0
  | kinetic => 1500
  | nexus => 3500

/-- The tier that a stake qualifies for. -/
def fromStakedBalance (staked : UInt64) : Option ValidatorTier :=
  if nexus.minimumStake ≤ staked then some nexus
  else if kinetic.minimumStake ≤ staked then some kinetic
  else if igniter.minimumStake ≤ staked then some igniter
  else none

end ValidatorTier

/-- The state of one address. -/
structure Account where
  address : String
  balance : UInt64
  stakedBalance : UInt64
  nonce : UInt64
  validatorTier : Option ValidatorTier
  isContract : Bool
  lastRewardEpoch : UInt64
  deriving DecidableEq, Repr

namespace Account

/-- A fresh account with zero balance. -/
def new (address : String) : Account where
  address := address
  balance := 0
  stakedBalance := 0
  nonce := 0
  validatorTier := none
  isContract := false
  lastRewardEpoch := 0

/-- Re-evaluate the validator tier from the current stake. -/
def updateValidatorTier (account : Account) : Account :=
  { account with validatorTier := ValidatorTier.fromStakedBalance account.stakedBalance }

/-- An account is a validator while it holds a tier. -/
def isValidator (account : Account) : Bool := account.validatorTier.isSome

@[simp] theorem address_new (x : String) : (new x).address = x := rfl

@[simp] theorem address_updateValidatorTier (a : Account) :
    a.updateValidatorTier.address = a.address := rfl

@[simp] theorem balance_updateValidatorTier (a : Account) :
    a.updateValidatorTier.balance = a.balance := rfl

@[simp] theorem stakedBalance_updateValidatorTier (a : Account) :
    a.updateValidatorTier.stakedBalance = a.stakedBalance := rfl

@[simp] theorem nonce_updateValidatorTier (a : Account) :
    a.updateValidatorTier.nonce = a.nonce := rfl

/-- Everything an account owns: its spendable and its staked balance. -/
def holding (account : Account) : ℕ := account.balance.toNat + account.stakedBalance.toNat

@[simp] theorem holding_new (x : String) : (new x).holding = 0 := rfl

@[simp] theorem holding_updateValidatorTier (a : Account) :
    a.updateValidatorTier.holding = a.holding := rfl

end Account

end Kyvera
