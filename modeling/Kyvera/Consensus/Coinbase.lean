import Kyvera.Chain.Mining
import Kyvera.Storage.AccountStore

/-!
# The coinbase transaction

The one transaction of an epoch block that mints: it pays the miner the block reward of the
emission schedule and is recognised by its sender.
-/

namespace Kyvera

open Effect

/-- The sentinel address in the sender field of every coinbase. -/
def COINBASE_SENDER : String :=
  "kyv10000000000000000000000000000000000000000000000000000coinbase0"

/-- The bytes from which the hash of a coinbase is derived. -/
def coinbaseInput (blockHash : String) (epochBlockHeight : UInt64) : ByteArray :=
  ("coinbase:" ++ blockHash ++ ":" ++ toString epochBlockHeight).toUTF8

/-- The coinbase of an epoch block; `now` is the reading of the clock. -/
def buildCoinbase (H : Sha3) (now : ℤ) (minerAddress : String) (epochBlockHeight : UInt64)
    (blockHash : String) : Transaction :=
  { Transaction.new now COINBASE_SENDER minerAddress (calculateBlockReward epochBlockHeight) 0
      epochBlockHeight .transfer [] with
    hash := H.sha3256Hex (coinbaseInput blockHash epochBlockHeight)
    signature := "coinbase" }

/-- Credit the miner with the reward, and with a share of the fees. -/
def applyCoinbase (coinbase : Transaction) (validatorFeeShare : UInt64) : DbM Unit :=
  if coinbase.sender ≠ COINBASE_SENDER then
    .err "Not a coinbase transaction"
  else do
    creditNonzero coinbase.receiver coinbase.amount
    creditNonzero coinbase.receiver validatorFeeShare

/-- The validators' 40% of the collected fees; `none` is the overflow of the product, a panic. -/
def calculateValidatorFeeShare (totalFeesCollected : UInt64) : Option UInt64 :=
  (U64.checkedMul totalFeesCollected 40).map (· / 100)

/-- Whether a coinbase is the right one for an epoch block. -/
def verifyCoinbase (H : Sha3) (coinbase : Transaction) (epochBlockHeight : UInt64)
    (blockHash : String) : Bool :=
  if coinbase.sender ≠ COINBASE_SENDER then false
  else
    let expectedReward := calculateBlockReward epochBlockHeight
    if coinbase.amount ≠ expectedReward then false
    else if coinbase.nonce ≠ epochBlockHeight then false
    else
      let expectedHash := H.sha3256Hex (coinbaseInput blockHash epochBlockHeight)
      if coinbase.hash ≠ expectedHash then false else true

/-- The loop of `calculateMinedSupply` from `height` on, with as many heights as are left; `none` is
the overflow of the height, a panic. -/
def minedLoop : ℕ → UInt64 → UInt64 → Option UInt64
  | 0, total, _ => some total
  | left + 1, total, height => do
      let next ← U64.checkedAdd height 1
      minedLoop left (U64.saturatingAdd total (calculateBlockReward height)) next

/-- How much has been minted through mining, up to and including the given epoch height. -/
def calculateMinedSupply (epochBlockHeight : UInt64) : Option UInt64 :=
  minedLoop (epochBlockHeight.toNat + 1) 0 0

/-- A verified coinbase carries the sentinel, the scheduled reward and the derived hash. -/
theorem verifyCoinbase_eq_true_iff (H : Sha3) (coinbase : Transaction) (epochBlockHeight : UInt64)
    (blockHash : String) :
    verifyCoinbase H coinbase epochBlockHeight blockHash = true ↔
      coinbase.sender = COINBASE_SENDER ∧
      coinbase.amount = calculateBlockReward epochBlockHeight ∧
      coinbase.nonce = epochBlockHeight ∧
      coinbase.hash = H.sha3256Hex (coinbaseInput blockHash epochBlockHeight) := by
  simp [verifyCoinbase]

theorem calculateValidatorFeeShare_eq_some_iff {fees share : UInt64} :
    calculateValidatorFeeShare fees = some share ↔
      40 * fees.toNat < U64.size ∧ share.toNat = 40 * fees.toNat / 100 := by
  rw [calculateValidatorFeeShare, U64.checkedMul_map_div_eq_some_iff, Nat.mul_comm]
  rfl

end Kyvera
