import Kyvera.Storage.AccountStore

/-!
# Stake unlock timelock

A requested withdrawal leaves the staked balance at once and reaches the spendable balance when
its unlock epoch is processed.  Until then it is a record in the metadata tree.
-/

namespace Kyvera

open Effect Std

/-- Epoch blocks a withdrawal must wait. -/
def UNBONDING_PERIOD_EPOCHS : UInt64 := 10

/-- Prefix of the keys of pending withdrawals. -/
def PENDING_UNSTAKE_PREFIX : String := "pending_unstake:"

/-- The key under which a pending withdrawal is stored. -/
def pendingUnstakeKey (pending : PendingUnstake) : String :=
  PENDING_UNSTAKE_PREFIX ++ pad20 pending.unlockEpoch ++ ":" ++ pending.address ++ ":" ++
    pad20 pending.requestEpoch

/-- Store a pending withdrawal. -/
def savePendingUnstake (pending : PendingUnstake) : DbM Unit :=
  KyveraDb.setMetadata (pendingUnstakeKey pending) (.pendingUnstake pending)

/-- Begin unbonding. -/
def requestUnstake (address : String) (amount currentEpoch : UInt64) : DbM PendingUnstake := do
  let account ← Prog.okOr s!"No account found for {address}" (← getAccount address)
  if account.stakedBalance < amount then
    .err s!"Insufficient staked balance: has {account.stakedBalance} needs {amount}"
  else do
    saveAccount { account with stakedBalance := account.stakedBalance - amount }.updateValidatorTier
    let unlockEpoch ← Prog.orPanic (U64.checkedAdd currentEpoch UNBONDING_PERIOD_EPOCHS)
    let pending : PendingUnstake :=
      { address := address, amount := amount, requestEpoch := currentEpoch,
        unlockEpoch := unlockEpoch }
    savePendingUnstake pending
    return pending

/-- Decode a metadata value as a pending withdrawal. -/
def MetaEntry.decodePending : MetaEntry → Option PendingUnstake
  | .pendingUnstake p => some p
  | _ => none

/-- All pending withdrawals of an address, matured or not. -/
def getPendingUnstakes (address : String) : DbM (List PendingUnstake) := do
  let db ← Prog.get
  let pending ← (scanPrefix db.metadata PENDING_UNSTAKE_PREFIX).mapM fun e =>
    Prog.okOr "Deserialize error" e.2.decodePending
  return pending.filter (·.address = address)

/-- The scan of `processMaturedUnstakes`: credit every matured withdrawal and collect its key. -/
def maturedLoop (currentEpoch : UInt64) :
    UInt64 → List String → List (String × MetaEntry) → DbM (UInt64 × List String)
  | totalProcessed, keysToRemove, [] => pure (totalProcessed, keysToRemove)
  | totalProcessed, keysToRemove, (key, value) :: rest => do
      let pending ← Prog.okOr "Deserialize error" value.decodePending
      if pending.unlockEpoch ≤ currentEpoch then do
        creditAccount pending.address pending.amount
        maturedLoop currentEpoch (U64.saturatingAdd totalProcessed pending.amount)
          (keysToRemove ++ [key]) rest
      else
        maturedLoop currentEpoch totalProcessed keysToRemove rest

/-- Remove a metadata entry. -/
def removeMetadata (key : String) : DbM Unit :=
  Prog.set (fun db => { db with metadata := db.metadata.erase key })
    "Failed to remove pending unstake entry"

/-- Process every withdrawal that has reached its unlock epoch. -/
def processMaturedUnstakes (currentEpoch : UInt64) : DbM UInt64 := do
  let db ← Prog.get
  -- The accounts are another tree than the one being scanned, so the entries are fixed.
  let (totalProcessed, keysToRemove) ←
    maturedLoop currentEpoch 0 [] (scanPrefix db.metadata PENDING_UNSTAKE_PREFIX)
  keysToRemove.forM removeMetadata
  return totalProcessed

end Kyvera
