import Kyvera.Storage.AccountStore
import Kyvera.Chain.Hash
import Kyvera.Types.Json

/-!
# The state trie

The state root commits to all accounts; snapshots let a node take a block back; and
`applyTransaction` is the state transition of a single transaction.  A transaction that fails
after its first save leaves that save behind.
-/

namespace Kyvera

open Effect Std

/-! ## The state root -/

/-- Key of the current state root in the metadata. -/
def STATE_ROOT_KEY : String := "state_root"

/-- Key of the number of stored snapshots in the metadata. -/
def SNAPSHOT_COUNT_KEY : String := "snapshot_count"

/-- The bytes hashed for the root of an empty state. -/
def emptyStateInput : ByteArray := "kyvera-empty-state".toUTF8

/-- The bytes hashed for one account: its address, then its JSON. -/
def accountInput (e : String × Account) : ByteArray := (e.1 ++ accountJson e.2).toUTF8

/-- The bytes hashed for a non-empty state: the sorted account hashes, joined. -/
def joinedInput (accountHashes : List String) : ByteArray :=
  (String.join (accountHashes.mergeSort (· ≤ ·))).toUTF8

/-- The state root of the current accounts. -/
def computeStateRoot (H : Sha3) : DbM String := do
  let db ← Prog.get
  let accountHashes := db.accounts.toList.map fun e => H.sha3256Hex (accountInput e)
  if accountHashes.isEmpty then
    return H.sha3256Hex emptyStateInput
  else
    return H.sha3256Hex (joinedInput accountHashes)

/-- Save the current state root. -/
def saveStateRoot (root : String) : DbM Unit := KyveraDb.setMetadata STATE_ROOT_KEY (.text root)

/-- Load the most recently committed state root. -/
def loadStateRoot : DbM (Option String) := do
  match ← KyveraDb.getMetadata STATE_ROOT_KEY with
  | none => return none
  | some (.text root) => return some root
  | some _ => .err "Invalid state root bytes"

/-! ## Snapshots -/

/-- Take a snapshot of the accounts a block will modify, before the block is applied. -/
def takeSnapshot (H : Sha3) (blockHeight : UInt64) (affectedAddresses : List String) :
    DbM StateSnapshot := do
  let currentRoot := (← loadStateRoot).getD (H.sha3256Hex emptyStateInput)
  let modifiedAccounts ← affectedAddresses.mapM fun address => do
    return (address, ← getAccount address)
  return { blockHeight, stateRoot := currentRoot, modifiedAccounts }

/-- The number of stored snapshots.  Only a text is a number: the other values of the metadata tree
are JSON objects. -/
def getSnapshotCount : DbM UInt64 := do
  match ← KyveraDb.getMetadata SNAPSHOT_COUNT_KEY with
  | none => return 0
  | some (.text s) =>
      match Text.parseUInt64 s with
      | .ok count => return count
      | .error e => .err s!"Invalid snapshot count format: {e}"
  | some _ => .err "Invalid snapshot count format: invalid digit found in string"

/-- The key of a stored snapshot. -/
def snapshotKey (count : UInt64) : String := "snapshot:" ++ pad20 count

/-- Save a snapshot to the database. -/
def saveSnapshot (snapshot : StateSnapshot) : DbM Unit := do
  let count ← getSnapshotCount
  KyveraDb.setMetadata (snapshotKey count) (.snapshot snapshot)
  -- The count is written back as it was read.
  KyveraDb.setMetadata SNAPSHOT_COUNT_KEY (.text (toString count))

/-- Put one account of a snapshot back: its old state, or nothing if it did not exist. -/
def restoreAccount (address : String) : Option Account → DbM Unit
  | some account => saveAccount account
  | none => Prog.set (fun db => { db with accounts := db.accounts.erase address }) "Delete failed"

/-- Roll back the state to a snapshot. -/
def rollbackToSnapshot (snapshot : StateSnapshot) : DbM Unit := do
  snapshot.modifiedAccounts.forM fun (address, preState) => restoreAccount address preState
  saveStateRoot snapshot.stateRoot

/-! ## Transactions -/

/-- The address that receives a tenth of every fee. -/
def TREASURY_ADDRESS : String :=
  "kyv10000000000000000000000000000000000000000000000000000treasury00"

/-- Credit the treasury with its tenth of a fee. -/
def applyFeeSplit (fee : UInt64) : DbM Unit :=
  let treasuryShare := fee / 10
  creditNonzero TREASURY_ADDRESS treasuryShare

def applyTransfer (tx : Transaction) : DbM Unit := do
  let sender ← getOrCreateAccount tx.sender
  let totalCost ← Prog.okOr "Transaction cost overflow" (U64.checkedAdd tx.amount tx.fee)
  if sender.balance < totalCost then
    .err s!"Insufficient balance: {tx.sender} has {sender.balance} but needs {totalCost}"
  else if sender.nonce ≠ tx.nonce then
    .err s!"Nonce mismatch: expected {sender.nonce} got {tx.nonce}"
  else do
    let nonce ← Prog.orPanic (U64.checkedAdd sender.nonce 1)
    saveAccount { sender with balance := sender.balance - totalCost, nonce := nonce }
    -- The receiver is read after the sender was saved: they may be the same account.
    let receiver ← getOrCreateAccount tx.receiver
    let balance ← Prog.okOr "Receiver balance overflow" (U64.checkedAdd receiver.balance tx.amount)
    saveAccount { receiver with balance := balance }
    applyFeeSplit tx.fee

def applyStakeLock (tx : Transaction) : DbM Unit := do
  let account ← getOrCreateAccount tx.sender
  let totalCost ← Prog.okOr "Stake cost overflow" (U64.checkedAdd tx.amount tx.fee)
  if account.balance < totalCost then
    .err s!"Insufficient balance to stake: has {account.balance} needs {totalCost}"
  else if account.nonce ≠ tx.nonce then
    .err s!"Nonce mismatch: expected {account.nonce} got {tx.nonce}"
  else do
    let stakedBalance ← Prog.okOr "Staked balance overflow"
      (U64.checkedAdd account.stakedBalance tx.amount)
    let nonce ← Prog.orPanic (U64.checkedAdd account.nonce 1)
    saveAccount { account with
      balance := account.balance - totalCost
      stakedBalance := stakedBalance
      nonce := nonce }.updateValidatorTier
    applyFeeSplit tx.fee

def applyStakeUnlock (tx : Transaction) : DbM Unit := do
  let account ← getOrCreateAccount tx.sender
  if account.stakedBalance < tx.amount then
    .err s!"Insufficient staked balance: has {account.stakedBalance} needs {tx.amount}"
  else if account.balance < tx.fee then
    .err s!"Insufficient balance for fee: has {account.balance} needs {tx.fee}"
  else if account.nonce ≠ tx.nonce then
    .err s!"Nonce mismatch: expected {account.nonce} got {tx.nonce}"
  else do
    let balance ← Prog.okOr "Balance overflow during unstake"
      (U64.checkedAdd account.balance tx.amount)
    let nonce ← Prog.orPanic (U64.checkedAdd account.nonce 1)
    saveAccount { account with
      stakedBalance := account.stakedBalance - tx.amount
      balance := balance - tx.fee
      nonce := nonce }.updateValidatorTier
    applyFeeSplit tx.fee

def applyFeeOnly (tx : Transaction) : DbM Unit := do
  let sender ← getOrCreateAccount tx.sender
  if sender.balance < tx.fee then
    .err "Insufficient balance for fee"
  else if sender.nonce ≠ tx.nonce then
    .err s!"Nonce mismatch: expected {sender.nonce} got {tx.nonce}"
  else do
    let nonce ← Prog.orPanic (U64.checkedAdd sender.nonce 1)
    saveAccount { sender with balance := sender.balance - tx.fee, nonce := nonce }
    applyFeeSplit tx.fee

/-- Apply a transaction to the account state. -/
def applyTransaction (tx : Transaction) : DbM Unit :=
  match tx.transactionType with
  | .transfer => applyTransfer tx
  | .stakeLock => applyStakeLock tx
  | .stakeUnlock => applyStakeUnlock tx
  | .contractDeploy | .contractCall => applyFeeOnly tx

end Kyvera
