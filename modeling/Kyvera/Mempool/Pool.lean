import Kyvera.Storage.AccountStore
import Kyvera.Consensus.Rules
import Kyvera.Library.TreeIndex

/-!
# The mempool

Transactions wait here for a block.  They are stored by hash; the fee index orders them by fee
and then by hash, and the pending nonces record which nonces of a sender are taken.
-/

namespace Kyvera

open Std Effect

/-- Maximum number of transactions the mempool holds. -/
def MAX_MEMPOOL_SIZE : ℕ := 50000

inductive MempoolError where
  | alreadyExists
  | duplicateNonce (address : String) (nonce : UInt64)
  | insufficientBalance (address : String) (required available : UInt64)
  | invalidNonce (expected got : UInt64)
  | poolFullFeeTooLow
  | malformedTransaction (reason : String)
  deriving DecidableEq, Repr

/-- The text of an error; `none` is an address that cannot be cut, a panic. -/
def MempoolError.display : MempoolError → Option String
  | .alreadyExists => some "Transaction already in mempool"
  | .duplicateNonce address nonce => do
      let address ← Text.cut 12 address
      return s!"Sender {address} already has a pending transaction with nonce {nonce}"
  | .insufficientBalance address required available => do
      let address ← Text.cut 12 address
      return s!"{address} cannot afford transaction: needs {required} has {available}"
  | .invalidNonce expected got => some s!"Invalid nonce: expected {expected} got {got}"
  | .poolFullFeeTooLow =>
      some "Mempool is full and this transaction's fee is too low to evict anything"
  | .malformedTransaction reason => some s!"Malformed transaction: {reason}"

/-- A key of the fee index. -/
structure FeeKey where
  fee : UInt64
  hash : String
  deriving DecidableEq, Repr

namespace FeeKey

/-- By fee, then by hash. -/
instance : Ord FeeKey := ⟨compareLex (compareOn fee) (compareOn hash)⟩

instance : TransOrd FeeKey :=
  inferInstanceAs (TransCmp (compareLex (compareOn fee) (compareOn hash)))

instance : LawfulEqOrd FeeKey where
  eq_of_compare := by
    rintro ⟨f, h⟩ ⟨f', h'⟩ e
    obtain ⟨e₁, e₂⟩ := compareLex_eq_eq.1 e
    rw [LawfulEqOrd.eq_of_compare (a := f) e₁, LawfulEqOrd.eq_of_compare (a := h) e₂]

end FeeKey

/-- The key of a transaction in the fee index. -/
def Transaction.feeKey (tx : Transaction) : FeeKey := ⟨tx.fee, tx.hash⟩

structure Mempool where
  transactions : ExtTreeMap String Transaction
  feeIndex : ExtTreeSet FeeKey
  pendingNonces : Finset (String × UInt64)

/-- Basic structural validation, independent of chain state. -/
def validateStructure (tx : Transaction) : Except MempoolError Unit :=
  if tx.hash.isEmpty then .error (.malformedTransaction "empty hash")
  else if tx.signature.isEmpty then .error (.malformedTransaction "empty signature")
  else if tx.sender.isEmpty || tx.receiver.isEmpty then
    .error (.malformedTransaction "empty sender or receiver")
  else .ok ()

namespace Mempool

/-- The empty pool. -/
def new : Mempool where
  transactions := ∅
  feeIndex := ∅
  pendingNonces := ∅

/-- The number of stored transactions. -/
def len (pool : Mempool) : ℕ := pool.transactions.size

/-- Insert without any validation. -/
def insert (pool : Mempool) (tx : Transaction) : Mempool where
  pendingNonces := Insert.insert tx.senderKey pool.pendingNonces
  feeIndex := pool.feeIndex.insert tx.feeKey
  transactions := pool.transactions.insert tx.hash tx

/-- Remove a transaction by hash. -/
def remove (pool : Mempool) (hash : String) : Option Transaction × Mempool :=
  match pool.transactions[hash]? with
  | none => (none, pool)
  | some tx =>
      (some tx,
        { transactions := pool.transactions.erase hash
          feeIndex := pool.feeIndex.erase tx.feeKey
          pendingNonces := pool.pendingNonces.erase tx.senderKey })

/-- Remove the transaction with the lowest fee key, if the incoming fee is higher. -/
def evictFor (pool : Mempool) (incomingFee : UInt64) : Except MempoolError Unit × Mempool :=
  match pool.feeIndex.min? with
  | none => (.ok (), pool)
  | some lowestKey =>
      if incomingFee ≤ lowestKey.fee then (.error .poolFullFeeTooLow, pool)
      else (.ok (), (pool.remove lowestKey.hash).2)

/-- Whether some transaction of the sender is pending. -/
def hasOtherPending (pool : Mempool) (sender : String) : Bool :=
  decide (∃ p ∈ pool.pendingNonces, p.1 = sender)

/-- Attempt to add a transaction, against the accounts of a database. -/
def addTransaction (pool : Mempool) (tx : Transaction) (db : KyveraDb) :
    Except MempoolError Unit × Mempool :=
  match validateStructure tx with
  | .error e => (.error e, pool)
  | .ok () =>
    if tx.hash ∈ pool.transactions then (.error .alreadyExists, pool)
    else if tx.senderKey ∈ pool.pendingNonces then
      (.error (.duplicateNonce tx.sender tx.nonce), pool)
    else
      let account := db.account tx.sender
      let required := requiredBalance tx
      if account.balance < required then
        (.error (.insufficientBalance tx.sender required account.balance), pool)
      else if !pool.hasOtherPending tx.sender ∧ tx.nonce ≠ account.nonce then
        (.error (.invalidNonce account.nonce tx.nonce), pool)
      else if pool.len ≥ MAX_MEMPOOL_SIZE then
        match pool.evictFor tx.fee with
        | (.error e, pool) => (.error e, pool)
        | (.ok (), pool) => (.ok (), pool.insert tx)
      else
        (.ok (), pool.insert tx)

/-- Remove a batch of transactions by hash. -/
def removeBatch (pool : Mempool) (hashes : List String) : Mempool :=
  hashes.foldl (fun pool hash => (pool.remove hash).2) pool

/-- Up to `limit` transactions, highest fee first. -/
def topByFee (pool : Mempool) (limit : ℕ) : List Transaction :=
  (pool.feeIndex.toList.reverse.take limit).filterMap fun key => pool.transactions[key.hash]?

end Mempool

end Kyvera
