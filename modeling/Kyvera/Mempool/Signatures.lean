import Kyvera.Consensus.Validators
import Kyvera.Mempool.Indexes

/-!
# Signatures

The wallet signs every transaction, and the pool asks for a signature.  But no part of the node
looks at one beyond its being there: with other signatures on all transactions the pool admits,
offers and evicts the same ones, blocks are accepted or rejected with the same errors, and the
transactions of a block do the same to the accounts.
-/

namespace Kyvera

open Std Effect

/-- Other signatures for transactions, present where there was one and only there. -/
structure Resigning where
  sign : Transaction → String
  isEmpty_sign : ∀ tx, (sign tx).isEmpty = tx.signature.isEmpty

namespace Resigning

variable (r : Resigning)

/-- The transaction with its other signature. -/
def tx (tx : Transaction) : Transaction := { tx with signature := r.sign tx }

/-- The pool with the other signatures on its transactions. -/
def pool (pool : Mempool) : Mempool :=
  { pool with transactions := pool.transactions.map fun _ => r.tx }

/-- The call with the other signature on its transaction. -/
def call : Mempool.Call → Mempool.Call
  | .addTransaction tx db => .addTransaction (r.tx tx) db
  | .remove hash => .remove hash
  | .removeBatch hashes => .removeBatch hashes

@[simp] theorem hash_tx (t : Transaction) : (r.tx t).hash = t.hash := rfl

@[simp] theorem sender_tx (t : Transaction) : (r.tx t).sender = t.sender := rfl

@[simp] theorem fee_tx (t : Transaction) : (r.tx t).fee = t.fee := rfl

@[simp] theorem nonce_tx (t : Transaction) : (r.tx t).nonce = t.nonce := rfl

@[simp] theorem senderKey_tx (t : Transaction) : (r.tx t).senderKey = t.senderKey := rfl

@[simp] theorem requiredBalance_tx (t : Transaction) :
    requiredBalance (r.tx t) = requiredBalance t := rfl

/-! ## The pool -/

section Pool

variable (p : Mempool) (t : Transaction) (db : KyveraDb)

theorem getElem?_pool (hash : String) :
    (r.pool p).transactions[hash]? = p.transactions[hash]?.map r.tx :=
  ExtTreeMap.getElem?_map

theorem len_pool : (r.pool p).len = p.len := ExtTreeMap.size_map

theorem mem_pool_iff {hash : String} :
    hash ∈ (r.pool p).transactions ↔ hash ∈ p.transactions :=
  ExtTreeMap.mem_map

theorem map_hash (txs : List Transaction) :
    (txs.map r.tx).map Transaction.hash = txs.map Transaction.hash := by
  rw [List.map_map]
  rfl

theorem validateStructure_tx : validateStructure (r.tx t) = validateStructure t := by
  show (if t.hash.isEmpty then _ else if (r.sign t).isEmpty then _ else _) = _
  rw [r.isEmpty_sign]
  rfl

theorem insert_pool : (r.pool p).insert (r.tx t) = r.pool (p.insert t) := by
  have hsame : (p.transactions.map fun _ => r.tx).insert t.hash (r.tx t) =
      (p.transactions.insert t.hash t).map fun _ => r.tx := by
    apply ExtTreeMap.ext_getElem?
    intro hash
    rw [ExtTreeMap.getElem?_map]
    by_cases h : t.hash = hash
    · rw [← h, ExtTreeMap.getElem?_insert_self, ExtTreeMap.getElem?_insert_self, Option.map_some]
    · rw [TreeSum.getElem?_insert_of_ne _ _ h, TreeSum.getElem?_insert_of_ne _ _ h,
        ExtTreeMap.getElem?_map]
  exact congrArg (Mempool.mk · _ _) hsame

theorem remove_pool (hash : String) : ((r.pool p).remove hash).2 = r.pool (p.remove hash).2 := by
  rcases h : p.transactions[hash]? with _ | old
  · have h' : (r.pool p).transactions[hash]? = none := by rw [getElem?_pool, h, Option.map_none]
    rw [Mempool.remove_of_getElem?_eq_none h, Mempool.remove_of_getElem?_eq_none h']
  · have h' : (r.pool p).transactions[hash]? = some (r.tx old) := by
      rw [getElem?_pool, h, Option.map_some]
    rw [Mempool.remove_of_getElem?_eq_some h, Mempool.remove_of_getElem?_eq_some h']
    have hsame : (p.transactions.map fun _ => r.tx).erase hash =
        (p.transactions.erase hash).map fun _ => r.tx := by
      apply ExtTreeMap.ext_getElem?
      intro other
      rw [ExtTreeMap.getElem?_map]
      by_cases hother : hash = other
      · rw [← hother, ExtTreeMap.getElem?_erase_self, ExtTreeMap.getElem?_erase_self,
          Option.map_none]
      · rw [TreeSum.getElem?_erase_of_ne _ hother, TreeSum.getElem?_erase_of_ne _ hother,
          ExtTreeMap.getElem?_map]
    exact congrArg (Mempool.mk · _ _) hsame

theorem evictFor_pool (fee : UInt64) :
    (r.pool p).evictFor fee = ((p.evictFor fee).1, r.pool (p.evictFor fee).2) := by
  have hindex : (r.pool p).feeIndex = p.feeIndex := rfl
  unfold Mempool.evictFor
  rw [hindex]
  cases p.feeIndex.min? with
  | none => rfl
  | some key =>
      dsimp only
      split_ifs
      · rfl
      · rw [remove_pool]

/-- A pool with other signatures takes what it would have taken, and is then the other pool with
other signatures. -/
theorem addTransaction_pool :
    (r.pool p).addTransaction (r.tx t) db =
      ((p.addTransaction t db).1, r.pool (p.addTransaction t db).2) := by
  unfold Mempool.addTransaction
  rw [validateStructure_tx]
  cases validateStructure t with
  | error e => rfl
  | ok _ =>
      have hkeys : (r.pool p).pendingNonces = p.pendingNonces := rfl
      have hpending : (r.pool p).hasOtherPending t.sender = p.hasOtherPending t.sender := rfl
      simp only [hash_tx, sender_tx, fee_tx, nonce_tx, senderKey_tx, requiredBalance_tx, mem_pool_iff,
        len_pool, evictFor_pool, hkeys, hpending]
      split_ifs
      · rfl
      · rfl
      · rfl
      · rfl
      · cases h : p.evictFor t.fee with
        | mk outcome evicted =>
            cases outcome with
            | error e => rfl
            | ok _ => exact congrArg (Prod.mk _) (r.insert_pool evicted t)
      · exact congrArg (Prod.mk _) (r.insert_pool p t)

theorem removeBatch_pool (hashes : List String) :
    (r.pool p).removeBatch hashes = r.pool (p.removeBatch hashes) := by
  induction hashes generalizing p with
  | nil => rfl
  | cons hash rest ih =>
      show ((r.pool p).remove hash).2.removeBatch rest = r.pool ((p.remove hash).2.removeBatch rest)
      rw [remove_pool, ih]

theorem after_pool (c : Mempool.Call) : (r.pool p).after (r.call c) = r.pool (p.after c) := by
  cases c with
  | addTransaction t db => exact congrArg Prod.snd (r.addTransaction_pool p t db)
  | remove hash => exact r.remove_pool p hash
  | removeBatch hashes => exact r.removeBatch_pool p hashes

theorem pool_new : r.pool .new = .new := by
  have hempty : (∅ : ExtTreeMap String Transaction).map (fun _ => r.tx) = ∅ :=
    ExtTreeMap.map_eq_empty_iff.2 rfl
  exact congrArg (Mempool.mk · _ _) hempty

/-- After calls with other signatures the pool is the other pool with other signatures. -/
theorem reached_map (calls : List Mempool.Call) :
    Mempool.reached (calls.map r.call) = r.pool (Mempool.reached calls) := by
  have hfold : ∀ (calls : List Mempool.Call) (p : Mempool),
      (calls.map r.call).foldl Mempool.after (r.pool p) = r.pool (calls.foldl Mempool.after p) := by
    intro calls
    induction calls with
    | nil => exact fun _ => rfl
    | cons c rest ih =>
        intro p
        rw [List.map_cons, List.foldl_cons, List.foldl_cons, after_pool, ih]
  have hall := hfold calls .new
  rwa [pool_new] at hall

theorem topByFee_pool (limit : ℕ) : (r.pool p).topByFee limit = (p.topByFee limit).map r.tx := by
  unfold Mempool.topByFee
  simp only [getElem?_pool, List.map_filterMap]
  rfl

end Pool

/-! ## The rules -/

section Rules

variable (H : Sha3) (block : Block) (txs : List Transaction) (tip : ChainTip)

theorem checkNoCoinbase_map : checkNoCoinbase (txs.map r.tx) = checkNoCoinbase txs := by
  induction txs with
  | nil => rfl
  | cons t rest ih =>
      rw [List.map_cons, checkNoCoinbase, checkNoCoinbase, ih]
      rfl

theorem checkCoinbase_map : checkCoinbase H block (txs.map r.tx) = checkCoinbase H block txs := by
  cases txs <;> rfl

theorem checkTransactionsLoop_map (seenHashes : Finset String) :
    checkTransactionsLoop seenHashes (txs.map r.tx) = checkTransactionsLoop seenHashes txs := by
  induction txs generalizing seenHashes with
  | nil => rfl
  | cons t rest ih =>
      rw [List.map_cons, checkTransactionsLoop, checkTransactionsLoop, ih, hash_tx, ih]
      rfl

theorem validateBlockRules_map (nowMs : ℤ) :
    validateBlockRules H nowMs block (txs.map r.tx) tip =
      validateBlockRules H nowMs block txs tip := by
  have hsize : checkBlockSize block (txs.map r.tx) = checkBlockSize block txs := by
    rw [checkBlockSize, checkBlockSize, List.length_map]
  have hmerkle : checkMerkleRoot H block (txs.map r.tx) = checkMerkleRoot H block txs := by
    rw [checkMerkleRoot, checkMerkleRoot, map_hash]
  have hepoch : checkEpochSpecific H block (txs.map r.tx) tip = checkEpochSpecific H block txs tip := by
    rw [checkEpochSpecific, checkEpochSpecific, checkCoinbase_map, checkNoCoinbase_map]
  rw [validateBlockRules, validateBlockRules, hsize, hmerkle, hepoch, checkTransactions,
    checkTransactions, checkTransactionsLoop_map]

theorem validateBlock_map {σ : Type} (nowMs : ℤ) :
    (validateBlock H nowMs block tip (txs.map r.tx) : Prog σ BlockError Unit) =
      validateBlock H nowMs block tip txs := by
  rw [validateBlock, validateBlock, map_hash]

end Rules

end Resigning

/-- With other signatures on all transactions that reach a node, present where there were some and
only there, the pool takes and refuses the same ones, with the same errors, and offers the same ones
in the same order; both validators say the same of every block; and transactions and coinbases do
the same to the accounts. -/
theorem signatures_unread (r : Resigning) (calls : List Mempool.Call) (H : Sha3) :
    let pool := Mempool.reached calls
    let pool' := Mempool.reached (calls.map r.call)
    (∀ tx db, (pool'.addTransaction (r.tx tx) db).1 = (pool.addTransaction tx db).1) ∧
    (∀ limit, pool'.topByFee limit = (pool.topByFee limit).map r.tx) ∧
    (∀ nowMs block txs tip db,
      (validateBlockRules H nowMs block (txs.map r.tx) tip).run db =
          (validateBlockRules H nowMs block txs tip).run db ∧
        (validateBlock H nowMs block tip (txs.map r.tx)).run db =
          (validateBlock H nowMs block tip txs).run db) ∧
    ∀ tx fees (db : KyveraDb),
      (applyTransaction (r.tx tx)).run db = (applyTransaction tx).run db ∧
        (applyEpochRewards (r.tx tx) fees).run db = (applyEpochRewards tx fees).run db := by
  intro pool pool'
  have hpool : pool' = r.pool pool := r.reached_map calls
  rw [hpool]
  refine ⟨fun tx db => ?_, r.topByFee_pool pool, fun nowMs block txs tip db => ⟨?_, ?_⟩,
    fun tx fees db => ⟨rfl, rfl⟩⟩
  · rw [r.addTransaction_pool]
  · rw [r.validateBlockRules_map]
  · rw [r.validateBlock_map]

end Kyvera
