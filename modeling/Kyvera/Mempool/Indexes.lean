import Kyvera.Mempool.Pool

/-!
# The indexes of the mempool

A pool is valid while its three collections describe the same transactions.  Every operation of
the pool keeps it valid: an insertion happens under a fresh hash and a fresh sender key, and a
removal finds its keys in both indexes.
-/

namespace Kyvera

namespace Mempool

open Std TreeIndex

/-- The collections of a pool describe the same transactions, each stored under its own hash and
with a sender key of its own. -/
structure Valid (pool : Mempool) : Prop where
  stored : ∀ (hash : String) (tx : Transaction), pool.transactions[hash]? = some tx → tx.hash = hash
  fees : Indexes Transaction.feeKey pool.transactions {key | key ∈ pool.feeIndex}
  nonces : Indexes Transaction.senderKey pool.transactions {key | key ∈ pool.pendingNonces}
  senders : Unique Transaction.senderKey pool.transactions
  size : pool.len ≤ MAX_MEMPOOL_SIZE

/-- A transaction that is stored, under its own hash. -/
def Holds (pool : Mempool) (tx : Transaction) : Prop := pool.transactions[tx.hash]? = some tx

variable {pool : Mempool} {tx : Transaction} {hash : String}

theorem valid_new : new.Valid where
  stored := by simp [new]
  fees := by simpa [new] using indexes_empty
  nonces := by simpa [new] using indexes_empty
  senders := unique_empty
  size := by simp [new, len]

theorem Valid.uniqueFees (h : pool.Valid) : Unique Transaction.feeKey pool.transactions := by
  intro hash hash' tx tx' htx htx' e
  rw [← h.stored hash tx htx, ← h.stored hash' tx' htx']
  exact congrArg FeeKey.hash e

/-- What can be inserted below the cap: a transaction with a fresh hash and a fresh sender key. -/
structure Fresh (pool : Mempool) (tx : Transaction) : Prop where
  hash : pool.transactions[tx.hash]? = none
  senderKey : tx.senderKey ∉ pool.pendingNonces
  room : pool.len < MAX_MEMPOOL_SIZE

theorem Valid.insert (h : pool.Valid) (hf : pool.Fresh tx) : (pool.insert tx).Valid where
  stored hash tx' htx' := by
    rcases getElem?_insert_eq_some_iff.1 htx' with ⟨rfl, rfl⟩ | ⟨-, htx'⟩
    · rfl
    · exact h.stored hash tx' htx'
  fees := by
    have keys : {key | key ∈ (pool.insert tx).feeIndex} =
        Insert.insert tx.feeKey {key | key ∈ pool.feeIndex} := by
      ext key
      exact ExtTreeSet.mem_insert.trans
        (or_congr_left (LawfulEqCmp.compare_eq_iff_eq.trans eq_comm))
    rw [keys]
    exact h.fees.insert hf.hash
  nonces := by
    have keys : {key | key ∈ (pool.insert tx).pendingNonces} =
        Insert.insert tx.senderKey {key | key ∈ pool.pendingNonces} := by
      ext key
      simp [Mempool.insert]
    rw [keys]
    exact h.nonces.insert hf.hash
  senders := h.senders.insert h.nonces hf.senderKey
  size := by
    have hroom := hf.room
    have hle := ExtTreeMap.size_insert_le (t := pool.transactions) (k := tx.hash) (v := tx)
    exact hle.trans hroom

theorem remove_of_getElem?_eq_none (h : pool.transactions[hash]? = none) :
    pool.remove hash = (none, pool) := by
  rw [remove, h]

theorem remove_of_getElem?_eq_some (h : pool.transactions[hash]? = some tx) :
    pool.remove hash = (some tx,
      { transactions := pool.transactions.erase hash
        feeIndex := pool.feeIndex.erase tx.feeKey
        pendingNonces := pool.pendingNonces.erase tx.senderKey }) := by
  rw [remove, h]

theorem Valid.remove (h : pool.Valid) (hash : String) : (pool.remove hash).2.Valid := by
  rcases htx : pool.transactions[hash]? with _ | tx
  · rw [remove_of_getElem?_eq_none htx]
    exact h
  · rw [remove_of_getElem?_eq_some htx]
    exact
      { stored := fun hash' tx' htx' => h.stored hash' tx' (getElem?_erase_eq_some_iff.1 htx').2
        fees := by
          have keys : {key | key ∈ pool.feeIndex.erase tx.feeKey} =
              {key | key ∈ pool.feeIndex} \ {tx.feeKey} := by
            ext key
            refine ExtTreeSet.mem_erase.trans (Iff.trans ?_ and_comm)
            exact and_congr_left' (not_congr (LawfulEqCmp.compare_eq_iff_eq.trans eq_comm))
          rw [keys]
          exact h.fees.erase h.uniqueFees htx
        nonces := by
          have keys : {key | key ∈ pool.pendingNonces.erase tx.senderKey} =
              {key | key ∈ pool.pendingNonces} \ {tx.senderKey} := by
            ext key
            simp [and_comm]
          rw [keys]
          exact h.nonces.erase h.senders htx
        senders := h.senders.erase
        size := (ExtTreeMap.size_erase_le).trans h.size }

theorem len_remove_add_one (h : pool.transactions[hash]? = some tx) :
    (pool.remove hash).2.len + 1 = pool.len := by
  have hmem : pool.transactions.contains hash = true := by
    rw [ExtTreeMap.contains_eq_isSome_getElem?, h]
    rfl
  have hs : (pool.transactions.erase hash).size = pool.transactions.size - 1 :=
    ExtTreeMap.size_erase.trans (if_pos hmem)
  have hpos : pool.transactions.size ≠ 0 := by
    intro h0
    rw [ExtTreeMap.eq_empty_iff_size_eq_zero.2 h0] at h
    simp at h
  rw [remove_of_getElem?_eq_some h]
  change (pool.transactions.erase hash).size + 1 = pool.transactions.size
  omega

theorem Fresh.of_remove (hh : pool.transactions[tx.hash]? = none)
    (hs : tx.senderKey ∉ pool.pendingNonces) {old : Transaction}
    (hold : pool.transactions[hash]? = some old) (hlen : pool.len ≤ MAX_MEMPOOL_SIZE) :
    (pool.remove hash).2.Fresh tx where
  hash := by
    rw [remove_of_getElem?_eq_some hold]
    by_cases e : tx.hash = hash
    · rw [e]
      exact ExtTreeMap.getElem?_erase_self
    · exact (TreeSum.getElem?_erase_of_ne _ (Ne.symm e)).trans hh
  senderKey := by
    rw [remove_of_getElem?_eq_some hold]
    exact fun hmem => hs (Finset.mem_of_mem_erase hmem)
  room := by
    have := len_remove_add_one hold
    omega

/-- A stored transaction with the least fee key. -/
structure Lowest (pool : Mempool) (old : Transaction) : Prop where
  stored : pool.Holds old
  least : ∀ key ∈ pool.feeIndex, (compare old.feeKey key).isLE

/-- In a full valid pool the transaction with the least fee key is evicted, if the incoming fee is
higher than its fee. -/
theorem Valid.evictFor_cases (h : pool.Valid) (hfull : pool.len ≥ MAX_MEMPOOL_SIZE) (fee : UInt64) :
    ∃ old, pool.Lowest old ∧
      (fee ≤ old.fee ∧ pool.evictFor fee = (.error .poolFullFeeTooLow, pool) ∨
        old.fee < fee ∧ pool.evictFor fee = (.ok (), (pool.remove old.hash).2)) := by
  unfold evictFor
  rcases hmin : pool.feeIndex.min? with _ | key
  · -- A pool that is full stores something, so its fee index is not empty.
    rw [ExtTreeSet.min?_eq_none_iff] at hmin
    have hne : pool.transactions ≠ ∅ := by
      intro e
      rw [len, e] at hfull
      exact absurd hfull (by decide)
    obtain ⟨hash, tx, htx⟩ : ∃ hash tx, pool.transactions[hash]? = some tx := by
      by_contra hnone
      refine hne (ExtTreeMap.ext_getElem? fun hash => ?_)
      rcases htx : pool.transactions[hash]? with _ | tx
      · simp
      · exact absurd ⟨hash, tx, htx⟩ hnone
    have hmem : tx.feeKey ∈ pool.feeIndex := (h.fees _).2 ⟨hash, tx, htx, rfl⟩
    rw [hmin] at hmem
    exact absurd hmem ExtTreeSet.not_mem_empty
  · have hmem : key ∈ pool.feeIndex := ExtTreeSet.min?_mem hmin
    obtain ⟨hash, old, hold, rfl⟩ := (h.fees key).1 hmem
    have hkey := h.stored hash old hold
    subst hkey
    refine ⟨old, ⟨hold, (ExtTreeSet.min?_eq_some_iff_mem_and_forall.1 hmin).2⟩, ?_⟩
    by_cases hfee : fee ≤ old.fee
    · exact .inl ⟨hfee, if_pos hfee⟩
    · exact .inr ⟨UInt64.not_le.1 hfee, if_neg hfee⟩

/-- Adding a transaction to a valid pool changes nothing, or inserts it as a fresh one into the
pool, or, if that is full, into the pool without its lowest transaction, which pays less. -/
theorem Valid.addTransaction_cases (h : pool.Valid) (tx : Transaction) (db : KyveraDb) :
    (∃ e, pool.addTransaction tx db = (.error e, pool)) ∨
    pool.Fresh tx ∧ pool.addTransaction tx db = (.ok (), pool.insert tx) ∨
    ∃ old, pool.len = MAX_MEMPOOL_SIZE ∧ pool.Lowest old ∧ old.fee < tx.fee ∧
      (pool.remove old.hash).2.Fresh tx ∧
      pool.addTransaction tx db = (.ok (), (pool.remove old.hash).2.insert tx) := by
  unfold addTransaction
  rcases validateStructure tx with e | -
  · exact .inl ⟨e, rfl⟩
  dsimp only
  split_ifs with hhash hsender hbalance hnonce hfull
  · exact .inl ⟨_, rfl⟩
  · exact .inl ⟨_, rfl⟩
  · exact .inl ⟨_, rfl⟩
  · exact .inl ⟨_, rfl⟩
  · have hnone : pool.transactions[tx.hash]? = none := ExtTreeMap.getElem?_eq_none hhash
    obtain ⟨old, hlowest, ⟨-, e⟩ | ⟨hfee, e⟩⟩ := h.evictFor_cases hfull tx.fee
    · rw [e]
      exact .inl ⟨_, rfl⟩
    · rw [e]
      exact .inr (.inr ⟨old, h.size.antisymm hfull, hlowest, hfee,
        Fresh.of_remove hnone hsender hlowest.stored h.size, rfl⟩)
  · exact .inr (.inl ⟨⟨ExtTreeMap.getElem?_eq_none hhash, hsender, Nat.lt_of_not_le hfull⟩, rfl⟩)

theorem Valid.addTransaction (h : pool.Valid) (tx : Transaction) (db : KyveraDb) :
    (pool.addTransaction tx db).2.Valid := by
  rcases h.addTransaction_cases tx db with ⟨e, he⟩ | ⟨hf, he⟩ | ⟨old, -, -, -, hf, he⟩
  · rw [he]
    exact h
  · rw [he]
    exact h.insert hf
  · rw [he]
    exact (h.remove old.hash).insert hf

theorem Valid.removeBatch (h : pool.Valid) (hashes : List String) :
    (pool.removeBatch hashes).Valid := by
  induction hashes generalizing pool with
  | nil => exact h
  | cons hash rest ih => exact ih (h.remove hash)

/-! ## Runs -/

/-- A call on the pool. -/
inductive Call where
  | addTransaction (tx : Transaction) (db : KyveraDb)
  | remove (hash : String)
  | removeBatch (hashes : List String)

/-- The pool after a call. -/
def after (pool : Mempool) : Call → Mempool
  | .addTransaction tx db => (pool.addTransaction tx db).2
  | .remove hash => (pool.remove hash).2
  | .removeBatch hashes => pool.removeBatch hashes

/-- The pool after a sequence of calls on the empty pool. -/
def reached (calls : List Call) : Mempool := calls.foldl after new

theorem Valid.after (h : pool.Valid) (call : Call) : (pool.after call).Valid := by
  cases call with
  | addTransaction tx db => exact h.addTransaction tx db
  | remove hash => exact h.remove hash
  | removeBatch hashes => exact h.removeBatch hashes

theorem Valid.foldl_after (h : pool.Valid) (calls : List Call) :
    (calls.foldl Mempool.after pool).Valid := by
  induction calls generalizing pool with
  | nil => exact h
  | cons call rest ih => exact ih (h.after call)

/-- Every pool that calls can reach is valid: the fee index holds exactly the fee keys of the
stored transactions and the pending nonces exactly their sender keys, no two of which agree. -/
theorem valid_reached (calls : List Call) : (reached calls).Valid :=
  valid_new.foldl_after calls

end Mempool

end Kyvera
