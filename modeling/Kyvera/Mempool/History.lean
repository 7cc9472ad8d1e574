import Kyvera.Library.Since
import Kyvera.Mempool.Eviction

/-!
# What becomes of a transaction

A pool loses nothing and keeps nothing twice.  A transaction is pending exactly when it was admitted
and since then has neither been removed by its hash nor been outbid as the lowest transaction of a
full pool.  A producer that takes what is offered in rounds takes, in the same order, what a single
selection would have offered, so nothing that stays in the pool is passed over for good.
-/

namespace Kyvera

namespace Mempool

open Std Trace

variable {pool : Mempool} {tx old : Transaction} {db : KyveraDb} {hash : String}

/-! ## The history of a transaction -/

/-- The call admits the transaction. -/
def Admitted (tx : Transaction) (t : Step Mempool Call) : Prop :=
  ∃ db, t.call = .addTransaction tx db ∧ (t.pre.addTransaction tx db).1 = .ok ()

/-- The call admits another transaction, which pays more, to a full pool in which this one is the
lowest. -/
def Outbid (tx : Transaction) (t : Step Mempool Call) : Prop :=
  ∃ tx' db, t.call = .addTransaction tx' db ∧ (t.pre.addTransaction tx' db).1 = .ok () ∧
    t.pre.len = MAX_MEMPOOL_SIZE ∧ t.pre.Lowest tx ∧ tx.fee < tx'.fee

/-- The call removes the transaction by its hash. -/
def Removed (tx : Transaction) (t : Step Mempool Call) : Prop :=
  t.call = .remove tx.hash ∨ ∃ hashes, t.call = .removeBatch hashes ∧ tx.hash ∈ hashes

theorem holds_remove_hash_iff :
    (pool.remove hash).2.Holds tx ↔ pool.Holds tx ∧ tx.hash ≠ hash := by
  unfold Holds
  rcases hold : pool.transactions[hash]? with _ | old
  · rw [remove_of_getElem?_eq_none hold]
    refine ⟨fun h => ⟨h, ?_⟩, fun h => h.1⟩
    rintro rfl
    rw [hold] at h
    cases h
  · rw [remove_of_getElem?_eq_some hold]
    refine TreeIndex.getElem?_erase_eq_some_iff.trans ?_
    rw [and_comm, ne_comm]

theorem holds_removeBatch_iff {hashes : List String} :
    (pool.removeBatch hashes).Holds tx ↔ pool.Holds tx ∧ tx.hash ∉ hashes := by
  induction hashes generalizing pool with
  | nil => simp [removeBatch]
  | cons hash rest ih =>
      show ((pool.remove hash).2.removeBatch rest).Holds tx ↔ _
      rw [ih, holds_remove_hash_iff, List.mem_cons, not_or, and_assoc]

theorem Valid.lowest_unique (h : pool.Valid) (htx : pool.Lowest tx) (hold : pool.Lowest old) :
    tx = old := by
  by_contra hne
  have hbelow := htx.below h hold.stored (Ne.symm hne)
  exact irrefl_of FeeKey.Below _ (trans_of FeeKey.Below hbelow (hold.below h htx.stored hne))

/-- What an addition makes of a transaction. -/
theorem Valid.holds_addTransaction_iff (h : pool.Valid) (tx' : Transaction) (db : KyveraDb) :
    (pool.addTransaction tx' db).2.Holds tx ↔
      (tx = tx' ∧ (pool.addTransaction tx' db).1 = .ok ()) ∨
        pool.Holds tx ∧ ¬ ((pool.addTransaction tx' db).1 = .ok () ∧
          pool.len = MAX_MEMPOOL_SIZE ∧ pool.Lowest tx ∧ tx.fee < tx'.fee) := by
  rcases h.addTransaction_cases tx' db with ⟨e, he⟩ | ⟨hfresh, he⟩ |
    ⟨old, hfull, hlowest, hfee, hfresh, he⟩
  · simp [he]
  · have hroom := hfresh.room.ne
    rw [he, holds_insert_iff hfresh.hash]
    simp [hroom]
  · rw [he, holds_insert_iff hfresh.hash, holds_remove_iff hlowest.stored]
    simp only [and_true, true_and, hfull]
    refine or_congr_right (and_congr_right fun _ => not_congr ⟨?_, ?_⟩)
    · rintro rfl
      exact ⟨hlowest, hfee⟩
    · rintro ⟨htx, -⟩
      exact h.lowest_unique htx hlowest

/-- What a call makes of a transaction: it admits it, it drops it, or it leaves it where it is. -/
theorem Valid.holds_after_iff (h : pool.Valid) (call : Call) :
    (pool.after call).Holds tx ↔
      Admitted tx ⟨pool, call, pool.after call⟩ ∨
        pool.Holds tx ∧ ¬ (Outbid tx ⟨pool, call, pool.after call⟩ ∨
          Removed tx ⟨pool, call, pool.after call⟩) := by
  unfold Admitted Outbid Removed
  cases call with
  | addTransaction tx' db =>
      refine (h.holds_addTransaction_iff tx' db).trans (or_congr ?_ (and_congr_right fun _ => ?_))
      · constructor
        · rintro ⟨rfl, hok⟩
          exact ⟨db, rfl, hok⟩
        · rintro ⟨db', hcall, hok⟩
          cases hcall
          exact ⟨rfl, hok⟩
      · refine not_congr ⟨fun hout => .inl ⟨tx', db, rfl, hout⟩, ?_⟩
        rintro (⟨tx'', db', hcall, hout⟩ | hcall | ⟨hashes, hcall, -⟩)
        · cases hcall
          exact hout
        · cases hcall
        · cases hcall
  | remove hash =>
      have hremove : (pool.remove hash).2.Holds tx ↔ pool.Holds tx ∧ tx.hash ≠ hash :=
        holds_remove_hash_iff
      refine hremove.trans ?_
      simp [eq_comm]
  | removeBatch hashes =>
      have hremove : (pool.removeBatch hashes).Holds tx ↔ pool.Holds tx ∧ tx.hash ∉ hashes :=
        holds_removeBatch_iff
      refine hremove.trans ?_
      simp

/-- After any calls on the empty pool, the pending transactions are exactly those that were admitted
and since then neither outbid in a full pool nor removed by their hashes. -/
theorem pending_of_calls (calls : List Call) (tx : Transaction) :
    (reached calls).Holds tx ↔
      Since (Admitted tx) (fun t => Outbid tx t ∨ Removed tx t) (trace after new calls) := by
  have hrun : IsRun (fun pool call pool' => pool' = pool.after call) new (trace after new calls) :=
    isRun_trace fun _ _ => rfl
  have hstep : ∀ t : Step Mempool Call, t.pre.Valid → t.post = t.pre.after t.call →
      t.post.Valid ∧ (t.post.Holds tx ↔ Admitted tx t ∨
        t.pre.Holds tx ∧ ¬ (Outbid tx t ∨ Removed tx t)) := by
    rintro ⟨pre, call, post⟩ hpre hpost
    obtain rfl : post = pre.after call := hpost
    exact ⟨hpre.after call, hpre.holds_after_iff call⟩
  have hempty : ¬ new.Holds tx := by simp [new, Holds]
  have hfinal := hrun.holds_final_iff (I := Valid) (P := fun pool => pool.Holds tx) hstep valid_new
  rw [final_trace] at hfinal
  exact hfinal.trans (or_iff_left fun hnew => hempty hnew.1)

/-! ## Rounds -/

/-- Take what is offered, and remove it. -/
def take (pool : Mempool) (limit : ℕ) : List Transaction × Mempool :=
  let offered := pool.topByFee limit
  (offered, pool.removeBatch (offered.map Transaction.hash))

/-- Take what is offered round by round. -/
def takeRounds (pool : Mempool) : List ℕ → List Transaction × Mempool
  | [] => ([], pool)
  | limit :: rest =>
      let (offered, pool') := pool.take limit
      let (others, pool'') := pool'.takeRounds rest
      (offered ++ others, pool'')

theorem Valid.holds_take_iff (h : pool.Valid) {limit : ℕ} :
    (pool.take limit).2.Holds tx ↔ pool.Holds tx ∧ tx ∉ pool.topByFee limit := by
  refine holds_removeBatch_iff.trans (and_congr_right fun htx => not_congr ?_)
  rw [List.mem_map]
  constructor
  · rintro ⟨other, hother, hhash⟩
    rwa [htx.eq_of_hash (h.mem_topByFee_iff.1 hother).1 hhash.symm]
  · exact fun hoffered => ⟨tx, hoffered, rfl⟩

theorem filterMap_feeKey {txs : List Transaction} (h : ∀ tx ∈ txs, pool.Holds tx) :
    (txs.map Transaction.feeKey).filterMap (fun key => pool.transactions[key.hash]?) = txs := by
  induction txs with
  | nil => rfl
  | cons tx rest ih =>
      obtain ⟨htx, hrest⟩ := List.forall_mem_cons.1 h
      have hstored : pool.transactions[tx.feeKey.hash]? = some tx := htx
      simp only [List.map_cons, List.filterMap_cons, hstored, ih hrest]

theorem Valid.mem_feeIndex_iff (h : pool.Valid) {key : FeeKey} :
    key ∈ pool.feeIndex ↔ ∃ tx, pool.Holds tx ∧ tx.feeKey = key := by
  constructor
  · intro hkey
    obtain ⟨tx, htx, hfee⟩ := h.getElem?_hash hkey
    rw [← hfee] at htx
    exact ⟨tx, htx, hfee⟩
  · rintro ⟨tx, htx, rfl⟩
    exact (h.fees _).2 ⟨_, tx, htx, rfl⟩

/-- After a round the index lists what it listed before behind the keys that were taken. -/
theorem Valid.feeIndex_take (h : pool.Valid) (limit : ℕ) :
    (pool.take limit).2.feeIndex.toList.reverse = pool.feeIndex.toList.reverse.drop limit := by
  have hafter : (pool.take limit).2.Valid := h.removeBatch _
  have hdown := pool.pairwise_reverse_feeIndex
  have hdown' := (pool.take limit).2.pairwise_reverse_feeIndex
  have hnodup : pool.feeIndex.toList.reverse.Nodup :=
    hdown.imp fun hbelow => fun e => irrefl_of FeeKey.Below _ (e ▸ hbelow)
  have hnodup' : (pool.take limit).2.feeIndex.toList.reverse.Nodup :=
    hdown'.imp fun hbelow => fun e => irrefl_of FeeKey.Below _ (e ▸ hbelow)
  -- Both lists have the keys of the transactions that were left, and both fall.
  have hmem : ∀ key, key ∈ (pool.take limit).2.feeIndex.toList.reverse ↔
      key ∈ pool.feeIndex.toList.reverse.drop limit := by
    intro key
    rw [List.mem_reverse, ExtTreeSet.mem_toList, hafter.mem_feeIndex_iff]
    have hsplit : key ∈ pool.feeIndex ↔ key ∈ pool.topKeys limit ∨
        key ∈ pool.feeIndex.toList.reverse.drop limit := by
      rw [topKeys, ← List.mem_append, List.take_append_drop, List.mem_reverse,
        ExtTreeSet.mem_toList]
    have hapart : key ∈ pool.feeIndex.toList.reverse.drop limit → key ∉ pool.topKeys limit := by
      have hdisjoint := hnodup
      rw [← List.take_append_drop limit pool.feeIndex.toList.reverse, List.nodup_append] at hdisjoint
      exact fun hdrop htop => hdisjoint.2.2 key htop key hdrop rfl
    constructor
    · rintro ⟨tx, htx, rfl⟩
      obtain ⟨hheld, hleft⟩ := h.holds_take_iff.1 htx
      refine (hsplit.1 (h.mem_feeIndex_iff.2 ⟨tx, hheld, rfl⟩)).resolve_left fun htop => hleft ?_
      rw [← h.map_feeKey_topByFee] at htop
      obtain ⟨other, hother, hkey⟩ := List.mem_map.1 htop
      have hsame := hheld.eq_of_hash (h.mem_topByFee_iff.1 hother).1 (congrArg FeeKey.hash hkey.symm)
      rwa [hsame]
    · intro hdrop
      obtain ⟨tx, htx, rfl⟩ := h.mem_feeIndex_iff.1 (hsplit.2 (.inr hdrop))
      refine ⟨tx, h.holds_take_iff.2 ⟨htx, fun hoffered => hapart hdrop ?_⟩, rfl⟩
      rw [← h.map_feeKey_topByFee]
      exact List.mem_map_of_mem hoffered
  have hperm := (List.perm_ext_iff_of_nodup hnodup' (hnodup.sublist (List.drop_sublist _ _))).2 hmem
  refine hperm.eq_of_pairwise (fun a b _ _ hab hba => ?_) hdown' (hdown.sublist (List.drop_sublist _ _))
  exact absurd (trans_of FeeKey.Below hab hba) (irrefl_of FeeKey.Below _)

/-- A selection is a smaller one and a selection from what that leaves. -/
theorem Valid.topByFee_add (h : pool.Valid) (limit more : ℕ) :
    pool.topByFee (limit + more) = pool.topByFee limit ++ (pool.take limit).2.topByFee more := by
  have hafter : (pool.take limit).2.Valid := h.removeBatch _
  have hheld : ∀ tx ∈ pool.topByFee (limit + more), pool.Holds tx :=
    fun tx htx => (h.mem_topByFee_iff.1 htx).1
  have hheld' : ∀ tx ∈ pool.topByFee limit ++ (pool.take limit).2.topByFee more, pool.Holds tx := by
    refine List.forall_mem_append.2 ⟨fun tx htx => (h.mem_topByFee_iff.1 htx).1, fun tx htx => ?_⟩
    exact (h.holds_take_iff.1 (hafter.mem_topByFee_iff.1 htx).1).1
  rw [← filterMap_feeKey hheld, ← filterMap_feeKey hheld', List.map_append, h.map_feeKey_topByFee,
    h.map_feeKey_topByFee, hafter.map_feeKey_topByFee, topKeys, topKeys, topKeys, h.feeIndex_take,
    List.take_add]

theorem Valid.takeRounds (h : pool.Valid) (limits : List ℕ) :
    (pool.takeRounds limits).1 = pool.topByFee limits.sum ∧
      ∀ tx, (pool.takeRounds limits).2.Holds tx ↔
        pool.Holds tx ∧ tx ∉ pool.topByFee limits.sum := by
  induction limits generalizing pool with
  | nil => exact ⟨rfl, fun tx => by simp [Mempool.takeRounds, topByFee]⟩
  | cons limit rest ih =>
      have hafter : (pool.take limit).2.Valid := h.removeBatch _
      obtain ⟨hothers, hleft⟩ := ih hafter
      rw [List.sum_cons, h.topByFee_add]
      refine ⟨congrArg (pool.topByFee limit ++ ·) hothers, fun tx => ?_⟩
      rw [List.mem_append, not_or, ← and_assoc, ← h.holds_take_iff]
      exact hleft tx

/-- From every pool that calls can reach, a producer that takes what is offered in rounds of any
sizes takes, in the same order, what one selection of their total size offers, and leaves the
rest. -/
theorem takeRounds_selects (calls : List Call) (limits : List ℕ) :
    ((reached calls).takeRounds limits).1 = (reached calls).topByFee limits.sum ∧
      ∀ tx, ((reached calls).takeRounds limits).2.Holds tx ↔
        (reached calls).Holds tx ∧ tx ∉ (reached calls).topByFee limits.sum :=
  (valid_new.foldl_after calls).takeRounds limits

end Mempool

end Kyvera
