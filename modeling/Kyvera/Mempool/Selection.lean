import Kyvera.Mempool.Admission
import Kyvera.Library.Ranking

/-!
# What the mempool offers

The block producer takes the transactions with the highest fee keys, whatever their nonces are,
while the block rules compare each nonce with the one of the account.  So what is offered passes the
rules unless a transaction whose turn has not come is ranked high enough.
-/

namespace Kyvera

open Effect Effect.Prog Std

/-! ## The order of the fee index -/

/-- One fee key ranks below another. -/
def FeeKey.Below (a b : FeeKey) : Prop := compare a b = .lt

namespace FeeKey

instance : DecidableRel Below := fun a b => inferInstanceAs (Decidable (compare a b = .lt))

theorem below_iff {a b : FeeKey} :
    a.Below b ↔ a.fee < b.fee ∨ a.fee = b.fee ∧ a.hash < b.hash := by
  have hhash : compare a.hash b.hash = .lt ↔ a.hash < b.hash := compareOfLessAndEq_eq_lt
  show (compare a.fee b.fee).then (compare a.hash b.hash) = .lt ↔ _
  rw [Ordering.then_eq_lt, compare_eq_lt, LawfulEqCmp.compare_eq_iff_eq, hhash]

instance : Std.Irrefl Below where
  irrefl a h := by
    rw [Below, ReflOrd.compare_self] at h
    cases h

instance : IsTrans FeeKey Below where
  trans _ _ _ h h' := TransCmp.lt_trans h h'

end FeeKey

namespace Mempool

variable {pool : Mempool} {tx : Transaction} {db : KyveraDb} {limit : ℕ}

/-- The number of pending transactions that rank above a transaction. -/
def rank (pool : Mempool) (tx : Transaction) : ℕ :=
  pool.feeIndex.toList.countP fun key => tx.feeKey.Below key

/-- The highest keys of the fee index. -/
def topKeys (pool : Mempool) (limit : ℕ) : List FeeKey := pool.feeIndex.toList.reverse.take limit

theorem pairwise_reverse_feeIndex (pool : Mempool) :
    pool.feeIndex.toList.reverse.Pairwise fun a b => FeeKey.Below b a :=
  List.pairwise_reverse.2 ExtTreeSet.ordered_toList

theorem mem_topKeys_iff {key : FeeKey} :
    key ∈ pool.topKeys limit ↔
      key ∈ pool.feeIndex ∧ pool.feeIndex.toList.countP (fun key' => key.Below key') < limit := by
  rw [topKeys, Ranking.mem_take_iff pool.pairwise_reverse_feeIndex, List.mem_reverse,
    ExtTreeSet.mem_toList, List.countP_reverse]

theorem Valid.getElem?_hash (h : pool.Valid) {key : FeeKey} (hkey : key ∈ pool.feeIndex) :
    ∃ tx : Transaction, pool.transactions[key.hash]? = some tx ∧ tx.feeKey = key := by
  obtain ⟨hash, tx, htx, rfl⟩ := (h.fees key).1 hkey
  have hhash := h.stored hash tx htx
  subst hhash
  exact ⟨tx, htx, rfl⟩

/-- What is offered are the transactions of the highest keys, in the order of the keys. -/
theorem Valid.map_feeKey_topByFee (h : pool.Valid) (limit : ℕ) :
    (pool.topByFee limit).map Transaction.feeKey = pool.topKeys limit := by
  have lookup : ∀ keys : List FeeKey, (∀ key ∈ keys, key ∈ pool.feeIndex) →
      (keys.filterMap fun key => pool.transactions[key.hash]?).map Transaction.feeKey = keys := by
    intro keys
    induction keys with
    | nil => exact fun _ => rfl
    | cons key rest ih =>
        intro hkeys
        obtain ⟨hkey, hrest⟩ := List.forall_mem_cons.1 hkeys
        obtain ⟨tx, htx, hfee⟩ := h.getElem?_hash hkey
        simp only [List.filterMap_cons, htx, List.map_cons, hfee, ih hrest]
  exact lookup _ fun key hkey => (mem_topKeys_iff.1 hkey).1

/-- The offered transactions are the stored ones with fewer than `limit` others above them. -/
theorem Valid.mem_topByFee_iff (h : pool.Valid) :
    tx ∈ pool.topByFee limit ↔ pool.Holds tx ∧ pool.rank tx < limit := by
  constructor
  · intro htx
    obtain ⟨key, hkey, hstored⟩ := List.mem_filterMap.1 htx
    obtain ⟨hmem, hrank⟩ := mem_topKeys_iff.1 hkey
    obtain ⟨tx', htx', rfl⟩ := h.getElem?_hash hmem
    obtain rfl : tx' = tx := Option.some.inj (htx'.symm.trans hstored)
    exact ⟨hstored, hrank⟩
  · rintro ⟨htx, hrank⟩
    exact List.mem_filterMap.2
      ⟨tx.feeKey, mem_topKeys_iff.2 ⟨(h.fees _).2 ⟨_, tx, htx, rfl⟩, hrank⟩, htx⟩

theorem Valid.pairwise_topByFee (h : pool.Valid) (limit : ℕ) :
    (pool.topByFee limit).Pairwise fun a b => b.feeKey.Below a.feeKey := by
  have hdown : (pool.topKeys limit).Pairwise fun a b => FeeKey.Below b a :=
    pool.pairwise_reverse_feeIndex.sublist (List.take_sublist _ _)
  rw [← h.map_feeKey_topByFee, List.pairwise_map] at hdown
  exact hdown

theorem Valid.nodup_topByFee (h : pool.Valid) (limit : ℕ) :
    ((pool.topByFee limit).map Transaction.hash).Nodup := by
  rw [List.Nodup, List.pairwise_map]
  apply List.Pairwise.imp_of_mem _ (h.pairwise_topByFee limit)
  intro tx tx' htx htx' hbelow hhash
  -- Both are the one transaction that is stored under this hash.
  have hstored := (h.mem_topByFee_iff.1 htx).1
  have hstored' := (h.mem_topByFee_iff.1 htx').1
  unfold Holds at hstored hstored'
  rw [hhash] at hstored
  obtain rfl : tx = tx' := Option.some.inj (hstored.symm.trans hstored')
  exact irrefl_of FeeKey.Below _ hbelow

theorem Valid.size_feeIndex (h : pool.Valid) : pool.feeIndex.size = pool.len := by
  have hkeys : (pool.transactions.toList.map fun e => e.2.feeKey).Nodup := by
    refine List.Nodup.of_map FeeKey.hash ?_
    have hhashes : (pool.transactions.toList.map fun e => e.2.feeKey).map FeeKey.hash =
        pool.transactions.toList.map Prod.fst := by
      rw [List.map_map]
      apply List.map_congr_left
      intro e he
      exact h.stored e.1 e.2 (ExtTreeMap.mem_toList_iff_getElem?_eq_some.1 he)
    rw [hhashes]
    exact TreeSum.nodup_keys _
  have hindex : pool.feeIndex.toList.Nodup :=
    pool.feeIndex.distinct_toList.imp fun hne e => hne (LawfulEqCmp.compare_eq_iff_eq.2 e)
  have hperm : pool.feeIndex.toList.Perm (pool.transactions.toList.map fun e => e.2.feeKey) := by
    refine (List.perm_ext_iff_of_nodup hindex hkeys).2 fun key => ?_
    rw [ExtTreeSet.mem_toList, List.mem_map]
    refine (h.fees key).trans ?_
    constructor
    · rintro ⟨hash, tx, htx, rfl⟩
      exact ⟨(hash, tx), ExtTreeMap.mem_toList_iff_getElem?_eq_some.2 htx, rfl⟩
    · rintro ⟨⟨hash, tx⟩, hmem, rfl⟩
      exact ⟨hash, tx, ExtTreeMap.mem_toList_iff_getElem?_eq_some.1 hmem, rfl⟩
  have hlength := hperm.length_eq
  rwa [List.length_map, ExtTreeSet.length_toList, ExtTreeMap.length_toList] at hlength

theorem Valid.length_topByFee (h : pool.Valid) (limit : ℕ) :
    (pool.topByFee limit).length = min limit pool.len := by
  rw [← List.length_map (f := Transaction.feeKey), h.map_feeKey_topByFee, topKeys, List.length_take,
    List.length_reverse, ExtTreeSet.length_toList, h.size_feeIndex]

theorem rank_le_of_below {tx' : Transaction} (h : tx.feeKey.Below tx'.feeKey) :
    pool.rank tx' ≤ pool.rank tx := by
  apply List.countP_mono_left
  intro key _ hkey
  rw [decide_eq_true_eq] at hkey ⊢
  exact trans_of FeeKey.Below h hkey

/-- Selection by fee: from every pool that calls can reach, `limit` distinct stored transactions are
offered, or all if there are fewer, by falling fees, and none of the others has a higher fee than an
offered one. -/
theorem topByFee_selects (calls : List Call) (limit : ℕ) :
    let pool := reached calls
    (pool.topByFee limit).length = min limit pool.len ∧
    (pool.topByFee limit).Nodup ∧
    (∀ tx ∈ pool.topByFee limit, pool.Holds tx) ∧
    (pool.topByFee limit).Pairwise (fun a b => b.fee ≤ a.fee) ∧
    ∀ tx ∈ pool.topByFee limit, ∀ other, pool.Holds other → other ∉ pool.topByFee limit →
      other.fee ≤ tx.fee := by
  intro pool
  have h : pool.Valid := valid_new.foldl_after calls
  refine ⟨h.length_topByFee limit, (h.nodup_topByFee limit).of_map, fun tx htx =>
    (h.mem_topByFee_iff.1 htx).1, ?_, ?_⟩
  · apply (h.pairwise_topByFee limit).imp
    intro a b hbelow
    rcases FeeKey.below_iff.1 hbelow with hlt | ⟨heq, -⟩
    · exact UInt64.le_of_lt hlt
    · exact UInt64.le_of_eq heq
  · intro tx htx other hother hout
    by_contra hfee
    have hbelow : tx.feeKey.Below other.feeKey := FeeKey.below_iff.2 (.inl (UInt64.not_le.1 hfee))
    apply hout
    exact h.mem_topByFee_iff.2
      ⟨hother, (rank_le_of_below hbelow).trans_lt (h.mem_topByFee_iff.1 htx).2⟩

/-! ## Affordable pools -/

/-- Every stored transaction can be paid by its sender's account. -/
def Funded (pool : Mempool) (db : KyveraDb) : Prop :=
  ∀ (hash : String) (tx : Transaction), pool.transactions[hash]? = some tx →
    requiredBalance tx ≤ (db.account tx.sender).balance

theorem Funded.remove (h : pool.Funded db) (hash : String) : (pool.remove hash).2.Funded db := by
  rcases hold : pool.transactions[hash]? with _ | old
  · rw [remove_of_getElem?_eq_none hold]
    exact h
  · rw [remove_of_getElem?_eq_some hold]
    intro hash' tx htx
    exact h hash' tx (TreeIndex.getElem?_erase_eq_some_iff.1 htx).2

theorem Funded.insert (h : pool.Funded db)
    (hbalance : requiredBalance tx ≤ (db.account tx.sender).balance) :
    (pool.insert tx).Funded db := by
  intro hash tx' htx'
  rcases TreeIndex.getElem?_insert_eq_some_iff.1 htx' with ⟨rfl, rfl⟩ | ⟨-, hold⟩
  · exact hbalance
  · exact h hash tx' hold

theorem Funded.addTransaction (h : pool.Funded db) (hvalid : pool.Valid) (tx : Transaction) :
    (pool.addTransaction tx db).2.Funded db := by
  have hadmissible : (pool.addTransaction tx db).1 = .ok () → Admissible pool tx db :=
    admissible_of_ok
  rcases hvalid.addTransaction_cases tx db with ⟨e, he⟩ | ⟨-, he⟩ | ⟨old, -, -, -, -, he⟩
  · rw [he]
    exact h
  · rw [he] at hadmissible ⊢
    exact h.insert (hadmissible rfl).balance
  · rw [he] at hadmissible ⊢
    exact (h.remove old.hash).insert (hadmissible rfl).balance

theorem Funded.removeBatch (h : pool.Funded db) (hashes : List String) :
    (pool.removeBatch hashes).Funded db :=
  List.foldlRecOn (motive := fun pool : Mempool => pool.Funded db) hashes _ h
    fun _ hm hash _ => hm.remove hash

/-- A call that checks accounts, if at all, in this store. -/
def Call.Against (db : KyveraDb) : Call → Prop
  | .addTransaction _ db' => db' = db
  | .remove _ => True
  | .removeBatch _ => True

/-- A pool that calls against one store can reach is affordable in it. -/
theorem funded_reached {calls : List Call} (h : ∀ call ∈ calls, call.Against db) :
    (reached calls).Funded db := by
  have step : ∀ (calls : List Call) (pool : Mempool), (∀ call ∈ calls, call.Against db) →
      pool.Valid → pool.Funded db → (calls.foldl after pool).Funded db := by
    intro calls
    induction calls with
    | nil => exact fun _ _ _ hfunded => hfunded
    | cons call rest ih =>
        intro pool hall hvalid hfunded
        obtain ⟨hcall, hrest⟩ := List.forall_mem_cons.1 hall
        apply ih _ hrest (hvalid.after call)
        cases call with
        | addTransaction tx db' =>
            obtain rfl : db' = db := hcall
            exact hfunded.addTransaction hvalid tx
        | remove hash => exact hfunded.remove hash
        | removeBatch hashes => exact hfunded.removeBatch hashes
  apply step calls new h valid_new
  intro hash tx htx
  simp [new] at htx

/-! ## What is offered -/

/-- A transaction whose nonce is not the one of its sender's stored account. -/
def OutOfTurn (db : KyveraDb) (tx : Transaction) : Prop :=
  tx.sender ≠ COINBASE_SENDER ∧
    ∃ account ∈ db.accounts[tx.sender]?, account.nonce ≠ tx.nonce

instance : DecidablePred (OutOfTurn db) := fun tx =>
  inferInstanceAs (Decidable (tx.sender ≠ COINBASE_SENDER ∧
    ∃ account ∈ db.accounts[tx.sender]?, account.nonce ≠ tx.nonce))

/-- In an affordable pool a transaction passes the sender rules unless it is out of turn. -/
theorem Funded.senderOk_iff (h : pool.Funded db) (htx : pool.transactions[tx.hash]? = some tx)
    (hpaid : tx.sender ≠ COINBASE_SENDER) : SenderOk db.accounts tx ↔ ¬ OutOfTurn db tx := by
  constructor
  · rintro hok ⟨-, account, haccount, hne⟩
    exact hne (hok account haccount).2
  · intro hturn account haccount
    have hbalance := h tx.hash tx htx
    rw [KyveraDb.account, AccountTree.account_of_getElem? haccount] at hbalance
    refine ⟨hbalance, ?_⟩
    by_contra hne
    exact hturn ⟨hpaid, account, haccount, hne⟩

/-- For every pool that calls against one store can reach, what it offers passes the block rules
exactly when each transaction that is out of turn has enough others above it to be left out. -/
theorem checkTransactions_topByFee_iff {calls : List Call} (h : ∀ call ∈ calls, call.Against db)
    (limit : ℕ) :
    ((checkTransactions ((reached calls).topByFee limit)).run db).1 = .ok () ↔
      ∀ tx, (reached calls).transactions[tx.hash]? = some tx → OutOfTurn db tx →
        limit ≤ (reached calls).rank tx := by
  have hvalid : (reached calls).Valid := valid_new.foldl_after calls
  have hfunded := funded_reached h
  rw [guards_checkTransactions.outcome_eq_ok_iff]
  constructor
  · intro htxs tx htx hturn
    by_contra hrank
    have hoffered : tx ∈ (reached calls).topByFee limit :=
      hvalid.mem_topByFee_iff.2 ⟨htx, Nat.lt_of_not_le hrank⟩
    have hsender := htxs.senders tx (mem_paidTransactions_iff.2 ⟨hoffered, hturn.1⟩)
    exact (hfunded.senderOk_iff htx hturn.1).1 hsender hturn
  · intro hranked
    refine ⟨fun tx htx => ?_, ?_⟩
    · obtain ⟨hoffered, hpaid⟩ := mem_paidTransactions_iff.1 htx
      obtain ⟨hstored, hrank⟩ := hvalid.mem_topByFee_iff.1 hoffered
      refine (hfunded.senderOk_iff hstored hpaid).2 fun hturn => ?_
      exact absurd (hranked tx hstored hturn) (Nat.not_le.2 hrank)
    · exact (List.filter_sublist.map _).nodup (hvalid.nodup_topByFee limit)

/-- A transfer and a later one of the same sender, which pays less and is left out. -/
theorem checkTransactions_topByFee_one :
    let calls := [Call.addTransaction (pendingTransfer 0 20) senderDb,
      Call.addTransaction (pendingTransfer 1 10) senderDb]
    ((checkTransactions ((reached calls).topByFee 1)).run senderDb).1 = .ok () := by
  intro calls
  have against : ∀ call ∈ calls, call.Against senderDb := by simp [calls, Call.Against]
  apply (checkTransactions_topByFee_iff against 1).2
  have ranked : ∀ e ∈ (reached calls).transactions.toList, OutOfTurn senderDb e.2 →
      1 ≤ (reached calls).rank e.2 := by
    decide +kernel
  exact fun tx htx => ranked (tx.hash, tx) (ExtTreeMap.mem_toList_iff_getElem?_eq_some.2 htx)

/-- Two transfers of one sender, both admitted and offered: the rules reject the list. -/
theorem not_checkTransactions_topByFee_two :
    let calls := [Call.addTransaction (pendingTransfer 0 10) senderDb,
      Call.addTransaction (pendingTransfer 1 10) senderDb]
    (∀ call ∈ calls, call.Against senderDb) ∧ (reached calls).len = 2 ∧
      ((checkTransactions ((reached calls).topByFee 2)).run senderDb).1 =
        .err (.invalidTransactionNonce 0 1) := by
  intro calls
  exact ⟨by simp [calls, Call.Against], by decide +kernel, by decide +kernel⟩

end Mempool

end Kyvera
