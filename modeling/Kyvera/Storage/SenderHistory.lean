import Kyvera.Storage.TxStore

/-!
# The history of a sender

What a sequence of saves leaves in the transaction tree is, under each hash, the transaction saved
last with it and, under each sender and nonce, the hash saved last for them.  The history of an
address is read by a scan over the keys that start with the address, without the delimiter that
ends it: so it also lists the transactions of every sender whose address goes on.
-/

namespace Kyvera

open Effect Effect.Prog Std

/-! ## What a sequence of saves leaves -/

/-- The database after a transaction is saved. -/
def KyveraDb.saveTx (db : KyveraDb) (tx : Transaction) : KyveraDb :=
  { db with
    transactions :=
      (db.transactions.insert tx.hash (.transaction tx)).insert (senderIndexKey tx.sender tx.nonce)
        (.hash tx.hash) }

/-- The fresh database after a sequence of saves. -/
def savedTxs (saves : List Transaction) : KyveraDb := saves.foldl KyveraDb.saveTx .empty

/-- Of the saved transactions of its sender and nonce, it is the one saved last. -/
def LastSaved (saves : List Transaction) (tx : Transaction) : Prop :=
  Journal.last Transaction.senderKey saves tx.senderKey = some tx

instance (saves : List Transaction) (tx : Transaction) : Decidable (LastSaved saves tx) :=
  inferInstanceAs (Decidable (_ = _))

/-- The entry of a transaction in the sender index. -/
def Transaction.indexed (tx : Transaction) : String × TxEntry :=
  (senderIndexKey tx.sender tx.nonce, .hash tx.hash)

section Saves

variable {saves : List Transaction} {k : String} {v : TxEntry}

theorem run_saveTransaction {tx : Transaction} (h : tx.HexHash) (db : KyveraDb) :
    (saveTransaction tx).run db = (.ok (), db.saveTx tx) := by
  rw [saveTransaction, h.isEmpty_eq_false, if_neg Bool.false_ne_true]
  rfl

theorem run_saveBlockTransactions (h : ∀ tx ∈ saves, tx.HexHash) :
    (saveBlockTransactions saves).run KyveraDb.empty = (.ok (), savedTxs saves) :=
  run_forM_of_forall_ok (fun tx htx db => run_saveTransaction (h tx htx) db) KyveraDb.empty

theorem savedTxs_concat (saves : List Transaction) (tx : Transaction) :
    savedTxs (saves ++ [tx]) = (savedTxs saves).saveTx tx := List.foldl_concat ..

theorem getElem?_saveTx_index (db : KyveraDb) (tx : Transaction) (key : String × UInt64) :
    (db.saveTx tx).transactions[senderIndexKey key.1 key.2]? =
      if tx.senderKey = key then some (.hash tx.hash)
      else (db.transactions.insert tx.hash (.transaction tx))[senderIndexKey key.1 key.2]? := by
  unfold KyveraDb.saveTx
  by_cases h : tx.senderKey = key
  · rw [if_pos h, ← h]
    exact ExtTreeMap.getElem?_insert_self
  · rw [if_neg h]
    refine TreeSum.getElem?_insert_of_ne _ _ fun e => h ?_
    obtain ⟨hsender, hnonce⟩ := senderIndexKey_inj e
    exact Prod.ext hsender hnonce

theorem getElem?_savedTxs_index (h : ∀ tx ∈ saves, tx.HexHash) (key : String × UInt64) :
    (savedTxs saves).transactions[senderIndexKey key.1 key.2]? =
      (Journal.last Transaction.senderKey saves key).map fun tx => .hash tx.hash := by
  induction saves using List.reverseRecOn with
  | nil => exact ExtTreeMap.getElem?_empty
  | append_singleton saves tx ih =>
      obtain ⟨hsaves, htx⟩ := List.forall_mem_append.1 h
      rw [savedTxs_concat, getElem?_saveTx_index, Journal.last_concat]
      split_ifs
      · rfl
      · rw [TreeSum.getElem?_insert_of_ne _ _
          ((htx tx List.mem_cons_self).offIndex.ne_senderIndexKey _ _),
          ih hsaves]

theorem getElem?_savedTxs_hash (h : ∀ tx ∈ saves, tx.HexHash) {tx : Transaction}
    (htx : tx.HexHash) :
    (savedTxs saves).transactions[tx.hash]? =
      (Journal.last Transaction.hash saves tx.hash).map .transaction := by
  induction saves using List.reverseRecOn with
  | nil => exact ExtTreeMap.getElem?_empty
  | append_singleton saves u ih =>
      obtain ⟨hsaves, hu⟩ := List.forall_mem_append.1 h
      rw [savedTxs_concat, Journal.last_concat, KyveraDb.saveTx,
        TreeSum.getElem?_insert_of_ne _ _ (htx.offIndex.ne_senderIndexKey _ _).symm]
      by_cases hhash : u.hash = tx.hash
      · rw [if_pos hhash, hhash, ExtTreeMap.getElem?_insert_self]
        rfl
      · rw [if_neg hhash, TreeSum.getElem?_insert_of_ne _ _ hhash, ih hsaves]

theorem key_of_savedTxs (h : (savedTxs saves).transactions[k]? = some v) :
    ∃ tx ∈ saves, k = tx.hash ∨ k = senderIndexKey tx.sender tx.nonce := by
  induction saves using List.reverseRecOn with
  | nil => exact absurd (ExtTreeMap.getElem?_empty.symm.trans h) (by simp)
  | append_singleton saves tx ih =>
      have hlast : tx ∈ saves ++ [tx] := List.mem_append_right _ List.mem_cons_self
      by_cases hkey : k = senderIndexKey tx.sender tx.nonce
      · exact ⟨tx, hlast, .inr hkey⟩
      by_cases hhash : k = tx.hash
      · exact ⟨tx, hlast, .inl hhash⟩
      rw [savedTxs_concat, KyveraDb.saveTx, TreeSum.getElem?_insert_of_ne _ _ (Ne.symm hkey),
        TreeSum.getElem?_insert_of_ne _ _ (Ne.symm hhash)] at h
      obtain ⟨u, hu, hkey⟩ := ih h
      exact ⟨u, List.mem_append_left _ hu, hkey⟩

/-- A scan under an address finds the index entries of the last transactions whose key goes on with
the address. -/
theorem mem_scanPrefix_iff (h : ∀ tx ∈ saves, tx.HexHash) {address : String}
    {e : String × TxEntry} :
    (savedTxs saves).transactions[e.1]? = some e.2 ∧
        (SENDER_PREFIX ++ address).toList.isPrefixOf e.1.toList = true ↔
      ∃ tx, LastSaved saves tx ∧
        address.toList <+: tx.sender.toList ++ ':' :: (pad20 tx.nonce).toList ∧ e = tx.indexed := by
  constructor
  · rintro ⟨hstored, hstart⟩
    obtain ⟨k, v⟩ := e
    obtain ⟨tx, htx, rfl | rfl⟩ := key_of_savedTxs hstored
    · rw [(h tx htx).offIndex.not_isPrefixOf] at hstart
      cases hstart
    · have hkey := getElem?_savedTxs_index h tx.senderKey
      obtain ⟨u, hu⟩ := Journal.exists_last (f := Transaction.senderKey) htx
      have hsame : u.senderKey = tx.senderKey := Journal.key_of_last hu
      obtain ⟨hsender, hnonce⟩ := Prod.mk.inj hsame
      rw [hu] at hkey
      refine ⟨u, ?_, ?_, ?_⟩
      · rw [LastSaved, hsame, hu]
      · rw [hsender, hnonce]
        exact isPrefixOf_senderIndexKey_iff.1 hstart
      · rw [Transaction.indexed, hsender, hnonce]
        exact Prod.ext rfl (Option.some.inj (hstored.symm.trans hkey))
  · rintro ⟨tx, hlast, hstart, rfl⟩
    have hkey := getElem?_savedTxs_index h tx.senderKey
    rw [hlast] at hkey
    exact ⟨hkey, isPrefixOf_senderIndexKey_iff.2 hstart⟩

end Saves

/-! ## What a history is -/

/-- The transactions of an address by ascending nonces, of each nonce the one saved last. -/
structure IsHistory (saves : List Transaction) (address : String) (txs : List Transaction) :
    Prop where
  ascending : txs.Pairwise fun t u => t.nonce < u.nonce
  mem_iff : ∀ tx, tx ∈ txs ↔ tx.sender = address ∧ LastSaved saves tx

/-- After a sequence of saves, the two reads of an address return its history: its hashes, and the
last of its transactions, newest first. -/
def HistoryExact (parse : String → Except String Transaction) (saves : List Transaction)
    (address : String) : Prop :=
  ∃ db txs, (saveBlockTransactions saves).run KyveraDb.empty = (.ok (), db) ∧
    IsHistory saves address txs ∧
    (getTransactionsBySender address).run db = (.ok (txs.map Transaction.hash), db) ∧
    ∀ limit, (getRecentTransactionsBySender parse address limit).run db =
      (.ok (txs.reverse.take limit), db)

/-- The key of a saved transaction of another sender goes on with the address. -/
def Intrudes (saves : List Transaction) (address : String) : Prop :=
  ∃ tx ∈ saves, tx.sender ≠ address ∧
    address.toList <+: tx.sender.toList ++ ':' :: (pad20 tx.nonce).toList

instance (saves : List Transaction) (address : String) : Decidable (Intrudes saves address) :=
  inferInstanceAs (Decidable (∃ tx ∈ saves, _ ∧ _))

/-- The history of an address, from the saves alone. -/
def senderHistory (saves : List Transaction) (address : String) : List Transaction :=
  Journal.byKey Transaction.nonce (saves.filter fun tx => tx.sender = address)

section History

variable {parse : String → Except String Transaction} {saves txs : List Transaction}
  {address : String}

theorem isHistory_senderHistory (saves : List Transaction) (address : String) :
    IsHistory saves address (senderHistory saves address) where
  ascending := (Journal.pairwise_byKey _ _).imp compare_eq_lt.1
  mem_iff tx := by
    rw [senderHistory, Journal.mem_byKey_iff, Journal.last_filter]
    constructor
    · intro h
      have hkey := Journal.key_of_last h
      rw [← hkey] at h
      exact ⟨(Prod.mk.inj hkey).1, h⟩
    · rintro ⟨rfl, h⟩
      exact h

theorem IsHistory.eq (h : IsHistory saves address txs) : txs = senderHistory saves address := by
  have hhistory := isHistory_senderHistory saves address
  refine h.ascending.eq_of_mem_iff hhistory.ascending fun tx => ?_
  rw [h.mem_iff, hhistory.mem_iff]

theorem IsHistory.pairwise_indexed (h : IsHistory saves address txs) :
    (txs.map Transaction.indexed).Pairwise fun d e => compare d.1 e.1 = .lt := by
  refine List.pairwise_map.2 (h.ascending.imp_of_mem fun ht hu hlt => ?_)
  unfold Transaction.indexed
  rw [((h.mem_iff _).1 ht).1, ((h.mem_iff _).1 hu).1]
  exact compare_senderIndexKey address hlt

/-- Without an intruder, the scan finds the entries of the history. -/
theorem IsHistory.scanPrefix_eq (h : ∀ tx ∈ saves, tx.HexHash)
    (hhistory : IsHistory saves address txs) (hnone : ¬ Intrudes saves address) :
    scanPrefix (savedTxs saves).transactions (SENDER_PREFIX ++ address) =
      txs.map Transaction.indexed := by
  refine TreeSum.filter_toList_eq hhistory.pairwise_indexed fun e => ?_
  rw [mem_scanPrefix_iff h, List.mem_map]
  constructor
  · rintro ⟨tx, htx, rfl⟩
    obtain ⟨rfl, hlast⟩ := (hhistory.mem_iff tx).1 htx
    exact ⟨tx, hlast, List.prefix_append _ _, rfl⟩
  · rintro ⟨tx, hlast, hstart, rfl⟩
    have hsender : tx.sender = address := by
      by_contra hne
      exact hnone ⟨tx, Journal.mem_of_last hlast, hne, hstart⟩
    exact ⟨tx, (hhistory.mem_iff tx).2 ⟨hsender, hlast⟩, rfl⟩

/-- A scan as long as the history has no intruder. -/
theorem IsHistory.not_intrudes (h : ∀ tx ∈ saves, tx.HexHash)
    (hhistory : IsHistory saves address txs)
    (hlength : (scanPrefix (savedTxs saves).transactions (SENDER_PREFIX ++ address)).length ≤
      txs.length) : ¬ Intrudes saves address := by
  rintro ⟨tx, htx, hne, hstart⟩
  have hmem : ∀ e, e ∈ scanPrefix (savedTxs saves).transactions (SENDER_PREFIX ++ address) ↔
      ∃ tx, LastSaved saves tx ∧
        address.toList <+: tx.sender.toList ++ ':' :: (pad20 tx.nonce).toList ∧ e = tx.indexed := by
    intro e
    rw [← mem_scanPrefix_iff h, scanPrefix, List.mem_filter,
      ExtTreeMap.mem_toList_iff_getElem?_eq_some]
  have hnodup := TreeSum.nodup_of_ordered hhistory.pairwise_indexed
  have hsubset : txs.map Transaction.indexed ⊆
      scanPrefix (savedTxs saves).transactions (SENDER_PREFIX ++ address) := by
    intro e he
    obtain ⟨u, hu, rfl⟩ := List.mem_map.1 he
    obtain ⟨rfl, hlast⟩ := (hhistory.mem_iff u).1 hu
    exact (hmem _).2 ⟨u, hlast, List.prefix_append _ _, rfl⟩
  have hperm := (List.subperm_of_subset hnodup hsubset).perm_of_length_le
    (by rwa [List.length_map])
  -- The intruder's entry would be one of the history.
  obtain ⟨u, hu⟩ := Journal.exists_last (f := Transaction.senderKey) htx
  have hkey : u.senderKey = tx.senderKey := Journal.key_of_last hu
  obtain ⟨hsender, hnonce⟩ := Prod.mk.inj hkey
  have hlast : LastSaved saves u := by
    rw [LastSaved, hkey, hu]
  have hentry := hperm.mem_iff.2 ((hmem u.indexed).2 ⟨u, hlast, by rwa [hsender, hnonce], rfl⟩)
  obtain ⟨w, hw, hsame⟩ := List.mem_map.1 hentry
  obtain ⟨hsame, -⟩ := senderIndexKey_inj (Prod.mk.inj hsame).1
  exact hne (hsender.symm.trans (hsame.symm.trans ((hhistory.mem_iff w).1 hw).1))

/-- The transaction that is stored under the hash of another one. -/
def Transaction.stored (saves : List Transaction) (tx : Transaction) : Transaction :=
  (Journal.last Transaction.hash saves tx.hash).getD tx

theorem last_hash_eq_stored {tx : Transaction} (htx : tx ∈ saves) :
    Journal.last Transaction.hash saves tx.hash = some (tx.stored saves) := by
  obtain ⟨u, hu⟩ := Journal.exists_last (f := Transaction.hash) htx
  rw [Transaction.stored, hu]
  rfl

theorem run_getTransaction (h : ∀ tx ∈ saves, tx.HexHash) {tx : Transaction} (htx : tx ∈ saves) :
    (getTransaction parse tx.hash).run (savedTxs saves) =
      (.ok (Journal.last Transaction.hash saves tx.hash), savedTxs saves) := by
  have hstored := getElem?_savedTxs_hash h (h tx htx)
  rw [last_hash_eq_stored htx] at hstored ⊢
  rw [getTransaction, run_get_bind, hstored]
  rfl

theorem run_getTransactionsBySender (address : String) (db : KyveraDb) :
    (getTransactionsBySender address).run db =
      (.ok ((scanPrefix db.transactions (SENDER_PREFIX ++ address)).map fun e => e.2.text),
        db) := rfl

theorem map_text_indexed (txs : List Transaction) :
    ((txs.map Transaction.indexed).map fun e => e.2.text) = txs.map Transaction.hash := by
  rw [List.map_map]
  rfl

/-- Without an intruder, the recent transactions are those stored under the hashes of the
history. -/
theorem IsHistory.run_getRecent (h : ∀ tx ∈ saves, tx.HexHash)
    (hhistory : IsHistory saves address txs) (hnone : ¬ Intrudes saves address) (limit : ℕ) :
    (getRecentTransactionsBySender parse address limit).run (savedTxs saves) =
      (.ok ((txs.reverse.take limit).map (Transaction.stored saves)), savedTxs saves) := by
  have hsaved : ∀ tx ∈ txs.reverse.take limit, tx ∈ saves := fun tx htx =>
    Journal.mem_of_last ((hhistory.mem_iff tx).1 (List.mem_reverse.1 (List.mem_of_mem_take htx))).2
  have hfound : (((txs.reverse.take limit).map Transaction.hash).mapM (getTransaction parse)).run
      (savedTxs saves) = (.ok (((txs.reverse.take limit).map Transaction.hash).map
        (Journal.last Transaction.hash saves)), savedTxs saves) := by
    apply run_mapM_of_forall_ok
    intro hash hmem
    obtain ⟨tx, htx, rfl⟩ := List.mem_map.1 hmem
    exact run_getTransaction h (hsaved tx htx)
  rw [getRecentTransactionsBySender, run_bind_of_ok (run_getTransactionsBySender ..),
    hhistory.scanPrefix_eq h hnone, map_text_indexed, ← List.map_reverse, ← List.map_take,
    run_bind_of_ok hfound, List.map_map]
  have hall : ((txs.reverse.take limit).map
      (Journal.last Transaction.hash saves ∘ Transaction.hash)).filterMap id =
        (txs.reverse.take limit).map (Transaction.stored saves) := by
    rw [List.filterMap_map, ← List.filterMap_eq_map]
    exact List.filterMap_congr fun tx htx => last_hash_eq_stored (hsaved tx htx)
  exact congrArg (fun found => (Outcome.ok found, savedTxs saves)) hall

/-- An exact history has no intruder, as there is one hash for each of its nonces. -/
theorem HistoryExact.not_intrudes (h : ∀ tx ∈ saves, tx.HexHash)
    (hexact : HistoryExact parse saves address) : ¬ Intrudes saves address := by
  obtain ⟨db, txs, hsaved, hhistory, hhashes, -⟩ := hexact
  cases (run_saveBlockTransactions h).symm.trans hsaved
  rw [run_getTransactionsBySender, Prod.mk.injEq, Outcome.ok.injEq] at hhashes
  have hlength := congrArg List.length hhashes.1
  rw [List.length_map, List.length_map] at hlength
  exact hhistory.not_intrudes h hlength.le

/-- The exact condition for an exact history: no key of another sender goes on with the address,
and the hash of each of its transactions was last saved with this transaction. -/
theorem historyExact_iff (h : ∀ tx ∈ saves, tx.HexHash) :
    HistoryExact parse saves address ↔
      ¬ Intrudes saves address ∧
      ∀ tx ∈ saves, tx.sender = address → LastSaved saves tx →
        Journal.last Transaction.hash saves tx.hash = some tx := by
  constructor
  · intro hexact
    have hnone := hexact.not_intrudes h
    refine ⟨hnone, fun tx hsaved hsender hlast => ?_⟩
    obtain ⟨db, txs, hrun, hhistory, -, hrecent⟩ := hexact
    cases (run_saveBlockTransactions h).symm.trans hrun
    -- A limit that lists the whole history lists this transaction.
    have hread := hrecent txs.reverse.length
    rw [hhistory.run_getRecent h hnone, List.take_length, Prod.mk.injEq, Outcome.ok.injEq] at hread
    have htx : tx ∈ txs := (hhistory.mem_iff tx).2 ⟨hsender, hlast⟩
    have hself : tx.stored saves = tx :=
      List.map_inj_left.1 (hread.1.trans (List.map_id _).symm) tx (List.mem_reverse.2 htx)
    rw [last_hash_eq_stored hsaved, hself]
  · rintro ⟨hnone, hstored⟩
    have hhistory := isHistory_senderHistory saves address
    refine ⟨_, _, run_saveBlockTransactions h, hhistory, ?_, fun limit => ?_⟩
    · rw [run_getTransactionsBySender, hhistory.scanPrefix_eq h hnone, map_text_indexed]
    · have hself : ∀ tx ∈ (senderHistory saves address).reverse.take limit,
          tx.stored saves = id tx := by
        intro tx htx
        obtain ⟨hsender, hlast⟩ :=
          (hhistory.mem_iff tx).1 (List.mem_reverse.1 (List.mem_of_mem_take htx))
        rw [Transaction.stored, hstored tx (Journal.mem_of_last hlast) hsender hlast]
        rfl
      rw [hhistory.run_getRecent h hnone, List.map_inj_left.2 hself, List.map_id]

end History

/-- Two nonces of one sender, the first one saved twice, and another sender. -/
theorem historyExact_two_senders :
    let tx := Transaction.new 0 "kyv1a" "kyv1c" 40 10 0 .transfer []
    let hash := fun c => String.ofList (List.replicate 64 c)
    let saves := [{ tx with hash := hash 'a' }, { tx with nonce := 10, hash := hash 'b' },
      { tx with sender := "kyv1b", hash := hash 'c' }, { tx with amount := 50, hash := hash 'd' }]
    HistoryExact (fun _ => .error "expected value at line 1 column 1") saves "kyv1a" := by
  intro tx hash saves
  have hhex : ∀ tx ∈ saves, tx.HexHash := by
    simp only [saves, List.forall_mem_cons]
    exact ⟨Transaction.hexHash_replicate rfl (by decide),
      Transaction.hexHash_replicate rfl (by decide),
      Transaction.hexHash_replicate rfl (by decide),
      Transaction.hexHash_replicate rfl (by decide), List.forall_mem_nil _⟩
  exact (historyExact_iff hhex).2 ⟨by decide, by decide⟩

/-- A transaction is listed under the beginning of its sender's address. -/
theorem not_historyExact_shortened :
    let tx := { Transaction.new 0 "kyv1bb" "kyv1c" 40 10 0 .transfer [] with
      hash := String.ofList (List.replicate 64 'a') }
    tx.HexHash ∧
    ((saveBlockTransactions [tx] >>= fun _ => getTransactionsBySender "kyv1b").run
      KyveraDb.empty).1 = .ok [tx.hash] ∧
    ¬ HistoryExact (fun _ => .error "expected value at line 1 column 1") [tx] "kyv1b" := by
  intro tx
  have hhex : tx.HexHash := Transaction.hexHash_replicate rfl (by decide)
  refine ⟨hhex, by decide, fun hexact => ?_⟩
  exact hexact.not_intrudes (List.forall_mem_singleton.2 hhex) (by decide)

end Kyvera
