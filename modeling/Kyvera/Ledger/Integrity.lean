import Kyvera.Ledger.Footprints
import Kyvera.Ledger.Unbonding
import Kyvera.Consensus.Initialization
import Kyvera.Storage.SnapshotStack
import Kyvera.Storage.TxStore

/-!
# The integrity of the store

A database is sound when every entry of its five trees is of the kind that its key promises, and
no index entry dangles.  Single writes keep it sound, in the order in which the operations make
them: a block is written before its height, and a transaction before the entry of its sender.  So
every operation keeps it sound, also one that is cut off by a refused write, and on a sound database
no reader meets an entry that it cannot decode.
-/

namespace Kyvera

open Effect Effect.Prog Std Trace

/-! ## Sound databases -/

/-- A metadata value under a key of its kind. -/
def MetaEntry.StoredUnder (k : String) : MetaEntry → Prop
  | .tip _ => k = CHAIN_TIP_KEY
  | .text s => k = STATE_ROOT_KEY ∨ k = SNAPSHOT_COUNT_KEY ∧ ∃ n : UInt64, s = toString n
  | .snapshot _ => ∃ n, k = snapshotKey n
  | .pendingUnstake p =>
      k = pendingUnstakeKey p ∧ p.unlockEpoch = p.requestEpoch + UNBONDING_PERIOD_EPOCHS

/-- An entry of the transaction tree under a key of its kind. -/
def TxEntry.StoredUnder (k : String) : TxEntry → Prop
  | .transaction tx => k = tx.hash ∧ tx.OffIndex
  | .hash _ => ∃ sender nonce, k = senderIndexKey sender nonce

/-- Every entry is of the kind that its key promises, and no index entry dangles. -/
structure KyveraDb.Sound (db : KyveraDb) : Prop where
  accounts : db.WellFormed
  blocks : ∀ (h : String) (b : Block), db.blocksByHash[h]? = some b → b.hash = h
  heights : ∀ (n : UInt64) (h : String), db.blocksByHeight[n]? = some h →
    ∃ b, db.blocksByHash[h]? = some b
  transactions : ∀ (k : String) (v : TxEntry), db.transactions[k]? = some v → v.StoredUnder k
  senders : ∀ (k h : String), db.transactions[k]? = some (.hash h) →
    ∃ tx, db.transactions[h]? = some (.transaction tx)
  metadata : ∀ (k : String) (v : MetaEntry), db.metadata[k]? = some v → v.StoredUnder k

/-- Every entry of the metadata is of the kind that its key promises. -/
def KyveraDb.Labelled (db : KyveraDb) : Prop :=
  ∀ (k : String) (v : MetaEntry), db.metadata[k]? = some v → v.StoredUnder k

theorem sound_empty : KyveraDb.empty.Sound where
  accounts := AccountTree.wellFormed_empty
  blocks := by simp [KyveraDb.empty]
  heights := by simp [KyveraDb.empty]
  transactions := by simp [KyveraDb.empty]
  senders := by simp [KyveraDb.empty]
  metadata := by simp [KyveraDb.empty]

/-! ## Single writes -/

section Writes

variable {db : KyveraDb}

theorem KyveraDb.Sound.withAccounts (h : db.Sound) {t : AccountTree} (ht : t.WellFormed) :
    { db with accounts := t }.Sound where
  accounts := ht
  blocks := h.blocks
  heights := h.heights
  transactions := h.transactions
  senders := h.senders
  metadata := h.metadata

theorem KyveraDb.Sound.save (h : db.Sound) (a : Account) : (db.save a).Sound :=
  h.withAccounts (h.accounts.save a)

theorem KyveraDb.Sound.eraseAccount (h : db.Sound) (x : String) :
    { db with accounts := db.accounts.erase x }.Sound :=
  h.withAccounts fun y a ha => h.accounts y a (TreeIndex.getElem?_erase_eq_some_iff.1 ha).2

theorem KyveraDb.Labelled.setMetadata (h : db.Labelled) {k : String} {v : MetaEntry}
    (hv : v.StoredUnder k) : { db with metadata := db.metadata.insert k v }.Labelled := by
  intro k' v' hv'
  rcases TreeIndex.getElem?_insert_eq_some_iff.1 hv' with ⟨rfl, rfl⟩ | ⟨-, hold⟩
  · exact hv
  · exact h k' v' hold

theorem KyveraDb.Labelled.eraseMetadata (h : db.Labelled) (k : String) :
    { db with metadata := db.metadata.erase k }.Labelled :=
  fun k' v hv => h k' v (TreeIndex.getElem?_erase_eq_some_iff.1 hv).2

theorem KyveraDb.Sound.withMetadata (h : db.Sound) {t : ExtTreeMap String MetaEntry}
    (ht : { db with metadata := t }.Labelled) : { db with metadata := t }.Sound where
  accounts := h.accounts
  blocks := h.blocks
  heights := h.heights
  transactions := h.transactions
  senders := h.senders
  metadata := ht

theorem KyveraDb.Sound.labelled (h : db.Sound) : db.Labelled := h.metadata

theorem KyveraDb.Sound.setMetadata (h : db.Sound) {k : String} {v : MetaEntry}
    (hv : v.StoredUnder k) : { db with metadata := db.metadata.insert k v }.Sound :=
  h.withMetadata (h.labelled.setMetadata hv)

theorem KyveraDb.Sound.insertBlock (h : db.Sound) (b : Block) :
    { db with blocksByHash := db.blocksByHash.insert b.hash b }.Sound where
  accounts := h.accounts
  blocks := by
    intro k b' hb'
    rcases TreeIndex.getElem?_insert_eq_some_iff.1 hb' with ⟨rfl, rfl⟩ | ⟨-, hold⟩
    · rfl
    · exact h.blocks k b' hold
  heights := by
    intro n k hk
    obtain ⟨b', hb'⟩ := h.heights n k hk
    by_cases heq : k = b.hash
    · exact ⟨b, TreeIndex.getElem?_insert_eq_some_iff.2 (.inl ⟨heq, rfl⟩)⟩
    · exact ⟨b', TreeIndex.getElem?_insert_eq_some_iff.2 (.inr ⟨heq, hb'⟩)⟩
  transactions := h.transactions
  senders := h.senders
  metadata := h.metadata

/-- A height is written for a block that is stored already. -/
theorem KyveraDb.Sound.insertHeight (h : db.Sound) {k : String} {b : Block}
    (hb : db.blocksByHash[k]? = some b) (n : UInt64) :
    { db with blocksByHeight := db.blocksByHeight.insert n k }.Sound where
  accounts := h.accounts
  blocks := h.blocks
  heights := by
    intro n' k' hk'
    rcases TreeIndex.getElem?_insert_eq_some_iff.1 hk' with ⟨-, rfl⟩ | ⟨-, hold⟩
    · exact ⟨b, hb⟩
    · exact h.heights n' k' hold
  transactions := h.transactions
  senders := h.senders
  metadata := h.metadata

/-- A transaction is written under its hash, which is no key of the sender index. -/
theorem KyveraDb.Sound.insertTransaction (h : db.Sound) {tx : Transaction} (htx : tx.OffIndex) :
    { db with transactions := db.transactions.insert tx.hash (.transaction tx) }.Sound where
  accounts := h.accounts
  blocks := h.blocks
  heights := h.heights
  transactions := by
    intro k v hv
    rcases TreeIndex.getElem?_insert_eq_some_iff.1 hv with ⟨rfl, rfl⟩ | ⟨-, hold⟩
    · exact ⟨rfl, htx⟩
    · exact h.transactions k v hold
  senders := by
    intro k hash hhash
    rcases TreeIndex.getElem?_insert_eq_some_iff.1 hhash with ⟨-, hnew⟩ | ⟨-, hold⟩
    · cases hnew
    · obtain ⟨tx', htx'⟩ := h.senders k hash hold
      by_cases heq : hash = tx.hash
      · exact ⟨tx, TreeIndex.getElem?_insert_eq_some_iff.2 (.inl ⟨heq, rfl⟩)⟩
      · exact ⟨tx', TreeIndex.getElem?_insert_eq_some_iff.2 (.inr ⟨heq, htx'⟩)⟩
  metadata := h.metadata

/-- An entry of the sender index is written for a transaction that is stored already.  It does not
take the place of a transaction. -/
theorem KyveraDb.Sound.insertSender (h : db.Sound) {hash : String} {tx : Transaction}
    (htx : db.transactions[hash]? = some (.transaction tx)) (sender : String) (nonce : UInt64) :
    { db with
      transactions := db.transactions.insert (senderIndexKey sender nonce) (.hash hash) }.Sound where
  accounts := h.accounts
  blocks := h.blocks
  heights := h.heights
  transactions := by
    intro k v hv
    rcases TreeIndex.getElem?_insert_eq_some_iff.1 hv with ⟨rfl, rfl⟩ | ⟨-, hold⟩
    · exact ⟨sender, nonce, rfl⟩
    · exact h.transactions k v hold
  senders := by
    have hkept : ∀ (k : String) (tx' : Transaction), db.transactions[k]? = some (.transaction tx') →
        (db.transactions.insert (senderIndexKey sender nonce) (.hash hash))[k]? =
          some (.transaction tx') := by
      intro k tx' hk
      obtain ⟨rfl, hoff⟩ := h.transactions k _ hk
      exact TreeIndex.getElem?_insert_eq_some_iff.2 (.inr ⟨hoff.ne_senderIndexKey _ _, hk⟩)
    intro k hash' hhash'
    rcases TreeIndex.getElem?_insert_eq_some_iff.1 hhash' with ⟨-, hnew⟩ | ⟨-, hold⟩
    · cases hnew
      exact ⟨tx, hkept _ tx htx⟩
    · obtain ⟨tx', htx'⟩ := h.senders k hash' hold
      exact ⟨tx', hkept _ tx' htx'⟩
  metadata := h.metadata

end Writes

/-! ## Operations -/

/-- An operation that writes to the database. -/
inductive StorageCall where
  | onAccounts (op : Op)
  | saveAccount (account : Account)
  | saveBlock (block : Block)
  | saveChainTip (tip : ChainTip)
  | saveBlockTransactions (transactions : List Transaction)
  | saveStateRoot (root : String)
  | saveSnapshot (snapshot : StateSnapshot)
  | rollbackToSnapshot (snapshot : StateSnapshot)
  | initializeChain (now : ℤ)

/-- The program of an operation, without its result. -/
def StorageCall.program (H : Sha3) : StorageCall → DbM Unit
  | .onAccounts op => op.program
  | .saveAccount account => Kyvera.saveAccount account
  | .saveBlock block => Kyvera.saveBlock block
  | .saveChainTip tip => Kyvera.saveChainTip tip
  | .saveBlockTransactions transactions => Kyvera.saveBlockTransactions transactions
  | .saveStateRoot root => Kyvera.saveStateRoot root
  | .saveSnapshot snapshot => Kyvera.saveSnapshot snapshot
  | .rollbackToSnapshot snapshot => Kyvera.rollbackToSnapshot snapshot
  | .initializeChain now => do let _ ← Kyvera.initializeChain H now

/-- The hashes of the transactions that an operation saves are no keys of the sender index. -/
def StorageCall.OffIndex : StorageCall → Prop
  | .saveBlockTransactions transactions => ∀ tx ∈ transactions, tx.OffIndex
  | _ => True

/-- A property of databases is kept by the single writes to the accounts and the metadata, and by
those of a saved block. -/
structure KeptByWrites (I : KyveraDb → Prop) : Prop where
  save : ∀ (a : Account) (db : KyveraDb), Keeps I db (db.save a)
  eraseAccount : ∀ (x : String) (db : KyveraDb),
    Keeps I db { db with accounts := db.accounts.erase x }
  setMetadata : ∀ {k : String} {v : MetaEntry}, v.StoredUnder k → ∀ db : KyveraDb,
    Keeps I db { db with metadata := db.metadata.insert k v }
  eraseMetadata : ∀ (k : String) (db : KyveraDb),
    Keeps I db { db with metadata := db.metadata.erase k }
  saveBlock : ∀ (b : Block) (db : KyveraDb), (saveBlock b).EveryWrite (Keeps I) db

section Operations

variable {H : Sha3} {db : KyveraDb} {I : KyveraDb → Prop}

/-- A write that keeps the property of every database. -/
def KeepingWrite (I : KyveraDb → Prop) (f : KyveraDb → KyveraDb) : Prop := ∀ db, Keeps I db (f db)

theorem everyWrite_of_keepingWrite {α : Type} {p : DbM α} (h : p.WritesOnly (KeepingWrite I))
    (db : KyveraDb) : p.EveryWrite (Keeps I) db :=
  h.everyWrite (fun _ hf => hf) db

namespace KeptByWrites

theorem savesAccounts (h : KeptByWrites I) : SavesAccounts (KeepingWrite I) := h.save

theorem set (h : KeptByWrites I) {k : String} {v : MetaEntry} (hv : v.StoredUnder k)
    (db : KyveraDb) : (KyveraDb.setMetadata k v).EveryWrite (Keeps I) db :=
  everyWrite_of_keepingWrite (writesOnly_set (h.setMetadata hv) _) db

theorem op (h : KeptByWrites I) (op : Op) (db : KyveraDb) :
    op.program.EveryWrite (Keeps I) db :=
  everyWrite_of_keepingWrite (op.writesOnly h.savesAccounts
    (fun p hp => h.setMetadata (v := .pendingUnstake p) ⟨rfl, hp⟩) fun k _ => h.eraseMetadata k) db

theorem saveSnapshot (h : KeptByWrites I) (s : StateSnapshot) (db : KyveraDb) :
    (saveSnapshot s).EveryWrite (Keeps I) db :=
  everyWrite_of_keepingWrite (writesOnly_saveSnapshot s
    (fun n => h.setMetadata (v := .snapshot s) ⟨n, rfl⟩)
    fun n => h.setMetadata (.inr ⟨rfl, n, rfl⟩)) db

theorem rollbackToSnapshot (h : KeptByWrites I) (s : StateSnapshot) (db : KyveraDb) :
    (rollbackToSnapshot s).EveryWrite (Keeps I) db :=
  everyWrite_of_keepingWrite
    (h.savesAccounts.rollbackToSnapshot s h.eraseAccount (h.setMetadata (.inl rfl))) db

theorem recordGenesis (h : KeptByWrites I) (H : Sha3) (genesis : Block) (db : KyveraDb) :
    (recordGenesis H genesis).EveryWrite (Keeps I) db := by
  apply (h.saveBlock genesis db).bind
  intro _ m
  apply (readOnly_computeStateRoot H m).everyWrite.bind
  intro root m
  apply (h.set (k := STATE_ROOT_KEY) (v := .text root) (.inl rfl) m).bind
  intro _ m
  apply (Prog.readOnly_orPanic _ m).everyWrite.bind
  intro tip m
  apply (h.set (k := CHAIN_TIP_KEY) (v := .tip tip) rfl m).bind
  intro _ m
  trivial

theorem initializeChain (h : KeptByWrites I) (H : Sha3) (now : ℤ) (db : KyveraDb) :
    (initializeChain H now).EveryWrite (Keeps I) db := by
  have hcredit : ∀ x v, (creditAccount x v).WritesOnly (KeepingWrite I) :=
    h.savesAccounts.creditAccount
  have hlater : laterCredits.WritesOnly (KeepingWrite I) :=
    (hcredit _ _).bind fun _ => (hcredit _ _).bind fun _ => (hcredit _ _).bind fun _ => hcredit _ _
  rw [initializeChain_eq]
  apply (readOnly_prepareGenesis H now db).everyWrite.bind
  intro genesis m
  apply (everyWrite_of_keepingWrite (hcredit _ _) m).bind
  intro _ m
  apply (everyWrite_of_keepingWrite hlater m).bind
  intro _ m
  exact h.recordGenesis H genesis m

/-- Every write of an operation keeps what single writes keep, if those of saved transactions do. -/
theorem everyWrite (h : KeptByWrites I) (H : Sha3) {call : StorageCall}
    (htxs : ∀ txs, call = .saveBlockTransactions txs →
      ∀ db, (saveBlockTransactions txs).EveryWrite (Keeps I) db) (db : KyveraDb) :
    (call.program H).EveryWrite (Keeps I) db := by
  cases call with
  | onAccounts op => exact h.op op db
  | saveAccount a => exact everyWrite_of_keepingWrite (h.savesAccounts.saveAccount a) db
  | saveBlock b => exact h.saveBlock b db
  | saveChainTip tip => exact h.set (v := .tip tip) rfl db
  | saveBlockTransactions txs => exact htxs txs rfl db
  | saveStateRoot root => exact h.set (v := .text root) (.inl rfl) db
  | saveSnapshot s => exact h.saveSnapshot s db
  | rollbackToSnapshot s => exact h.rollbackToSnapshot s db
  | initializeChain now => exact (h.initializeChain H now db).bind fun _ _ => trivial

end KeptByWrites

/-! ### What is kept -/

/-- The height of a block is written when the block is stored. -/
theorem keptByWrites_sound : KeptByWrites KyveraDb.Sound where
  save a _ h := h.save a
  eraseAccount x _ h := h.eraseAccount x
  setMetadata hv _ h := h.setMetadata hv
  eraseMetadata k _ h := h.withMetadata (h.labelled.eraseMetadata k)
  saveBlock b _ := ⟨⟨_, rfl⟩, fun h => h.insertBlock b, ⟨_, rfl⟩,
    fun h => h.insertHeight ExtTreeMap.getElem?_insert_self _, trivial⟩

theorem keptByWrites_labelled : KeptByWrites KyveraDb.Labelled where
  save _ _ h := h
  eraseAccount _ _ h := h
  setMetadata hv _ h := h.setMetadata hv
  eraseMetadata k _ h := h.eraseMetadata k
  saveBlock _ _ := ⟨⟨_, rfl⟩, fun h => h, ⟨_, rfl⟩, fun h => h, trivial⟩

/-- The entry of a sender is written when its transaction is stored. -/
theorem sound_saveTransaction {tx : Transaction} (htx : tx.OffIndex) (db : KyveraDb) :
    (saveTransaction tx).EveryWrite (Keeps KyveraDb.Sound) db := by
  unfold saveTransaction
  split_ifs
  · trivial
  · exact ⟨⟨_, rfl⟩, fun h => h.insertTransaction htx, ⟨_, rfl⟩,
      fun h => h.insertSender ExtTreeMap.getElem?_insert_self _ _, trivial⟩

theorem labelled_saveTransaction (tx : Transaction) (db : KyveraDb) :
    (saveTransaction tx).EveryWrite (Keeps KyveraDb.Labelled) db := by
  unfold saveTransaction
  split_ifs
  · trivial
  · exact ⟨⟨_, rfl⟩, fun h => h, ⟨_, rfl⟩, fun h => h, trivial⟩

theorem everyWrite_saveBlockTransactions {txs : List Transaction}
    (h : ∀ tx ∈ txs, ∀ db, (saveTransaction tx).EveryWrite (Keeps I) db) (db : KyveraDb) :
    (saveBlockTransactions txs).EveryWrite (Keeps I) db := by
  induction txs generalizing db with
  | nil => trivial
  | cons tx rest ih =>
      obtain ⟨htx, hrest⟩ := List.forall_mem_cons.1 h
      exact (htx db).bind fun _ m => ih hrest m

theorem StorageCall.sound (H : Sha3) {call : StorageCall} (h : call.OffIndex) (db : KyveraDb) :
    (call.program H).EveryWrite (Keeps KyveraDb.Sound) db := by
  refine keptByWrites_sound.everyWrite H (fun txs hcall => ?_) db
  rw [hcall] at h
  exact everyWrite_saveBlockTransactions fun tx htx => sound_saveTransaction (h tx htx)

theorem StorageCall.labelled (H : Sha3) (call : StorageCall) (db : KyveraDb) :
    (call.program H).EveryWrite (Keeps KyveraDb.Labelled) db :=
  keptByWrites_labelled.everyWrite H
    (fun _ _ => everyWrite_saveBlockTransactions fun tx _ => labelled_saveTransaction tx) db

theorem KyveraDb.Sound.op (h : db.Sound) (op : Op) : (op.program.run db).2.Sound :=
  (keptByWrites_sound.op op db).run h

theorem KyveraDb.Sound.refused_initializeChain (h : db.Sound) (H : Sha3) (now : ℤ) (n : ℕ) :
    ((initializeChain H now).runRefusing n db).2.Sound := by
  have hkept := (keptByWrites_sound.initializeChain H now db).runRefusing n
  exact hkept h

end Operations

/-! ## Readers -/

section Keys

variable {k : String} {v : MetaEntry}

theorem ne_snapshotKey (hk : k.toList.take 9 ≠ "snapshot:".toList) (n : UInt64) :
    k ≠ snapshotKey n := by
  rintro rfl
  rw [snapshotKey, String.toList_append, List.take_append_of_le_length (by decide)] at hk
  exact hk rfl

theorem ne_pendingUnstakeKey (hk : k.toList.take 9 ≠ "pending_u".toList) (p : PendingUnstake) :
    k ≠ pendingUnstakeKey p := by
  rintro rfl
  simp only [pendingUnstakeKey, String.toList_append, List.append_assoc] at hk
  rw [List.take_append_of_le_length (by decide)] at hk
  exact hk (by decide)

theorem MetaEntry.StoredUnder.tip (h : v.StoredUnder CHAIN_TIP_KEY) : ∃ t, v = .tip t := by
  cases v with
  | tip t => exact ⟨t, rfl⟩
  | text s => rcases h with h | ⟨h, -⟩ <;> exact absurd h (by decide)
  | snapshot s => exact absurd h.choose_spec (ne_snapshotKey (by decide) _)
  | pendingUnstake p => exact absurd h.1 (ne_pendingUnstakeKey (by decide) p)

theorem MetaEntry.StoredUnder.root (h : v.StoredUnder STATE_ROOT_KEY) : ∃ s, v = .text s := by
  cases v with
  | tip t => exact absurd (show STATE_ROOT_KEY = CHAIN_TIP_KEY from h) (by decide)
  | text s => exact ⟨s, rfl⟩
  | snapshot s => exact absurd h.choose_spec (ne_snapshotKey (by decide) _)
  | pendingUnstake p => exact absurd h.1 (ne_pendingUnstakeKey (by decide) p)

theorem MetaEntry.StoredUnder.count (h : v.StoredUnder SNAPSHOT_COUNT_KEY) :
    ∃ n : UInt64, v = .text (toString n) := by
  cases v with
  | tip t => exact absurd (show SNAPSHOT_COUNT_KEY = CHAIN_TIP_KEY from h) (by decide)
  | text s =>
      rcases h with h | ⟨-, n, rfl⟩
      · exact absurd h (by decide)
      · exact ⟨n, rfl⟩
  | snapshot s => exact absurd h.choose_spec (ne_snapshotKey (by decide) _)
  | pendingUnstake p => exact absurd h.1 (ne_pendingUnstakeKey (by decide) p)

theorem MetaEntry.StoredUnder.decodePending (h : v.StoredUnder k)
    (hk : PENDING_UNSTAKE_PREFIX.toList.isPrefixOf k.toList = true) :
    ∃ p, v = .pendingUnstake p := by
  cases v with
  | pendingUnstake p => exact ⟨p, rfl⟩
  | tip t =>
      rw [show k = CHAIN_TIP_KEY from h] at hk
      exact absurd hk (by decide)
  | text s => rcases h with rfl | ⟨rfl, -⟩ <;> exact absurd hk (by decide)
  | snapshot s =>
      obtain ⟨n, rfl⟩ := h
      rw [snapshotKey, String.toList_append] at hk
      exact absurd hk (by simp [PENDING_UNSTAKE_PREFIX])

theorem TxEntry.StoredUnder.hash {v : TxEntry} {address : String} (h : v.StoredUnder k)
    (hk : (SENDER_PREFIX ++ address).toList.isPrefixOf k.toList = true) : ∃ t, v = .hash t := by
  cases v with
  | hash t => exact ⟨t, rfl⟩
  | transaction tx =>
      obtain ⟨rfl, hoff⟩ := h
      rw [hoff.not_isPrefixOf] at hk
      cases hk

end Keys

/-- Every entry of a scan for withdrawals decodes. -/
theorem KyveraDb.Labelled.decoded {db : KyveraDb} (h : db.Labelled) :
    ∀ e ∈ db.withdrawals, ∃ p, e.2 = .pendingUnstake p := by
  intro e he
  obtain ⟨hstored, hkey⟩ := mem_withdrawals_iff.1 he
  exact (h _ _ hstored).decodePending hkey

namespace KyveraDb.Sound

variable {db : KyveraDb} {parse : String → Except String Transaction}

theorem run_loadStateRoot (h : db.Sound) : ∃ r, loadStateRoot.run db = (.ok r, db) := by
  unfold loadStateRoot
  rw [run_bind, KyveraDb.run_getMetadata]
  rcases hv : db.metadata[STATE_ROOT_KEY]? with _ | v
  · exact ⟨none, rfl⟩
  · obtain ⟨s, rfl⟩ := (h.metadata _ _ hv).root
    exact ⟨some s, rfl⟩

theorem transaction_of_mem (h : db.Sound) {address hash : String}
    (hmem : hash ∈ (scanPrefix db.transactions (SENDER_PREFIX ++ address)).map fun e => e.2.text) :
    ∃ tx, db.transactions[hash]? = some (.transaction tx) ∧ tx.hash = hash := by
  obtain ⟨e, he, rfl⟩ := List.mem_map.1 hmem
  obtain ⟨hentry, hkey⟩ := List.mem_filter.1 he
  have hstored := ExtTreeMap.mem_toList_iff_getElem?_eq_some.1 hentry
  obtain ⟨t, ht⟩ := (h.transactions _ _ hstored).hash hkey
  rw [ht] at hstored
  obtain ⟨tx, htx⟩ := h.senders _ _ hstored
  rw [ht]
  exact ⟨tx, htx, (h.transactions _ _ htx).1.symm⟩

/-- The recent transactions of a sender are found without exception, under the hashes listed for
it. -/
theorem run_getRecent (h : db.Sound) (address : String) (limit : ℕ) :
    ∃ hashes txs, (getTransactionsBySender address).run db = (.ok hashes, db) ∧
      (getRecentTransactionsBySender parse address limit).run db = (.ok txs, db) ∧
      txs.map Transaction.hash = hashes.reverse.take limit := by
  have hstored : ∀ hash ∈ (((scanPrefix db.transactions (SENDER_PREFIX ++ address)).map
      fun e => e.2.text).reverse.take limit),
      ∃ tx, db.transactions[hash]? = some (.transaction tx) ∧ tx.hash = hash := fun hash hmem =>
    h.transaction_of_mem (List.mem_reverse.1 (List.mem_of_mem_take hmem))
  have hfound : ∀ l : List String,
      (∀ hash ∈ l, ∃ tx, db.transactions[hash]? = some (.transaction tx) ∧ tx.hash = hash) →
      ∃ txs : List Transaction, (l.mapM (getTransaction parse)).run db = (.ok (txs.map some), db) ∧
        txs.map Transaction.hash = l := by
    intro l hl
    induction l with
    | nil => exact ⟨[], rfl, rfl⟩
    | cons hash rest ih =>
        obtain ⟨⟨tx, htx, hhash⟩, hrest⟩ := List.forall_mem_cons.1 hl
        obtain ⟨txs, hrun, hmap⟩ := ih hrest
        have hone : (getTransaction parse hash).run db = (.ok (some tx), db) := by
          rw [getTransaction, run_get_bind, htx]
          rfl
        refine ⟨tx :: txs, ?_, by rw [List.map_cons, hhash, hmap]⟩
        rw [List.mapM_cons, run_bind_of_ok hone, run_bind_of_ok hrun]
        rfl
  obtain ⟨txs, hrun, hmap⟩ := hfound _ hstored
  refine ⟨_, txs, rfl, ?_, hmap⟩
  have hscan : (getTransactionsBySender address).run db = (.ok _, db) := rfl
  rw [getRecentTransactionsBySender, run_bind_of_ok hscan, run_bind_of_ok hrun]
  simp

theorem run_getPendingUnstakes (h : db.Sound) (x : String) :
    (getPendingUnstakes x).run db =
      (.ok ((db.withdrawals.filterMap fun e => e.2.decodePending).filter (·.address = x)), db) := by
  have hall : ∀ l : List (String × MetaEntry), (∀ e ∈ l, ∃ p, e.2 = .pendingUnstake p) →
      (l.mapM fun e => okOr "Deserialize error" e.2.decodePending : DbM _).run db =
        (.ok (l.filterMap fun e => e.2.decodePending), db) := by
    intro l hl
    induction l with
    | nil => rfl
    | cons e rest ih =>
        obtain ⟨⟨p, hp⟩, hrest⟩ := List.forall_mem_cons.1 hl
        have hone : (okOr "Deserialize error" e.2.decodePending : DbM _).run db = (.ok p, db) := by
          rw [hp]
          rfl
        rw [List.mapM_cons, run_bind_of_ok hone, run_bind_of_ok (ih hrest), List.filterMap_cons, hp]
        rfl
  have hlist := hall _ h.labelled.decoded
  unfold KyveraDb.withdrawals at hlist ⊢
  rw [getPendingUnstakes, run_get_bind, run_bind_of_ok hlist]
  rfl

end KyveraDb.Sound

/-! ## Runs -/

/-- The database after an operation: on a disk that takes every write, or on one that refuses the
write after the first so many. -/
def StorageCall.perform (H : Sha3) (db : KyveraDb) (call : StorageCall × Option ℕ) : KyveraDb :=
  match call.2 with
  | none => ((call.1.program H).run db).2
  | some n => ((call.1.program H).runRefusing n db).2

/-- An operation is performed, whatever its outcome. -/
def Performed (H : Sha3) (db : KyveraDb) (call : StorageCall × Option ℕ) (db' : KyveraDb) : Prop :=
  db' = StorageCall.perform H db call

section Runs

variable {H : Sha3} {db db' : KyveraDb} {I : KyveraDb → Prop} {call : StorageCall × Option ℕ}
  {run : List (Step KyveraDb (StorageCall × Option ℕ))}

/-- What every write of an operation keeps, it keeps, also when it is cut off. -/
theorem Performed.keeps (h : Performed H db call db')
    (hwrites : (call.1.program H).EveryWrite (Keeps I) db) (hs : I db) : I db' := by
  obtain ⟨call, _ | n⟩ := call
  · exact (show db' = _ from h) ▸ hwrites.run hs
  · exact (show db' = _ from h) ▸ hwrites.runRefusing n hs

end Runs

end Kyvera
