import Kyvera.Library.Footprint
import Kyvera.Ledger.Replay

/-!
# What the operations write

Apart from withdrawals, the operations on the accounts save accounts and do nothing else.  A
request for a withdrawal also stores its record, and processing matured withdrawals removes
records.  The footprints are stated for any set of writes that contains these.
-/

namespace Kyvera

open Effect Effect.Prog

section Accounts

variable {W : (KyveraDb → KyveraDb) → Prop} {x : String} {v : UInt64} {tx : Transaction}

/-- Every save of an account is one of the writes. -/
def SavesAccounts (W : (KyveraDb → KyveraDb) → Prop) : Prop := ∀ a : Account, W fun db => db.save a

theorem SavesAccounts.saveAccount (hW : SavesAccounts W) (a : Account) :
    (saveAccount a).WritesOnly W :=
  writesOnly_set (hW a) _

@[simp] theorem writesOnly_getAccount (x : String) : (getAccount x).WritesOnly W :=
  fun _ => trivial

@[simp] theorem writesOnly_getOrCreateAccount (x : String) :
    (getOrCreateAccount x).WritesOnly W := by
  apply (writesOnly_getAccount x).bind
  rintro (_ | a) <;> trivial

theorem SavesAccounts.creditAccount (hW : SavesAccounts W) (x : String) (v : UInt64) :
    (creditAccount x v).WritesOnly W := by
  apply (writesOnly_getOrCreateAccount x).bind
  intro account
  apply (writesOnly_okOr _ _).bind
  intro balance
  exact hW.saveAccount _

theorem SavesAccounts.creditNonzero (hW : SavesAccounts W) (x : String) (v : UInt64) :
    (creditNonzero x v).WritesOnly W :=
  (hW.creditAccount x v).ite trivial

theorem SavesAccounts.debitAccount (hW : SavesAccounts W) (x : String) (v : UInt64) :
    (debitAccount x v).WritesOnly W := by
  apply (writesOnly_getOrCreateAccount x).bind
  intro account
  exact WritesOnly.ite trivial (hW.saveAccount _)

theorem SavesAccounts.incrementNonce (hW : SavesAccounts W) (x : String) :
    (incrementNonce x).WritesOnly W := by
  apply (writesOnly_getOrCreateAccount x).bind
  intro account
  apply (writesOnly_orPanic _).bind
  intro nonce
  exact hW.saveAccount _

theorem SavesAccounts.lockStake (hW : SavesAccounts W) (x : String) (v : UInt64) :
    (lockStake x v).WritesOnly W := by
  apply (writesOnly_getOrCreateAccount x).bind
  intro account
  apply WritesOnly.ite (writesOnly_err _)
  apply (writesOnly_okOr _ _).bind
  intro staked
  exact hW.saveAccount _

theorem SavesAccounts.unlockStake (hW : SavesAccounts W) (x : String) (v : UInt64) :
    (unlockStake x v).WritesOnly W := by
  apply (writesOnly_getOrCreateAccount x).bind
  intro account
  apply WritesOnly.ite (writesOnly_err _)
  apply (writesOnly_okOr _ _).bind
  intro balance
  exact hW.saveAccount _

/-! ## Transactions -/

theorem SavesAccounts.applyTransfer (hW : SavesAccounts W) (tx : Transaction) :
    (applyTransfer tx).WritesOnly W := by
  apply (writesOnly_getOrCreateAccount _).bind
  intro sender
  apply (writesOnly_okOr _ _).bind
  intro totalCost
  refine WritesOnly.ite trivial (WritesOnly.ite trivial ?_)
  apply (writesOnly_orPanic _).bind
  intro nonce
  apply (hW.saveAccount _).bind
  intro _
  apply (writesOnly_getOrCreateAccount _).bind
  intro receiver
  apply (writesOnly_okOr _ _).bind
  intro balance
  apply (hW.saveAccount _).bind
  intro _
  exact hW.creditNonzero _ _

theorem SavesAccounts.applyStakeLock (hW : SavesAccounts W) (tx : Transaction) :
    (applyStakeLock tx).WritesOnly W := by
  apply (writesOnly_getOrCreateAccount _).bind
  intro account
  apply (writesOnly_okOr _ _).bind
  intro totalCost
  refine WritesOnly.ite trivial (WritesOnly.ite trivial ?_)
  apply (writesOnly_okOr _ _).bind
  intro staked
  apply (writesOnly_orPanic _).bind
  intro nonce
  apply (hW.saveAccount _).bind
  intro _
  exact hW.creditNonzero _ _

theorem SavesAccounts.applyStakeUnlock (hW : SavesAccounts W) (tx : Transaction) :
    (applyStakeUnlock tx).WritesOnly W := by
  apply (writesOnly_getOrCreateAccount _).bind
  intro account
  refine WritesOnly.ite trivial (WritesOnly.ite trivial (WritesOnly.ite trivial ?_))
  apply (writesOnly_okOr _ _).bind
  intro balance
  apply (writesOnly_orPanic _).bind
  intro nonce
  apply (hW.saveAccount _).bind
  intro _
  exact hW.creditNonzero _ _

theorem SavesAccounts.applyFeeOnly (hW : SavesAccounts W) (tx : Transaction) :
    (applyFeeOnly tx).WritesOnly W := by
  apply (writesOnly_getOrCreateAccount _).bind
  intro sender
  refine WritesOnly.ite trivial (WritesOnly.ite trivial ?_)
  apply (writesOnly_orPanic _).bind
  intro nonce
  apply (hW.saveAccount _).bind
  intro _
  exact hW.creditNonzero _ _

theorem SavesAccounts.applyTransaction (hW : SavesAccounts W) (tx : Transaction) :
    (applyTransaction tx).WritesOnly W := by
  unfold Kyvera.applyTransaction
  cases tx.transactionType with
  | transfer => exact hW.applyTransfer tx
  | stakeLock => exact hW.applyStakeLock tx
  | stakeUnlock => exact hW.applyStakeUnlock tx
  | contractDeploy | contractCall => exact hW.applyFeeOnly tx

/-! ## Rewards and slashing -/

theorem SavesAccounts.applyCoinbase (hW : SavesAccounts W) (coinbase : Transaction)
    (share : UInt64) : (applyCoinbase coinbase share).WritesOnly W := by
  refine WritesOnly.ite trivial ((hW.creditNonzero _ _).bind fun _ => ?_)
  exact hW.creditNonzero _ _

theorem SavesAccounts.distributeLoop (hW : SavesAccounts W) (totalShare : UInt64)
    (totalWeight : ℕ) (weights : List (String × UInt64)) (distributed : UInt64) :
    (distributeLoop totalShare totalWeight distributed weights).WritesOnly W := by
  induction weights generalizing distributed with
  | nil => trivial
  | cons e rest ih =>
      unfold Kyvera.distributeLoop
      exact WritesOnly.ite ((hW.creditAccount _ _).bind fun _ => ih _) (ih _)

theorem SavesAccounts.distributeValidatorRewards (hW : SavesAccounts W) (totalShare : UInt64) :
    (distributeValidatorRewards totalShare).WritesOnly W := by
  refine WritesOnly.ite trivial (WritesOnly.bind (fun _ => trivial) fun validators => ?_)
  refine WritesOnly.ite trivial (WritesOnly.ite trivial ?_)
  exact hW.distributeLoop _ _ _ _

theorem SavesAccounts.applyEpochRewards (hW : SavesAccounts W) (coinbase : Transaction)
    (fees : UInt64) : (applyEpochRewards coinbase fees).WritesOnly W := by
  apply (hW.applyCoinbase coinbase 0).bind
  intro _
  apply (writesOnly_orPanic _).bind
  intro share
  apply (hW.distributeValidatorRewards share).bind
  intro distributed
  exact hW.creditNonzero _ _

theorem SavesAccounts.slashValidator (hW : SavesAccounts W) (x : String) (slashBps : UInt64) :
    (slashValidator x slashBps).WritesOnly W := by
  apply (writesOnly_getAccount x).bind
  intro found
  apply (writesOnly_okOr _ _).bind
  intro account
  refine WritesOnly.ite trivial (WritesOnly.ite trivial ?_)
  apply (writesOnly_orPanic _).bind
  intro staked
  apply (hW.saveAccount _).bind
  intro _
  exact (hW.creditAccount _ _).bind fun _ => trivial

/-! ## Withdrawals -/

theorem SavesAccounts.requestUnstake (hW : SavesAccounts W)
    (hrecord : ∀ p : PendingUnstake, p.unlockEpoch = p.requestEpoch + UNBONDING_PERIOD_EPOCHS →
      W fun db =>
        { db with metadata := db.metadata.insert (pendingUnstakeKey p) (.pendingUnstake p) })
    (x : String) (v e : UInt64) : (requestUnstake x v e).WritesOnly W := by
  apply (writesOnly_getAccount x).bind
  intro found
  apply (writesOnly_okOr _ _).bind
  intro account
  apply WritesOnly.ite (writesOnly_err _)
  apply (hW.saveAccount _).bind
  intro _
  rcases hunlock : U64.checkedAdd e UNBONDING_PERIOD_EPOCHS with _ | unlock
  · trivial
  · rw [orPanic_some, done_bind]
    refine WritesOnly.bind (writesOnly_set (hrecord ⟨x, v, e, unlock⟩ ?_) _) fun _ => trivial
    obtain ⟨-, rfl⟩ :=
      (U64.exists_checkedAdd_iff (P := fun c => c = unlock)).1 ⟨unlock, hunlock, rfl⟩
    rfl

theorem SavesAccounts.maturedLoop (hW : SavesAccounts W) (epoch : UInt64)
    (entries : List (String × MetaEntry)) (total : UInt64) (keys : List String) :
    (maturedLoop epoch total keys entries).WritesOnly W := by
  induction entries generalizing total keys with
  | nil => trivial
  | cons e rest ih =>
      obtain ⟨key, value⟩ := e
      apply (writesOnly_okOr _ _).bind
      intro pending
      exact WritesOnly.ite ((hW.creditAccount _ _).bind fun _ => ih _ _) (ih _ _)

theorem returns_maturedLoop (P : String → Prop) (epoch : UInt64)
    {entries : List (String × MetaEntry)} (hentries : ∀ e ∈ entries, P e.1) (total : UInt64)
    {keys : List String} (hkeys : ∀ k ∈ keys, P k) :
    (maturedLoop epoch total keys entries).Returns fun r => ∀ k ∈ r.2, P k := by
  induction entries generalizing total keys with
  | nil => exact hkeys
  | cons e rest ih =>
      obtain ⟨key, value⟩ := e
      obtain ⟨hkey, hrest⟩ := List.forall_mem_cons.1 hentries
      apply (returns_true _).bind
      intro pending _
      split_ifs
      · refine (returns_true _).bind fun _ _ => ih hrest _ ?_
        exact List.forall_mem_append.2 ⟨hkeys, by simpa using hkey⟩
      · exact ih hrest _ hkeys

theorem SavesAccounts.processMaturedUnstakes (hW : SavesAccounts W)
    (hremove : ∀ key : String, PENDING_UNSTAKE_PREFIX.toList.isPrefixOf key.toList = true →
      W fun db => { db with metadata := db.metadata.erase key }) (epoch : UInt64) :
    (processMaturedUnstakes epoch).WritesOnly W := by
  intro db
  have hscan : ∀ e ∈ scanPrefix db.metadata PENDING_UNSTAKE_PREFIX,
      PENDING_UNSTAKE_PREFIX.toList.isPrefixOf e.1.toList = true :=
    fun e he => (List.mem_filter.1 he).2
  apply (hW.maturedLoop epoch _ 0 []).bind_of_returns
    (returns_maturedLoop (fun key => PENDING_UNSTAKE_PREFIX.toList.isPrefixOf key.toList = true)
      epoch hscan 0 (List.forall_mem_nil _))
  intro r hr
  apply WritesOnly.bind (writesOnly_forM fun key hkey => writesOnly_set (hremove key (hr key hkey)) _)
  exact fun _ => trivial

/-- The footprint of any operation on the accounts. -/
theorem Op.writesOnly (hW : SavesAccounts W)
    (hrecord : ∀ p : PendingUnstake, p.unlockEpoch = p.requestEpoch + UNBONDING_PERIOD_EPOCHS →
      W fun db =>
        { db with metadata := db.metadata.insert (pendingUnstakeKey p) (.pendingUnstake p) })
    (hremove : ∀ key : String, PENDING_UNSTAKE_PREFIX.toList.isPrefixOf key.toList = true →
      W fun db => { db with metadata := db.metadata.erase key }) (op : Op) :
    op.program.WritesOnly W := by
  cases op with
  | applyTransaction tx => exact hW.applyTransaction tx
  | creditAccount x v => exact hW.creditAccount x v
  | debitAccount x v => exact hW.debitAccount x v
  | incrementNonce x => exact hW.incrementNonce x
  | lockStake x v => exact hW.lockStake x v
  | unlockStake x v => exact hW.unlockStake x v
  | requestUnstake x v e => exact (hW.requestUnstake hrecord x v e).bind fun _ => trivial
  | processMaturedUnstakes e => exact (hW.processMaturedUnstakes hremove e).bind fun _ => trivial
  | slashValidator x bps => exact (hW.slashValidator x bps).bind fun _ => trivial
  | applyCoinbase coinbase share => exact hW.applyCoinbase coinbase share
  | applyEpochRewards coinbase fees => exact hW.applyEpochRewards coinbase fees

/-! ## Snapshots -/

theorem writesOnly_getSnapshotCount : getSnapshotCount.WritesOnly W := by
  apply WritesOnly.bind (p := KyveraDb.getMetadata SNAPSHOT_COUNT_KEY) fun _ => trivial
  rintro (_ | s | _ | _ | _)
  · trivial
  · dsimp only
    cases Text.parseUInt64 s <;> trivial
  · trivial
  · trivial
  · trivial

theorem writesOnly_saveSnapshot (s : StateSnapshot)
    (hsnapshot : ∀ n, W fun db =>
      { db with metadata := db.metadata.insert (snapshotKey n) (.snapshot s) })
    (hcount : ∀ n : UInt64, W fun db =>
      { db with metadata := db.metadata.insert SNAPSHOT_COUNT_KEY (.text (toString n)) }) :
    (saveSnapshot s).WritesOnly W := by
  apply writesOnly_getSnapshotCount.bind
  intro n
  apply (writesOnly_set (hsnapshot n) _).bind
  intro _
  exact writesOnly_set (hcount n) _

theorem SavesAccounts.rollbackToSnapshot (hW : SavesAccounts W) (s : StateSnapshot)
    (herase : ∀ x, W fun db => { db with accounts := db.accounts.erase x })
    (hroot : W fun db =>
      { db with metadata := db.metadata.insert STATE_ROOT_KEY (.text s.stateRoot) }) :
    (rollbackToSnapshot s).WritesOnly W := by
  apply WritesOnly.bind (writesOnly_forM ?_) fun _ => writesOnly_set hroot _
  rintro ⟨x, _ | a⟩ -
  · exact writesOnly_set (herase x) _
  · exact hW.saveAccount a

/-! ## The metadata -/

/-- The metadata tree is not written. -/
def KeepsMetadata (f : KyveraDb → KyveraDb) : Prop := ∀ db, (f db).metadata = db.metadata

theorem savesAccounts_keepsMetadata : SavesAccounts KeepsMetadata := fun _ _ => rfl

theorem metadata_of_writesOnly {α : Type} {p : DbM α} (hp : p.WritesOnly KeepsMetadata)
    (db : KyveraDb) : (p.run db).2.metadata = db.metadata :=
  hp.frame (fun _ hf => hf) db

end Accounts

end Kyvera
