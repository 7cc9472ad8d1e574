import Kyvera.Library.Respects
import Kyvera.Ledger.Distribution
import Kyvera.Ledger.MaturityScan
import Kyvera.Ledger.Replay

/-!
# What the operations read

Apart from the release of withdrawals, the operations look at the accounts and at nothing else, so
databases with the same accounts have the same accounts after the same operation, which stops in
the same way.  What an operation can write is known before it starts: the addresses in its
arguments, the treasury, and for rewards and releases those of the validators and of the matured
withdrawals.
-/

namespace Kyvera

open Effect Effect.Prog

/-! ## The accounts are all that is read -/

section Reads

variable {R : KyveraDb → KyveraDb → Prop} {x : String} {v : UInt64} {tx : Transaction}

/-- Related databases have the same accounts, also after the same save. -/
structure FixesAccounts (R : KyveraDb → KyveraDb → Prop) : Prop where
  accounts : ∀ {db db'}, R db db' → db.accounts = db'.accounts
  save : ∀ {db db'} (a : Account), R db db' → R (db.save a) (db'.save a)

theorem FixesAccounts.saveAccount (hR : FixesAccounts R) (a : Account) :
    (saveAccount a).Respects R :=
  respects_set (fun _ _ h => hR.save a h) _

theorem FixesAccounts.getAccount (hR : FixesAccounts R) (x : String) : (getAccount x).Respects R :=
  respects_get_bind KyveraDb.accounts (fun t => pure t[x]?) (fun _ => rfl)
    (fun _ _ h => hR.accounts h) fun _ => respects_done _

theorem FixesAccounts.getOrCreateAccount (hR : FixesAccounts R) (x : String) :
    (getOrCreateAccount x).Respects R := by
  apply (hR.getAccount x).bind
  rintro (_ | a) <;> exact respects_done _

theorem FixesAccounts.creditAccount (hR : FixesAccounts R) (x : String) (v : UInt64) :
    (creditAccount x v).Respects R := by
  apply (hR.getOrCreateAccount x).bind
  intro account
  apply (respects_okOr _ _).bind
  intro balance
  exact hR.saveAccount _

theorem FixesAccounts.creditNonzero (hR : FixesAccounts R) (x : String) (v : UInt64) :
    (creditNonzero x v).Respects R :=
  (hR.creditAccount x v).ite (respects_done ())

theorem FixesAccounts.debitAccount (hR : FixesAccounts R) (x : String) (v : UInt64) :
    (debitAccount x v).Respects R := by
  apply (hR.getOrCreateAccount x).bind
  intro account
  exact Respects.ite (respects_err _) (hR.saveAccount _)

theorem FixesAccounts.incrementNonce (hR : FixesAccounts R) (x : String) :
    (incrementNonce x).Respects R := by
  apply (hR.getOrCreateAccount x).bind
  intro account
  apply (respects_orPanic _).bind
  intro nonce
  exact hR.saveAccount _

theorem FixesAccounts.lockStake (hR : FixesAccounts R) (x : String) (v : UInt64) :
    (lockStake x v).Respects R := by
  apply (hR.getOrCreateAccount x).bind
  intro account
  apply Respects.ite (respects_err _)
  apply (respects_okOr _ _).bind
  intro staked
  exact hR.saveAccount _

theorem FixesAccounts.unlockStake (hR : FixesAccounts R) (x : String) (v : UInt64) :
    (unlockStake x v).Respects R := by
  apply (hR.getOrCreateAccount x).bind
  intro account
  apply Respects.ite (respects_err _)
  apply (respects_okOr _ _).bind
  intro balance
  exact hR.saveAccount _

theorem FixesAccounts.applyTransfer (hR : FixesAccounts R) (tx : Transaction) :
    (applyTransfer tx).Respects R := by
  apply (hR.getOrCreateAccount _).bind
  intro sender
  apply (respects_okOr _ _).bind
  intro totalCost
  refine Respects.ite (respects_err _) (Respects.ite (respects_err _) ?_)
  apply (respects_orPanic _).bind
  intro nonce
  apply (hR.saveAccount _).bind
  intro _
  apply (hR.getOrCreateAccount _).bind
  intro receiver
  apply (respects_okOr _ _).bind
  intro balance
  apply (hR.saveAccount _).bind
  intro _
  exact hR.creditNonzero _ _

theorem FixesAccounts.applyStakeLock (hR : FixesAccounts R) (tx : Transaction) :
    (applyStakeLock tx).Respects R := by
  apply (hR.getOrCreateAccount _).bind
  intro account
  apply (respects_okOr _ _).bind
  intro totalCost
  refine Respects.ite (respects_err _) (Respects.ite (respects_err _) ?_)
  apply (respects_okOr _ _).bind
  intro staked
  apply (respects_orPanic _).bind
  intro nonce
  apply (hR.saveAccount _).bind
  intro _
  exact hR.creditNonzero _ _

theorem FixesAccounts.applyStakeUnlock (hR : FixesAccounts R) (tx : Transaction) :
    (applyStakeUnlock tx).Respects R := by
  apply (hR.getOrCreateAccount _).bind
  intro account
  refine Respects.ite (respects_err _) (Respects.ite (respects_err _)
    (Respects.ite (respects_err _) ?_))
  apply (respects_okOr _ _).bind
  intro balance
  apply (respects_orPanic _).bind
  intro nonce
  apply (hR.saveAccount _).bind
  intro _
  exact hR.creditNonzero _ _

theorem FixesAccounts.applyFeeOnly (hR : FixesAccounts R) (tx : Transaction) :
    (applyFeeOnly tx).Respects R := by
  apply (hR.getOrCreateAccount _).bind
  intro sender
  refine Respects.ite (respects_err _) (Respects.ite (respects_err _) ?_)
  apply (respects_orPanic _).bind
  intro nonce
  apply (hR.saveAccount _).bind
  intro _
  exact hR.creditNonzero _ _

theorem FixesAccounts.applyTransaction (hR : FixesAccounts R) (tx : Transaction) :
    (applyTransaction tx).Respects R := by
  unfold Kyvera.applyTransaction
  cases tx.transactionType with
  | transfer => exact hR.applyTransfer tx
  | stakeLock => exact hR.applyStakeLock tx
  | stakeUnlock => exact hR.applyStakeUnlock tx
  | contractDeploy | contractCall => exact hR.applyFeeOnly tx

theorem FixesAccounts.applyCoinbase (hR : FixesAccounts R) (coinbase : Transaction)
    (share : UInt64) : (applyCoinbase coinbase share).Respects R := by
  refine Respects.ite (respects_err _) ((hR.creditNonzero _ _).bind fun _ => ?_)
  exact hR.creditNonzero _ _

theorem FixesAccounts.distributeLoop (hR : FixesAccounts R) (totalShare : UInt64)
    (totalWeight : ℕ) (weights : List (String × UInt64)) (distributed : UInt64) :
    (distributeLoop totalShare totalWeight distributed weights).Respects R := by
  induction weights generalizing distributed with
  | nil => exact respects_done _
  | cons e rest ih =>
      unfold Kyvera.distributeLoop
      exact Respects.ite ((hR.creditAccount _ _).bind fun _ => ih _) (ih _)

theorem FixesAccounts.getValidators (hR : FixesAccounts R) : getValidators.Respects R :=
  respects_get_bind KyveraDb.accounts
    (fun t => pure ((t.toList.map Prod.snd).filter Account.isValidator)) (fun _ => rfl)
    (fun _ _ h => hR.accounts h) fun _ => respects_done _

theorem FixesAccounts.distributeValidatorRewards (hR : FixesAccounts R) (totalShare : UInt64) :
    (distributeValidatorRewards totalShare).Respects R := by
  refine Respects.ite (respects_done _) (hR.getValidators.bind fun validators => ?_)
  refine Respects.ite (respects_done _) (Respects.ite (respects_done _) ?_)
  exact hR.distributeLoop _ _ _ _

theorem FixesAccounts.applyEpochRewards (hR : FixesAccounts R) (coinbase : Transaction)
    (fees : UInt64) : (applyEpochRewards coinbase fees).Respects R := by
  apply (hR.applyCoinbase coinbase 0).bind
  intro _
  apply (respects_orPanic _).bind
  intro share
  apply (hR.distributeValidatorRewards share).bind
  intro distributed
  exact hR.creditNonzero _ _

theorem FixesAccounts.slashValidator (hR : FixesAccounts R) (x : String) (slashBps : UInt64) :
    (slashValidator x slashBps).Respects R := by
  apply (hR.getAccount x).bind
  intro found
  apply (respects_okOr _ _).bind
  intro account
  refine Respects.ite (respects_err _) (Respects.ite (respects_done _) ?_)
  apply (respects_orPanic _).bind
  intro staked
  apply (hR.saveAccount _).bind
  intro _
  exact (hR.creditAccount _ _).bind fun _ => respects_done _

theorem FixesAccounts.requestUnstake (hR : FixesAccounts R)
    (hrecord : ∀ {db db'} (p : PendingUnstake), R db db' →
      R { db with metadata := db.metadata.insert (pendingUnstakeKey p) (.pendingUnstake p) }
        { db' with metadata := db'.metadata.insert (pendingUnstakeKey p) (.pendingUnstake p) })
    (x : String) (v e : UInt64) : (requestUnstake x v e).Respects R := by
  apply (hR.getAccount x).bind
  intro found
  apply (respects_okOr _ _).bind
  intro account
  apply Respects.ite (respects_err _)
  apply (hR.saveAccount _).bind
  intro _
  apply (respects_orPanic _).bind
  intro unlock
  exact (respects_set (fun _ _ h => hrecord _ h) _).bind fun _ => respects_done _

/-- Operations that release no withdrawals read the accounts only. -/
theorem FixesAccounts.op (hR : FixesAccounts R)
    (hrecord : ∀ {db db'} (p : PendingUnstake), R db db' →
      R { db with metadata := db.metadata.insert (pendingUnstakeKey p) (.pendingUnstake p) }
        { db' with metadata := db'.metadata.insert (pendingUnstakeKey p) (.pendingUnstake p) })
    {op : Op} (hop : ∀ epoch, op ≠ .processMaturedUnstakes epoch) : op.program.Respects R := by
  cases op with
  | applyTransaction tx => exact hR.applyTransaction tx
  | creditAccount x v => exact hR.creditAccount x v
  | debitAccount x v => exact hR.debitAccount x v
  | incrementNonce x => exact hR.incrementNonce x
  | lockStake x v => exact hR.lockStake x v
  | unlockStake x v => exact hR.unlockStake x v
  | requestUnstake x v e => exact (hR.requestUnstake hrecord x v e).bind fun _ => respects_done _
  | processMaturedUnstakes epoch => exact absurd rfl (hop epoch)
  | slashValidator x bps => exact (hR.slashValidator x bps).bind fun _ => respects_done _
  | applyCoinbase coinbase share => exact hR.applyCoinbase coinbase share
  | applyEpochRewards coinbase fees => exact hR.applyEpochRewards coinbase fees

end Reads

/-! ## The addresses that are written -/

/-- The addresses that an operation can write. -/
def Op.touched (db : KyveraDb) : Op → Set String
  | .applyTransaction tx => tx.touched
  | .creditAccount x _ => {x}
  | .debitAccount x _ => {x}
  | .incrementNonce x => {x}
  | .lockStake x _ => {x}
  | .unlockStake x _ => {x}
  | .requestUnstake x _ _ => {x}
  | .processMaturedUnstakes epoch => {x | ∃ e ∈ matured epoch db.withdrawals, e.2.address = x}
  | .slashValidator x _ => {x, TREASURY_ADDRESS}
  | .applyCoinbase coinbase _ => {coinbase.receiver}
  | .applyEpochRewards coinbase _ =>
      {x | x = coinbase.receiver ∨ x = TREASURY_ADDRESS ∨ (db.account x).isValidator}

section Touched

variable {S : Set String} {db m : KyveraDb} {x : String} {v : UInt64}

theorem KyveraDb.WellFormed.isValidator_pay (h : db.WellFormed) (x : String) (v : UInt64)
    (y : String) : ((db.pay x v).account y).isValidator = (db.account y).isValidator := by
  rw [h.account_pay]
  split_ifs with hy
  · rw [hy]
    rfl
  · rfl

theorem KyveraDb.WellFormed.isValidator_of_mem (h : db.WellFormed) {a : Account}
    (ha : a ∈ db.validators) : (db.account a.address).isValidator := by
  obtain ⟨hstored, hvalidator⟩ := List.mem_filter.1 ha
  obtain ⟨⟨x, b⟩, hx, rfl⟩ := List.mem_map.1 hstored
  have hentry := Std.ExtTreeMap.mem_toList_iff_getElem?_eq_some.1 hx
  obtain rfl := h x b hentry
  rw [KyveraDb.account, AccountTree.account_of_getElem? hentry]
  exact hvalidator

theorem along_distributeValidatorRewards_of_mem {totalShare : UInt64}
    (hS : ∀ a ∈ db.validators, a.address ∈ S) :
    Along (Evolves S) (distributeValidatorRewards totalShare) db := by
  unfold distributeValidatorRewards
  split_ifs
  · exact along_done _ db
  · refine along_get_bind ?_
    dsimp only
    split_ifs
    · exact along_done _ db
    · exact along_done _ db
    · refine along_distributeLoop (fun e he => ?_) 0
      obtain ⟨a, ha, rfl⟩ := List.mem_map.1 he
      exact hS a ha

theorem along_applyEpochRewards_of_mem {coinbase : Transaction} {fees : UInt64}
    (hwf : db.WellFormed) (hS : (Op.applyEpochRewards coinbase fees).touched db ⊆ S) :
    Along (Evolves S) (applyEpochRewards coinbase fees) db := by
  apply Along.bind (along_applyCoinbase (hS (.inl rfl)))
  intro _ m hcoinbase
  apply along_orPanic_bind
  intro share _
  refine Along.bind (along_distributeValidatorRewards_of_mem fun a ha => ?_) fun _ m' _ => ?_
  · obtain ⟨-, hpaid⟩ := run_ite_err_eq_ok_iff.1 hcoinbase
    obtain ⟨_, m₁, hreward, hshare⟩ := run_bind_eq_ok_iff.1 hpaid
    obtain ⟨-, rfl⟩ := run_creditNonzero_eq_ok_iff.1 hreward
    obtain ⟨-, rfl⟩ := run_creditNonzero_eq_ok_iff.1 hshare
    have hvalidator := ((hwf.pay _ _).pay _ _).isValidator_of_mem ha
    rw [(hwf.pay _ _).isValidator_pay, hwf.isValidator_pay] at hvalidator
    exact hS (.inr (.inr hvalidator))
  · exact along_creditNonzero (hS (.inr (.inl rfl)))

theorem along_maturedLoop_of_mem {epoch : UInt64} {entries : List (String × MetaEntry)}
    (hS : ∀ e ∈ matured epoch entries, e.2.address ∈ S) (total : UInt64) (keys : List String) :
    Along (Evolves S) (maturedLoop epoch total keys entries) db := by
  induction entries generalizing total keys db with
  | nil => exact along_done _ db
  | cons e rest ih =>
      rw [matured_cons] at hS
      obtain ⟨hfirst, hrest⟩ := List.forall_mem_append.1 hS
      apply along_okOr_bind
      intro pending hpending
      rw [hpending] at hfirst
      split_ifs with hmatured
      · refine Along.bind (along_creditAccount ?_) fun _ m _ => ih hrest _ _
        exact hfirst (e.1, pending) (by simp [hmatured])
      · exact ih hrest _ _

/-- An operation evolves the addresses that it touches, wherever it stops. -/
theorem Op.along_touched {op : Op} (hwf : db.WellFormed) (hS : op.touched db ⊆ S) :
    Along (Evolves S) op.program db := by
  cases op with
  | applyTransaction tx => exact along_applyTransaction hS
  | creditAccount x v => exact along_creditAccount (hS rfl)
  | debitAccount x v => exact along_debitAccount (hS rfl)
  | incrementNonce x => exact along_incrementNonce (hS rfl)
  | lockStake x v => exact along_lockStake (hS rfl)
  | unlockStake x v => exact along_unlockStake (hS rfl)
  | requestUnstake x v e =>
      exact Along.bind (along_requestUnstake (hS rfl)) fun _ m _ => along_done () m
  | processMaturedUnstakes e =>
      refine Along.bind (along_get_bind ?_) fun _ m _ => along_done () m
      refine Along.bind (along_maturedLoop_of_mem (fun r hr => hS ⟨r, hr, rfl⟩) _ _) fun r m _ => ?_
      refine Along.bind (along_forM (fun key _ db => ?_) m) fun _ m' _ => along_done _ m'
      exact evolves_of_accounts_eq rfl
  | slashValidator x bps =>
      exact Along.bind (along_slashValidator (hS (.inl rfl)) (hS (.inr rfl)))
        fun _ m _ => along_done () m
  | applyCoinbase coinbase share => exact along_applyCoinbase (hS rfl)
  | applyEpochRewards coinbase fees => exact along_applyEpochRewards_of_mem hwf hS

end Touched

end Kyvera
