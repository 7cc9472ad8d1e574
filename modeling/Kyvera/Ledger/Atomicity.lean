import Kyvera.Ledger.Effects

/-!
# Failed transactions

A transaction that cannot be charged fails before anything is saved.  Once its sender is charged
and saved, two checks are left: the amount of a transfer has to fit into the receiver's balance,
and the tithe into the treasury's.  A transaction that fails there leaves its sender charged.
-/

namespace Kyvera

open Effect Effect.Prog

variable {db db' : KyveraDb} {tx : Transaction}

/-! ## Before the charge -/

section Before

/-- The program leaves the state as it found it, however it stops. -/
def Untouched {α : Type} (p : DbM α) (db : KyveraDb) : Prop := Along (fun m m' => m' = m) p db

instance : Std.Refl (fun m m' : KyveraDb => m' = m) := ⟨fun _ => rfl⟩

theorem untouched_getOrCreateAccount_bind {x : String} {g : Account → DbM Unit}
    (h : Untouched (g (db.account x)) db) : Untouched (getOrCreateAccount x >>= g) db := by
  unfold Untouched Along at *
  rwa [run_getOrCreateAccount_bind]

theorem covered_cost {balance amount fee c : UInt64} (hc : U64.checkedAdd amount fee = some c)
    (h : ¬ balance < c) : amount.toNat + fee.toNat ≤ balance.toNat := by
  rw [UInt64.not_lt, UInt64.le_iff_toNat_le, U64.checkedAdd_eq_some_iff.1 hc] at h
  exact h

theorem untouched_applyTransfer (htype : tx.transactionType = .transfer)
    (h : ¬ tx.Chargeable (db.account tx.sender)) : Untouched (applyTransfer tx) db := by
  refine untouched_getOrCreateAccount_bind (along_okOr_bind fun c hc => ?_)
  refine along_ite_err fun hbalance => along_ite_err fun hnonce => along_orPanic_bind fun n hn => ?_
  refine absurd ⟨?_, not_not.1 hnonce, U64.lt_size_of_checkedAdd hn⟩ h
  rw [Transaction.Covered, htype]
  exact covered_cost hc hbalance

theorem untouched_applyStakeLock (htype : tx.transactionType = .stakeLock)
    (h : ¬ tx.Chargeable (db.account tx.sender)) : Untouched (applyStakeLock tx) db := by
  refine untouched_getOrCreateAccount_bind (along_okOr_bind fun c hc => ?_)
  refine along_ite_err fun hbalance => along_ite_err fun hnonce => along_okOr_bind fun s hs => ?_
  refine along_orPanic_bind fun n hn => ?_
  refine absurd ⟨?_, not_not.1 hnonce, U64.lt_size_of_checkedAdd hn⟩ h
  rw [Transaction.Covered, htype]
  exact ⟨covered_cost hc hbalance, U64.lt_size_of_checkedAdd hs⟩

theorem untouched_applyStakeUnlock (htype : tx.transactionType = .stakeUnlock)
    (h : ¬ tx.Chargeable (db.account tx.sender)) : Untouched (applyStakeUnlock tx) db := by
  refine untouched_getOrCreateAccount_bind (along_ite_err fun hstake => along_ite_err fun hfee => ?_)
  refine along_ite_err fun hnonce => along_okOr_bind fun b hb => along_orPanic_bind fun n hn => ?_
  refine absurd ⟨?_, not_not.1 hnonce, U64.lt_size_of_checkedAdd hn⟩ h
  rw [Transaction.Covered, htype]
  rw [UInt64.not_lt, UInt64.le_iff_toNat_le] at hstake hfee
  exact ⟨hstake, hfee, U64.lt_size_of_checkedAdd hb⟩

theorem untouched_applyFeeOnly
    (htype : tx.transactionType = .contractDeploy ∨ tx.transactionType = .contractCall)
    (h : ¬ tx.Chargeable (db.account tx.sender)) : Untouched (applyFeeOnly tx) db := by
  refine untouched_getOrCreateAccount_bind (along_ite_err fun hfee => along_ite_err fun hnonce => ?_)
  refine along_orPanic_bind fun n hn => ?_
  refine absurd ⟨?_, not_not.1 hnonce, U64.lt_size_of_checkedAdd hn⟩ h
  rw [UInt64.not_lt, UInt64.le_iff_toNat_le] at hfee
  rcases htype with htype | htype <;> rw [Transaction.Covered, htype] <;> exact hfee

theorem untouched_applyTransaction (h : ¬ tx.Chargeable (db.account tx.sender)) :
    Untouched (applyTransaction tx) db := by
  unfold applyTransaction
  cases htype : tx.transactionType with
  | transfer => exact untouched_applyTransfer htype h
  | stakeLock => exact untouched_applyStakeLock htype h
  | stakeUnlock => exact untouched_applyStakeUnlock htype h
  | contractDeploy => exact untouched_applyFeeOnly (.inl htype) h
  | contractCall => exact untouched_applyFeeOnly (.inr htype) h

end Before

/-! ## After the charge -/

/-- What is left to do once the sender is charged and saved. -/
def settle (tx : Transaction) : DbM Unit :=
  match tx.transactionType with
  | .transfer => do
      let receiver ← getOrCreateAccount tx.receiver
      let balance ← Prog.okOr "Receiver balance overflow"
        (U64.checkedAdd receiver.balance tx.amount)
      saveAccount { receiver with balance := balance }
      applyFeeSplit tx.fee
  | .stakeLock | .stakeUnlock | .contractDeploy | .contractCall => applyFeeSplit tx.fee

theorem cost_of_covered {balance amount fee : UInt64}
    (h : amount.toNat + fee.toNat ≤ balance.toNat) :
    U64.checkedAdd amount fee = some (amount + fee) ∧ ¬ balance < amount + fee := by
  have hlt := h.trans_lt (U64.toNat_lt_size balance)
  refine ⟨U64.checkedAdd_of_lt hlt, ?_⟩
  rwa [UInt64.not_lt, UInt64.le_iff_toNat_le, U64.toNat_add_of_lt hlt]

/-- A transaction that can be charged charges its sender and goes on from there. -/
theorem run_applyTransaction_of_chargeable (h : tx.Chargeable (db.account tx.sender)) :
    (applyTransaction tx).run db = (settle tx).run (db.charge tx) := by
  obtain ⟨hcovered, hnonce, hroom⟩ := h
  have hnext : U64.checkedAdd (db.account tx.sender).nonce 1 =
      some ((db.account tx.sender).nonce + 1) := U64.checkedAdd_of_lt hroom
  unfold applyTransaction settle KyveraDb.charge Transaction.charged
  unfold Transaction.Covered at hcovered
  cases htype : tx.transactionType with
  | transfer =>
      rw [htype] at hcovered
      obtain ⟨hcost, hbalance⟩ := cost_of_covered hcovered
      simp only [applyTransfer, run_getOrCreateAccount_bind, hcost, okOr_some, done_bind,
        if_neg hbalance, if_neg (not_not.2 hnonce), hnext, orPanic_some, run_saveAccount_bind]
  | stakeLock =>
      rw [htype] at hcovered
      obtain ⟨hcost, hbalance⟩ := cost_of_covered hcovered.1
      simp only [applyStakeLock, run_getOrCreateAccount_bind, hcost, okOr_some, done_bind,
        if_neg hbalance, if_neg (not_not.2 hnonce), U64.checkedAdd_of_lt hcovered.2, hnext,
        orPanic_some, run_saveAccount_bind]
  | stakeUnlock =>
      rw [htype] at hcovered
      obtain ⟨hstake, hfee, hadd⟩ := hcovered
      rw [← UInt64.le_iff_toNat_le, ← UInt64.not_lt] at hstake hfee
      simp only [applyStakeUnlock, run_getOrCreateAccount_bind, if_neg hstake, if_neg hfee,
        if_neg (not_not.2 hnonce), U64.checkedAdd_of_lt hadd, okOr_some, done_bind, hnext,
        orPanic_some, run_saveAccount_bind]
  | contractDeploy | contractCall =>
      rw [htype] at hcovered
      have hfee : ¬ (db.account tx.sender).balance < tx.fee := by
        rw [UInt64.not_lt, UInt64.le_iff_toNat_le]
        exact hcovered
      simp only [applyFeeOnly, run_getOrCreateAccount_bind, if_neg hfee,
        if_neg (not_not.2 hnonce), hnext, orPanic_some, done_bind, run_saveAccount_bind]

theorem run_settle_of_not_deliverable (h : ¬ db.Deliverable tx) :
    (settle tx).run db = (.err "Receiver balance overflow", db) := by
  rw [KyveraDb.Deliverable, Classical.not_imp] at h
  obtain ⟨htype, hroom⟩ := h
  unfold settle
  rw [htype]
  dsimp only
  rw [run_getOrCreateAccount_bind, U64.checkedAdd_of_not_lt hroom]
  rfl

theorem run_settle_of_deliverable (h : db.Deliverable tx) :
    (settle tx).run db = (applyFeeSplit tx.fee).run (db.deliver tx) := by
  unfold settle KyveraDb.deliver
  cases htype : tx.transactionType with
  | transfer =>
      dsimp only
      rw [run_getOrCreateAccount_bind, U64.checkedAdd_of_lt (h htype)]
      rfl
  | stakeLock | stakeUnlock | contractDeploy | contractCall => rfl

theorem run_applyFeeSplit_of_not_room {fee : UInt64}
    (h : ¬ (db.account TREASURY_ADDRESS).Room (fee / 10)) :
    (applyFeeSplit fee).run db = (.err "Balance overflow — this should never happen", db) := by
  have hpos : fee / 10 > 0 := by
    rw [gt_iff_lt, UInt64.pos_iff_ne_zero]
    intro hzero
    exact h (hzero ▸ Account.room_zero _)
  unfold applyFeeSplit creditNonzero
  dsimp only
  rw [if_pos hpos, run_creditAccount_of_not_room h]

namespace KyveraDb

/-- The sender can be charged, but the amount then overflows the receiver's balance or the tithe
the treasury's. -/
def Overflows (db : KyveraDb) (tx : Transaction) : Prop :=
  tx.Chargeable (db.account tx.sender) ∧
    (¬ (db.charge tx).Deliverable tx ∨
      ¬ (((db.charge tx).deliver tx).account TREASURY_ADDRESS).Room (tx.fee / 10))

theorem WellFormed.nonce_deliver (h : db.WellFormed) (x : String) :
    ((db.deliver tx).account x).nonce = (db.account x).nonce := by
  rw [h.account_deliver]
  split_ifs with hx
  · rw [hx, Account.nonce_credit]
  · rfl

theorem WellFormed.nonce_charge (h : db.WellFormed) :
    ((db.charge tx).account tx.sender).nonce = (db.account tx.sender).nonce + 1 := by
  rw [h.account_charge, if_pos rfl, Transaction.nonce_charged]

/-- A transaction that overflows fails and leaves its sender charged. -/
theorem Overflows.run_applyTransaction (h : db.WellFormed) (ho : db.Overflows tx) :
    ∃ e m, (applyTransaction tx).run db = (.err e, m) ∧
      (m.account tx.sender).nonce = (db.account tx.sender).nonce + 1 := by
  obtain ⟨hcharge, hrest⟩ := ho
  rw [run_applyTransaction_of_chargeable hcharge]
  by_cases hdeliver : (db.charge tx).Deliverable tx
  · have htithe := hrest.resolve_left (not_not.2 hdeliver)
    rw [run_settle_of_deliverable hdeliver, run_applyFeeSplit_of_not_room htithe]
    exact ⟨_, _, rfl, by rw [h.charge.nonce_deliver, h.nonce_charge]⟩
  · rw [run_settle_of_not_deliverable hdeliver]
    exact ⟨_, _, rfl, h.nonce_charge⟩

end KyveraDb

/-- A transaction that can be charged and does not overflow is applicable. -/
theorem applicable_of_not_overflows (ho : ¬ db.Overflows tx)
    (hcharge : tx.Chargeable (db.account tx.sender)) : db.Applicable tx := by
  have hsettle : (db.charge tx).Deliverable tx ∧
      (((db.charge tx).deliver tx).account TREASURY_ADDRESS).Room (tx.fee / 10) := by
    by_contra hnot
    exact ho ⟨hcharge, not_and_or.1 hnot⟩
  exact ⟨hcharge, hsettle.1, hsettle.2⟩

/-- A transaction that does not overflow and fails was not charged. -/
theorem accounts_eq_of_err (ho : ¬ db.Overflows tx) {e : String}
    (h : (applyTransaction tx).run db = (.err e, db')) : db'.accounts = db.accounts := by
  by_cases hcharge : tx.Chargeable (db.account tx.sender)
  · have hok : (applyTransaction tx).run db = (.ok (), db.applied tx) :=
      run_applyTransaction_eq_ok_iff.2 ⟨applicable_of_not_overflows ho hcharge, rfl⟩
    rw [hok] at h
    cases h
  · have hsame : ((applyTransaction tx).run db).2 = db := untouched_applyTransaction hcharge
    rw [h] at hsame
    rw [show db' = db from hsame]

/-- A transaction that fails leaves every account as it was exactly if it does not overflow. -/
theorem applyTransaction_atomic_iff (h : db.WellFormed) :
    (∀ e db', (applyTransaction tx).run db = (.err e, db') → db'.accounts = db.accounts) ↔
      ¬ db.Overflows tx := by
  constructor
  · intro hatomic ho
    obtain ⟨e, m, hrun, hnonce⟩ := ho.run_applyTransaction h
    have hsame : m.account tx.sender = db.account tx.sender := by
      rw [KyveraDb.account, hatomic e m hrun]
      rfl
    rw [hsame] at hnonce
    exact absurd hnonce.symm (by simp)
  · intro ho e db' hrun
    exact accounts_eq_of_err ho hrun

/-- An account with a small balance and one that is nearly full. -/
def fullReceiverDb : KyveraDb :=
  KyveraDb.withAccounts
    [{ Account.new "kyv1a" with balance := 100 }, { Account.new "kyv1b" with balance := U64.max }]

/-- A transfer that the receiver cannot take costs its sender the amount, the fee and a nonce. -/
theorem applyTransaction_full_receiver :
    let tx := Transaction.new 0 "kyv1a" "kyv1b" 40 10 0 .transfer []
    let run := (applyTransaction tx).run fullReceiverDb
    run.1 = .err "Receiver balance overflow" ∧
      (fullReceiverDb.account "kyv1a").balance = 100 ∧ (run.2.account "kyv1a").balance = 50 ∧
      (run.2.account "kyv1a").nonce = 1 ∧ run.2.accounts ≠ fullReceiverDb.accounts := by
  intro tx run
  have hbefore : (fullReceiverDb.account "kyv1a").balance = 100 := by decide +kernel
  have hafter : (run.2.account "kyv1a").balance = 50 := by decide +kernel
  refine ⟨by decide +kernel, hbefore, hafter, by decide +kernel, fun hsame => ?_⟩
  rw [KyveraDb.account, hsame] at hafter
  rw [KyveraDb.account, hafter] at hbefore
  exact absurd hbefore (by decide)

theorem applyTransaction_atomic_iff_full_receiver :
    let tx := Transaction.new 0 "kyv1a" "kyv1b" 40 10 0 .transfer []
    (∀ e db', (applyTransaction tx).run fullReceiverDb = (.err e, db') →
        db'.accounts = fullReceiverDb.accounts) ↔ ¬ fullReceiverDb.Overflows tx := by
  intro tx
  exact applyTransaction_atomic_iff (KyveraDb.wellFormed_withAccounts _)

end Kyvera
