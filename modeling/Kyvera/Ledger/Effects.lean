import Kyvera.Storage.StateTrie

/-!
# The effect of a transaction

A transaction of any type does three things: it charges its sender, it delivers the amount of a
transfer to the receiver, and it pays the treasury a tenth of the fee.  It is accepted exactly
when the sender can be charged and the two credits fit (`run_applyTransaction_eq_ok_iff`).  Each
part reads the accounts as the part before it left them, so that the three addresses may coincide.
-/

namespace Kyvera

open Effect Effect.Prog

namespace Transaction

/-! ## The sender -/

/-- What the sender must own for a transaction. -/
def Covered (tx : Transaction) (a : Account) : Prop :=
  match tx.transactionType with
  | .transfer => tx.amount.toNat + tx.fee.toNat ≤ a.balance.toNat
  | .stakeLock =>
      tx.amount.toNat + tx.fee.toNat ≤ a.balance.toNat ∧
        a.stakedBalance.toNat + tx.amount.toNat < U64.size
  | .stakeUnlock =>
      tx.amount.toNat ≤ a.stakedBalance.toNat ∧ tx.fee.toNat ≤ a.balance.toNat ∧ a.Room tx.amount
  | .contractDeploy | .contractCall => tx.fee.toNat ≤ a.balance.toNat

/-- A transaction that its sender can be charged for: it is covered, and it carries the nonce of
the account, which is not the last one. -/
structure Chargeable (tx : Transaction) (a : Account) : Prop where
  covered : tx.Covered a
  nonce : a.nonce = tx.nonce
  room : a.nonce.toNat + 1 < U64.size

/-- The sender after it was charged. -/
def charged (tx : Transaction) (a : Account) : Account :=
  match tx.transactionType with
  | .transfer => { a with balance := a.balance - (tx.amount + tx.fee), nonce := a.nonce + 1 }
  | .stakeLock =>
      { a with
        balance := a.balance - (tx.amount + tx.fee)
        stakedBalance := a.stakedBalance + tx.amount
        nonce := a.nonce + 1 }.updateValidatorTier
  | .stakeUnlock =>
      { a with
        stakedBalance := a.stakedBalance - tx.amount
        balance := a.balance + tx.amount - tx.fee
        nonce := a.nonce + 1 }.updateValidatorTier
  | .contractDeploy | .contractCall =>
      { a with balance := a.balance - tx.fee, nonce := a.nonce + 1 }

/-- What a transaction delivers to its receiver. -/
def delivered (tx : Transaction) : UInt64 :=
  match tx.transactionType with
  | .transfer => tx.amount
  | _ => 0

@[simp] theorem address_charged (tx : Transaction) (a : Account) :
    (tx.charged a).address = a.address := by
  unfold charged
  cases tx.transactionType <;> rfl

@[simp] theorem nonce_charged (tx : Transaction) (a : Account) :
    (tx.charged a).nonce = a.nonce + 1 := by
  unfold charged
  cases tx.transactionType <;> rfl

end Transaction

/-! ## What a charge adds -/

/-- The three numbers of an account that a transaction changes. -/
inductive Entry where
  | balance
  | stake
  | nonce
  deriving DecidableEq, Repr

/-- The entries of an account, as integers. -/
def Account.entry (a : Account) : Entry → ℤ
  | .balance => a.balance.toNat
  | .stake => a.stakedBalance.toNat
  | .nonce => a.nonce.toNat

namespace Transaction

/-- What a charge adds to each entry of the sender. -/
def charges (tx : Transaction) : Entry → ℤ
  | .balance =>
      match tx.transactionType with
      | .transfer | .stakeLock => -(tx.amount.toNat + tx.fee.toNat)
      | .stakeUnlock => tx.amount.toNat - tx.fee.toNat
      | .contractDeploy | .contractCall => -tx.fee.toNat
  | .stake =>
      match tx.transactionType with
      | .stakeLock => tx.amount.toNat
      | .stakeUnlock => -tx.amount.toNat
      | .transfer | .contractDeploy | .contractCall => 0
  | .nonce => 1

theorem toNat_sub_cost {balance amount fee : UInt64} (h : amount.toNat + fee.toNat ≤ balance.toNat) :
    (balance - (amount + fee)).toNat + (amount.toNat + fee.toNat) = balance.toNat := by
  have hadd := U64.toNat_add_of_lt (h.trans_lt (U64.toNat_lt_size balance))
  rw [← hadd]
  exact U64.toNat_sub_of_le (UInt64.le_iff_toNat_le.2 (hadd ▸ h))

theorem toNat_sub_fee {balance fee : UInt64} (h : fee.toNat ≤ balance.toNat) :
    (balance - fee).toNat + fee.toNat = balance.toNat :=
  U64.toNat_sub_of_le (UInt64.le_iff_toNat_le.2 h)

theorem Covered.entry_balance_charged {tx : Transaction} {a : Account} (h : tx.Covered a) :
    (tx.charged a).entry .balance = a.entry .balance + tx.charges .balance := by
  unfold Covered at h
  unfold charged charges Account.entry
  cases htype : tx.transactionType with
  | transfer =>
      rw [htype] at h
      have hb := toNat_sub_cost h
      dsimp only
      omega
  | stakeLock =>
      rw [htype] at h
      have hb := toNat_sub_cost h.1
      dsimp only [Account.balance_updateValidatorTier]
      omega
  | stakeUnlock =>
      rw [htype] at h
      obtain ⟨-, hfee, hroom⟩ := h
      have hadd := U64.toNat_add_of_lt hroom
      have hb : (a.balance + tx.amount - tx.fee).toNat + tx.fee.toNat = (a.balance + tx.amount).toNat :=
        toNat_sub_fee (by omega)
      dsimp only [Account.balance_updateValidatorTier]
      omega
  | contractDeploy | contractCall =>
      rw [htype] at h
      have hb := toNat_sub_fee h
      dsimp only
      omega

theorem Covered.entry_stake_charged {tx : Transaction} {a : Account} (h : tx.Covered a) :
    (tx.charged a).entry .stake = a.entry .stake + tx.charges .stake := by
  unfold Covered at h
  unfold charged charges Account.entry
  cases htype : tx.transactionType with
  | stakeLock =>
      rw [htype] at h
      have hs := U64.toNat_add_of_lt h.2
      dsimp only [Account.stakedBalance_updateValidatorTier]
      omega
  | stakeUnlock =>
      rw [htype] at h
      have hs := toNat_sub_fee h.1
      dsimp only [Account.stakedBalance_updateValidatorTier]
      omega
  | transfer | contractDeploy | contractCall => exact (add_zero _).symm

theorem Chargeable.entry_charged {tx : Transaction} {a : Account} (h : tx.Chargeable a)
    (q : Entry) : (tx.charged a).entry q = a.entry q + tx.charges q := by
  cases q with
  | balance => exact h.covered.entry_balance_charged
  | stake => exact h.covered.entry_stake_charged
  | nonce =>
      have hn : (a.nonce + 1).toNat = a.nonce.toNat + 1 := U64.toNat_add_of_lt h.room
      show ((tx.charged a).nonce.toNat : ℤ) = a.nonce.toNat + 1
      rw [nonce_charged, hn]
      rfl

/-- A charge takes the fee, and the amount of a transfer, out of what the sender owns. -/
theorem Covered.holding_charged {tx : Transaction} {a : Account} (h : tx.Covered a) :
    (tx.charged a).holding + tx.delivered.toNat + tx.fee.toNat = a.holding := by
  have hbalance : ((tx.charged a).balance.toNat : ℤ) = a.balance.toNat + tx.charges .balance :=
    h.entry_balance_charged
  have hstake : ((tx.charged a).stakedBalance.toNat : ℤ) = a.stakedBalance.toNat + tx.charges .stake :=
    h.entry_stake_charged
  have hcharges : tx.charges .balance + tx.charges .stake = -(tx.delivered.toNat + tx.fee.toNat) := by
    have hzero : (0 : UInt64).toNat = 0 := rfl
    unfold charges delivered
    cases tx.transactionType <;> dsimp only <;> omega
  unfold Account.holding
  omega

end Transaction

/-! ## The database -/

namespace KyveraDb

/-- Charge the sender. -/
def charge (db : KyveraDb) (tx : Transaction) : KyveraDb :=
  db.save (tx.charged (db.account tx.sender))

/-- Deliver the amount of a transfer. -/
def deliver (db : KyveraDb) (tx : Transaction) : KyveraDb :=
  match tx.transactionType with
  | .transfer => db.save ((db.account tx.receiver).credit tx.amount)
  | _ => db

/-- The treasury's tenth of a fee. -/
def tithe (db : KyveraDb) (fee : UInt64) : KyveraDb := db.pay TREASURY_ADDRESS (fee / 10)

/-- All that an accepted transaction does. -/
def applied (db : KyveraDb) (tx : Transaction) : KyveraDb :=
  ((db.charge tx).deliver tx).tithe tx.fee

/-- The amount of a transfer fits into the receiver's balance. -/
def Deliverable (db : KyveraDb) (tx : Transaction) : Prop :=
  tx.transactionType = .transfer → (db.account tx.receiver).Room tx.amount

/-- A transaction that is accepted. -/
structure Applicable (db : KyveraDb) (tx : Transaction) : Prop where
  charge : tx.Chargeable (db.account tx.sender)
  deliver : (db.charge tx).Deliverable tx
  tithe : (((db.charge tx).deliver tx).account TREASURY_ADDRESS).Room (tx.fee / 10)

section Accounts

variable {db : KyveraDb} {tx : Transaction}

theorem WellFormed.charge (h : db.WellFormed) : (db.charge tx).WellFormed := h.save _

theorem WellFormed.deliver (h : db.WellFormed) : (db.deliver tx).WellFormed := by
  unfold KyveraDb.deliver
  cases tx.transactionType with
  | transfer => exact h.save _
  | stakeLock | stakeUnlock | contractDeploy | contractCall => exact h

theorem WellFormed.tithe (h : db.WellFormed) {fee : UInt64} : (db.tithe fee).WellFormed := h.pay _ _

theorem WellFormed.applied (h : db.WellFormed) : (db.applied tx).WellFormed :=
  h.charge.deliver.tithe

theorem WellFormed.account_charge (h : db.WellFormed) (x : String) :
    (db.charge tx).account x =
      if x = tx.sender then tx.charged (db.account tx.sender) else db.account x :=
  h.account_save (tx.address_charged _) x

theorem WellFormed.account_deliver (h : db.WellFormed) (x : String) :
    (db.deliver tx).account x =
      if x = tx.receiver then (db.account tx.receiver).credit tx.delivered else db.account x := by
  have none : (if x = tx.receiver then (db.account tx.receiver).credit 0 else db.account x) =
      db.account x := by
    split_ifs with hx
    · rw [Account.credit_zero, hx]
    · rfl
  unfold KyveraDb.deliver Transaction.delivered
  cases tx.transactionType with
  | transfer => exact h.account_save (Account.address_credit _ tx.amount) x
  | stakeLock | stakeUnlock | contractDeploy | contractCall =>
      dsimp only
      rw [none]

theorem WellFormed.account_tithe (h : db.WellFormed) (fee : UInt64) (x : String) :
    (db.tithe fee).account x =
      if x = TREASURY_ADDRESS then (db.account TREASURY_ADDRESS).credit (fee / 10)
      else db.account x :=
  h.account_pay _ _ x

theorem WellFormed.nonce_applied (h : db.WellFormed) (x : String) :
    ((db.applied tx).account x).nonce =
      if x = tx.sender then (db.account x).nonce + 1 else (db.account x).nonce := by
  have credited : ∀ (m : KyveraDb) (y : String) (v : UInt64),
      (if x = y then (m.account y).credit v else m.account x).nonce = (m.account x).nonce := by
    intro m y v
    split_ifs with hx
    · rw [hx, Account.nonce_credit]
    · rfl
  rw [KyveraDb.applied, h.charge.deliver.account_tithe, credited, h.charge.account_deliver, credited,
    h.account_charge]
  split_ifs with hx
  · rw [Transaction.nonce_charged, hx]
  · rfl

end Accounts

end KyveraDb

section Run

variable {db db' : KyveraDb} {tx : Transaction} {u : Unit}

theorem run_applyFeeSplit_eq_ok_iff {fee : UInt64} :
    (applyFeeSplit fee).run db = (.ok u, db') ↔
      (db.account TREASURY_ADDRESS).Room (fee / 10) ∧ db' = db.tithe fee :=
  run_creditNonzero_eq_ok_iff

theorem exists_cost_iff {balance amount fee : UInt64} {P : UInt64 → Prop} :
    (∃ c, U64.checkedAdd amount fee = some c ∧ ¬ balance < c ∧ P c) ↔
      amount.toNat + fee.toNat ≤ balance.toNat ∧ P (amount + fee) := by
  rw [U64.exists_checkedAdd_iff, UInt64.not_lt, UInt64.le_iff_toNat_le]
  have hsize := U64.toNat_lt_size balance
  constructor
  · rintro ⟨hlt, hle, hP⟩
    exact ⟨U64.toNat_add_of_lt hlt ▸ hle, hP⟩
  · rintro ⟨hle, hP⟩
    have hlt := hle.trans_lt hsize
    exact ⟨hlt, (U64.toNat_add_of_lt hlt).symm ▸ hle, hP⟩

theorem run_applyTransfer_eq_ok_iff (htype : tx.transactionType = .transfer) :
    (applyTransfer tx).run db = (.ok u, db') ↔ db.Applicable tx ∧ db' = db.applied tx := by
  simp only [applyTransfer, run_getOrCreateAccount_bind, run_saveAccount_bind,
    run_okOr_bind_eq_ok_iff, run_orPanic_bind_eq_ok_iff, run_ite_err_eq_ok_iff, exists_cost_iff,
    not_not, U64.exists_checkedAdd_iff, run_applyFeeSplit_eq_ok_iff]
  have covered : tx.Covered (db.account tx.sender) ↔
      tx.amount.toNat + tx.fee.toNat ≤ (db.account tx.sender).balance.toNat := by
    rw [Transaction.Covered, htype]
  have charge : db.save { db.account tx.sender with
      balance := (db.account tx.sender).balance - (tx.amount + tx.fee)
      nonce := (db.account tx.sender).nonce + 1 } = db.charge tx := by
    rw [KyveraDb.charge, Transaction.charged, htype]
  have deliver : ∀ m : KyveraDb, m.save { m.account tx.receiver with
      balance := (m.account tx.receiver).balance + tx.amount } = m.deliver tx := by
    intro m
    rw [KyveraDb.deliver, htype]
    rfl
  rw [charge, deliver]
  constructor
  · rintro ⟨hc, hn, hr, hd, ht, rfl⟩
    exact ⟨⟨⟨covered.2 hc, hn, hr⟩, fun _ => hd, ht⟩, rfl⟩
  · rintro ⟨⟨⟨hc, hn, hr⟩, hd, ht⟩, rfl⟩
    exact ⟨covered.1 hc, hn, hr, hd htype, ht, rfl⟩

/-- A transaction other than a transfer delivers nothing. -/
theorem applicable_of_ne_transfer (htype : tx.transactionType ≠ .transfer) :
    db.Applicable tx ∧ db' = db.applied tx ↔
      tx.Chargeable (db.account tx.sender) ∧
      ((db.charge tx).account TREASURY_ADDRESS).Room (tx.fee / 10) ∧
      db' = (db.charge tx).tithe tx.fee := by
  have deliver : (db.charge tx).deliver tx = db.charge tx := by
    unfold KyveraDb.deliver
    cases h : tx.transactionType with
    | transfer => exact absurd h htype
    | stakeLock => rfl
    | stakeUnlock => rfl
    | contractDeploy => rfl
    | contractCall => rfl
  unfold KyveraDb.applied
  rw [deliver]
  constructor
  · rintro ⟨⟨hc, -, ht⟩, rfl⟩
    exact ⟨hc, deliver ▸ ht, rfl⟩
  · rintro ⟨hc, ht, rfl⟩
    exact ⟨⟨hc, fun h => absurd h htype, deliver.symm ▸ ht⟩, rfl⟩

theorem run_applyStakeLock_eq_ok_iff (htype : tx.transactionType = .stakeLock) :
    (applyStakeLock tx).run db = (.ok u, db') ↔ db.Applicable tx ∧ db' = db.applied tx := by
  rw [applicable_of_ne_transfer (by rw [htype]; decide)]
  simp only [applyStakeLock, run_getOrCreateAccount_bind, run_saveAccount_bind,
    run_okOr_bind_eq_ok_iff, run_orPanic_bind_eq_ok_iff, run_ite_err_eq_ok_iff, exists_cost_iff,
    not_not, U64.exists_checkedAdd_iff, run_applyFeeSplit_eq_ok_iff]
  have covered : tx.Covered (db.account tx.sender) ↔
      tx.amount.toNat + tx.fee.toNat ≤ (db.account tx.sender).balance.toNat ∧
        (db.account tx.sender).stakedBalance.toNat + tx.amount.toNat < U64.size := by
    rw [Transaction.Covered, htype]
  have charge : db.save { db.account tx.sender with
      balance := (db.account tx.sender).balance - (tx.amount + tx.fee)
      stakedBalance := (db.account tx.sender).stakedBalance + tx.amount
      nonce := (db.account tx.sender).nonce + 1 }.updateValidatorTier = db.charge tx := by
    rw [KyveraDb.charge, Transaction.charged, htype]
  rw [charge]
  constructor
  · rintro ⟨hc, hn, hs, hr, ht, rfl⟩
    exact ⟨⟨covered.2 ⟨hc, hs⟩, hn, hr⟩, ht, rfl⟩
  · rintro ⟨⟨hc, hn, hr⟩, ht, rfl⟩
    exact ⟨(covered.1 hc).1, hn, (covered.1 hc).2, hr, ht, rfl⟩

theorem run_applyStakeUnlock_eq_ok_iff (htype : tx.transactionType = .stakeUnlock) :
    (applyStakeUnlock tx).run db = (.ok u, db') ↔ db.Applicable tx ∧ db' = db.applied tx := by
  rw [applicable_of_ne_transfer (by rw [htype]; decide)]
  simp only [applyStakeUnlock, run_getOrCreateAccount_bind, run_saveAccount_bind,
    run_okOr_bind_eq_ok_iff, run_orPanic_bind_eq_ok_iff, run_ite_err_eq_ok_iff, UInt64.not_lt,
    UInt64.le_iff_toNat_le, not_not, U64.exists_checkedAdd_iff, run_applyFeeSplit_eq_ok_iff]
  have covered : tx.Covered (db.account tx.sender) ↔
      tx.amount.toNat ≤ (db.account tx.sender).stakedBalance.toNat ∧
        tx.fee.toNat ≤ (db.account tx.sender).balance.toNat ∧
        (db.account tx.sender).Room tx.amount := by
    rw [Transaction.Covered, htype]
  have charge : db.save { db.account tx.sender with
      stakedBalance := (db.account tx.sender).stakedBalance - tx.amount
      balance := (db.account tx.sender).balance + tx.amount - tx.fee
      nonce := (db.account tx.sender).nonce + 1 }.updateValidatorTier = db.charge tx := by
    rw [KyveraDb.charge, Transaction.charged, htype]
  rw [charge]
  constructor
  · rintro ⟨hs, hf, hn, hb, hr, ht, rfl⟩
    exact ⟨⟨covered.2 ⟨hs, hf, hb⟩, hn, hr⟩, ht, rfl⟩
  · rintro ⟨⟨hc, hn, hr⟩, ht, rfl⟩
    obtain ⟨hs, hf, hb⟩ := covered.1 hc
    exact ⟨hs, hf, hn, hb, hr, ht, rfl⟩

theorem run_applyFeeOnly_eq_ok_iff
    (htype : tx.transactionType = .contractDeploy ∨ tx.transactionType = .contractCall) :
    (applyFeeOnly tx).run db = (.ok u, db') ↔ db.Applicable tx ∧ db' = db.applied tx := by
  rw [applicable_of_ne_transfer (by rcases htype with h | h <;> rw [h] <;> decide)]
  simp only [applyFeeOnly, run_getOrCreateAccount_bind, run_saveAccount_bind,
    run_orPanic_bind_eq_ok_iff, run_ite_err_eq_ok_iff, UInt64.not_lt, UInt64.le_iff_toNat_le,
    not_not, U64.exists_checkedAdd_iff, run_applyFeeSplit_eq_ok_iff]
  have covered : tx.Covered (db.account tx.sender) ↔
      tx.fee.toNat ≤ (db.account tx.sender).balance.toNat := by
    rcases htype with h | h <;> rw [Transaction.Covered, h]
  have charge : db.save { db.account tx.sender with
      balance := (db.account tx.sender).balance - tx.fee
      nonce := (db.account tx.sender).nonce + 1 } = db.charge tx := by
    rcases htype with h | h <;> rw [KyveraDb.charge, Transaction.charged, h]
  rw [charge]
  constructor
  · rintro ⟨hf, hn, hr, ht, rfl⟩
    exact ⟨⟨covered.2 hf, hn, hr⟩, ht, rfl⟩
  · rintro ⟨⟨hc, hn, hr⟩, ht, rfl⟩
    exact ⟨covered.1 hc, hn, hr, ht, rfl⟩

/-- A transaction is accepted exactly when it is applicable, and then does exactly its effect. -/
theorem run_applyTransaction_eq_ok_iff :
    (applyTransaction tx).run db = (.ok u, db') ↔ db.Applicable tx ∧ db' = db.applied tx := by
  unfold applyTransaction
  cases h : tx.transactionType with
  | transfer => exact run_applyTransfer_eq_ok_iff h
  | stakeLock => exact run_applyStakeLock_eq_ok_iff h
  | stakeUnlock => exact run_applyStakeUnlock_eq_ok_iff h
  | contractDeploy => exact run_applyFeeOnly_eq_ok_iff (.inl h)
  | contractCall => exact run_applyFeeOnly_eq_ok_iff (.inr h)

end Run

end Kyvera
