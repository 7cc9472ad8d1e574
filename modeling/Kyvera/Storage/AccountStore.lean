import Kyvera.Storage.Db
import Kyvera.Library.Checked
import Kyvera.Library.Refusals

/-!
# The account store

All wallet and contract account state.  Every function loads an account by its address, changes
it and saves it back under the address that the account itself carries.  So a single save
exchanges one account (`account_put`), and with it one term of the supply (`supply_put_add`).
-/

namespace Kyvera

open Effect Std

/-! ## Operations -/

/-- Save or update an account. -/
def saveAccount (account : Account) : DbM Unit :=
  Prog.set (fun db => { db with accounts := db.accounts.insert account.address account })
    "Write failed"

/-- Load an account by address. -/
def getAccount (address : String) : DbM (Option Account) := do
  let db ← Prog.get
  return db.accounts[address]?

/-- Load an account, or a zero-balance account if the address is unknown. -/
def getOrCreateAccount (address : String) : DbM Account := do
  match ← getAccount address with
  | some account => return account
  | none => return Account.new address

/-- Add to the spendable balance. -/
def creditAccount (address : String) (amount : UInt64) : DbM Unit := do
  let account ← getOrCreateAccount address
  let balance ← Prog.okOr "Balance overflow — this should never happen"
    (U64.checkedAdd account.balance amount)
  saveAccount { account with balance := balance }

/-- Credit an amount, unless it is zero: what every payment outside of a transfer does. -/
def creditNonzero (address : String) (amount : UInt64) : DbM Unit :=
  if amount > 0 then creditAccount address amount else pure ()

/-- Subtract from the spendable balance. -/
def debitAccount (address : String) (amount : UInt64) : DbM Unit := do
  let account ← getOrCreateAccount address
  if account.balance < amount then
    .err s!"Insufficient balance: {address} has {account.balance} but needs {amount}"
  else
    saveAccount { account with balance := account.balance - amount }

/-- Increment the nonce after the account sends a transaction. -/
def incrementNonce (address : String) : DbM Unit := do
  let account ← getOrCreateAccount address
  let nonce ← Prog.orPanic (U64.checkedAdd account.nonce 1)
  saveAccount { account with nonce := nonce }

/-- Move funds from the spendable to the staked balance. -/
def lockStake (address : String) (amount : UInt64) : DbM Unit := do
  let account ← getOrCreateAccount address
  if account.balance < amount then
    .err s!"Insufficient balance to stake: has {account.balance} needs {amount}"
  else do
    let stakedBalance ← Prog.okOr "Staked balance overflow"
      (U64.checkedAdd account.stakedBalance amount)
    saveAccount { account with
      balance := account.balance - amount
      stakedBalance := stakedBalance }.updateValidatorTier

/-- Move staked funds back to the spendable balance. -/
def unlockStake (address : String) (amount : UInt64) : DbM Unit := do
  let account ← getOrCreateAccount address
  if account.stakedBalance < amount then
    .err s!"Insufficient staked balance: has {account.stakedBalance} needs {amount}"
  else do
    let balance ← Prog.okOr "Balance overflow during unstake"
      (U64.checkedAdd account.balance amount)
    saveAccount { account with
      balance := balance
      stakedBalance := account.stakedBalance - amount }.updateValidatorTier

/-- All accounts that currently hold a validator tier, in key order. -/
def getValidators : DbM (List Account) := do
  let db ← Prog.get
  return (db.accounts.toList.map Prod.snd).filter Account.isValidator

/-! ## The account tree -/

namespace AccountTree

/-- The account of an address: the stored one, or a fresh one. -/
def account (t : AccountTree) (address : String) : Account :=
  (t[address]?).getD (Account.new address)

/-- Save an account under its own address. -/
def put (t : AccountTree) (a : Account) : AccountTree := t.insert a.address a

/-- Every account is stored under its own address. -/
def WellFormed (t : AccountTree) : Prop :=
  ∀ (x : String) (a : Account), t[x]? = some a → a.address = x

/-- The sum of everything the accounts own. -/
def supply (t : AccountTree) : ℕ := TreeSum.sumOver Account.holding t

theorem getElem?_put (t : AccountTree) (a : Account) (x : String) :
    (t.put a)[x]? = if a.address = x then some a else t[x]? := by
  unfold put
  split_ifs with h
  · rw [← h, ExtTreeMap.getElem?_insert_self]
  · rw [TreeSum.getElem?_insert_of_ne t a h]

theorem account_put (t : AccountTree) (a : Account) (x : String) :
    (t.put a).account x = if a.address = x then a else t.account x := by
  unfold account
  rw [getElem?_put]
  split_ifs <;> rfl

@[simp] theorem account_put_self (t : AccountTree) (a : Account) :
    (t.put a).account a.address = a := by
  rw [account_put, if_pos rfl]

theorem wellFormed_empty : WellFormed (∅ : AccountTree) := by
  intro x a h
  simp at h

theorem WellFormed.put {t : AccountTree} (h : t.WellFormed) (a : Account) :
    (t.put a).WellFormed := by
  intro x b hb
  rw [getElem?_put] at hb
  split_ifs at hb with hx
  · rw [← Option.some.inj hb, hx]
  · exact h x b hb

theorem WellFormed.address_account {t : AccountTree} (h : t.WellFormed) (x : String) :
    (t.account x).address = x := by
  unfold account
  rcases hx : t[x]? with _ | a
  · rfl
  · exact h x a hx

theorem account_of_getElem? {t : AccountTree} {x : String} {a : Account} (h : t[x]? = some a) :
    t.account x = a := by
  rw [account, h]
  rfl

theorem getElem?_of_isSome {t : AccountTree} {x : String} (h : t[x]?.isSome) :
    t[x]? = some (t.account x) := by
  obtain ⟨a, ha⟩ := Option.isSome_iff_exists.1 h
  rw [ha, account_of_getElem? ha]

/-- A save exchanges what the account's address owned for what the account owns. -/
theorem supply_put_add (t : AccountTree) (a : Account) :
    (t.put a).supply + (t.account a.address).holding = t.supply + a.holding := by
  have h : (t.account a.address).holding = (t[a.address]?.map Account.holding).getD 0 := by
    unfold account
    cases t[a.address]? <;> rfl
  rw [h]
  exact TreeSum.sumOver_insert_add Account.holding t a.address a

end AccountTree

namespace KyveraDb

/-- Every account is stored under its own address. -/
def WellFormed (db : KyveraDb) : Prop := db.accounts.WellFormed

/-- The account of an address: the stored one, or a fresh one. -/
def account (db : KyveraDb) (address : String) : Account := db.accounts.account address

/-- Save an account under its own address. -/
def save (db : KyveraDb) (a : Account) : KyveraDb := { db with accounts := db.accounts.put a }

@[simp] theorem accounts_save (db : KyveraDb) (a : Account) :
    (db.save a).accounts = db.accounts.put a := rfl

@[simp] theorem metadata_save (db : KyveraDb) (a : Account) :
    (db.save a).metadata = db.metadata := rfl

theorem account_save (db : KyveraDb) (a : Account) (x : String) :
    (db.save a).account x = if a.address = x then a else db.account x :=
  AccountTree.account_put db.accounts a x

theorem WellFormed.save {db : KyveraDb} (h : db.WellFormed) (a : Account) :
    (db.save a).WellFormed :=
  AccountTree.WellFormed.put h a

theorem WellFormed.address_account {db : KyveraDb} (h : db.WellFormed) (x : String) :
    (db.account x).address = x :=
  AccountTree.WellFormed.address_account h x

end KyveraDb

/-- A fresh database with the given accounts. -/
def KyveraDb.withAccounts (accounts : List Account) : KyveraDb :=
  accounts.foldl KyveraDb.save KyveraDb.empty

theorem KyveraDb.wellFormed_withAccounts (accounts : List Account) :
    (KyveraDb.withAccounts accounts).WellFormed :=
  List.foldlRecOn accounts _ AccountTree.wellFormed_empty fun _ h a _ => h.save a

/-! ## What the operations do -/

namespace Account

/-- The account after a credit. -/
def credit (a : Account) (v : UInt64) : Account := { a with balance := a.balance + v }

/-- A credit fits into the balance. -/
def Room (a : Account) (v : UInt64) : Prop := a.balance.toNat + v.toNat < U64.size

/-- The account after funds were staked. -/
def lock (a : Account) (v : UInt64) : Account :=
  { a with balance := a.balance - v, stakedBalance := a.stakedBalance + v }.updateValidatorTier

/-- The account after stake was released. -/
def unlock (a : Account) (v : UInt64) : Account :=
  { a with balance := a.balance + v, stakedBalance := a.stakedBalance - v }.updateValidatorTier

@[simp] theorem address_credit (a : Account) (v : UInt64) : (a.credit v).address = a.address := rfl

@[simp] theorem stakedBalance_credit (a : Account) (v : UInt64) :
    (a.credit v).stakedBalance = a.stakedBalance := rfl

@[simp] theorem nonce_credit (a : Account) (v : UInt64) : (a.credit v).nonce = a.nonce := rfl

@[simp] theorem address_lock (a : Account) (v : UInt64) : (a.lock v).address = a.address := rfl

@[simp] theorem address_unlock (a : Account) (v : UInt64) : (a.unlock v).address = a.address := rfl

@[simp] theorem credit_zero (a : Account) : a.credit 0 = a := by
  simp [credit]

theorem Room.toNat_balance_credit {a : Account} {v : UInt64} (h : a.Room v) :
    (a.credit v).balance.toNat = a.balance.toNat + v.toNat :=
  U64.toNat_add_of_lt h

theorem room_congr {a b : Account} {v : UInt64} (h : a.balance = b.balance) :
    a.Room v ↔ b.Room v := by
  rw [Room, Room, h]

theorem room_zero (a : Account) : a.Room 0 := by
  have := U64.toNat_lt_size a.balance
  simpa [Room] using this

theorem Room.holding_credit {a : Account} {v : UInt64} (h : a.Room v) :
    (a.credit v).holding = a.holding + v.toNat := by
  have hb := h.toNat_balance_credit
  simp only [holding, hb, stakedBalance_credit]
  omega

theorem holding_lock {a : Account} {v : UInt64} (hv : v.toNat ≤ a.balance.toNat)
    (hs : a.stakedBalance.toNat + v.toNat < U64.size) : (a.lock v).holding = a.holding := by
  have hb := U64.toNat_sub_of_le (UInt64.le_iff_toNat_le.2 hv)
  have hst := U64.toNat_add_of_lt hs
  simp only [lock, holding, balance_updateValidatorTier, stakedBalance_updateValidatorTier, hst]
  omega

theorem holding_unlock {a : Account} {v : UInt64} (hv : v.toNat ≤ a.stakedBalance.toNat)
    (h : a.Room v) : (a.unlock v).holding = a.holding := by
  have hs := U64.toNat_sub_of_le (UInt64.le_iff_toNat_le.2 hv)
  have hb := U64.toNat_add_of_lt h
  simp only [unlock, holding, balance_updateValidatorTier, stakedBalance_updateValidatorTier, hb]
  omega

end Account

section Run

variable {db db' : KyveraDb} {x : String} {v : UInt64} {u : Unit}

@[simp] theorem run_saveAccount (a : Account) (db : KyveraDb) :
    (saveAccount a).run db = (.ok (), db.save a) := rfl

@[simp] theorem run_getAccount (x : String) (db : KyveraDb) :
    (getAccount x).run db = (.ok db.accounts[x]?, db) := rfl

@[simp] theorem run_getOrCreateAccount (x : String) (db : KyveraDb) :
    (getOrCreateAccount x).run db = (.ok (db.account x), db) := by
  unfold getOrCreateAccount KyveraDb.account AccountTree.account
  rw [Prog.run_bind, run_getAccount]
  cases db.accounts[x]? <;> rfl

theorem readOnly_getAccount (x : String) (db : KyveraDb) : (getAccount x).ReadOnly db := trivial

theorem readOnly_getOrCreateAccount (x : String) (db : KyveraDb) :
    (getOrCreateAccount x).ReadOnly db := by
  apply (readOnly_getAccount x db).everyWrite_bind
  intro found _
  cases found <;> trivial

/-- A program that starts by loading an account. -/
@[simp] theorem run_getOrCreateAccount_bind {β : Type} (g : Account → DbM β) (db : KyveraDb) :
    (getOrCreateAccount x >>= g).run db = (g (db.account x)).run db :=
  Prog.run_bind_of_ok (run_getOrCreateAccount x db)

@[simp] theorem run_saveAccount_bind {β : Type} (a : Account) (g : Unit → DbM β) (db : KyveraDb) :
    (saveAccount a >>= g).run db = (g ()).run (db.save a) := rfl

@[simp] theorem run_getAccount_bind {β : Type} (g : Option Account → DbM β) (db : KyveraDb) :
    (getAccount x >>= g).run db = (g db.accounts[x]?).run db := rfl

@[simp] theorem run_getValidators (db : KyveraDb) :
    getValidators.run db =
      (.ok ((db.accounts.toList.map Prod.snd).filter Account.isValidator), db) := rfl

theorem run_saveAccount_eq_ok_iff {a : Account} :
    (saveAccount a).run db = (.ok u, db') ↔ db' = db.save a := by
  simp [eq_comm]

theorem run_creditAccount_eq_ok_iff :
    (creditAccount x v).run db = (.ok u, db') ↔
      (db.account x).Room v ∧ db' = db.save ((db.account x).credit v) := by
  rw [creditAccount, run_getOrCreateAccount_bind, Prog.run_okOr_bind_eq_ok_iff,
    U64.exists_checkedAdd_iff, run_saveAccount_eq_ok_iff]
  rfl

/-- A credit that fits adds to one balance. -/
theorem run_creditAccount_of_room (h : (db.account x).Room v) :
    (creditAccount x v).run db = (.ok (), db.save ((db.account x).credit v)) :=
  run_creditAccount_eq_ok_iff.2 ⟨h, rfl⟩

theorem run_creditAccount_of_not_room (h : ¬ (db.account x).Room v) :
    (creditAccount x v).run db = (.err "Balance overflow — this should never happen", db) := by
  rw [creditAccount, run_getOrCreateAccount_bind, U64.checkedAdd_of_not_lt h]
  rfl

theorem run_lockStake_eq_ok_iff :
    (lockStake x v).run db = (.ok u, db') ↔
      v.toNat ≤ (db.account x).balance.toNat ∧
      (db.account x).stakedBalance.toNat + v.toNat < U64.size ∧
      db' = db.save ((db.account x).lock v) := by
  rw [lockStake, run_getOrCreateAccount_bind, Prog.run_ite_err_eq_ok_iff,
    Prog.run_okOr_bind_eq_ok_iff, U64.exists_checkedAdd_iff, run_saveAccount_eq_ok_iff,
    UInt64.not_lt, UInt64.le_iff_toNat_le]
  rfl

theorem run_unlockStake_eq_ok_iff :
    (unlockStake x v).run db = (.ok u, db') ↔
      v.toNat ≤ (db.account x).stakedBalance.toNat ∧ (db.account x).Room v ∧
      db' = db.save ((db.account x).unlock v) := by
  rw [unlockStake, run_getOrCreateAccount_bind, Prog.run_ite_err_eq_ok_iff,
    Prog.run_okOr_bind_eq_ok_iff, U64.exists_checkedAdd_iff, run_saveAccount_eq_ok_iff,
    UInt64.not_lt, UInt64.le_iff_toNat_le]
  rfl

/-- The database after a payment that saves nothing when the amount is zero. -/
def KyveraDb.pay (db : KyveraDb) (x : String) (v : UInt64) : KyveraDb :=
  if v = 0 then db else db.save ((db.account x).credit v)

theorem KyveraDb.WellFormed.pay (h : db.WellFormed) (x : String) (v : UInt64) :
    (db.pay x v).WellFormed := by
  unfold KyveraDb.pay
  split_ifs
  · exact h
  · exact h.save _

theorem KyveraDb.WellFormed.account_save (h : db.WellFormed) {a : Account}
    (ha : a.address = (db.account x).address) (y : String) :
    (db.save a).account y = if y = x then a else db.account y := by
  rw [KyveraDb.account_save, ha, h.address_account]
  exact if_congr eq_comm rfl rfl

theorem KyveraDb.WellFormed.account_pay (h : db.WellFormed) (x : String) (v : UInt64) (y : String) :
    (db.pay x v).account y = if y = x then (db.account x).credit v else db.account y := by
  unfold KyveraDb.pay
  split_ifs with hv hy hy
  · rw [hy, hv, Account.credit_zero]
  · rfl
  · exact (h.account_save (Account.address_credit _ v) y).trans (if_pos hy)
  · exact (h.account_save (Account.address_credit _ v) y).trans (if_neg hy)

theorem run_creditNonzero_eq_ok_iff :
    (creditNonzero x v).run db = (.ok u, db') ↔ (db.account x).Room v ∧ db' = db.pay x v := by
  unfold creditNonzero KyveraDb.pay
  by_cases hv : v = 0
  · subst hv
    simp [Account.room_zero, eq_comm]
  · have hpos : v > 0 := UInt64.pos_iff_ne_zero.2 hv
    rw [if_pos hpos, if_neg hv, run_creditAccount_eq_ok_iff]

end Run

end Kyvera
