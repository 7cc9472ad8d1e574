import Kyvera.Ledger.Footprints
import Kyvera.Ledger.Slashing
import Kyvera.Library.Accounting

/-!
# The books of the ledger

What the accounts own and the withdrawals that wait for their release are bonded together.  Every
operation that succeeds keeps the books: fees leave the ledger but for the treasury's tenth,
coinbases and credits come in, the rewards of an epoch bring in 40% of its fees, and a request that
takes the key of an earlier one drops what that one held.  Stakes, slashes and releases move funds
inside.
-/

namespace Kyvera

open Effect Effect.Prog Std Trace

/-! ## What an operation adds and takes -/

/-- What a successful operation adds to the ledger. -/
def Op.added : Op → ℕ
  | .creditAccount _ v => v.toNat
  | .applyCoinbase coinbase share => coinbase.amount.toNat + share.toNat
  | .applyEpochRewards coinbase fees => coinbase.amount.toNat + 40 * fees.toNat / 100
  | _ => 0

/-- What a successful operation takes from the ledger. -/
def Op.taken (db : KyveraDb) : Op → ℕ
  | .applyTransaction tx => tx.fee.toNat - tx.fee.toNat / 10
  | .debitAccount _ v => v.toNat
  | .requestUnstake x v e => db.amountAt (pendingUnstakeKey (requested x v e))
  | _ => 0

/-- An operation that succeeds. -/
def Op.Succeeds (db : KyveraDb) (op : Op) (db' : KyveraDb) : Prop :=
  op.program.run db = (.ok (), db')

section Bonded

variable {db db' : KyveraDb} {x : String} {v : UInt64} {u : Unit} {tx coinbase : Transaction}

/-- The account after a debit. -/
def Account.debit (a : Account) (v : UInt64) : Account := { a with balance := a.balance - v }

/-- The account after its nonce was incremented. -/
def Account.advance (a : Account) : Account := { a with nonce := a.nonce + 1 }

theorem Account.holding_debit {a : Account} (hv : v.toNat ≤ a.balance.toNat) :
    (a.debit v).holding + v.toNat = a.holding := by
  have hsub := U64.toNat_sub_of_le (UInt64.le_iff_toNat_le.2 hv)
  simp only [Account.holding, Account.debit]
  omega

theorem pendingTotal_of_writesOnly {α : Type} {p : DbM α} {o : Outcome String α}
    (hp : p.WritesOnly KeepsMetadata) (hrun : p.run db = (o, db')) :
    db'.pendingTotal = db.pendingTotal := by
  have hmeta := metadata_of_writesOnly hp db
  rw [hrun] at hmeta
  unfold KyveraDb.pendingTotal
  rw [hmeta]

theorem run_debitAccount_eq_ok_iff :
    (debitAccount x v).run db = (.ok u, db') ↔
      v.toNat ≤ (db.account x).balance.toNat ∧
      db' = db.save ((db.account x).debit v) := by
  rw [debitAccount, run_getOrCreateAccount_bind, run_ite_err_eq_ok_iff, run_saveAccount_eq_ok_iff,
    UInt64.not_lt, UInt64.le_iff_toNat_le]
  rfl

theorem run_incrementNonce_eq_ok_iff :
    (incrementNonce x).run db = (.ok u, db') ↔
      (db.account x).nonce.toNat + 1 < U64.size ∧
      db' = db.save (db.account x).advance := by
  rw [incrementNonce, run_getOrCreateAccount_bind, run_orPanic_bind_eq_ok_iff,
    U64.exists_checkedAdd_iff, run_saveAccount_eq_ok_iff]
  rfl

theorem supply_debitAccount (h : db.WellFormed)
    (hrun : (debitAccount x v).run db = (.ok u, db')) :
    db'.WellFormed ∧ db'.supply + v.toNat = db.supply := by
  obtain ⟨hv, rfl⟩ := run_debitAccount_eq_ok_iff.1 hrun
  have hsave := h.supply_save (x := x) (a := (db.account x).debit v) rfl
  have hdebit := Account.holding_debit hv
  exact ⟨h.save _, by omega⟩

theorem supply_incrementNonce (h : db.WellFormed)
    (hrun : (incrementNonce x).run db = (.ok u, db')) :
    db'.WellFormed ∧ db'.supply = db.supply := by
  obtain ⟨-, rfl⟩ := run_incrementNonce_eq_ok_iff.1 hrun
  have hsave := h.supply_save (x := x) (a := (db.account x).advance) rfl
  have hsame : (db.account x).advance.holding = (db.account x).holding := rfl
  exact ⟨h.save _, by omega⟩

theorem KyveraDb.WellFormed.supply_slashed (h : db.WellFormed)
    (hv : v.toNat ≤ (db.account x).stakedBalance.toNat)
    (hroom : ((db.save ((db.account x).unbond v)).account TREASURY_ADDRESS).Room v) :
    (db.slashed x v).supply = db.supply := by
  have hsave := h.supply_save (Account.address_unbond (db.account x) v)
  have hunbond := Account.holding_unbond hv
  have hcredit : (db.slashed x v).supply = _ := (h.save _).supply_credit hroom
  omega

theorem supply_slashValidator {slashBps taken : UInt64} (h : db.WellFormed)
    (hrun : (slashValidator x slashBps).run db = (.ok taken, db')) :
    db'.WellFormed ∧ db'.supply = db.supply := by
  rw [slashValidator, run_getAccount_bind, run_okOr_bind_eq_ok_iff] at hrun
  obtain ⟨account, hstored, hrun⟩ := hrun
  have haccount : db.account x = account := AccountTree.account_of_getElem? hstored
  rw [run_ite_err_eq_ok_iff] at hrun
  obtain ⟨-, hrun⟩ := hrun
  dsimp only at hrun
  split_ifs at hrun with hzero
  · cases hrun
    exact ⟨h, rfl⟩
  · obtain ⟨staked, hstaked, hrun⟩ := run_orPanic_bind_eq_ok_iff.1 hrun
    rw [run_saveAccount_bind] at hrun
    obtain ⟨_, m, hcredit, hrun⟩ := run_bind_eq_ok_iff.1 hrun
    cases hrun
    unfold U64.checkedSub at hstaked
    split_ifs at hstaked with hle
    cases hstaked
    rw [← haccount] at hcredit hle
    obtain ⟨hroom, rfl⟩ := run_creditAccount_eq_ok_iff.1 hcredit
    exact ⟨(h.save _).save _, h.supply_slashed (UInt64.le_iff_toNat_le.1 hle) hroom⟩

theorem supply_coinbase {share : UInt64} (h : db.WellFormed)
    (hrun : (applyCoinbase coinbase share).run db = (.ok u, db')) :
    db'.WellFormed ∧ db'.supply = db.supply + (coinbase.amount.toNat + share.toNat) := by
  obtain ⟨-, hrun⟩ := run_ite_err_eq_ok_iff.1 hrun
  obtain ⟨_, m, hreward, hshare⟩ := run_bind_eq_ok_iff.1 hrun
  obtain ⟨hm, hsupply⟩ := supply_creditNonzero h hreward
  obtain ⟨hdb', hsupply'⟩ := supply_creditNonzero hm hshare
  exact ⟨hdb', by omega⟩

end Bonded

/-! ## One operation -/

section Step

variable {db db' : KyveraDb}

/-- A program that only saves accounts keeps the books when it keeps those of the supply. -/
theorem bonded_of_supply {α : Type} {p : DbM α} {o : Outcome String α} {added taken : ℕ}
    (hp : p.WritesOnly KeepsMetadata) (hrun : p.run db = (o, db'))
    (hsupply : db'.supply + taken = db.supply + added) :
    db'.bonded + taken = db.bonded + added := by
  have hpending := pendingTotal_of_writesOnly hp hrun
  unfold KyveraDb.bonded
  omega

/-- Every successful operation keeps the books. -/
theorem Op.Succeeds.books {op : Op} (h : db.WellFormed) (hop : op.Succeeds db db') :
    db'.WellFormed ∧ db'.bonded + op.taken db = db.bonded + op.added := by
  have hsaves := savesAccounts_keepsMetadata
  cases op with
  | applyTransaction tx =>
      obtain ⟨happlicable, rfl⟩ := run_applyTransaction_eq_ok_iff.1 hop
      have hsupply := h.supply_applied happlicable
      have htenth : tx.fee.toNat / 10 ≤ tx.fee.toNat := Nat.div_le_self _ _
      refine ⟨h.applied, bonded_of_supply (hsaves.applyTransaction tx) hop ?_⟩
      show _ + (tx.fee.toNat - tx.fee.toNat / 10) = _ + 0
      omega
  | creditAccount x v =>
      obtain ⟨hroom, rfl⟩ := run_creditAccount_eq_ok_iff.1 hop
      exact ⟨h.save _, bonded_of_supply (hsaves.creditAccount x v) hop (h.supply_credit hroom)⟩
  | debitAccount x v =>
      obtain ⟨hwf, hsupply⟩ := supply_debitAccount h hop
      exact ⟨hwf, bonded_of_supply (hsaves.debitAccount x v) hop hsupply⟩
  | incrementNonce x =>
      obtain ⟨hwf, hsupply⟩ := supply_incrementNonce h hop
      exact ⟨hwf, bonded_of_supply (hsaves.incrementNonce x) hop hsupply⟩
  | lockStake x v => exact (show Kyvera.Succeeds db (.lockStake x v) db' from hop).bonded h
  | unlockStake x v => exact (show Kyvera.Succeeds db (.unlockStake x v) db' from hop).bonded h
  | requestUnstake x v e => exact (show Kyvera.Succeeds db (.requestUnstake x v e) db' from hop).bonded h
  | processMaturedUnstakes e =>
      exact (show Kyvera.Succeeds db (.processMaturedUnstakes e) db' from hop).bonded h
  | slashValidator x bps =>
      obtain ⟨taken, hrun⟩ := run_discard_eq_ok_iff.1 hop
      obtain ⟨hwf, hsupply⟩ := supply_slashValidator h hrun
      exact ⟨hwf, bonded_of_supply (hsaves.slashValidator x bps) hrun hsupply⟩
  | applyCoinbase coinbase share =>
      obtain ⟨hwf, hsupply⟩ := supply_coinbase h hop
      exact ⟨hwf, bonded_of_supply (hsaves.applyCoinbase coinbase share) hop hsupply⟩
  | applyEpochRewards coinbase fees =>
      obtain ⟨hwf, hsupply⟩ := supply_applyEpochRewards h hop
      rw [Nat.add_assoc] at hsupply
      exact ⟨hwf, bonded_of_supply (hsaves.applyEpochRewards coinbase fees) hop hsupply⟩

end Step

/-! ## Runs -/

section Runs

variable {db : KyveraDb} {run : List (Step KyveraDb Op)}

/-- Over any run of successful operations on a well-formed store, what is bonded at the end and
what was taken on the way is what was bonded at the start and what has been added. -/
theorem bonded_books (hwf : db.WellFormed) (h : IsRun Op.Succeeds db run) :
    (final db run).bonded + total (fun t => t.call.taken t.pre) run =
      db.bonded + total (fun t => t.call.added) run :=
  (h.balance (I := KyveraDb.WellFormed) KyveraDb.bonded (fun t => t.call.taken t.pre)
    (fun t => t.call.added) (fun _ _ _ hs hop => hop.books hs) hwf).2

end Runs

/-- The operations of a list, each made on the database that the one before it left. -/
def operations (db : KyveraDb) (list : List Op) : List (Step KyveraDb Op) :=
  trace (fun db (op : Op) => (op.program.run db).2) db list

theorem isRun_operations {db : KyveraDb} {list : List Op}
    (h : ∀ t ∈ operations db list, (t.call.program.run t.pre).1 = .ok ()) :
    IsRun Op.Succeeds db (operations db list) :=
  isRun_trace fun t ht => run_eq_of_outcome (h t ht)

/-- A transfer with a fee of 30, two requests in one epoch of which the second one drops the first,
a release, and the rewards of an epoch. -/
theorem bonded_books_of_epoch :
    let tx := Transaction.new 0 "kyv1a" "kyv1b" 40 30 0 .transfer []
    let coinbase := Transaction.new 0 COINBASE_SENDER "kyv1m" 1000 0 0 .transfer []
    let db := KyveraDb.withAccounts
      [{ Account.new "kyv1a" with balance := 100, stakedBalance := 50 }]
    let run := operations db
      [.applyTransaction tx, .requestUnstake "kyv1a" 20 1, .requestUnstake "kyv1a" 5 1,
        .processMaturedUnstakes 11, .applyEpochRewards coinbase 30]
    (final db run).bonded + (27 + 20) = 150 + (1000 + 12) := by
  intro tx coinbase db run
  have hbooks : (final db run).bonded + total (fun t => t.call.taken t.pre) run =
      db.bonded + total (fun t => t.call.added) run :=
    bonded_books (KyveraDb.wellFormed_withAccounts _) (isRun_operations (by decide +kernel))
  have hbefore : db.bonded = 150 := by decide
  have htaken : total (fun t => t.call.taken t.pre) run = 27 + 20 := by decide +kernel
  have hadded : total (fun t => t.call.added) run = 1000 + 12 := by decide +kernel
  clear_value run db
  rwa [hbefore, htaken, hadded] at hbooks

end Kyvera
