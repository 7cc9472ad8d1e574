import Kyvera.Ledger.Effects
import Kyvera.Library.Netting

/-!
# Executing a list of transactions

Seen from outside, the accounts are a ledger: three integers for every address.  An accepted
transaction adds a fixed change to it, which it takes from the transaction alone, and what it
demands can be read off the ledger.  A list of transactions therefore executes exactly when the
ledger before it, netted with the changes of the earlier transactions, admits each of them.
-/

namespace Kyvera

open Effect Effect.Prog Netting

/-- The entries of every address. -/
abbrev Ledger := String → Entry → ℤ

/-- The ledger of a database; an address without an account has the entries of a fresh one. -/
def KyveraDb.ledger (db : KyveraDb) : Ledger := fun x => (db.account x).entry

namespace Transaction

/-! ## The change of a transaction -/

/-- What the charge of the sender adds. -/
def chargeChange (tx : Transaction) : Ledger :=
  fun x q => if x = tx.sender then tx.charges q else 0

/-- What the delivery adds. -/
def deliverChange (tx : Transaction) : Ledger :=
  fun x q => if x = tx.receiver ∧ q = .balance then tx.delivered.toNat else 0

/-- What the treasury's tenth adds. -/
def titheChange (tx : Transaction) : Ledger :=
  fun x q => if x = TREASURY_ADDRESS ∧ q = .balance then (tx.fee / 10).toNat else 0

/-- All that an accepted transaction adds to the ledger. -/
def change (tx : Transaction) : Ledger := tx.chargeChange + tx.deliverChange + tx.titheChange

/-- What the sender spends at once. -/
def cost (tx : Transaction) : ℕ :=
  match tx.transactionType with
  | .transfer | .stakeLock => tx.amount.toNat + tx.fee.toNat
  | .stakeUnlock | .contractDeploy | .contractCall => tx.fee.toNat

theorem change_nonce (tx : Transaction) (x : String) :
    tx.change x .nonce = if tx.sender = x then 1 else 0 := by
  simp [change, chargeChange, deliverChange, titheChange, charges, eq_comm]

/-- A transaction takes from the balance of its sender only. -/
theorem change_balance_nonneg {tx : Transaction} {x : String} (h : tx.sender ≠ x) :
    0 ≤ tx.change x .balance := by
  show 0 ≤ tx.chargeChange x .balance + tx.deliverChange x .balance + tx.titheChange x .balance
  unfold chargeChange deliverChange titheChange
  rw [if_neg (Ne.symm h)]
  split_ifs <;> omega

end Transaction

namespace Ledger

/-- Every sum that a transaction forms stays within 64 bits: its cost, the sender's next nonce, the
stake it locks or unlocks, the receiver's balance and the treasury's. -/
structure Fits (m : Ledger) (tx : Transaction) : Prop where
  cost : tx.cost < U64.size
  nonce : tx.nonce.toNat + 1 < U64.size
  lock : tx.transactionType = .stakeLock → m tx.sender .stake + tx.amount.toNat < U64.size
  unlock : tx.transactionType = .stakeUnlock → m tx.sender .balance + tx.amount.toNat < U64.size
  deliver : tx.transactionType = .transfer →
    (m + tx.chargeChange) tx.receiver .balance + tx.amount.toNat < U64.size
  tithe : (m + tx.chargeChange + tx.deliverChange) TREASURY_ADDRESS .balance +
    (tx.fee / 10).toNat < U64.size

/-- A transaction that can be executed on a ledger. -/
structure Admits (m : Ledger) (tx : Transaction) : Prop where
  nonce : m tx.sender .nonce = tx.nonce.toNat
  cost : tx.cost ≤ m tx.sender .balance
  stake : tx.transactionType = .stakeUnlock → tx.amount.toNat ≤ m tx.sender .stake
  fits : m.Fits tx

end Ledger

/-! ## Transactions on the ledger -/

section Steps

variable {db : KyveraDb} {tx : Transaction}

theorem KyveraDb.ledger_charge (h : db.WellFormed) (hc : tx.Chargeable (db.account tx.sender)) :
    (db.charge tx).ledger = db.ledger + tx.chargeChange := by
  funext x q
  show ((db.charge tx).account x).entry q = (db.account x).entry q + tx.chargeChange x q
  rw [h.account_charge, Transaction.chargeChange]
  split_ifs with hx
  · rw [hc.entry_charged, hx]
  · exact (add_zero _).symm

theorem Account.Room.entry_credit {a : Account} {v : UInt64} (h : a.Room v) (q : Entry) :
    (a.credit v).entry q = a.entry q + if q = .balance then (v.toNat : ℤ) else 0 := by
  cases q with
  | balance =>
      show ((a.credit v).balance.toNat : ℤ) = _
      rw [h.toNat_balance_credit]
      exact Nat.cast_add _ _
  | stake => exact (add_zero _).symm
  | nonce => exact (add_zero _).symm

theorem KyveraDb.ledger_credit {m m' : KyveraDb} {y : String} {v : UInt64}
    (hroom : (m.account y).Room v)
    (hm : ∀ x, m'.account x = if x = y then (m.account y).credit v else m.account x) :
    m'.ledger = m.ledger + fun x q => if x = y ∧ q = .balance then (v.toNat : ℤ) else 0 := by
  funext x q
  show (m'.account x).entry q =
    (m.account x).entry q + if x = y ∧ q = .balance then (v.toNat : ℤ) else 0
  rw [hm]
  by_cases hx : x = y
  · rw [if_pos hx, hroom.entry_credit, hx]
    simp only [true_and]
  · rw [if_neg hx, if_neg fun e => hx e.1, add_zero]

theorem Transaction.room_delivered (h : db.Deliverable tx) :
    (db.account tx.receiver).Room tx.delivered := by
  unfold Transaction.delivered
  cases htype : tx.transactionType with
  | transfer => exact h htype
  | stakeLock | stakeUnlock | contractDeploy | contractCall => exact Account.room_zero _

theorem KyveraDb.ledger_deliver (h : db.WellFormed) (hd : db.Deliverable tx) :
    (db.deliver tx).ledger = db.ledger + tx.deliverChange :=
  KyveraDb.ledger_credit (Transaction.room_delivered hd) h.account_deliver

theorem KyveraDb.ledger_tithe (h : db.WellFormed)
    (ht : (db.account TREASURY_ADDRESS).Room (tx.fee / 10)) :
    (db.tithe tx.fee).ledger = db.ledger + tx.titheChange :=
  KyveraDb.ledger_credit ht (h.account_tithe tx.fee)

/-- An accepted transaction adds its change to the ledger. -/
theorem KyveraDb.ledger_applied (h : db.WellFormed) (ha : db.Applicable tx) :
    (db.applied tx).ledger = db.ledger + tx.change := by
  rw [KyveraDb.applied, KyveraDb.ledger_tithe h.charge.deliver ha.tithe,
    KyveraDb.ledger_deliver h.charge ha.deliver, KyveraDb.ledger_charge h ha.charge,
    Transaction.change, add_assoc, add_assoc, add_assoc]

theorem KyveraDb.room_iff {x : String} {v : UInt64} :
    (db.account x).Room v ↔ db.ledger x .balance + v.toNat < U64.size := by
  show _ ↔ ((db.account x).balance.toNat : ℤ) + v.toNat < _
  unfold Account.Room
  omega

theorem Transaction.covered_iff {a : Account} :
    tx.Covered a ↔ tx.cost ≤ a.entry .balance ∧
      (tx.transactionType = .stakeUnlock → tx.amount.toNat ≤ a.entry .stake) ∧
      (tx.transactionType = .stakeLock → a.entry .stake + tx.amount.toNat < U64.size) ∧
      (tx.transactionType = .stakeUnlock → a.entry .balance + tx.amount.toNat < U64.size) := by
  have hsize : U64.size = 18446744073709551616 := rfl
  unfold Transaction.Covered Transaction.cost Account.entry Account.Room
  cases tx.transactionType <;> simp <;> omega

theorem Transaction.Covered.cost_lt {a : Account} (h : tx.Covered a) : tx.cost < U64.size := by
  have hle : (tx.cost : ℤ) ≤ a.balance.toNat := (Transaction.covered_iff.1 h).1
  have hlt := U64.toNat_lt_size a.balance
  omega

theorem KyveraDb.chargeable_iff :
    tx.Chargeable (db.account tx.sender) ↔
      db.ledger tx.sender .nonce = tx.nonce.toNat ∧ tx.cost ≤ db.ledger tx.sender .balance ∧
      (tx.transactionType = .stakeUnlock → tx.amount.toNat ≤ db.ledger tx.sender .stake) ∧
      tx.cost < U64.size ∧ tx.nonce.toNat + 1 < U64.size ∧
      (tx.transactionType = .stakeLock →
        db.ledger tx.sender .stake + tx.amount.toNat < U64.size) ∧
      (tx.transactionType = .stakeUnlock →
        db.ledger tx.sender .balance + tx.amount.toNat < U64.size) := by
  have hnonce : db.ledger tx.sender .nonce = tx.nonce.toNat ↔
      (db.account tx.sender).nonce = tx.nonce := by
    rw [← UInt64.toNat_inj]
    exact Nat.cast_inj
  rw [hnonce]
  constructor
  · intro ⟨hcovered, heq, hroom⟩
    obtain ⟨hcost, hstake, hlock, hunlock⟩ := Transaction.covered_iff.1 hcovered
    exact ⟨heq, hcost, hstake, hcovered.cost_lt, heq ▸ hroom, hlock, hunlock⟩
  · intro ⟨heq, hcost, hstake, _, hroom, hlock, hunlock⟩
    exact ⟨Transaction.covered_iff.2 ⟨hcost, hstake, hlock, hunlock⟩, heq, heq ▸ hroom⟩

/-- A transaction is accepted exactly when the ledger admits it. -/
theorem KyveraDb.applicable_iff (h : db.WellFormed) : db.Applicable tx ↔ db.ledger.Admits tx := by
  have hdeliver : tx.Chargeable (db.account tx.sender) → ((db.charge tx).Deliverable tx ↔
      (tx.transactionType = .transfer →
        (db.ledger + tx.chargeChange) tx.receiver .balance + tx.amount.toNat < U64.size)) := by
    intro hc
    rw [KyveraDb.Deliverable, KyveraDb.room_iff, KyveraDb.ledger_charge h hc]
  have htithe : tx.Chargeable (db.account tx.sender) → (db.charge tx).Deliverable tx →
      ((((db.charge tx).deliver tx).account TREASURY_ADDRESS).Room (tx.fee / 10) ↔
        (db.ledger + tx.chargeChange + tx.deliverChange) TREASURY_ADDRESS .balance +
          (tx.fee / 10).toNat < U64.size) := by
    intro hc hd
    rw [KyveraDb.room_iff, KyveraDb.ledger_deliver h.charge hd, KyveraDb.ledger_charge h hc]
  constructor
  · rintro ⟨hc, hd, ht⟩
    obtain ⟨hnonce, hcost, hstake, hsum, hnext, hlock, hunlock⟩ := KyveraDb.chargeable_iff.1 hc
    exact ⟨hnonce, hcost, hstake, hsum, hnext, hlock, hunlock, (hdeliver hc).1 hd,
      (htithe hc hd).1 ht⟩
  · rintro ⟨hnonce, hcost, hstake, hfits⟩
    have hc := KyveraDb.chargeable_iff.2
      ⟨hnonce, hcost, hstake, hfits.cost, hfits.nonce, hfits.lock, hfits.unlock⟩
    have hd := (hdeliver hc).2 hfits.deliver
    exact ⟨hc, hd, (htithe hc hd).2 hfits.tithe⟩

end Steps

/-! ## Lists of transactions -/

/-- Transactions are guarded actions whose effects on the ledger add up. -/
theorem additive_applied :
    Additive KyveraDb.WellFormed KyveraDb.Applicable KyveraDb.applied KyveraDb.ledger
      Transaction.change Ledger.Admits where
  inv := fun h _ => h.applied
  view_act := KyveraDb.ledger_applied
  enabled_iff := KyveraDb.applicable_iff

/-- All transactions are accepted exactly when each is applicable where it is executed. -/
theorem outcome_transactions_eq_ok_iff {txs : List Transaction} {db : KyveraDb} :
    ((txs.forM applyTransaction).run db).1 = .ok () ↔
      AllEnabled KyveraDb.Applicable KyveraDb.applied db txs := by
  induction txs generalizing db with
  | nil => exact ⟨fun _ => trivial, fun _ => rfl⟩
  | cons tx rest ih =>
      rw [AllEnabled, ← ih]
      constructor
      · intro h
        obtain ⟨_, m, htx, hrest⟩ := run_bind_eq_ok_iff.1 (run_eq_of_outcome h)
        obtain ⟨ha, rfl⟩ := run_applyTransaction_eq_ok_iff.1 htx
        exact ⟨ha, congrArg Prod.fst hrest⟩
      · rintro ⟨ha, hrest⟩
        have htx : (applyTransaction tx).run db = (.ok (), db.applied tx) :=
          run_applyTransaction_eq_ok_iff.2 ⟨ha, rfl⟩
        exact congrArg Prod.fst (run_bind_eq_ok_iff.2 ⟨(), _, htx, run_eq_of_outcome hrest⟩)

/-- The ledger of a database, netted with transactions. -/
def KyveraDb.netted (db : KyveraDb) (pre : List Transaction) : Ledger :=
  db.ledger + (pre.map Transaction.change).sum

theorem KyveraDb.netted_apply (db : KyveraDb) (pre : List Transaction) (x : String) (q : Entry) :
    db.netted pre x q = (db.account x).entry q + (pre.map fun tx => tx.change x q).sum := by
  show db.ledger x q + (pre.map Transaction.change).sum x q = _
  rw [Pi.list_sum_apply, Pi.list_sum_apply, List.map_map, List.map_map]
  rfl

/-- A list of transactions executes exactly when each transaction is admitted by the ledger before
the list, netted with the transactions before it. -/
theorem outcome_transactions_eq_ok_iff_admits {txs : List Transaction} {db : KyveraDb}
    (h : db.WellFormed) :
    ((txs.forM applyTransaction).run db).1 = .ok () ↔
      ∀ pre tx post, txs = pre ++ tx :: post → (db.netted pre).Admits tx :=
  outcome_transactions_eq_ok_iff.trans (allEnabled_iff additive_applied h)

end Kyvera
