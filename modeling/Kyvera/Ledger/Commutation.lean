import Kyvera.Ledger.Execution

/-!
# Independent transactions

What a transaction does to one account depends on that account alone: it is charged if it is the
sender, credited if it is the receiver, credited if it is the treasury.  Credits commute.  So two
transactions commute when neither charges an account that the other one touches.
-/

namespace Kyvera

open Effect Effect.Prog Std

/-! ## Account trees, account by account -/

theorem AccountTree.ext_account {t t' : AccountTree} (haccount : ∀ x, t.account x = t'.account x)
    (hstored : ∀ x : String, t[x]?.isSome ↔ t'[x]?.isSome) : t = t' := by
  apply ExtTreeMap.ext_getElem?
  intro x
  have hx := hstored x
  have ha := haccount x
  unfold AccountTree.account at ha
  rcases h : t[x]? with _ | a
  · rw [h] at hx
    exact (Option.not_isSome_iff_eq_none.1 fun h' => Bool.false_ne_true (hx.2 h')).symm
  · rw [h] at hx ha
    obtain ⟨a', h'⟩ := Option.isSome_iff_exists.1 (hx.1 rfl)
    rw [h'] at ha ⊢
    exact congrArg some ha

/-- An address with a stored account. -/
def KyveraDb.Stored (db : KyveraDb) (x : String) : Prop := db.accounts[x]?.isSome

theorem KyveraDb.stored_save {db : KyveraDb} {a : Account} {x : String} :
    (db.save a).Stored x ↔ x = a.address ∨ db.Stored x := by
  unfold KyveraDb.Stored
  rw [accounts_save, AccountTree.getElem?_put]
  split_ifs with hx
  · exact iff_of_true rfl (.inl hx.symm)
  · exact (or_iff_right (Ne.symm hx)).symm

namespace Transaction

/-! ## One account -/

/-- What a transaction does to the account of an address. -/
def act (tx : Transaction) (x : String) (a : Account) : Account :=
  let charged := if x = tx.sender then tx.charged a else a
  let delivered := if x = tx.receiver then charged.credit tx.delivered else charged
  if x = TREASURY_ADDRESS then delivered.credit (tx.fee / 10) else delivered

/-- What a transaction credits to an address, as its receiver and as the treasury. -/
def credits (tx : Transaction) (x : String) : UInt64 :=
  (if x = tx.receiver then tx.delivered else 0) + if x = TREASURY_ADDRESS then tx.fee / 10 else 0

/-- The addresses whose accounts a transaction saves. -/
def Touches (tx : Transaction) (x : String) : Prop :=
  x = tx.sender ∨ tx.transactionType = .transfer ∧ x = tx.receiver ∨
    x = TREASURY_ADDRESS ∧ tx.fee / 10 ≠ 0

/-- Neither transaction charges an account that the other one may touch. -/
structure Independent (t₁ t₂ : Transaction) : Prop where
  senders : t₁.sender ≠ t₂.sender
  receiver₁ : t₂.sender ≠ t₁.receiver
  receiver₂ : t₁.sender ≠ t₂.receiver
  treasury₁ : t₁.sender ≠ TREASURY_ADDRESS
  treasury₂ : t₂.sender ≠ TREASURY_ADDRESS

theorem Independent.symm {t₁ t₂ : Transaction} (h : t₁.Independent t₂) : t₂.Independent t₁ :=
  ⟨h.senders.symm, h.receiver₂, h.receiver₁, h.treasury₂, h.treasury₁⟩

end Transaction

theorem Account.credit_credit (a : Account) (v w : UInt64) :
    (a.credit v).credit w = a.credit (v + w) := by
  unfold Account.credit
  rw [UInt64.add_assoc]

section Steps

variable {db : KyveraDb} {tx t₁ t₂ : Transaction} {x : String}

theorem KyveraDb.WellFormed.account_applied (h : db.WellFormed) (x : String) :
    (db.applied tx).account x = tx.act x (db.account x) := by
  have charge : (db.charge tx).account x =
      if x = tx.sender then tx.charged (db.account x) else db.account x := by
    rw [h.account_charge]
    split_ifs with hx
    · rw [hx]
    · rfl
  have deliver : ((db.charge tx).deliver tx).account x =
      if x = tx.receiver then ((db.charge tx).account x).credit tx.delivered
      else (db.charge tx).account x := by
    rw [h.charge.account_deliver]
    split_ifs with hx
    · rw [hx]
    · rfl
  have tithe : (((db.charge tx).deliver tx).tithe tx.fee).account x =
      if x = TREASURY_ADDRESS then (((db.charge tx).deliver tx).account x).credit (tx.fee / 10)
      else ((db.charge tx).deliver tx).account x := by
    rw [h.charge.deliver.account_tithe]
    split_ifs with hx
    · rw [hx]
    · rfl
  rw [KyveraDb.applied, tithe, deliver, charge]
  rfl

theorem KyveraDb.WellFormed.stored_applied (h : db.WellFormed) :
    (db.applied tx).Stored x ↔ tx.Touches x ∨ db.Stored x := by
  have charge : (db.charge tx).Stored x ↔ x = tx.sender ∨ db.Stored x := by
    rw [KyveraDb.charge, KyveraDb.stored_save, tx.address_charged, h.address_account]
  have deliver : ((db.charge tx).deliver tx).Stored x ↔
      tx.transactionType = .transfer ∧ x = tx.receiver ∨ (db.charge tx).Stored x := by
    unfold KyveraDb.deliver
    cases tx.transactionType with
    | transfer =>
        rw [KyveraDb.stored_save, Account.address_credit, h.charge.address_account]
        simp only [true_and]
    | stakeLock | stakeUnlock | contractDeploy | contractCall =>
        simp only [reduceCtorEq, false_and, false_or]
  have tithe : (((db.charge tx).deliver tx).tithe tx.fee).Stored x ↔
      x = TREASURY_ADDRESS ∧ tx.fee / 10 ≠ 0 ∨ ((db.charge tx).deliver tx).Stored x := by
    unfold KyveraDb.tithe KyveraDb.pay
    split_ifs with hfee
    · simp only [hfee, ne_eq, not_true_eq_false, and_false, false_or]
    · rw [KyveraDb.stored_save, Account.address_credit, h.charge.deliver.address_account]
      simp only [hfee, ne_eq, not_false_eq_true, and_true]
  rw [KyveraDb.applied, tithe, deliver, charge]
  unfold Transaction.Touches
  simp only [or_assoc, or_left_comm]

theorem Transaction.act_of_ne_sender (hx : x ≠ tx.sender) (a : Account) :
    tx.act x a = a.credit (tx.credits x) := by
  unfold Transaction.act Transaction.credits
  rw [if_neg hx]
  dsimp only
  split_ifs
  · rw [Account.credit_credit]
  · rw [UInt64.zero_add]
  · rw [UInt64.add_zero]
  · rw [UInt64.add_zero, Account.credit_zero]

theorem Transaction.Independent.act_sender (h : t₁.Independent t₂) (a : Account) :
    t₂.act t₁.sender a = a := by
  rw [Transaction.act_of_ne_sender h.senders, Transaction.credits, if_neg h.receiver₂,
    if_neg h.treasury₁, UInt64.add_zero, Account.credit_zero]

/-- Independent transactions commute on every account. -/
theorem Transaction.Independent.act_comm (h : t₁.Independent t₂) (x : String) (a : Account) :
    t₂.act x (t₁.act x a) = t₁.act x (t₂.act x a) := by
  by_cases h₁ : x = t₁.sender
  · rw [h₁, h.act_sender, h.act_sender]
  · by_cases h₂ : x = t₂.sender
    · rw [h₂, h.symm.act_sender, h.symm.act_sender]
    · rw [Transaction.act_of_ne_sender h₁, Transaction.act_of_ne_sender h₂,
        Transaction.act_of_ne_sender h₁, Transaction.act_of_ne_sender h₂, Account.credit_credit,
        Account.credit_credit, UInt64.add_comm]

theorem KyveraDb.applied_eq (db : KyveraDb) (tx : Transaction) :
    db.applied tx = { db with accounts := (db.applied tx).accounts } := by
  unfold KyveraDb.applied KyveraDb.tithe KyveraDb.pay KyveraDb.deliver
  split_ifs <;> cases tx.transactionType <;> rfl

/-- Independent transactions have the same effect in both orders. -/
theorem KyveraDb.WellFormed.applied_comm (h : db.WellFormed) (hi : t₁.Independent t₂) :
    (db.applied t₁).applied t₂ = (db.applied t₂).applied t₁ := by
  have haccounts : ((db.applied t₁).applied t₂).accounts = ((db.applied t₂).applied t₁).accounts := by
    apply AccountTree.ext_account
    · intro x
      show ((db.applied t₁).applied t₂).account x = ((db.applied t₂).applied t₁).account x
      rw [h.applied.account_applied, h.account_applied, h.applied.account_applied,
        h.account_applied, hi.act_comm]
    · intro x
      show ((db.applied t₁).applied t₂).Stored x ↔ ((db.applied t₂).applied t₁).Stored x
      rw [h.applied.stored_applied, h.stored_applied, h.applied.stored_applied, h.stored_applied]
      exact or_left_comm
  rw [(db.applied t₁).applied_eq t₂, (db.applied t₂).applied_eq t₁, haccounts, db.applied_eq t₁,
    db.applied_eq t₂]

end Steps

/-! ## Acceptance -/

section Admission

variable {m c : Ledger} {tx t₁ t₂ : Transaction}

theorem Ledger.add_apply_of_eq_zero {x : String} (hx : ∀ q, c x q = 0) (q : Entry) :
    (m + c) x q = m x q := by
  show m x q + c x q = m x q
  rw [hx, add_zero]

/-- A change that leaves the sender alone and takes nothing from the receiver and the treasury was
not needed for a transaction to be admitted. -/
theorem Ledger.Admits.of_add (h : (m + c).Admits tx) (hs : ∀ q, c tx.sender q = 0)
    (hr : 0 ≤ c tx.receiver .balance) (ht : 0 ≤ c TREASURY_ADDRESS .balance) : m.Admits tx := by
  have hsender := Ledger.add_apply_of_eq_zero (m := m) hs
  obtain ⟨hnonce, hcost, hstake, hfits⟩ := h
  simp only [hsender] at hnonce hcost hstake
  refine ⟨hnonce, hcost, hstake, hfits.cost, hfits.nonce, fun htype => ?_, fun htype => ?_,
    fun htype => ?_, ?_⟩
  · rw [← hsender]
    exact hfits.lock htype
  · rw [← hsender]
    exact hfits.unlock htype
  · have hdeliver := hfits.deliver htype
    simp only [Pi.add_apply] at hdeliver ⊢
    omega
  · have htithe := hfits.tithe
    simp only [Pi.add_apply] at htithe ⊢
    omega

/-- A change that leaves the sender alone does not stop a transaction, if the balances of the
receiver and the treasury fit in the end. -/
theorem Ledger.Admits.add (h : m.Admits tx) (hs : ∀ q, c tx.sender q = 0)
    (hr : (m + tx.change + c) tx.receiver .balance < U64.size)
    (ht : (m + tx.change + c) TREASURY_ADDRESS .balance < U64.size) : (m + c).Admits tx := by
  have hsender := Ledger.add_apply_of_eq_zero (m := m) hs
  obtain ⟨hnonce, hcost, hstake, hfits⟩ := h
  refine ⟨by rwa [hsender], by rwa [hsender], fun htype => ?_, hfits.cost, hfits.nonce,
    fun htype => ?_, fun htype => ?_, fun htype => ?_, ?_⟩
  · rw [hsender]
    exact hstake htype
  · rw [hsender]
    exact hfits.lock htype
  · rw [hsender]
    exact hfits.unlock htype
  · have hamount : tx.deliverChange tx.receiver .balance = tx.amount.toNat := by
      rw [Transaction.deliverChange, if_pos ⟨rfl, rfl⟩, Transaction.delivered, htype]
    have htithe : 0 ≤ tx.titheChange tx.receiver .balance := by
      unfold Transaction.titheChange
      split_ifs <;> omega
    simp only [Transaction.change, Pi.add_apply] at hr ⊢
    omega
  · have htithe : tx.titheChange TREASURY_ADDRESS .balance = (tx.fee / 10).toNat :=
      if_pos ⟨rfl, rfl⟩
    simp only [Transaction.change, Pi.add_apply] at ht ⊢
    omega

theorem Transaction.Independent.change_sender (h : t₁.Independent t₂) (q : Entry) :
    t₁.change t₂.sender q = 0 := by
  show t₁.chargeChange t₂.sender q + t₁.deliverChange t₂.sender q + t₁.titheChange t₂.sender q = 0
  rw [Transaction.chargeChange, Transaction.deliverChange, Transaction.titheChange,
    if_neg h.senders.symm, if_neg fun e => h.receiver₁ e.1, if_neg fun e => h.treasury₂ e.1]
  rfl

end Admission

/-- Independent transactions commute: when one is accepted after the other, then also before it,
and the account store is the same in the end. -/
theorem applyTransaction_commute {db mid db' : KyveraDb} {t₁ t₂ : Transaction} (h : db.WellFormed)
    (hi : t₁.Independent t₂) (h₁ : (applyTransaction t₁).run db = (.ok (), mid))
    (h₂ : (applyTransaction t₂).run mid = (.ok (), db')) :
    ∃ mid', (applyTransaction t₂).run db = (.ok (), mid') ∧
      (applyTransaction t₁).run mid' = (.ok (), db') := by
  obtain ⟨ha₁, rfl⟩ := run_applyTransaction_eq_ok_iff.1 h₁
  obtain ⟨ha₂, rfl⟩ := run_applyTransaction_eq_ok_iff.1 h₂
  have hadmits₁ := (KyveraDb.applicable_iff h).1 ha₁
  have hadmits₂ := (KyveraDb.applicable_iff h.applied).1 ha₂
  rw [KyveraDb.ledger_applied h ha₁] at hadmits₂
  have hfirst : db.Applicable t₂ := by
    apply (KyveraDb.applicable_iff h).2
    exact hadmits₂.of_add hi.change_sender (Transaction.change_balance_nonneg hi.receiver₂)
      (Transaction.change_balance_nonneg hi.treasury₁)
  have hfinal : ∀ x, (db.ledger + t₁.change + t₂.change) x .balance < U64.size := by
    intro x
    rw [← KyveraDb.ledger_applied h ha₁, ← KyveraDb.ledger_applied h.applied ha₂]
    exact Int.ofNat_lt.2 (U64.toNat_lt_size _)
  have hsecond : (db.applied t₂).Applicable t₁ := by
    apply (KyveraDb.applicable_iff h.applied).2
    rw [KyveraDb.ledger_applied h hfirst]
    exact hadmits₁.add hi.symm.change_sender (hfinal _) (hfinal _)
  refine ⟨db.applied t₂, run_applyTransaction_eq_ok_iff.2 ⟨hfirst, rfl⟩, ?_⟩
  exact run_applyTransaction_eq_ok_iff.2 ⟨hsecond, h.applied_comm hi⟩

/-- A transfer and a transfer to the same fresh receiver, of which the first also pays the treasury. -/
theorem applyTransaction_commute_shared_receiver :
    let db := KyveraDb.withAccounts
      [{ Account.new "kyv1a" with balance := 100 }, { Account.new "kyv1b" with balance := 100 }]
    let t₁ := Transaction.new 0 "kyv1a" "kyv1c" 5 30 0 .transfer []
    let t₂ := Transaction.new 0 "kyv1b" "kyv1c" 7 8 0 .transfer []
    let db' := ((applyTransaction t₂).run ((applyTransaction t₁).run db).2).2
    ∃ mid', (applyTransaction t₂).run db = (.ok (), mid') ∧
      (applyTransaction t₁).run mid' = (.ok (), db') := by
  intro db t₁ t₂ db'
  have hi : t₁.Independent t₂ :=
    ⟨by decide +kernel, by decide +kernel, by decide +kernel, by decide +kernel, by decide +kernel⟩
  exact applyTransaction_commute (KyveraDb.wellFormed_withAccounts _) hi
    (run_eq_of_outcome (by decide +kernel)) (run_eq_of_outcome (by decide +kernel))

end Kyvera
