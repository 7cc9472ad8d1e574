import Kyvera.Ledger.Effects
import Kyvera.Ledger.Payouts
import Kyvera.Mempool.Fees

/-!
# Conservation of value

The supply is the sum of what all accounts own.  A save changes it by the difference that it makes
to one account, so each part of a transaction or of a reward has a supply equation of its own,
whichever of its addresses coincide.  Over an epoch the equations add up: a transaction takes its
fee out and puts a tenth of it back, the rewards put back the coinbase and 40% of the fees.
-/

namespace Kyvera

open Effect Effect.Prog

/-! ## Payments -/

/-- The sum of everything the accounts own. -/
def KyveraDb.supply (db : KyveraDb) : ℕ := db.accounts.supply

section Payments

variable {db db' : KyveraDb} {x : String} {v : UInt64} {u : Unit}

theorem KyveraDb.WellFormed.supply_save (h : db.WellFormed) {a : Account}
    (ha : a.address = (db.account x).address) :
    (db.save a).supply + (db.account x).holding = db.supply + a.holding := by
  have e := AccountTree.supply_put_add db.accounts a
  rw [ha.trans (h.address_account x)] at e
  exact e

theorem KyveraDb.WellFormed.supply_credit (h : db.WellFormed) (hroom : (db.account x).Room v) :
    (db.save ((db.account x).credit v)).supply = db.supply + v.toNat := by
  have e := h.supply_save (Account.address_credit (db.account x) v)
  rw [hroom.holding_credit] at e
  omega

theorem KyveraDb.WellFormed.supply_pay (h : db.WellFormed) (hroom : (db.account x).Room v) :
    (db.pay x v).supply = db.supply + v.toNat := by
  unfold KyveraDb.pay
  by_cases hv : v = 0
  · rw [if_pos hv, hv]
    rfl
  · rw [if_neg hv]
    exact h.supply_credit hroom

theorem KyveraDb.WellFormed.supply_payAll (h : db.WellFormed) {payments : List (String × UInt64)}
    (hfit : db.Fits payments) :
    (db.payAll payments).supply = db.supply + (payments.map fun e => e.2.toNat).sum := by
  induction payments generalizing db with
  | nil => rfl
  | cons e rest ih =>
      obtain ⟨y, v⟩ := e
      obtain ⟨hroom, hrest⟩ := h.fits_cons_iff.1 hfit
      rw [KyveraDb.payAll_cons, ih (h.save _) hrest, h.supply_credit hroom, List.map_cons,
        List.sum_cons, Nat.add_assoc]

theorem supply_creditNonzero (h : db.WellFormed) (hrun : (creditNonzero x v).run db = (.ok u, db')) :
    db'.WellFormed ∧ db'.supply = db.supply + v.toNat := by
  obtain ⟨hroom, rfl⟩ := run_creditNonzero_eq_ok_iff.1 hrun
  exact ⟨h.pay x v, h.supply_pay hroom⟩

end Payments

/-! ## Transactions -/

section Transactions

variable {db db' : KyveraDb} {tx : Transaction} {u : Unit}

theorem KyveraDb.WellFormed.supply_charge (h : db.WellFormed)
    (hc : tx.Covered (db.account tx.sender)) :
    (db.charge tx).supply + tx.delivered.toNat + tx.fee.toNat = db.supply := by
  have e := h.supply_save (tx.address_charged (db.account tx.sender))
  have hh := hc.holding_charged
  unfold KyveraDb.charge
  omega

theorem KyveraDb.WellFormed.supply_deliver (h : db.WellFormed) (hd : db.Deliverable tx) :
    (db.deliver tx).supply = db.supply + tx.delivered.toNat := by
  unfold KyveraDb.deliver Transaction.delivered
  cases htype : tx.transactionType with
  | transfer => exact h.supply_credit (hd htype)
  | stakeLock | stakeUnlock | contractDeploy | contractCall => rfl

/-- An accepted transaction takes its fee out of the supply, but for a tenth. -/
theorem KyveraDb.WellFormed.supply_applied (h : db.WellFormed) (ha : db.Applicable tx) :
    (db.applied tx).supply + tx.fee.toNat = db.supply + tx.fee.toNat / 10 := by
  have hc := h.supply_charge ha.charge.covered
  have hd := h.charge.supply_deliver ha.deliver
  have ht : (db.applied tx).supply = _ := h.charge.deliver.supply_pay ha.tithe
  have hten : (tx.fee / 10).toNat = tx.fee.toNat / 10 := UInt64.toNat_div _ _
  omega

/-- The treasury's tenths of the fees of a list of transactions. -/
def titheSum (txs : List Transaction) : ℕ := (txs.map fun tx => tx.fee.toNat / 10).sum

/-- Transactions that are accepted one after the other take their fees out of the supply, but for
the tenths. -/
theorem supply_transactions {txs : List Transaction} (h : db.WellFormed)
    (hrun : (txs.forM applyTransaction).run db = (.ok u, db')) :
    db'.WellFormed ∧ db'.supply + feeSum txs = db.supply + titheSum txs := by
  induction txs generalizing db with
  | nil =>
      cases hrun
      exact ⟨h, rfl⟩
  | cons tx rest ih =>
      obtain ⟨_, m, htx, hrest⟩ := run_bind_eq_ok_iff.1 hrun
      obtain ⟨ha, rfl⟩ := run_applyTransaction_eq_ok_iff.1 htx
      obtain ⟨hwf, hsum⟩ := ih h.applied hrest
      have hone := h.supply_applied ha
      have hfees : feeSum (tx :: rest) = tx.fee.toNat + feeSum rest := rfl
      have htithes : titheSum (tx :: rest) = tx.fee.toNat / 10 + titheSum rest := rfl
      exact ⟨hwf, by omega⟩

theorem titheSum_le (txs : List Transaction) : 10 * titheSum txs ≤ feeSum txs := by
  induction txs with
  | nil => exact le_rfl
  | cons tx rest ih =>
      have hfees : feeSum (tx :: rest) = tx.fee.toNat + feeSum rest := rfl
      have htithes : titheSum (tx :: rest) = tx.fee.toNat / 10 + titheSum rest := rfl
      omega

end Transactions

/-! ## Rewards -/

section Rewards

variable {db db' : KyveraDb} {u : Unit} {coinbase : Transaction}

theorem supply_applyCoinbase (h : db.WellFormed)
    (hrun : (applyCoinbase coinbase 0).run db = (.ok u, db')) :
    db'.WellFormed ∧ db'.supply = db.supply + coinbase.amount.toNat := by
  obtain ⟨-, hrun⟩ := run_ite_err_eq_ok_iff.1 hrun
  obtain ⟨_, m, hreward, hshare⟩ := run_bind_eq_ok_iff.1 hrun
  obtain ⟨hm, hsupply⟩ := supply_creditNonzero h hreward
  obtain ⟨hdb', hsupply'⟩ := supply_creditNonzero hm hshare
  exact ⟨hdb', hsupply'.trans hsupply⟩

/-- The loop pays every weight its share and sums up what it pays.  What was distributed so far and
what is left to pay fit together into 64 bits, so nothing saturates. -/
theorem supply_distributeLoop {totalShare : UInt64} {totalWeight : ℕ}
    {weights : List (String × UInt64)} {distributed d : UInt64} (h : db.WellFormed)
    (hfit : distributed.toNat + ProRata.paid totalShare.toNat totalWeight
      (weights.map fun e => e.2.toNat) < U64.size)
    (hrun : (distributeLoop totalShare totalWeight distributed weights).run db = (.ok d, db')) :
    db'.WellFormed ∧
    d.toNat = distributed.toNat +
      ProRata.paid totalShare.toNat totalWeight (weights.map fun e => e.2.toNat) ∧
    db'.supply + distributed.toNat = db.supply + d.toNat := by
  obtain ⟨hroom, rfl, rfl⟩ := (run_distributeLoop_eq_ok_iff h).1 hrun
  have hpart : ∀ e ∈ weights, ProRata.share totalShare.toNat e.2.toNat totalWeight < U64.size := by
    intro e he
    have hle := ProRata.share_le_paid totalShare.toNat totalWeight
      (List.mem_map.2 ⟨e, he, rfl⟩ : e.2.toNat ∈ weights.map fun e => e.2.toNat)
    omega
  have hsum := sum_sharePayments hpart
  have hsupply := h.supply_payAll hroom
  rw [U64.toNat_foldl_saturatingAdd, hsum, min_eq_left (by omega), hsupply]
  rw [List.map_map] at hsum
  refine ⟨h.payAll _, rfl, ?_⟩
  rw [← hsum]
  exact (Nat.add_assoc _ _ _).trans (congrArg (_ + ·) (Nat.add_comm _ _))

/-- What is distributed goes into the supply, and is at most the share. -/
theorem supply_distributeValidatorRewards {totalShare d : UInt64} (h : db.WellFormed)
    (hrun : (distributeValidatorRewards totalShare).run db = (.ok d, db')) :
    db'.WellFormed ∧ d.toNat ≤ totalShare.toNat ∧ db'.supply = db.supply + d.toNat := by
  unfold distributeValidatorRewards at hrun
  by_cases hzero : totalShare = 0
  · rw [if_pos hzero] at hrun
    cases hrun
    exact ⟨h, Nat.zero_le _, rfl⟩
  rw [if_neg hzero] at hrun
  obtain ⟨validators, m, hset, hrun⟩ := run_bind_eq_ok_iff.1 hrun
  cases hset
  dsimp only at hrun
  by_cases hnone : ((db.accounts.toList.map Prod.snd).filter Account.isValidator).isEmpty
  · rw [if_pos hnone] at hrun
    cases hrun
    exact ⟨h, Nat.zero_le _, rfl⟩
  rw [if_neg hnone] at hrun
  split_ifs at hrun
  · cases hrun
    exact ⟨h, Nat.zero_le _, rfl⟩
  · have hle := ProRata.paid_le_pool totalShare.toNat
      ((((db.accounts.toList.map Prod.snd).filter Account.isValidator).map fun v =>
        (v.address, calculateValidatorWeight v)).map fun e => e.2.toNat)
    have hlt := U64.toNat_lt_size totalShare
    obtain ⟨hdb', hd, hsupply⟩ := supply_distributeLoop h (by
      rw [UInt64.toNat_zero]
      omega) hrun
    rw [UInt64.toNat_zero] at hd hsupply
    exact ⟨hdb', by omega, by omega⟩

/-- The rewards of an epoch put the coinbase and 40% of the fees into the supply, whoever the miner
and the validators are. -/
theorem supply_applyEpochRewards {fees : UInt64} (h : db.WellFormed)
    (hrun : (applyEpochRewards coinbase fees).run db = (.ok u, db')) :
    db'.WellFormed ∧
      db'.supply = db.supply + coinbase.amount.toNat + 40 * fees.toNat / 100 := by
  obtain ⟨_, m₁, hcoinbase, hrun⟩ := run_bind_eq_ok_iff.1 hrun
  obtain ⟨share, hshare, hrun⟩ := run_orPanic_bind_eq_ok_iff.1 hrun
  obtain ⟨d, m₂, hdist, hleft⟩ := run_bind_eq_ok_iff.1 hrun
  obtain ⟨h₁, hsupply₁⟩ := supply_applyCoinbase h hcoinbase
  obtain ⟨h₂, hle, hsupply₂⟩ := supply_distributeValidatorRewards h₁ hdist
  obtain ⟨h₃, hsupply₃⟩ := supply_creditNonzero h₂ hleft
  have hsub := U64.toNat_saturatingSub share d
  have hforty := (calculateValidatorFeeShare_eq_some_iff.1 hshare).2
  exact ⟨h₃, by omega⟩

end Rewards

/-! ## An epoch -/

/-- Value conservation over an epoch: when transactions are accepted one after the other on a
well-formed store and the rewards are then applied, the supply changes by exactly the coinbase
minus the fees plus the treasury's tenths plus 40% of the fees.  At least half of the fees leaves
circulation. -/
theorem epoch_supply {db mid db' : KyveraDb} {txs : List Transaction} {coinbase : Transaction}
    {fees : UInt64} (hwf : db.WellFormed)
    (htxs : (txs.forM applyTransaction).run db = (.ok (), mid)) (hfees : totalFees txs = some fees)
    (hrewards : (applyEpochRewards coinbase fees).run mid = (.ok (), db')) :
    (db'.supply : ℤ) - db.supply =
      coinbase.amount.toNat - feeSum txs + titheSum txs + (40 * feeSum txs / 100 : ℕ) ∧
    feeSum txs ≤ 2 * (feeSum txs - (titheSum txs + 40 * feeSum txs / 100)) := by
  obtain ⟨hmid, htransactions⟩ := supply_transactions hwf htxs
  obtain ⟨-, hepoch⟩ := supply_applyEpochRewards hmid hrewards
  rw [totalFees_eq_some_iff.1 hfees] at hepoch
  have htithe := titheSum_le txs
  exact ⟨by omega, by omega⟩

/-- An epoch with a transfer to the treasury, a self-transfer, and one staked miner. -/
theorem epoch_supply_self_transfer :
    let miner := { Account.new "kyv1a" with balance := 100, stakedBalance := 500000000000 }
    let txs :=
      [Transaction.new 0 "kyv1a" TREASURY_ADDRESS 5 30 0 .transfer [],
        Transaction.new 0 "kyv1a" "kyv1a" 7 25 1 .transfer []]
    let coinbase := Transaction.new 0 COINBASE_SENDER "kyv1a" 1000 0 0 .transfer []
    let db := KyveraDb.withAccounts [miner.updateValidatorTier]
    let mid := ((txs.forM applyTransaction).run db).2
    let db' := ((applyEpochRewards coinbase 55).run mid).2
    (db'.supply : ℤ) - db.supply = 1000 - 55 + (3 + 2) + 22 :=
  (epoch_supply (KyveraDb.wellFormed_withAccounts _) (run_eq_of_outcome (by decide +kernel)) (by decide)
    (run_eq_of_outcome (by decide +kernel))).1.trans (by decide)

end Kyvera
