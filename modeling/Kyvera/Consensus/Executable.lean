import Kyvera.Consensus.Rules
import Kyvera.Ledger.Execution

/-!
# Accepted transactions that cannot be executed

The rules judge every transaction of a block against the accounts before the block, and let a
sender without an account pass.  The execution threads the accounts through the list.  What the
rules leave open is said by `Ready`: a sender with an account sends once, and a sender without one
counts its own nonces and is paid by earlier transactions of the block.
-/

namespace Kyvera

open Effect Effect.Prog

section Netted

variable {db : KyveraDb} {pre : List Transaction} {x : String}

theorem KyveraDb.netted_nonce (db : KyveraDb) (pre : List Transaction) (x : String) :
    db.netted pre x .nonce = (db.account x).nonce.toNat + pre.countP (·.sender = x) := by
  rw [KyveraDb.netted_apply]
  show ((db.account x).nonce.toNat : ℤ) + _ = _
  congr 1
  induction pre with
  | nil => rfl
  | cons tx rest ih =>
      rw [List.map_cons, List.sum_cons, ih, Transaction.change_nonce, List.countP_cons]
      by_cases h : tx.sender = x
      · simp [h, add_comm]
      · simp [h]

theorem KyveraDb.balance_le_netted (h : ∀ tx ∈ pre, tx.sender ≠ x) :
    ((db.account x).balance.toNat : ℤ) ≤ db.netted pre x .balance := by
  rw [KyveraDb.netted_apply]
  apply le_add_of_nonneg_right
  apply List.sum_nonneg
  intro z hz
  obtain ⟨tx, htx, rfl⟩ := List.mem_map.1 hz
  exact Transaction.change_balance_nonneg (h tx htx)

end Netted

/-- What the rules leave open about a transaction that comes after `pre` in its block. -/
structure Ready (db : KyveraDb) (pre : List Transaction) (tx : Transaction) : Prop where
  known : (db.accounts[tx.sender]?).isSome → ∀ tx' ∈ pre, tx'.sender ≠ tx.sender
  unknown : db.accounts[tx.sender]? = none →
    tx.nonce.toNat = pre.countP (·.sender = tx.sender) ∧ tx.cost ≤ db.netted pre tx.sender .balance
  stake : tx.transactionType = .stakeUnlock → tx.amount.toNat ≤ db.netted pre tx.sender .stake
  fits : (db.netted pre).Fits tx

theorem toNat_requiredBalance {tx : Transaction} (h : tx.cost < U64.size) :
    (requiredBalance tx).toNat = tx.cost := by
  unfold Transaction.cost at h ⊢
  unfold requiredBalance
  cases htype : tx.transactionType with
  | transfer | stakeLock =>
      rw [htype] at h
      dsimp only at h ⊢
      rw [U64.toNat_saturatingAdd]
      omega
  | stakeUnlock | contractDeploy | contractCall => rfl

section Accepted

variable {db : KyveraDb} {txs pre : List Transaction} {tx : Transaction}

theorem KyveraDb.admits_iff_ready_of_none (hstored : db.accounts[tx.sender]? = none) :
    (db.netted pre).Admits tx ↔ Ready db pre tx := by
  have hzero : (db.account tx.sender).nonce.toNat = 0 := by
    rw [KyveraDb.account, AccountTree.account, hstored]
    rfl
  have hnonce := db.netted_nonce pre tx.sender
  constructor
  · intro h
    refine ⟨fun e => ?_, fun _ => ⟨?_, h.cost⟩, h.stake, h.fits⟩
    · rw [hstored] at e
      cases e
    · have hadmitted := h.nonce
      omega
  · intro h
    obtain ⟨hcount, hcost⟩ := h.unknown hstored
    exact ⟨by omega, hcost, h.stake, h.fits⟩

/-- A sender that passes the rules has the nonce of its account, so it must not have sent before;
then its balance has not shrunk. -/
theorem KyveraDb.admits_iff_ready_of_some {a : Account} (hstored : db.accounts[tx.sender]? = some a)
    (hok : SenderOk db.accounts tx) : (db.netted pre).Admits tx ↔ Ready db pre tx := by
  obtain ⟨hbalance, hpassed⟩ := hok a hstored
  have ha : db.account tx.sender = a := AccountTree.account_of_getElem? hstored
  have hnonce := db.netted_nonce pre tx.sender
  rw [ha, hpassed] at hnonce
  have hcount : pre.countP (·.sender = tx.sender) = 0 ↔ ∀ tx' ∈ pre, tx'.sender ≠ tx.sender := by
    simp [List.countP_eq_zero]
  constructor
  · intro h
    refine ⟨fun _ => hcount.1 ?_, fun e => ?_, h.stake, h.fits⟩
    · have hadmitted := h.nonce
      omega
    · rw [hstored] at e
      cases e
  · intro h
    have hfirst := h.known (by rw [hstored]; rfl)
    have hnone := hcount.2 hfirst
    have hcost : tx.cost ≤ a.balance.toNat :=
      toNat_requiredBalance h.fits.cost ▸ UInt64.le_iff_toNat_le.1 hbalance
    have hle : ((db.account tx.sender).balance.toNat : ℤ) ≤ db.netted pre tx.sender .balance :=
      KyveraDb.balance_le_netted hfirst
    rw [ha] at hle
    exact ⟨by omega, by omega, h.stake, h.fits⟩

/-- For a transaction that passes the rules, being ready is all that is missing. -/
theorem KyveraDb.admits_iff_ready (hok : SenderOk db.accounts tx) :
    (db.netted pre).Admits tx ↔ Ready db pre tx := by
  rcases hstored : db.accounts[tx.sender]? with _ | a
  · exact KyveraDb.admits_iff_ready_of_none hstored
  · exact KyveraDb.admits_iff_ready_of_some hstored hok

/-- Transactions that the rules accept can all be executed exactly when each is ready after the
ones before it. -/
theorem executable_iff (hwf : db.WellFormed) (hsenders : ∀ tx ∈ txs, tx.sender ≠ COINBASE_SENDER)
    (haccepted : ((checkTransactions txs).run db).1 = .ok ()) :
    ((txs.forM applyTransaction).run db).1 = .ok () ↔
      ∀ pre tx post, txs = pre ++ tx :: post → Ready db pre tx := by
  have hok := guards_checkTransactions.outcome_eq_ok_iff.1 haccepted
  rw [outcome_transactions_eq_ok_iff_admits hwf]
  refine forall_congr' fun pre => forall_congr' fun tx => forall_congr' fun post =>
    imp_congr_right fun e => ?_
  have hmem : tx ∈ txs := e ▸ List.mem_append_right _ List.mem_cons_self
  exact KyveraDb.admits_iff_ready
    (hok.senders tx (mem_paidTransactions_iff.2 ⟨hmem, hsenders tx hmem⟩))

end Accepted

/-- A new address is paid by the first transfer and spends in the second. -/
theorem executable_new_address :
    let db := KyveraDb.withAccounts [{ Account.new "kyv1a" with balance := 100 }]
    let paid := { Transaction.new 0 "kyv1a" "kyv1b" 40 10 0 .transfer [] with hash := "h1" }
    let spent := { Transaction.new 0 "kyv1b" "kyv1a" 20 10 0 .transfer [] with hash := "h2" }
    Ready db [paid] spent :=
  (executable_iff (KyveraDb.wellFormed_withAccounts _) (by decide +kernel) (by decide +kernel)).1
    (by decide +kernel) _ _ [] rfl

/-- Two transfers with the same nonce, of which the balance covers one, pass the rules; the
execution stops at the second. -/
theorem not_executable_double_spend :
    let db := KyveraDb.withAccounts [{ Account.new "kyv1a" with balance := 100 }]
    let txs :=
      [{ Transaction.new 0 "kyv1a" "kyv1b" 60 10 0 .transfer [] with hash := "h1" },
        { Transaction.new 0 "kyv1a" "kyv1c" 60 10 0 .transfer [] with hash := "h2" }]
    (∀ tx ∈ txs, tx.sender ≠ COINBASE_SENDER) ∧ ((checkTransactions txs).run db).1 = .ok () ∧
      ((txs.forM applyTransaction).run db).1 ≠ .ok () := by
  decide +kernel

end Kyvera
