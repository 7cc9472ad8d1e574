import Kyvera.Mempool.Admission
import Kyvera.Ledger.Atomicity

/-!
# Admitted transactions that cannot be applied

Admission compares the balance of the sender with a cost whose sum is capped, and for the types
other than transfers and staking with the fee alone.  What the execution of a transaction asks of
its sender beyond that is `WithinLimits`.
-/

namespace Kyvera

open Effect

/-- What execution asks of the sender of a transaction and admission does not: sums that stay in
range, a nonce that is not the last one, and the stake that is to be unlocked. -/
structure Transaction.WithinLimits (tx : Transaction) (a : Account) : Prop where
  nonce : a.nonce.toNat + 1 < U64.size
  cost : tx.transactionType = .transfer ∨ tx.transactionType = .stakeLock →
    tx.amount.toNat + tx.fee.toNat < U64.size
  stake : tx.transactionType = .stakeLock →
    a.stakedBalance.toNat + tx.amount.toNat < U64.size
  unlock : tx.transactionType = .stakeUnlock →
    tx.amount.toNat ≤ a.stakedBalance.toNat ∧ a.Room tx.amount

namespace Mempool

variable {pool : Mempool} {tx : Transaction} {db : KyveraDb}

theorem le_iff_of_saturatingAdd_le {amount fee balance : UInt64}
    (h : U64.saturatingAdd amount fee ≤ balance) :
    amount.toNat + fee.toNat ≤ balance.toNat ↔ amount.toNat + fee.toNat < U64.size := by
  have hbalance := U64.toNat_lt_size balance
  rw [UInt64.le_iff_toNat_le, U64.toNat_saturatingAdd] at h
  omega

theorem covered_iff_of_requiredBalance_le {a : Account} (h : requiredBalance tx ≤ a.balance)
    (hnonce : a.nonce.toNat + 1 < U64.size) : tx.Covered a ↔ tx.WithinLimits a := by
  unfold requiredBalance at h
  unfold Transaction.Covered
  cases htype : tx.transactionType with
  | transfer =>
      rw [htype] at h
      dsimp only
      rw [le_iff_of_saturatingAdd_le h]
      constructor
      · intro hcost
        exact ⟨hnonce, fun _ => hcost, by simp [htype], by simp [htype]⟩
      · intro hlimits
        exact hlimits.cost (.inl htype)
  | stakeLock =>
      rw [htype] at h
      dsimp only
      rw [le_iff_of_saturatingAdd_le h]
      constructor
      · rintro ⟨hcost, hstake⟩
        exact ⟨hnonce, fun _ => hcost, fun _ => hstake, by simp [htype]⟩
      · intro hlimits
        exact ⟨hlimits.cost (.inr htype), hlimits.stake htype⟩
  | stakeUnlock =>
      rw [htype] at h
      have hfee := UInt64.le_iff_toNat_le.1 h
      constructor
      · rintro ⟨hstake, -, hroom⟩
        exact ⟨hnonce, by simp [htype], by simp [htype], fun _ => ⟨hstake, hroom⟩⟩
      · intro hlimits
        obtain ⟨hstake, hroom⟩ := hlimits.unlock htype
        exact ⟨hstake, hfee, hroom⟩
  | contractDeploy | contractCall =>
      rw [htype] at h
      have hfee := UInt64.le_iff_toNat_le.1 h
      constructor
      · intro _
        exact ⟨hnonce, by simp [htype], by simp [htype], by simp [htype]⟩
      · intro _
        exact hfee

/-- The first pending transaction of a sender can be charged exactly when it is within the limits. -/
theorem Admissible.chargeable_iff (h : Admissible pool tx db)
    (hfirst : pool.hasOtherPending tx.sender = false) :
    tx.Chargeable (db.account tx.sender) ↔ tx.WithinLimits (db.account tx.sender) := by
  have hnonce : tx.nonce = (db.account tx.sender).nonce := by
    refine h.nonce.resolve_left ?_
    rw [hfirst]
    decide
  constructor
  · intro hcharge
    exact (covered_iff_of_requiredBalance_le h.balance hcharge.room).1 hcharge.covered
  · intro hlimits
    exact ⟨(covered_iff_of_requiredBalance_le h.balance hlimits.nonce).2 hlimits, hnonce.symm,
      hlimits.nonce⟩

/-- In a reachable pool, a transaction of a sender with nothing pending that is added is one that
can be applied to the same accounts, if neither the receiver nor the treasury overflows, exactly if
it is within the limits. -/
theorem addTransaction_executable_iff (calls : List Call) (db : KyveraDb) (tx : Transaction)
    (hfirst : (reached calls).hasOtherPending tx.sender = false)
    (hadded : ((reached calls).addTransaction tx db).1 = .ok ()) (hroom : ¬ db.Overflows tx) :
    ((applyTransaction tx).run db).1 = .ok () ↔ tx.WithinLimits (db.account tx.sender) := by
  rw [← (admissible_of_ok hadded).chargeable_iff hfirst]
  constructor
  · intro hok
    exact (run_applyTransaction_eq_ok_iff.1 (Prog.run_eq_of_outcome hok)).1.charge
  · intro hcharge
    have hrun : (applyTransaction tx).run db = (.ok (), db.applied tx) :=
      run_applyTransaction_eq_ok_iff.2 ⟨applicable_of_not_overflows hroom hcharge, rfl⟩
    rw [hrun]

/-- A request to unlock stake. -/
def pendingUnlock : Transaction :=
  { Transaction.new 0 "kyv1a" "kyv1a" 40 10 0 .stakeUnlock [] with
    hash := "hash"
    signature := "sig" }

/-- Of the account without stake, this request cannot be charged. -/
theorem not_overflows_pendingUnlock : ¬ senderDb.Overflows pendingUnlock := by
  rintro ⟨hcharge, _⟩
  have hstake : pendingUnlock.amount.toNat ≤ (senderDb.account "kyv1a").stakedBalance.toNat :=
    hcharge.covered.1
  exact absurd hstake (by decide +kernel)

/-- The request is added to the empty pool, and cannot be applied. -/
theorem addTransaction_unlock_without_stake :
    (reached []).hasOtherPending pendingUnlock.sender = false ∧
      ((reached []).addTransaction pendingUnlock senderDb).1 = .ok () ∧
      ¬ senderDb.Overflows pendingUnlock ∧
      ((applyTransaction pendingUnlock).run senderDb).1 =
        .err "Insufficient staked balance: has 0 needs 40" :=
  ⟨by decide, by decide +kernel, not_overflows_pendingUnlock, by decide +kernel⟩

theorem addTransaction_executable_iff_unlock :
    ((applyTransaction pendingUnlock).run senderDb).1 = .ok () ↔
      pendingUnlock.WithinLimits (senderDb.account pendingUnlock.sender) :=
  addTransaction_executable_iff [] senderDb pendingUnlock (by decide) (by decide +kernel)
    not_overflows_pendingUnlock

end Mempool

end Kyvera
