import Kyvera.Mempool.Selection

/-!
# What a pool is worth

Value transactions by their fees, in any way in which a higher fee is not worth less.  Then a full
pool only gets better: an addition drops a transaction for one that pays more, so whatever arrives,
there are as many transactions at each level of fees as before.  And the selection by fee is the
best one: no other transactions of the pool, as many or fewer, are worth more together.
-/

namespace Kyvera

open Std

/-- A value of transactions by their fees. -/
structure FeeValue where
  value : UInt64 → ℕ
  mono : ∀ {fee fee' : UInt64}, fee ≤ fee' → value fee ≤ value fee'

/-- Each transaction that pays at least the fee counts for one. -/
def FeeValue.atLeast (fee : UInt64) : FeeValue where
  value fee' := if fee ≤ fee' then 1 else 0
  mono := by
    intro fee₁ fee₂ hle
    split_ifs with h₁ h₂
    · exact Nat.le_refl _
    · exact absurd (UInt64.le_trans h₁ hle) h₂
    · exact Nat.zero_le _
    · exact Nat.le_refl _

/-- Each transaction counts for its fee. -/
def FeeValue.fee : FeeValue := ⟨UInt64.toNat, UInt64.le_iff_toNat_le.1⟩

namespace Mempool

variable {pool : Mempool} {tx : Transaction} {db : KyveraDb} {limit : ℕ}

/-- What all pending transactions are worth together. -/
def worth (pool : Mempool) (g : FeeValue) : ℕ :=
  TreeSum.sumOver (fun tx => g.value tx.fee) pool.transactions

theorem worth_insert (g : FeeValue) (hhash : pool.transactions[tx.hash]? = none) :
    (pool.insert tx).worth g = pool.worth g + g.value tx.fee := by
  have hsum := TreeSum.sumOver_insert_add (fun tx : Transaction => g.value tx.fee)
    pool.transactions tx.hash tx
  rw [hhash] at hsum
  exact hsum

theorem worth_remove (g : FeeValue) (htx : pool.Holds tx) :
    (pool.remove tx.hash).2.worth g + g.value tx.fee = pool.worth g := by
  have hsum := TreeSum.sumOver_erase_add (fun tx : Transaction => g.value tx.fee)
    pool.transactions tx.hash
  rw [show pool.transactions[tx.hash]? = some tx from htx] at hsum
  rw [remove_of_getElem?_eq_some htx]
  exact hsum

theorem Valid.worth_le_addTransaction (h : pool.Valid) (g : FeeValue) (tx : Transaction)
    (db : KyveraDb) : pool.worth g ≤ (pool.addTransaction tx db).2.worth g := by
  rcases h.addTransaction_cases tx db with ⟨e, he⟩ | ⟨hfresh, he⟩ |
    ⟨old, -, hlowest, hfee, hfresh, he⟩
  · rw [he]
  · rw [he, worth_insert g hfresh.hash]
    exact Nat.le_add_right _ _
  · rw [he, worth_insert g hfresh.hash, ← worth_remove g hlowest.stored]
    exact Nat.add_le_add_left (g.mono (UInt64.le_of_lt hfee)) _

/-- The pool after additions, each against the accounts of its time. -/
def afterAll (pool : Mempool) (more : List (Transaction × KyveraDb)) : Mempool :=
  more.foldl (fun pool e => (pool.addTransaction e.1 e.2).2) pool

theorem Valid.worth_le_afterAll (h : pool.Valid) (g : FeeValue)
    (more : List (Transaction × KyveraDb)) : pool.worth g ≤ (pool.afterAll more).worth g := by
  induction more generalizing pool with
  | nil => exact Nat.le_refl _
  | cons e rest ih =>
      exact (h.worth_le_addTransaction g e.1 e.2).trans (ih (h.addTransaction e.1 e.2))

/-- Whatever is added to a pool that calls can reach, it never becomes worth less, by any value of
fees. -/
theorem worth_additions (calls : List Call) (more : List (Transaction × KyveraDb)) (g : FeeValue) :
    (reached calls).worth g ≤
      (more.foldl (fun pool e => (pool.addTransaction e.1 e.2).2) (reached calls)).worth g :=
  Valid.worth_le_afterAll (valid_new.foldl_after calls) g more

/-- The number of pending transactions that pay at least the fee. -/
def countAtLeast (pool : Mempool) (fee : UInt64) : ℕ :=
  pool.transactions.toList.countP fun e => fee ≤ e.2.fee

theorem worth_atLeast (pool : Mempool) (fee : UInt64) :
    pool.worth (.atLeast fee) = pool.countAtLeast fee := by
  unfold worth TreeSum.sumOver countAtLeast FeeValue.atLeast
  induction pool.transactions.toList with
  | nil => rfl
  | cons e rest ih =>
      rw [List.map_cons, List.sum_cons, ih, List.countP_cons, Nat.add_comm]
      simp only [decide_eq_true_eq]

theorem countAtLeast_zero (pool : Mempool) : pool.countAtLeast 0 = pool.len := by
  unfold countAtLeast len
  rw [List.countP_eq_length.2 fun e _ => decide_eq_true UInt64.zero_le, ExtTreeMap.length_toList]

theorem Valid.countAtLeast_le_afterAll (h : pool.Valid) (more : List (Transaction × KyveraDb))
    (fee : UInt64) : pool.countAtLeast fee ≤ (pool.afterAll more).countAtLeast fee := by
  have hworth := h.worth_le_afterAll (.atLeast fee) more
  rwa [worth_atLeast, worth_atLeast] at hworth

/-- Additions never make a valid pool smaller. -/
theorem Valid.len_le_afterAll (h : pool.Valid) (more : List (Transaction × KyveraDb)) :
    pool.len ≤ (pool.afterAll more).len := by
  have hcount := h.countAtLeast_le_afterAll more 0
  rwa [countAtLeast_zero, countAtLeast_zero] at hcount

/-- Additions never lower the fees of a valid pool. -/
theorem Valid.totalFees_le_afterAll (h : pool.Valid) (more : List (Transaction × KyveraDb)) :
    TreeSum.sumOver (fun tx => tx.fee.toNat) pool.transactions ≤
      TreeSum.sumOver (fun tx => tx.fee.toNat) (pool.afterAll more).transactions :=
  h.worth_le_afterAll .fee more

/-! ## Selection by fee -/

theorem Valid.fee_le_of_not_mem_topByFee (h : pool.Valid) {other : Transaction}
    (htx : tx ∈ pool.topByFee limit) (hother : pool.Holds other)
    (hout : other ∉ pool.topByFee limit) : other.fee ≤ tx.fee := by
  by_contra hfee
  have hbelow : tx.feeKey.Below other.feeKey := FeeKey.below_iff.2 (.inl (UInt64.not_le.1 hfee))
  have hrank : pool.rank other ≤ pool.rank tx := rank_le_of_below hbelow
  exact hout (h.mem_topByFee_iff.2 ⟨hother, hrank.trans_lt (h.mem_topByFee_iff.1 htx).2⟩)

theorem Valid.rank_le_len (h : pool.Valid) (tx : Transaction) : pool.rank tx ≤ pool.len := by
  rw [← h.size_feeIndex, ← ExtTreeSet.length_toList]
  exact List.countP_le_length

/-- Selection by fee is optimal: from a pool that calls can reach, no other pending transactions, as
many as the limit or fewer, are worth more together than those that are offered. -/
theorem topByFee_optimal (calls : List Call) (limit : ℕ) (g : FeeValue)
    {chosen : Finset Transaction} (hheld : ∀ tx ∈ chosen, (reached calls).Holds tx)
    (hcard : chosen.card ≤ limit) :
    ∑ tx ∈ chosen, g.value tx.fee ≤
      (((reached calls).topByFee limit).map fun tx => g.value tx.fee).sum := by
  have h : (reached calls).Valid := valid_new.foldl_after calls
  have hnodup := (h.nodup_topByFee limit).of_map
  rw [← List.sum_toFinset _ hnodup]
  refine Ranking.sum_le_of_best ?_ fun tx htx other hother hout => ?_
  · rw [List.toFinset_card_of_nodup hnodup, h.length_topByFee]
    rcases Nat.lt_or_ge (reached calls).len limit with hroom | hfull
    · -- Everything is offered: no transaction has as many others above it as there are.
      refine .inr fun tx htx => List.mem_toFinset.2 (h.mem_topByFee_iff.2 ⟨hheld tx htx, ?_⟩)
      exact (h.rank_le_len tx).trans_lt hroom
    · exact .inl (by omega)
  · rw [List.mem_toFinset] at htx hout
    exact g.mono (h.fee_le_of_not_mem_topByFee htx (hheld other hother) hout)

/-- The later of two pending transactions, which pays less, next to the one that is offered. -/
theorem topByFee_optimal_one :
    let calls := [Call.addTransaction (pendingTransfer 0 20) senderDb,
      Call.addTransaction (pendingTransfer 1 10) senderDb]
    ∑ tx ∈ {pendingTransfer 1 10}, FeeValue.fee.value tx.fee ≤
      (((reached calls).topByFee 1).map fun tx => FeeValue.fee.value tx.fee).sum := by
  intro calls
  have hheld : (reached calls).transactions[(pendingTransfer 1 10).hash]? =
      some (pendingTransfer 1 10) := by
    decide +kernel
  refine topByFee_optimal calls 1 .fee (fun tx htx => ?_) (by simp)
  rw [Finset.mem_singleton.1 htx]
  exact hheld

end Mempool

end Kyvera
