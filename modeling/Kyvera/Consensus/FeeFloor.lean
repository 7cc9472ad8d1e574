import Kyvera.Consensus.Accepted
import Kyvera.Mempool.Admission
import Kyvera.Mempool.Fees

/-!
# The fee floor

Every type of transaction has a minimum fee, and neither admission to the pool nor the rules of a
block compare a fee with it.  So a pool keeps to the floor exactly as long as nothing below the
floor passes the other checks of admission, and the rules keep to it exactly in blocks that collect
no fee.
-/

namespace Kyvera

open Effect Effect.Prog Std Trace TreeIndex

/-- A transaction that pays the minimum fee of its type, or is from the coinbase sentinel. -/
def Transaction.AboveFloor (tx : Transaction) : Prop :=
  tx.sender ≠ COINBASE_SENDER → feeIsSufficient tx = true

theorem feeIsSufficient_eq_false {tx : Transaction} (h : tx.fee = 0) :
    feeIsSufficient tx = false := by
  unfold feeIsSufficient
  rw [h]
  cases tx.transactionType <;> decide

/-! ## The pool -/

namespace Mempool

variable {pool : Mempool} {tx : Transaction} {db : KyveraDb}

/-- All pending transactions keep to the floor. -/
def AboveFloor (pool : Mempool) : Prop :=
  ∀ (hash : String) (tx : Transaction), pool.transactions[hash]? = some tx → tx.AboveFloor

/-- A transaction that passes all checks of admission: it is admissible, and it outbids the lowest
fee of a full pool. -/
structure Admits (pool : Mempool) (tx : Transaction) (db : KyveraDb) : Prop
    extends Admissible pool tx db where
  outbids : MAX_MEMPOOL_SIZE ≤ pool.len →
    ∀ key, pool.feeIndex.min? = some key → key.fee < tx.fee

/-- An admissible transaction is added to a full pool if something is evicted for it. -/
theorem outcome_addTransaction_of_full (h : Admissible pool tx db)
    (hfull : MAX_MEMPOOL_SIZE ≤ pool.len) :
    (pool.addTransaction tx db).1 = (pool.evictFor tx.fee).1 := by
  unfold addTransaction
  rw [h.structured]
  dsimp only
  rw [if_neg h.hash, if_neg h.senderKey, if_neg (UInt64.not_lt.2 h.balance), if_neg h.in_turn,
    if_pos hfull]
  rcases pool.evictFor tx.fee with ⟨e | ⟨⟩, pool'⟩ <;> rfl

theorem outcome_evictFor_eq_ok_iff {fee : UInt64} :
    (pool.evictFor fee).1 = .ok () ↔ ∀ key, pool.feeIndex.min? = some key → key.fee < fee := by
  unfold evictFor
  rcases hmin : pool.feeIndex.min? with _ | lowest
  · simp
  · dsimp only
    by_cases hfee : fee ≤ lowest.fee
    · rw [if_pos hfee]
      simpa using hfee
    · rw [if_neg hfee]
      simpa using hfee

theorem outcome_addTransaction_eq_ok_iff :
    (pool.addTransaction tx db).1 = .ok () ↔ pool.Admits tx db := by
  constructor
  · intro hok
    have hadmissible := admissible_of_ok hok
    refine ⟨hadmissible, fun hfull => ?_⟩
    rwa [outcome_addTransaction_of_full hadmissible hfull, outcome_evictFor_eq_ok_iff] at hok
  · intro h
    by_cases hfull : MAX_MEMPOOL_SIZE ≤ pool.len
    · rw [outcome_addTransaction_of_full h.toAdmissible hfull, outcome_evictFor_eq_ok_iff]
      exact h.outbids hfull
    · rw [addTransaction_of_admissible h.toAdmissible (Nat.lt_of_not_le hfull)]

/-- A call that adds nothing below the floor. -/
def KeepsFloor (pool : Mempool) : Call → Prop
  | .addTransaction tx db => pool.Admits tx db → tx.AboveFloor
  | .remove _ => True
  | .removeBatch _ => True

theorem AboveFloor.remove (h : pool.AboveFloor) (hash : String) :
    (pool.remove hash).2.AboveFloor := by
  rcases htx : pool.transactions[hash]? with _ | tx
  · rw [remove_of_getElem?_eq_none htx]
    exact h
  · rw [remove_of_getElem?_eq_some htx]
    exact fun hash' tx' htx' => h hash' tx' (getElem?_erase_eq_some_iff.1 htx').2

theorem AboveFloor.removeBatch (h : pool.AboveFloor) (hashes : List String) :
    (pool.removeBatch hashes).AboveFloor := by
  induction hashes generalizing pool with
  | nil => exact h
  | cons hash rest ih => exact ih (h.remove hash)

theorem AboveFloor.insert_iff (h : pool.AboveFloor) :
    (pool.insert tx).AboveFloor ↔ tx.AboveFloor := by
  constructor
  · intro hall
    exact hall tx.hash tx ExtTreeMap.getElem?_insert_self
  · intro htx hash tx' htx'
    rcases getElem?_insert_eq_some_iff.1 htx' with ⟨-, rfl⟩ | ⟨-, hold⟩
    · exact htx
    · exact h hash tx' hold

/-- One call keeps a pool above the floor exactly if it adds nothing below the floor. -/
theorem Valid.aboveFloor_after_iff (hvalid : pool.Valid) (h : pool.AboveFloor) (call : Call) :
    (pool.after call).AboveFloor ↔ pool.KeepsFloor call := by
  cases call with
  | remove hash => exact iff_of_true (h.remove hash) trivial
  | removeBatch hashes => exact iff_of_true (h.removeBatch hashes) trivial
  | addTransaction tx db =>
      show (pool.addTransaction tx db).2.AboveFloor ↔ (pool.Admits tx db → tx.AboveFloor)
      rw [← outcome_addTransaction_eq_ok_iff]
      rcases hvalid.addTransaction_cases tx db with ⟨e, he⟩ | ⟨-, he⟩ | ⟨old, -, -, -, -, he⟩
      · rw [he]
        exact iff_of_true h fun hok => absurd hok (by simp)
      · rw [he, h.insert_iff]
        exact ⟨fun htx _ => htx, fun hall => hall rfl⟩
      · rw [he, (h.remove old.hash).insert_iff]
        exact ⟨fun htx _ => htx, fun hall => hall rfl⟩

/-- Over any sequence of calls on a valid pool above the floor, the pool stays above it exactly if
no call adds something below it. -/
theorem Valid.aboveFloor_trace_iff (hvalid : pool.Valid) (h : pool.AboveFloor) (calls : List Call) :
    (∀ t ∈ trace Mempool.after pool calls, t.post.AboveFloor) ↔
      ∀ t ∈ trace Mempool.after pool calls, t.pre.KeepsFloor t.call := by
  induction calls generalizing pool with
  | nil => exact iff_of_true (List.forall_mem_nil _) (List.forall_mem_nil _)
  | cons call rest ih =>
      rw [trace, List.forall_mem_cons, List.forall_mem_cons, ← hvalid.aboveFloor_after_iff h call]
      exact and_congr_right fun hpost => ih (hvalid.after call) hpost

theorem aboveFloor_new : new.AboveFloor := by
  intro hash tx h
  simp [new] at h

end Mempool

/-! ## The blocks -/

variable {H : Sha3} {nowMs : ℤ} {block : Block} {txs : List Transaction} {tip : ChainTip}
  {db : KyveraDb}

/-- The same transactions with other fees. -/
def refee (fees : Transaction → UInt64) (txs : List Transaction) : List Transaction :=
  txs.map fun tx => { tx with fee := fees tx }

theorem mem_paidTransactions_refee_iff {fees : Transaction → UInt64} {tx' : Transaction} :
    tx' ∈ paidTransactions (refee fees txs) ↔
      ∃ tx ∈ paidTransactions txs, { tx with fee := fees tx } = tx' := by
  simp only [mem_paidTransactions_iff, refee, List.mem_map]
  constructor
  · rintro ⟨⟨tx, htx, rfl⟩, hpaid⟩
    exact ⟨tx, ⟨htx, hpaid⟩, rfl⟩
  · rintro ⟨tx, ⟨htx, hpaid⟩, rfl⟩
    exact ⟨⟨tx, htx, rfl⟩, hpaid⟩

theorem hashes_refee (fees : Transaction → UInt64) (txs : List Transaction) :
    (refee fees txs).map Transaction.hash = txs.map Transaction.hash := by
  rw [refee, List.map_map]
  rfl

theorem length_refee (fees : Transaction → UInt64) (txs : List Transaction) :
    (refee fees txs).length = txs.length :=
  List.length_map _

theorem paidTransactions_refee (fees : Transaction → UInt64) (txs : List Transaction) :
    paidTransactions (refee fees txs) = refee fees (paidTransactions txs) := by
  rw [paidTransactions, refee, List.filter_map]
  rfl

theorem requiredBalance_refee_zero_le (tx : Transaction) :
    requiredBalance { tx with fee := 0 } ≤ requiredBalance tx := by
  have hzero : (0 : UInt64) ≤ tx.fee := UInt64.le_iff_toNat_le.2 (Nat.zero_le _)
  have hsum : U64.saturatingAdd tx.amount 0 ≤ U64.saturatingAdd tx.amount tx.fee := by
    rw [UInt64.le_iff_toNat_le, U64.toNat_saturatingAdd, U64.toNat_saturatingAdd]
    exact min_le_min_right _ (Nat.add_le_add_left (Nat.zero_le _) _)
  unfold requiredBalance
  cases tx.transactionType with
  | transfer | stakeLock => exact hsum
  | stakeUnlock | contractDeploy | contractCall => exact hzero

/-- Transactions that pass the rules pass them without their fees. -/
theorem TransactionsOk.waived {t : AccountTree} (h : TransactionsOk t txs) :
    TransactionsOk t (refee (fun _ => 0) txs) where
  senders := by
    intro tx' htx' account haccount
    obtain ⟨tx, htx, rfl⟩ := mem_paidTransactions_refee_iff.1 htx'
    obtain ⟨hbalance, hnonce⟩ := h.senders tx htx account haccount
    exact ⟨UInt64.le_trans (requiredBalance_refee_zero_le tx) hbalance, hnonce⟩
  hashes := by
    rw [paidTransactions_refee, hashes_refee]
    exact h.hashes

theorem HeadCoinbase.refee (h : HeadCoinbase H block txs) (fees : Transaction → UInt64) :
    HeadCoinbase H block (refee fees txs) := by
  obtain ⟨coinbase, rest, rfl, hverified⟩ := h
  refine ⟨_, _, rfl, ?_⟩
  rw [verifyCoinbase_eq_true_iff] at hverified ⊢
  exact hverified

theorem Accepts.waived (h : Accepts H nowMs block txs tip db) (h0 : block.header.index ≠ 0) :
    Accepts H nowMs block (refee (fun _ => 0) txs) tip db := by
  have hsealed := h.sealed
  have hfollows := h.follows h0
  apply accepts_of_follows
  · exact ⟨hsealed.work, hsealed.hash, (hashes_refee _ txs).symm ▸ hsealed.merkle⟩
  · exact h0
  · refine ⟨hfollows.height, hfollows.previous, ?_, hfollows.timestamp, ?_, ?_,
      hfollows.transactions.waived⟩
    · exact ⟨hfollows.size.1, fun hmicro => (length_refee _ txs).symm ▸ hfollows.size.2 hmicro⟩
    · intro hepoch
      obtain ⟨hindex, hreward, hcoinbase⟩ := hfollows.epoch hepoch
      exact ⟨hindex, hreward, hcoinbase.refee _⟩
    · intro hmicro tx' htx'
      obtain ⟨tx, htx, rfl⟩ := List.mem_map.1 htx'
      exact hfollows.micro hmicro tx htx

/-- The rules keep to the floor, whatever fees the transactions of an accepted list carry, exactly
if none of them is paid for. -/
theorem Accepts.aboveFloor_iff (h : Accepts H nowMs block txs tip db) (h0 : block.header.index ≠ 0) :
    (∀ fees, Accepts H nowMs block (refee fees txs) tip db →
        ∀ tx ∈ refee fees txs, tx.AboveFloor) ↔ paidTransactions txs = [] := by
  constructor
  · intro hfloor
    refine List.eq_nil_iff_forall_not_mem.2 fun tx htx => ?_
    have hmem : { tx with fee := 0 } ∈ refee (fun _ => 0) txs :=
      List.mem_map.2 ⟨tx, (mem_paidTransactions_iff.1 htx).1, rfl⟩
    have hsufficient := hfloor _ (h.waived h0) _ hmem (mem_paidTransactions_iff.1 htx).2
    rw [feeIsSufficient_eq_false rfl] at hsufficient
    exact absurd hsufficient (by decide)
  · intro hnone fees _ tx' htx' hsender
    have hpaid := mem_paidTransactions_iff.2 ⟨htx', hsender⟩
    obtain ⟨tx, htx, -⟩ := mem_paidTransactions_refee_iff.1 hpaid
    rw [hnone] at htx
    exact absurd htx List.not_mem_nil

/-- The floor holds in every pool of a sequence of calls exactly if no call adds something below it,
and in every accepted block, whatever the fees, exactly if nothing in it is paid for. -/
theorem feeFloor_iff (calls : List Mempool.Call) (H : Sha3) (nowMs : ℤ) (block : Block)
    (txs : List Transaction) (tip : ChainTip) (db : KyveraDb) (h0 : block.header.index ≠ 0)
    (haccepts : Accepts H nowMs block txs tip db) :
    ((∀ t ∈ trace Mempool.after Mempool.new calls, t.post.AboveFloor) ↔
        ∀ t ∈ trace Mempool.after Mempool.new calls, t.pre.KeepsFloor t.call) ∧
      ((∀ fees, Accepts H nowMs block (refee fees txs) tip db →
          ∀ tx ∈ refee fees txs, tx.AboveFloor) ↔ paidTransactions txs = []) :=
  ⟨Mempool.valid_new.aboveFloor_trace_iff Mempool.aboveFloor_new calls, haccepts.aboveFloor_iff h0⟩

/-- A transfer with a fee of ten units is added to the empty pool and accepted in a block. -/
theorem feeFloor_broken_by_transfer :
    let pool := Mempool.reached [.addTransaction (transferTo "kyv1b") Mempool.senderDb]
    pool.transactions["aa"]? = some (transferTo "kyv1b") ∧
      Accepts Sha3.zero 1000 (sealedBlock false "aa") [transferTo "kyv1b"] ChainTip.genesis
        Mempool.senderDb ∧
      ¬ (transferTo "kyv1b").AboveFloor := by
  intro pool
  refine ⟨by decide +kernel, accepts_of_outcome (by decide +kernel), fun hfloor => ?_⟩
  exact absurd (hfloor (by decide)) (by decide)

theorem feeFloor_iff_transfer :
    let calls := [Mempool.Call.addTransaction (transferTo "kyv1b") Mempool.senderDb]
    let txs := [transferTo "kyv1b"]
    ((∀ t ∈ trace Mempool.after Mempool.new calls, t.post.AboveFloor) ↔
        ∀ t ∈ trace Mempool.after Mempool.new calls, t.pre.KeepsFloor t.call) ∧
      ((∀ fees, Accepts Sha3.zero 1000 (sealedBlock false "aa") (refee fees txs) ChainTip.genesis
          Mempool.senderDb → ∀ tx ∈ refee fees txs, tx.AboveFloor) ↔ paidTransactions txs = []) := by
  intro calls txs
  exact feeFloor_iff calls Sha3.zero 1000 (sealedBlock false "aa") txs ChainTip.genesis
    Mempool.senderDb (by decide) (accepts_of_outcome (by decide +kernel))

end Kyvera
