import Kyvera.Mempool.Indexes
import Kyvera.Library.Trace

/-!
# Admission

A transaction is admitted when it is well formed, new, and affordable, and when its nonce is the
one of its sender's account, unless something of that sender is pending already.  In that case any
nonce that is not taken will do, so the pending nonces of a sender need not be without gaps.
-/

namespace Kyvera

namespace Mempool

open Trace

variable {pool pool' : Mempool} {tx : Transaction} {db : KyveraDb}

/-! ## The checks -/

/-- What admission demands of a transaction, whatever else of its sender is pending. -/
structure Checked (pool : Mempool) (tx : Transaction) (db : KyveraDb) : Prop where
  structured : validateStructure tx = .ok ()
  hash : tx.hash ∉ pool.transactions
  senderKey : tx.senderKey ∉ pool.pendingNonces
  balance : requiredBalance tx ≤ (db.account tx.sender).balance

/-- What admission demands of a transaction. -/
structure Admissible (pool : Mempool) (tx : Transaction) (db : KyveraDb) : Prop
    extends Checked pool tx db where
  nonce : pool.hasOtherPending tx.sender = true ∨ tx.nonce = (db.account tx.sender).nonce

theorem addTransaction_of_not_admissible (h : ¬ Admissible pool tx db) :
    ∃ e, pool.addTransaction tx db = (.error e, pool) := by
  unfold addTransaction
  rcases hstructured : validateStructure tx with e | ⟨⟩
  · exact ⟨e, rfl⟩
  dsimp only
  by_cases hhash : tx.hash ∈ pool.transactions
  · exact ⟨_, if_pos hhash⟩
  rw [if_neg hhash]
  by_cases hkey : tx.senderKey ∈ pool.pendingNonces
  · exact ⟨_, if_pos hkey⟩
  rw [if_neg hkey]
  by_cases hbalance : (db.account tx.sender).balance < requiredBalance tx
  · exact ⟨_, if_pos hbalance⟩
  rw [if_neg hbalance]
  refine ⟨_, if_pos ?_⟩
  by_contra hnonce
  apply h
  refine ⟨⟨hstructured, hhash, hkey, UInt64.not_lt.1 hbalance⟩, ?_⟩
  simpa [or_iff_not_imp_left] using hnonce

theorem Admissible.in_turn (h : Admissible pool tx db) :
    ¬ (!pool.hasOtherPending tx.sender ∧ tx.nonce ≠ (db.account tx.sender).nonce) := by
  rintro ⟨hfirst, hne⟩
  rcases h.nonce with hother | heq
  · rw [hother] at hfirst
    exact absurd hfirst (by decide)
  · exact hne heq

theorem addTransaction_of_admissible (h : Admissible pool tx db)
    (hroom : pool.len < MAX_MEMPOOL_SIZE) :
    pool.addTransaction tx db = (.ok (), pool.insert tx) := by
  unfold addTransaction
  rw [h.structured]
  dsimp only
  rw [if_neg h.hash, if_neg h.senderKey, if_neg (UInt64.not_lt.2 h.balance), if_neg h.in_turn,
    if_neg (Nat.not_le.2 hroom)]

theorem admissible_of_ok (h : (pool.addTransaction tx db).1 = .ok ()) : Admissible pool tx db := by
  by_contra hnot
  obtain ⟨e, he⟩ := addTransaction_of_not_admissible hnot
  rw [he] at h
  cases h

/-! ## Pending nonces -/

/-- The pending nonces of a sender. -/
def noncesOf (pool : Mempool) (sender : String) : Finset ℕ :=
  (pool.pendingNonces.filter fun p => p.1 = sender).image fun p => p.2.toNat

/-- The pending nonces of every sender are the ones that follow from its account. -/
def Sequential (pool : Mempool) (db : KyveraDb) : Prop :=
  ∀ sender, ∃ k, pool.noncesOf sender =
    Finset.Ico (db.account sender).nonce.toNat ((db.account sender).nonce.toNat + k)

theorem mem_noncesOf_iff {sender : String} {n : UInt64} :
    n.toNat ∈ pool.noncesOf sender ↔ (sender, n) ∈ pool.pendingNonces := by
  unfold noncesOf
  rw [Finset.mem_image]
  constructor
  · rintro ⟨⟨sender', m⟩, hmem, he⟩
    obtain ⟨hpending, rfl⟩ := Finset.mem_filter.1 hmem
    obtain rfl : m = n := UInt64.toNat_inj.1 he
    exact hpending
  · intro hmem
    exact ⟨(sender, n), Finset.mem_filter.2 ⟨hmem, rfl⟩, rfl⟩

theorem noncesOf_insert_self (pool : Mempool) (tx : Transaction) :
    (pool.insert tx).noncesOf tx.sender =
      Insert.insert tx.nonce.toNat (pool.noncesOf tx.sender) := by
  unfold noncesOf Mempool.insert
  rw [Finset.filter_insert]
  exact (congrArg _ (if_pos rfl)).trans (Finset.image_insert _ _ _)

theorem noncesOf_insert_of_ne {sender : String} (h : tx.sender ≠ sender) :
    (pool.insert tx).noncesOf sender = pool.noncesOf sender := by
  unfold noncesOf Mempool.insert
  rw [Finset.filter_insert]
  exact congrArg _ (if_neg h)

theorem hasOtherPending_eq_true_iff {sender : String} :
    pool.hasOtherPending sender = true ↔ pool.noncesOf sender ≠ ∅ := by
  unfold hasOtherPending noncesOf
  rw [decide_eq_true_eq, Ne, Finset.image_eq_empty, Finset.filter_eq_empty_iff]
  push Not
  rfl

/-- A sender's next nonce: the one of its account, behind the pending ones. -/
def nextNonce (pool : Mempool) (db : KyveraDb) (sender : String) : ℕ :=
  (db.account sender).nonce.toNat + (pool.noncesOf sender).card

/-- The stretch grows by a nonce that is not in it only at its end. -/
theorem insert_Ico_eq_iff {n k m : ℕ} (hm : m ∉ Finset.Ico n (n + k)) :
    (∃ k', Insert.insert m (Finset.Ico n (n + k)) = Finset.Ico n (n + k')) ↔ m = n + k := by
  constructor
  · rintro ⟨k', h⟩
    have hcard := congrArg Finset.card h
    rw [Finset.card_insert_of_notMem hm, Nat.card_Ico, Nat.card_Ico] at hcard
    have hmem : m ∈ Finset.Ico n (n + k') := h ▸ Finset.mem_insert_self m _
    rw [Finset.mem_Ico] at hm hmem
    omega
  · rintro rfl
    refine ⟨k + 1, ?_⟩
    ext i
    rw [Finset.mem_insert, Finset.mem_Ico, Finset.mem_Ico]
    omega

/-- An insertion keeps the pending nonces sequential exactly when it is of the next nonce. -/
theorem Sequential.insert_iff (h : pool.Sequential db) (hkey : tx.senderKey ∉ pool.pendingNonces) :
    (pool.insert tx).Sequential db ↔ tx.nonce.toNat = pool.nextNonce db tx.sender := by
  obtain ⟨k, hk⟩ := h tx.sender
  have hnew : tx.nonce.toNat ∉ Finset.Ico (db.account tx.sender).nonce.toNat
      ((db.account tx.sender).nonce.toNat + k) := by
    rw [← hk, mem_noncesOf_iff]
    exact hkey
  have hnext : pool.nextNonce db tx.sender = (db.account tx.sender).nonce.toNat + k := by
    rw [nextNonce, hk, Nat.card_Ico, Nat.add_sub_cancel_left]
  rw [hnext, ← insert_Ico_eq_iff hnew, ← hk, ← noncesOf_insert_self]
  constructor
  · intro hseq
    exact hseq tx.sender
  · intro hself sender
    by_cases hsender : tx.sender = sender
    · rwa [hsender] at hself
    · rw [noncesOf_insert_of_ne hsender]
      exact h sender

/-! ## Runs -/

/-- A transaction is added to a pool with room for it, or rejected. -/
def Adds (db : KyveraDb) (pool : Mempool) (tx : Transaction) (pool' : Mempool) : Prop :=
  pool.len < MAX_MEMPOOL_SIZE ∧ (pool.addTransaction tx db).2 = pool'

/-- A transaction that passes the other checks, of a sender with something pending, carries the
next nonce. -/
def InOrder (pool : Mempool) (tx : Transaction) (db : KyveraDb) : Prop :=
  pool.Checked tx db → pool.hasOtherPending tx.sender = true →
    tx.nonce.toNat = pool.nextNonce db tx.sender

theorem sequential_new (db : KyveraDb) : new.Sequential db := by
  intro sender
  refine ⟨0, ?_⟩
  rw [Nat.add_zero, Finset.Ico_self]
  rfl

/-- One addition keeps the pending nonces sequential exactly when it is in order. -/
theorem Adds.sequential_iff (h : Adds db pool tx pool') (hseq : pool.Sequential db) :
    pool'.Sequential db ↔ pool.InOrder tx db := by
  obtain ⟨hroom, rfl⟩ := h
  by_cases hadmissible : Admissible pool tx db
  · rw [addTransaction_of_admissible hadmissible hroom]
    dsimp only
    rw [hseq.insert_iff hadmissible.senderKey]
    constructor
    · intro hnext _ _
      exact hnext
    · intro horder
      by_cases hother : pool.hasOtherPending tx.sender = true
      · exact horder hadmissible.toChecked hother
      · -- A sender's first pending transaction carries the nonce of its account.
        have hempty : pool.noncesOf tx.sender = ∅ := by
          by_contra hne
          exact hother (hasOtherPending_eq_true_iff.2 hne)
        rw [nextNonce, hempty, Finset.card_empty, Nat.add_zero,
          hadmissible.nonce.resolve_left hother]
  · obtain ⟨e, he⟩ := addTransaction_of_not_admissible hadmissible
    rw [he]
    refine iff_of_true hseq ?_
    intro hchecked hother
    exact absurd ⟨hchecked, .inl hother⟩ hadmissible

/-- Over any run of additions to an empty pool that never fills up, the pending nonces of every
sender stay sequential exactly when every transaction that passes the other checks, of a sender with
something pending, carries the next nonce. -/
theorem sequential_iff_inOrder {run : List (Step Mempool Transaction)}
    (h : IsRun (Adds db) new run) :
    (∀ t ∈ run, t.post.Sequential db) ↔ ∀ t ∈ run, t.pre.InOrder t.call db := by
  have step : ∀ (run : List (Step Mempool Transaction)) (pool : Mempool),
      pool.Sequential db → IsRun (Adds db) pool run →
      ((∀ t ∈ run, t.post.Sequential db) ↔ ∀ t ∈ run, t.pre.InOrder t.call db) := by
    intro run
    induction run with
    | nil => exact fun _ _ _ => iff_of_true (List.forall_mem_nil _) (List.forall_mem_nil _)
    | cons t rest ih =>
        rintro pool hseq ⟨rfl, ht, hrest⟩
        rw [List.forall_mem_cons, List.forall_mem_cons, ← ht.sequential_iff hseq]
        exact and_congr_right fun hpost => ih t.post hpost hrest
  exact step run new (sequential_new db) h

/-- The run of a list of additions. -/
def additions (db : KyveraDb) (txs : List Transaction) : List (Step Mempool Transaction) :=
  trace (fun pool tx => (pool.addTransaction tx db).2) new txs

theorem isRun_additions {txs : List Transaction}
    (h : ∀ t ∈ additions db txs, t.pre.len < MAX_MEMPOOL_SIZE) :
    IsRun (Adds db) new (additions db txs) :=
  isRun_trace fun t ht => ⟨h t ht, rfl⟩

/-- A transfer of one sender. -/
def pendingTransfer (nonce fee : UInt64) : Transaction :=
  { Transaction.new 0 "kyv1a" "kyv1b" 40 fee nonce .transfer [] with
    hash := "hash" ++ toString nonce
    signature := "sig" }

/-- The store of these transfers. -/
def senderDb : KyveraDb := KyveraDb.withAccounts [{ Account.new "kyv1a" with balance := 100 }]

/-- Three transfers in the order of their nonces. -/
theorem sequential_three_transfers :
    let run := additions senderDb
      [pendingTransfer 0 10, pendingTransfer 1 10, pendingTransfer 2 10]
    (final new run).len = 3 ∧ ∀ t ∈ run, t.post.Sequential senderDb := by
  intro run
  have next : ∀ t ∈ run, t.call.nonce.toNat = t.pre.nextNonce senderDb t.call.sender := by
    decide +kernel
  refine ⟨by decide +kernel, (sequential_iff_inOrder (isRun_additions (by decide +kernel))).2 ?_⟩
  exact fun t ht _ _ => next t ht

/-- A transfer with nonce 5 is added behind one with nonce 0. -/
theorem not_sequential_gap :
    let run := additions senderDb [pendingTransfer 0 10, pendingTransfer 5 10]
    IsRun (Adds senderDb) new run ∧ ¬ ∀ t ∈ run, t.post.Sequential senderDb := by
  intro run
  refine ⟨isRun_additions (by decide +kernel), fun hall => ?_⟩
  have hlast : (final new run).Sequential senderDb :=
    hall ⟨_, pendingTransfer 5 10, final new run⟩ (List.mem_cons_of_mem _ List.mem_cons_self)
  obtain ⟨k, hk⟩ := hlast "kyv1a"
  have hfive : 5 ∈ (final new run).noncesOf "kyv1a" := by decide +kernel
  have hone : 1 ∉ (final new run).noncesOf "kyv1a" := by decide +kernel
  have hzero : (senderDb.account "kyv1a").nonce.toNat = 0 := by decide
  rw [hk, hzero, Finset.mem_Ico] at hfive hone
  omega

end Mempool

end Kyvera
