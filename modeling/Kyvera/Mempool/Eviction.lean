import Kyvera.Mempool.Selection

/-!
# Eviction

A full pool makes room for a transaction by giving up its lowest one, if that pays less.  The checks
look at the pool before the eviction, so an addition either leaves the pool as it is or does all of
it, and a full pool never gets cheaper.
-/

namespace Kyvera

namespace Mempool

open Std

variable {pool : Mempool} {tx old other : Transaction} {db : KyveraDb}

/-! ## What a pool holds -/

theorem Holds.eq_of_hash (h : pool.Holds tx) (h' : pool.Holds other) (hhash : tx.hash = other.hash) :
    tx = other := by
  unfold Holds at h h'
  rw [hhash] at h
  exact Option.some.inj (h.symm.trans h')

theorem holds_insert_iff (hfresh : pool.transactions[tx.hash]? = none) :
    (pool.insert tx).Holds other ↔ other = tx ∨ pool.Holds other := by
  unfold Holds
  constructor
  · intro h
    rcases TreeIndex.getElem?_insert_eq_some_iff.1 h with ⟨-, rfl⟩ | ⟨-, hold⟩
    · exact .inl rfl
    · exact .inr hold
  · rintro (rfl | hold)
    · exact ExtTreeMap.getElem?_insert_self
    · refine TreeIndex.getElem?_insert_eq_some_iff.2 (.inr ⟨?_, hold⟩)
      intro hhash
      rw [hhash, hfresh] at hold
      cases hold

theorem holds_remove_iff (hold : pool.Holds old) :
    (pool.remove old.hash).2.Holds other ↔ pool.Holds other ∧ other ≠ old := by
  rw [remove_of_getElem?_eq_some hold]
  refine TreeIndex.getElem?_erase_eq_some_iff.trans ?_
  constructor
  · rintro ⟨hne, hother⟩
    exact ⟨hother, fun e => hne (congrArg Transaction.hash e)⟩
  · rintro ⟨hother, hne⟩
    exact ⟨fun hhash => hne (Holds.eq_of_hash hother hold hhash), hother⟩

theorem len_insert (hfresh : pool.transactions[tx.hash]? = none) :
    (pool.insert tx).len = pool.len + 1 := by
  have hnot : tx.hash ∉ pool.transactions := by
    rw [ExtTreeMap.mem_iff_isSome_getElem?, hfresh]
    exact Bool.false_ne_true
  exact ExtTreeMap.size_insert.trans (if_neg hnot)

theorem Lowest.below (h : pool.Lowest old) (hvalid : pool.Valid) (hother : pool.Holds other)
    (hne : other ≠ old) : old.feeKey.Below other.feeKey := by
  have hle := h.least other.feeKey ((hvalid.fees _).2 ⟨_, other, hother, rfl⟩)
  rcases Ordering.isLE_iff_eq_lt_or_eq_eq.1 hle with hlt | heq
  · exact hlt
  · have hkey : old.feeKey = other.feeKey := LawfulEqCmp.compare_eq_iff_eq.1 heq
    exact absurd (hother.eq_of_hash h.stored (congrArg FeeKey.hash hkey).symm) hne

/-! ## Additions -/

/-- An addition that made room: the lowest transaction is gone, and it paid less. -/
structure Replaces (pool : Mempool) (tx old : Transaction) (pool' : Mempool) : Prop where
  stored : pool.Holds old
  lowest : ∀ other, pool.Holds other → other ≠ old →
    old.fee < other.fee ∨ old.fee = other.fee ∧ old.hash < other.hash
  fee : old.fee < tx.fee
  holds : ∀ other, pool'.Holds other ↔ other = tx ∨ pool.Holds other ∧ other ≠ old

/-- The effect of an addition on a valid pool. -/
theorem Valid.addTransaction_effect (h : pool.Valid) (tx : Transaction) (db : KyveraDb) :
    (∃ e, pool.addTransaction tx db = (.error e, pool)) ∨
    ∃ pool', pool.addTransaction tx db = (.ok (), pool') ∧ ¬ pool.Holds tx ∧
      (pool.len < MAX_MEMPOOL_SIZE ∧ pool'.len = pool.len + 1 ∧
          (∀ other, pool'.Holds other ↔ other = tx ∨ pool.Holds other) ∨
        pool.len = MAX_MEMPOOL_SIZE ∧ pool'.len = MAX_MEMPOOL_SIZE ∧
          ∃ old, pool.Replaces tx old pool') := by
  rcases h.addTransaction_cases tx db with he | ⟨hfresh, he⟩ | ⟨old, hfull, hlowest, hfee, hfresh, he⟩
  · exact .inl he
  · right
    refine ⟨_, he, ?_, .inl ⟨hfresh.room, len_insert hfresh.hash, fun other =>
      holds_insert_iff hfresh.hash⟩⟩
    intro hholds
    rw [Holds, hfresh.hash] at hholds
    cases hholds
  · right
    have hlen := len_remove_add_one hlowest.stored
    refine ⟨_, he, ?_, .inr ⟨hfull, ?_, old, hlowest.stored, ?_, hfee, ?_⟩⟩
    · intro hholds
      have hne : tx ≠ old := by
        rintro rfl
        exact UInt64.lt_irrefl _ hfee
      have hkept := (holds_remove_iff hlowest.stored).2 ⟨hholds, hne⟩
      rw [Holds, hfresh.hash] at hkept
      cases hkept
    · rw [len_insert hfresh.hash, hlen, hfull]
    · intro other hother hne
      exact FeeKey.below_iff.1 (hlowest.below h hother hne)
    · intro other
      rw [holds_insert_iff hfresh.hash, holds_remove_iff hlowest.stored]

/-- An addition to a full valid pool lowers no fee that all its transactions reach. -/
theorem Valid.fee_bound_addTransaction (h : pool.Valid) (hfull : pool.len = MAX_MEMPOOL_SIZE)
    {fee : UInt64} (hfee : ∀ other, pool.Holds other → fee ≤ other.fee)
    (hother : (pool.addTransaction tx db).2.Holds other) : fee ≤ other.fee := by
  rcases h.addTransaction_effect tx db with ⟨e, he⟩ | ⟨pool', he, -, hroom | ⟨-, -, old, hold⟩⟩
  · rw [he] at hother
    exact hfee other hother
  · exact absurd hfull hroom.1.ne
  · rw [he] at hother
    rcases (hold.holds other).1 hother with rfl | ⟨hother, -⟩
    · exact UInt64.le_of_lt (UInt64.lt_of_le_of_lt (hfee old hold.stored) hold.fee)
    · exact hfee other hother

/-- The effect of an addition: on every pool that calls can reach, a failed one changes nothing; one
that succeeds keeps all that was there and holds the new transaction, except that a full pool gives
up its lowest transaction, which paid less.  So the lowest fee of a full pool never falls. -/
theorem addTransaction_atomic (calls : List Call) (tx : Transaction) (db : KyveraDb) :
    let pool := reached calls
    let pool' := (pool.addTransaction tx db).2
    (∀ e, (pool.addTransaction tx db).1 = .error e → pool' = pool) ∧
    ((pool.addTransaction tx db).1 = .ok () → ¬ pool.Holds tx ∧
      (pool.len < MAX_MEMPOOL_SIZE ∧ pool'.len = pool.len + 1 ∧
          (∀ other, pool'.Holds other ↔ other = tx ∨ pool.Holds other) ∨
        pool.len = MAX_MEMPOOL_SIZE ∧ pool'.len = MAX_MEMPOOL_SIZE ∧
          ∃ old, pool.Replaces tx old pool')) ∧
    (pool.len = MAX_MEMPOOL_SIZE → ∀ fee, (∀ other, pool.Holds other → fee ≤ other.fee) →
      ∀ other, pool'.Holds other → fee ≤ other.fee) := by
  intro pool pool'
  have h : pool.Valid := valid_new.foldl_after calls
  refine ⟨fun e he => ?_, fun hok => ?_, fun hfull fee hfee other hother =>
    h.fee_bound_addTransaction hfull hfee hother⟩
  · rcases h.addTransaction_effect tx db with ⟨_, heq⟩ | ⟨_, heq, -⟩
    · exact congrArg Prod.snd heq
    · rw [heq] at he
      cases he
  · rcases h.addTransaction_effect tx db with ⟨_, heq⟩ | ⟨_, heq, heffect⟩
    · rw [heq] at hok
      cases hok
    · have hpool : pool' = _ := congrArg Prod.snd heq
      rw [hpool]
      exact heffect

end Mempool

end Kyvera
