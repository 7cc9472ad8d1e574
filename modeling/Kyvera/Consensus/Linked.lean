import Kyvera.Consensus.Rules
import Kyvera.Library.Trace

/-!
# Linked chains

A node advances its tip by the blocks that the rules accept.  A block with a predecessor is checked
against the tip, so it is linked to the block before it.  A block with index 0 is accepted at any
tip, and takes the tip back to height 0.
-/

namespace Kyvera

open Effect Effect.Prog Trace

/-- A block as it reaches a node: with its transactions, the database and the clock. -/
structure Arrival where
  block : Block
  transactions : List Transaction
  db : KyveraDb
  nowMs : ℤ

/-- The rules accept the arriving block at the tip, and the tip advances. -/
def Extends (H : Sha3) (tip : ChainTip) (a : Arrival) (tip' : ChainTip) : Prop :=
  (validateBlockRules H a.nowMs a.block a.transactions tip).run a.db = (.ok (), a.db) ∧
    tip.advance a.block = some tip'

/-- One accepted block follows another. -/
structure LinkedTo (t t' : Step ChainTip Arrival) : Prop where
  index : t'.call.block.header.index.toNat = t.call.block.header.index.toNat + 1
  previous : t'.call.block.header.previousHash = t.call.block.hash
  epoch : t'.post.epochIndex.toNat =
    t'.pre.epochIndex.toNat + if t'.call.block.header.isEpochBlock then 1 else 0

/-- The blocks of a run follow one another, and the height never goes back. -/
structure Linked (run : List (Step ChainTip Arrival)) : Prop where
  chain : run.IsChain LinkedTo
  height : ∀ t ∈ run, t.pre.height ≤ t.post.height

section Extends

variable {H : Sha3} {tip tip' : ChainTip} {a : Arrival}

theorem advance_eq_some_iff {block : Block} :
    tip.advance block = some tip' ↔
      ∃ totalWork, U64.checkedAdd tip.totalWork block.header.difficulty.toUInt64 = some totalWork ∧
        tip' = ⟨block.hash, block.header.index, block.header.timestamp, block.header.difficulty,
          if block.header.isEpochBlock then block.header.epochIndex else tip.epochIndex,
          totalWork⟩ := by
  unfold ChainTip.advance
  rw [Option.map_eq_some_iff]
  exact exists_congr fun _ => and_congr_right fun _ => eq_comm

theorem Extends.at_block (h : Extends H tip a tip') :
    tip'.hash = a.block.hash ∧ tip'.height = a.block.header.index := by
  obtain ⟨_, _, rfl⟩ := advance_eq_some_iff.1 h.2
  exact ⟨rfl, rfl⟩

theorem Extends.follows (h : Extends H tip a tip') (h0 : a.block.header.index ≠ 0) :
    Follows H a.nowMs a.block a.transactions tip a.db.accounts :=
  ((guards_validateBlockRules _ _ _).1 h.1).1.2.2 h0

theorem Extends.epochIndex (h : Extends H tip a tip') (h0 : a.block.header.index ≠ 0) :
    tip'.epochIndex.toNat =
      tip.epochIndex.toNat + if a.block.header.isEpochBlock then 1 else 0 := by
  have hfollows := h.follows h0
  obtain ⟨_, _, rfl⟩ := advance_eq_some_iff.1 h.2
  by_cases hepoch : a.block.header.isEpochBlock = true
  · simp only [hepoch, if_true]
    exact (hfollows.epoch hepoch).index
  · simp only [hepoch]
    rfl

theorem Extends.height (h : Extends H tip a tip') (h0 : a.block.header.index ≠ 0) :
    tip'.height.toNat = tip.height.toNat + 1 := by
  rw [h.at_block.2]
  exact (h.follows h0).height

/-- Two accepted blocks in a row are linked exactly when the second one has a predecessor. -/
theorem linkedTo_iff {t t' : Step ChainTip Arrival} (ht : Extends H t.pre t.call t.post)
    (ht' : Extends H t'.pre t'.call t'.post) (hnext : t'.pre = t.post) :
    LinkedTo t t' ↔ t'.call.block.header.index ≠ 0 := by
  constructor
  · intro h h0
    have hindex := h.index
    rw [h0, UInt64.toNat_zero] at hindex
    omega
  · intro h0
    obtain ⟨hhash, hheight⟩ := ht.at_block
    have hfollows := ht'.follows h0
    rw [hnext] at hfollows
    exact ⟨hheight ▸ hfollows.height, hhash ▸ hfollows.previous, ht'.epochIndex h0⟩

end Extends

section Runs

variable {H : Sha3} {tip : ChainTip} {run : List (Step ChainTip Arrival)}

/-- In a run, the blocks after the first one are linked exactly when they have a predecessor. -/
theorem isChain_linkedTo_iff (h : IsRun (Extends H) tip run) :
    run.IsChain LinkedTo ↔ ∀ t ∈ run.tail, t.call.block.header.index ≠ 0 := by
  induction run generalizing tip with
  | nil => simp
  | cons t rest ih =>
      obtain ⟨-, ht, hrest⟩ := h
      have hih := ih hrest
      cases rest with
      | nil => simp
      | cons t' rest' =>
          obtain ⟨hnext, ht', -⟩ := hrest
          rw [List.isChain_cons_cons, hih, linkedTo_iff ht ht' hnext]
          show _ ↔ ∀ t ∈ t' :: rest', t.call.block.header.index ≠ 0
          rw [List.forall_mem_cons]
          rfl

/-- Over any run from the genesis tip, the accepted blocks form one linked chain exactly when no
block after the first one has index 0. -/
theorem linked_iff (h : IsRun (Extends H) ChainTip.genesis run) :
    Linked run ↔ ∀ t ∈ run.tail, t.call.block.header.index ≠ 0 := by
  constructor
  · intro hl
    exact (isChain_linkedTo_iff h).1 hl.chain
  · intro h0
    refine ⟨(isChain_linkedTo_iff h).2 h0, ?_⟩
    intro t ht
    rw [UInt64.le_iff_toNat_le]
    by_cases hindex : t.call.block.header.index = 0
    · -- Only the first block can have index 0, and it meets the genesis tip.
      cases run with
      | nil => cases ht
      | cons first rest =>
          rcases List.mem_cons.1 ht with rfl | hrest
          · rw [h.1]
            exact Nat.zero_le _
          · exact absurd hindex (h0 t hrest)
    · rw [(h.step_of_mem ht).height hindex]
      exact Nat.le_succ _

end Runs

/-- A sealed block for the constant hash function, without transactions. -/
def emptyBlock (index : UInt64) (timestamp : ℤ) : Block where
  header :=
    { index := index, timestamp := timestamp, previousHash := zeroHash, merkleRoot := zeroHash
      nonce := 0, difficulty := 1, isEpochBlock := false, epochIndex := 0, stateRoot := "" }
  transactionHashes := []
  hash := zeroHash
  validatorSignature := ""
  producerAddress := ""
  blockReward := 0

/-- The arrival of an empty block at the time it was made. -/
def emptyArrival (index : UInt64) (timestamp : ℤ) : Arrival :=
  ⟨emptyBlock index timestamp, [], KyveraDb.empty, timestamp⟩

/-- The tip at an empty block. -/
def emptyTip (height : UInt64) (timestamp : ℤ) (totalWork : UInt64) : ChainTip :=
  ⟨zeroHash, height, timestamp, 1, 0, totalWork⟩

theorem extends_of_outcome {H : Sha3} {tip tip' : ChainTip} {a : Arrival}
    (h : ((validateBlockRules H a.nowMs a.block a.transactions tip).run a.db).1 = .ok ())
    (hadvance : tip.advance a.block = some tip') : Extends H tip a tip' :=
  ⟨guards_validateBlockRules.run_eq_of_outcome h, hadvance⟩

/-- The first block of a chain and one that follows it. -/
theorem linked_two_blocks :
    let run : List (Step ChainTip Arrival) :=
      [⟨ChainTip.genesis, emptyArrival 0 0, emptyTip 0 0 1⟩,
        ⟨emptyTip 0 0 1, emptyArrival 1 1000, emptyTip 1 1000 2⟩]
    Linked run := by
  intro run
  have accepted : IsRun (Extends Sha3.zero) ChainTip.genesis run :=
    ⟨rfl, extends_of_outcome (by decide +kernel) (by decide), rfl,
      extends_of_outcome (by decide +kernel) (by decide), trivial⟩
  exact (linked_iff accepted).2 (by decide)

/-- The first block is accepted again at height 1, and takes the tip back to height 0. -/
theorem not_linked_second_genesis :
    let run : List (Step ChainTip Arrival) :=
      [⟨ChainTip.genesis, emptyArrival 0 0, emptyTip 0 0 1⟩,
        ⟨emptyTip 0 0 1, emptyArrival 1 1000, emptyTip 1 1000 2⟩,
        ⟨emptyTip 1 1000 2, emptyArrival 0 0, emptyTip 0 0 3⟩]
    IsRun (Extends Sha3.zero) ChainTip.genesis run ∧ ¬ run.IsChain LinkedTo ∧
      ¬ ∀ t ∈ run, t.pre.height ≤ t.post.height := by
  intro run
  have accepted : IsRun (Extends Sha3.zero) ChainTip.genesis run :=
    ⟨rfl, extends_of_outcome (by decide +kernel) (by decide), rfl,
      extends_of_outcome (by decide +kernel) (by decide), rfl,
      extends_of_outcome (by decide +kernel) (by decide), trivial⟩
  refine ⟨accepted, ?_, by decide⟩
  rw [isChain_linkedTo_iff accepted]
  decide

end Kyvera
