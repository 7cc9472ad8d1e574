import Kyvera.Consensus.Accepted
import Kyvera.Consensus.Linked
import Kyvera.Chain.ForkChoice

/-!
# Work

The proof-of-work rule holds a block to the difficulty that the block claims for itself.  A hash
has 64 characters, so no accepted block claims more than the maximum; but a block that claims
nothing is accepted too, and adds nothing to the work of the chain.
-/

namespace Kyvera

open Effect Effect.Prog Trace

/-- The difficulty of a block lies within its bounds, and the work of the tip grows by it. -/
structure CarriesWork (t : Step ChainTip Arrival) : Prop where
  lower : MIN_DIFFICULTY ≤ t.call.block.header.difficulty
  upper : t.call.block.header.difficulty ≤ MAX_DIFFICULTY
  work : t.pre.totalWork < t.post.totalWork

section

variable {H : Sha3} {tip tip' : ChainTip} {a : Arrival}

theorem Extends.sealed (h : Extends H tip a tip') : Sealed H a.block a.transactions :=
  Accepts.sealed h.1

theorem Extends.difficulty_le (h : Extends H tip a tip') :
    a.block.header.difficulty ≤ MAX_DIFFICULTY := by
  have hle := le_utf8ByteSize_of_meetsDifficulty h.sealed.work
  rw [← h.sealed.hash] at hle
  rw [UInt32.le_iff_toNat_le]
  exact hle.trans (H.utf8ByteSize_hex _).le

/-- The work grows by the difficulty of the accepted block. -/
theorem Extends.totalWork (h : Extends H tip a tip') :
    tip'.totalWork.toNat = tip.totalWork.toNat + a.block.header.difficulty.toNat :=
  toNat_totalWork_of_advance h.2

end

/-- An accepted block carries work exactly when it claims any. -/
theorem carriesWork_iff {H : Sha3} {t : Step ChainTip Arrival}
    (h : Extends H t.pre t.call t.post) :
    CarriesWork t ↔ t.call.block.header.difficulty ≠ 0 := by
  have hwork := h.totalWork
  constructor
  · intro hcarries h0
    have hgrows := UInt64.lt_iff_toNat_lt.1 hcarries.work
    rw [h0, UInt32.toNat_zero] at hwork
    omega
  · intro h0
    have hpos : 0 < t.call.block.header.difficulty.toNat :=
      UInt32.lt_iff_toNat_lt.1 (UInt32.pos_iff_ne_zero.2 h0)
    refine ⟨UInt32.le_iff_toNat_le.2 hpos, h.difficulty_le, UInt64.lt_iff_toNat_lt.2 ?_⟩
    omega

/-- Over any run, every accepted block has a difficulty within the bounds and makes the work grow,
exactly when no accepted block claims difficulty 0. -/
theorem forall_carriesWork_iff {H : Sha3} {tip : ChainTip} {run : List (Step ChainTip Arrival)}
    (h : IsRun (Extends H) tip run) :
    (∀ t ∈ run, CarriesWork t) ↔ ∀ t ∈ run, t.call.block.header.difficulty ≠ 0 := by
  apply forall_congr'
  intro t
  apply forall_congr'
  intro ht
  exact carriesWork_iff (h.step_of_mem ht)

/-- Two empty blocks at difficulty 1. -/
theorem carriesWork_two_blocks :
    let run : List (Step ChainTip Arrival) :=
      [⟨ChainTip.genesis, emptyArrival 0 0, emptyTip 0 0 1⟩,
        ⟨emptyTip 0 0 1, emptyArrival 1 1000, emptyTip 1 1000 2⟩]
    ∀ t ∈ run, CarriesWork t := by
  intro run
  have accepted : IsRun (Extends Sha3.zero) ChainTip.genesis run :=
    ⟨rfl, extends_of_outcome (by decide +kernel) (by decide), rfl,
      extends_of_outcome (by decide +kernel) (by decide), trivial⟩
  exact (forall_carriesWork_iff accepted).2 (by decide)

/-- The arrival of an empty block that claims difficulty 0. -/
def freeArrival : Arrival :=
  let block := emptyBlock 1 1000
  { emptyArrival 1 1000 with
    block := { block with header := { block.header with difficulty := 0 } } }

/-- A block that claims difficulty 0 is accepted, and adds no work. -/
theorem not_carriesWork_free :
    let run : List (Step ChainTip Arrival) :=
      [⟨emptyTip 0 500 1, freeArrival, { emptyTip 1 1000 1 with difficulty := 0 }⟩]
    IsRun (Extends Sha3.zero) (emptyTip 0 500 1) run ∧ ¬ ∀ t ∈ run, CarriesWork t := by
  intro run
  have accepted : IsRun (Extends Sha3.zero) (emptyTip 0 500 1) run :=
    ⟨rfl, extends_of_outcome (by decide +kernel) (by decide), trivial⟩
  refine ⟨accepted, fun hcarries => ?_⟩
  exact absurd (hcarries _ List.mem_cons_self).work (by decide)

end Kyvera
