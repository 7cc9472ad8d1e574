import Kyvera.Consensus.Accepted
import Kyvera.Consensus.Linked
import Kyvera.Consensus.Schedule

/-!
# Emission follows the schedule

Every accepted epoch block moves the epoch by one, and pays and announces the reward of its epoch.
So along any run the rewards add up to a stretch of the schedule, which is what the supply
calculation sums up again, height by height.
-/

namespace Kyvera

open Effect Effect.Prog Trace

/-! ## Runs -/

/-- The amount of the head transaction of an arriving epoch block. -/
def Arrival.headAmount (a : Arrival) : ℕ :=
  if a.block.header.isEpochBlock then
    (a.transactions.head?.map fun tx => tx.amount.toNat).getD 0
  else 0

/-- The reward that an arriving epoch block announces. -/
def Arrival.announcedReward (a : Arrival) : ℕ :=
  if a.block.header.isEpochBlock then a.block.blockReward.toNat else 0

section Runs

variable {H : Sha3} {tip tip' : ChainTip} {run : List (Step ChainTip Arrival)}

/-- The amounts of the head transactions of the epoch blocks of a run. -/
def headAmounts (run : List (Step ChainTip Arrival)) : ℕ :=
  (run.map fun t => t.call.headAmount).sum

/-- The rewards announced by the epoch blocks of a run. -/
def announcedRewards (run : List (Step ChainTip Arrival)) : ℕ :=
  (run.map fun t => t.call.announcedReward).sum

/-- An accepted block with a predecessor pays and announces what is scheduled from the epoch of the
tip before it to the epoch of the tip after it. -/
theorem Extends.scheduled {a : Arrival} (h : Extends H tip a tip')
    (h0 : a.block.header.index ≠ 0) :
    scheduled (tip.epochIndex.toNat + 1) + a.headAmount = scheduled (tip'.epochIndex.toNat + 1) ∧
      a.announcedReward = a.headAmount := by
  have hmove := h.epochIndex h0
  unfold Arrival.headAmount Arrival.announcedReward
  by_cases hepoch : a.block.header.isEpochBlock = true
  · obtain ⟨hindex, hreward, coinbase, rest, htxs, hcoinbase⟩ := (h.follows h0).epoch hepoch
    obtain ⟨-, hamount, -, -⟩ := (verifyCoinbase_eq_true_iff ..).1 hcoinbase
    rw [if_pos hepoch] at hmove
    rw [if_pos hepoch, if_pos hepoch, htxs, hreward, hmove, scheduled_succ (_ + 1), ← hindex,
      rewardAt_toNat, ← hamount]
    exact ⟨rfl, rfl⟩
  · rw [if_neg hepoch] at hmove
    rw [if_neg hepoch, if_neg hepoch, hmove]
    exact ⟨rfl, rfl⟩

theorem headAmounts_of_isRun (h : IsRun (Extends H) tip run)
    (hindex : ∀ t ∈ run, t.call.block.header.index ≠ 0) :
    scheduled (tip.epochIndex.toNat + 1) + headAmounts run =
        scheduled ((final tip run).epochIndex.toNat + 1) ∧
      announcedRewards run = headAmounts run := by
  induction run generalizing tip with
  | nil => exact ⟨rfl, rfl⟩
  | cons t rest ih =>
      obtain ⟨rfl, ht, hrest⟩ := h
      obtain ⟨h0, hindex⟩ := List.forall_mem_cons.1 hindex
      obtain ⟨hpaid, hannounced⟩ := ht.scheduled h0
      obtain ⟨hpaid', hannounced'⟩ := ih hrest hindex
      refine ⟨?_, congrArg₂ (· + ·) hannounced hannounced'⟩
      show _ + (t.call.headAmount + headAmounts rest) = _
      rw [← Nat.add_assoc, hpaid, hpaid']
      rfl

/-- Emission follows the schedule: over any run of blocks with predecessors, from a tip in epoch 0,
the genesis reward and the head amounts of the accepted epoch blocks add up to the mined supply of
the last epoch, and so do the genesis reward and the rewards these blocks announce. -/
theorem headAmounts_eq_minedSupply (h : IsRun (Extends H) tip run) (hepoch : tip.epochIndex = 0)
    (hindex : ∀ t ∈ run, t.call.block.header.index ≠ 0)
    (hbound : GENESIS_BLOCK_REWARD.toNat + headAmounts run < U64.max.toNat) :
    ∃ supply, calculateMinedSupply (final tip run).epochIndex = some supply ∧
      GENESIS_BLOCK_REWARD.toNat + headAmounts run = supply.toNat ∧
      GENESIS_BLOCK_REWARD.toNat + announcedRewards run = supply.toNat := by
  obtain ⟨hpaid, hannounced⟩ := headAmounts_of_isRun h hindex
  have hgenesis : scheduled (tip.epochIndex.toNat + 1) = GENESIS_BLOCK_REWARD.toNat := by
    rw [hepoch]
    rfl
  have hmax : U64.max.toNat = U64.size - 1 := rfl
  rw [hgenesis] at hpaid
  rw [hpaid, hmax] at hbound
  -- In the last epoch of all, the sum would have left the range.
  have hlast : (final tip run).epochIndex.toNat + 1 < U64.size := by
    have hle := U64.toNat_lt_size (final tip run).epochIndex
    by_contra hlast
    have heq : (final tip run).epochIndex.toNat + 1 = U64.size := by omega
    have hfull := size_le_scheduled
    rw [heq] at hbound
    omega
  obtain ⟨supply, hsupply, hvalue⟩ := calculateMinedSupply_eq_some hlast
  refine ⟨supply, hsupply, ?_, ?_⟩
  · rw [hpaid, hvalue]
    omega
  · rw [hannounced, hpaid, hvalue]
    omega

end Runs

/-- The arrival of the first epoch block, with its coinbase. -/
def epochArrival : Arrival :=
  ⟨sealedBlock true zeroHash, [buildCoinbase Sha3.zero 1000 "kyv1miner" 1 zeroHash],
    KyveraDb.empty, 1000⟩

/-- An epoch block and a micro block: two rewards of 50 KYV, with the one of the genesis block. -/
theorem headAmounts_eq_minedSupply_two_blocks :
    let run : List (Step ChainTip Arrival) :=
      [⟨ChainTip.genesis, epochArrival, ⟨zeroHash, 1, 1000, 1, 1, 1⟩⟩,
        ⟨⟨zeroHash, 1, 1000, 1, 1, 1⟩, emptyArrival 2 2000, ⟨zeroHash, 2, 2000, 1, 1, 2⟩⟩]
    headAmounts run = 50000000000 ∧ ∃ supply, calculateMinedSupply 1 = some supply ∧
      GENESIS_BLOCK_REWARD.toNat + headAmounts run = supply.toNat := by
  intro run
  have accepted : IsRun (Extends Sha3.zero) ChainTip.genesis run :=
    ⟨rfl, extends_of_outcome (by decide +kernel) (by decide), rfl,
      extends_of_outcome (by decide +kernel) (by decide), trivial⟩
  obtain ⟨supply, hsupply, hamounts, -⟩ := headAmounts_eq_minedSupply accepted rfl (by decide)
    (by decide +kernel)
  exact ⟨by decide +kernel, supply, hsupply, hamounts⟩

end Kyvera
