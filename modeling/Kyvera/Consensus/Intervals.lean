import Kyvera.Consensus.Linked

/-!
# Intervals between blocks

Micro blocks and epoch blocks have their own minimum intervals.  The tip keeps a single timestamp,
which every accepted block overwrites, so a block that is due by the last block of its own kind is
accepted exactly when it also keeps its interval from a last block of the other kind.
-/

namespace Kyvera

open Effect Effect.Prog Trace

/-- The minimum interval of a kind of block. -/
def minInterval (isEpochBlock : Bool) : ℤ :=
  if isEpochBlock then MIN_EPOCH_BLOCK_INTERVAL_MS else MIN_MICRO_BLOCK_INTERVAL_MS

/-- The blocks that were accepted in a run, the last one first. -/
def history (run : List (Step ChainTip Arrival)) : List Block :=
  (run.map fun t => t.call.block).reverse

/-- The last block of a kind. -/
def lastOfKind (isEpochBlock : Bool) (blocks : List Block) : Option Block :=
  blocks.find? fun block => block.header.isEpochBlock == isEpochBlock

/-- The block is not ahead of the clock, it is after the last block, and it keeps the minimum
interval of its kind from the last block of its kind. -/
structure Due (nowMs : ℤ) (blocks : List Block) (block : Block) : Prop where
  skew : block.header.timestamp ≤ nowMs + MAX_CLOCK_SKEW_MS
  later : ∀ last ∈ blocks.head?, last.header.timestamp < block.header.timestamp
  spaced : ∀ last ∈ lastOfKind block.header.isEpochBlock blocks,
    last.header.timestamp + minInterval block.header.isEpochBlock ≤ block.header.timestamp

/-- The block keeps its interval from a last block of the other kind too. -/
def Undisturbed (blocks : List Block) (block : Block) : Prop :=
  ∀ last ∈ blocks.head?, last.header.isEpochBlock ≠ block.header.isEpochBlock →
    last.header.timestamp + minInterval block.header.isEpochBlock ≤ block.header.timestamp

section Tip

variable {H : Sha3} {tip : ChainTip} {run : List (Step ChainTip Arrival)} {nowMs : ℤ}
  {block : Block} {db : KyveraDb}

theorem history_concat (run : List (Step ChainTip Arrival)) (t : Step ChainTip Arrival) :
    history (run ++ [t]) = t.call.block :: history run := by
  rw [history, List.map_append, List.reverse_append]
  rfl

theorem timestamp_final (h : IsRun (Extends H) tip run) :
    (final tip run).timestamp =
      ((history run).head?.map fun last => last.header.timestamp).getD tip.timestamp := by
  rcases List.eq_nil_or_concat run with rfl | ⟨rest, t, rfl⟩
  · rfl
  · rw [List.concat_eq_append] at h ⊢
    obtain ⟨-, hlast, hextends, -⟩ := isRun_append.1 h
    obtain ⟨_, _, hpost⟩ := advance_eq_some_iff.1 hextends.2
    rw [final_append, history_concat]
    show t.post.timestamp = t.call.block.header.timestamp
    rw [hpost]

/-- The timestamp rule, in terms of the history of the tip. -/
theorem timestampOk_final_iff (h : IsRun (Extends H) ChainTip.genesis run)
    (hpos : ∀ last ∈ history run, 0 < last.header.timestamp) :
    TimestampOk nowMs block (final ChainTip.genesis run) ↔
      block.header.timestamp ≤ nowMs + MAX_CLOCK_SKEW_MS ∧
        ∀ last ∈ (history run).head?,
          last.header.timestamp + minInterval block.header.isEpochBlock ≤
            block.header.timestamp := by
  apply and_congr_right
  intro _
  rw [timestamp_final h]
  show (_ → _ + minInterval block.header.isEpochBlock ≤ _) ↔ _
  cases hhistory : history run with
  | nil => simp [ChainTip.genesis]
  | cons last rest =>
      have hlast : 0 < last.header.timestamp := hpos last (hhistory ▸ List.mem_cons_self)
      simp [hlast]

/-- In every history of accepted blocks with positive timestamps, a block that is due is accepted by
the timestamp rule exactly if it keeps its interval from a last block of the other kind too. -/
theorem checkTimestamp_due_iff (h : IsRun (Extends H) ChainTip.genesis run)
    (hpos : ∀ last ∈ history run, 0 < last.header.timestamp)
    (hdue : Due nowMs (history run) block) :
    ((checkTimestamp nowMs block (final ChainTip.genesis run)).run db).1 = .ok () ↔
      Undisturbed (history run) block := by
  rw [guards_checkTimestamp.outcome_eq_ok_iff, timestampOk_final_iff h hpos]
  constructor
  · rintro ⟨-, hkeeps⟩ last hlast _
    exact hkeeps last hlast
  · intro hundisturbed
    refine ⟨hdue.skew, fun last hlast => ?_⟩
    by_cases hkind : last.header.isEpochBlock = block.header.isEpochBlock
    · -- The last block is the last one of its kind.
      refine hdue.spaced last ?_
      obtain ⟨rest, hrest⟩ := List.head?_eq_some_iff.1 hlast
      rw [hrest, lastOfKind, List.find?_cons_of_pos (by simpa using hkind)]
      rfl
    · exact hundisturbed last hlast hkind

end Tip

/-- A sealed epoch block for the constant hash function. -/
def emptyEpochBlock (index : UInt64) (timestamp : ℤ) : Block :=
  { emptyBlock index timestamp with
    header := { (emptyBlock index timestamp).header with isEpochBlock := true } }

/-- The first block of a chain, an epoch block, and a micro block 59 seconds later. -/
def epochThenMicro : List (Step ChainTip Arrival) :=
  [⟨ChainTip.genesis, ⟨emptyEpochBlock 0 1000, [], KyveraDb.empty, 1000⟩, emptyTip 0 1000 1⟩,
    ⟨emptyTip 0 1000 1, emptyArrival 1 60000, emptyTip 1 60000 2⟩]

theorem isRun_epochThenMicro : IsRun (Extends Sha3.zero) ChainTip.genesis epochThenMicro :=
  ⟨rfl, extends_of_outcome (by decide +kernel) (by decide), rfl,
    extends_of_outcome (by decide +kernel) (by decide), trivial⟩

theorem due_epochThenMicro : Due 62500 (history epochThenMicro) (emptyEpochBlock 2 62500) where
  skew := by decide
  later := by decide
  spaced := by decide

/-- An epoch block 61.5 seconds after the last one is rejected for a micro block in between. -/
theorem checkTimestamp_micro_before_epoch :
    IsRun (Extends Sha3.zero) ChainTip.genesis epochThenMicro ∧
      (∀ last ∈ history epochThenMicro, 0 < last.header.timestamp) ∧
      Due 62500 (history epochThenMicro) (emptyEpochBlock 2 62500) ∧
      ((checkTimestamp 62500 (emptyEpochBlock 2 62500)
        (final ChainTip.genesis epochThenMicro)).run KyveraDb.empty).1 =
          .err (.invalidTimestamp "Only 2500ms since last block, minimum is 60000ms") :=
  ⟨isRun_epochThenMicro, by decide, due_epochThenMicro, by decide +kernel⟩

theorem checkTimestamp_due_iff_micro_before_epoch :
    ((checkTimestamp 62500 (emptyEpochBlock 2 62500)
      (final ChainTip.genesis epochThenMicro)).run KyveraDb.empty).1 = .ok () ↔
        Undisturbed (history epochThenMicro) (emptyEpochBlock 2 62500) :=
  checkTimestamp_due_iff isRun_epochThenMicro (by decide) due_epochThenMicro

end Kyvera
