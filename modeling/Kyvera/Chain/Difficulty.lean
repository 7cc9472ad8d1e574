import Kyvera.Chain.Mining

/-!
# The difficulty follows the block times

The average time between blocks is rounded down before it is compared with the target.  So blocks
that are too fast by any amount raise the difficulty, but blocks that are too slow lower it only
once they are late by a whole second on average.
-/

namespace Kyvera

/-! ## Adjustments -/

section Adjust

variable {current next : UInt32} {average target : ℤ}

/-- The two degrees of too fast, and of too slow, are treated alike. -/
theorem adjustDifficulty_eq (h : 0 ≤ target) :
    adjustDifficulty current average target =
      if average < target then raiseDifficulty current
      else if target < average then some (lowerDifficulty current)
      else some current := by
  have hhalf : target.tdiv 2 ≤ target := Int.tdiv_le_self 2 h
  unfold adjustDifficulty
  split_ifs <;> first | rfl | omega

/-- Between the bounds, an adjustment by one is neither cut off nor clamped. -/
theorem adjustDifficulty_bind_clamp (hlow : 2 ≤ current) (hhigh : current ≤ 63) (h : 0 ≤ target) :
    (do return clampDifficulty (← adjustDifficulty current average target)) =
      some (if average < target then current + 1
        else if target < average then current - 1 else current) := by
  rw [UInt32.le_iff_toNat_le] at hlow hhigh
  have htwo : (2 : UInt32).toNat = 2 := rfl
  have hmax : (63 : UInt32).toNat = 63 := rfl
  rw [htwo] at hlow
  rw [hmax] at hhigh
  have hraise : (current + 1).toNat = current.toNat + 1 := by
    rw [UInt32.toNat_add]
    exact Nat.mod_eq_of_lt (show current.toNat + 1 < 2 ^ 32 by omega)
  have hlower : (current - 1).toNat = current.toNat - 1 := by
    apply UInt32.toNat_sub_of_le
    rw [UInt32.le_iff_toNat_le]
    exact show 1 ≤ current.toNat by omega
  have hne : current ≠ 0 := by
    rintro rfl
    exact absurd hlow (by decide)
  have hclamp : ∀ d : UInt32, 1 ≤ d.toNat → d.toNat ≤ 64 → clampDifficulty d = d := by
    intro d h1 h64
    unfold clampDifficulty
    rw [if_neg, if_neg]
    · rw [gt_iff_lt, UInt32.lt_iff_toNat_lt]
      exact Nat.not_lt.2 h64
    · rw [UInt32.lt_iff_toNat_lt]
      exact Nat.not_lt.2 h1
  rw [adjustDifficulty_eq h]
  split_ifs
  · rw [raiseDifficulty, if_pos (by omega)]
    exact congrArg some (hclamp _ (by omega) (by omega))
  · rw [lowerDifficulty, if_neg hne]
    exact congrArg some (hclamp _ (by omega) (by omega))
  · exact congrArg some (hclamp _ (by omega) (by omega))

end Adjust

/-! ## Block times -/

/-- The timestamps of recent blocks: at least two, none negative, in chronological order. -/
structure BlockTimes where
  timestamps : List ℤ
  two_le : 2 ≤ timestamps.length
  bounds : ∀ t ∈ timestamps, 0 ≤ t ∧ t < 2 ^ 63
  chronological : timestamps.Pairwise (· ≤ ·)

namespace BlockTimes

variable (times : BlockTimes)

/-- The number of blocks in the window after its first one. -/
def count : ℕ := min times.timestamps.length DIFFICULTY_WINDOW - 1

/-- The last timestamps, up to a window of them. -/
def recent : List ℤ := recentTimestamps times.timestamps

theorem length_recent : times.recent.length = times.count + 1 := by
  have htwo := times.two_le
  unfold recent recentTimestamps count DIFFICULTY_WINDOW
  rw [List.length_drop]
  omega

theorem count_pos : 0 < times.count := by
  have htwo := times.two_le
  unfold count DIFFICULTY_WINDOW
  omega

theorem recent_ne_nil : times.recent ≠ [] := by
  apply List.ne_nil_of_length_pos
  rw [length_recent]
  exact Nat.succ_pos _

/-- The span of the timestamps in the window. -/
def elapsed : ℤ :=
  times.recent.getLast times.recent_ne_nil - times.recent.head times.recent_ne_nil

theorem elapsed_bounds : 0 ≤ times.elapsed ∧ times.elapsed < 2 ^ 63 := by
  have hsub : times.recent.Sublist times.timestamps := List.drop_sublist _ _
  have hfirst := List.head_mem times.recent_ne_nil
  have hlast := List.getLast_mem times.recent_ne_nil
  have hle := (times.chronological.sublist hsub).rel_getLast hfirst
  have hfirst' := times.bounds _ (hsub.subset hfirst)
  have hlast' := times.bounds _ (hsub.subset hlast)
  unfold elapsed
  omega

/-- The next difficulty is that of the average time between blocks, rounded down. -/
theorem calculateNextDifficulty_eq {current : UInt32} (isEpochBlock : Bool) (hlow : 2 ≤ current)
    (hhigh : current ≤ 63) :
    calculateNextDifficulty current times.timestamps isEpochBlock =
      some (if times.elapsed / times.count < targetSeconds isEpochBlock then current + 1
        else if targetSeconds isEpochBlock < times.elapsed / times.count then current - 1
        else current) := by
  obtain ⟨hnonneg, hfit⟩ := times.elapsed_bounds
  have hspan : timeBetween (times.recent.head times.recent_ne_nil)
      (times.recent.getLast times.recent_ne_nil) = some times.elapsed :=
    if_pos ⟨by unfold elapsed at hnonneg; omega, hfit⟩
  have hcount : ((recentTimestamps times.timestamps).length : ℤ) - 1 = times.count := by
    have hlength : (recentTimestamps times.timestamps).length = times.count + 1 :=
      times.length_recent
    omega
  have hpos := times.count_pos
  have htarget : 0 ≤ targetSeconds isEpochBlock := by
    cases isEpochBlock <;> decide
  unfold calculateNextDifficulty
  rw [if_neg (Nat.not_lt.2 times.two_le)]
  show (times.recent.getLast?.bind fun last => times.recent.head?.bind fun first =>
    (timeBetween first last).bind fun elapsed => _) = _
  rw [List.getLast?_eq_some_getLast times.recent_ne_nil,
    List.head?_eq_some_head times.recent_ne_nil, Option.bind_some, Option.bind_some, hspan,
    Option.bind_some]
  dsimp only
  rw [hcount, if_neg (by omega), Int.tdiv_eq_ediv_of_nonneg hnonneg]
  exact adjustDifficulty_bind_clamp hlow hhigh htarget

/-- The difficulty goes up when the blocks took less time than the target, down when they took
more, and stays when they took exactly as long. -/
def Followed (current : UInt32) (isEpochBlock : Bool) : Prop :=
  ∃ next, calculateNextDifficulty current times.timestamps isEpochBlock = some next ∧
    (times.elapsed < targetSeconds isEpochBlock * times.count → next = current + 1) ∧
    (targetSeconds isEpochBlock * times.count < times.elapsed → next = current - 1) ∧
    (times.elapsed = targetSeconds isEpochBlock * times.count → next = current)

/-- The difficulty follows the block times exactly when they are not too long by less than a second
a block. -/
theorem followed_iff {current : UInt32} (isEpochBlock : Bool) (hlow : 2 ≤ current)
    (hhigh : current ≤ 63) :
    times.Followed current isEpochBlock ↔
      ¬ (targetSeconds isEpochBlock * times.count < times.elapsed ∧
        times.elapsed < (targetSeconds isEpochBlock + 1) * times.count) := by
  have hpos : (0 : ℤ) < times.count := Int.natCast_pos.2 times.count_pos
  have hfast : times.elapsed / times.count < targetSeconds isEpochBlock ↔
      times.elapsed < targetSeconds isEpochBlock * times.count := Int.ediv_lt_iff_lt_mul hpos
  have hslow : targetSeconds isEpochBlock < times.elapsed / times.count ↔
      (targetSeconds isEpochBlock + 1) * times.count ≤ times.elapsed := by
    rw [← Int.add_one_le_iff]
    exact Int.le_ediv_iff_mul_le hpos
  have hsame : current ≠ current - 1 := by
    intro h
    have := congrArg (fun d => d + 1) h
    simp at this
  have hnext := times.calculateNextDifficulty_eq isEpochBlock hlow hhigh
  rw [add_mul, one_mul] at hslow ⊢
  constructor
  · rintro ⟨next, hrun, -, hdown, -⟩ ⟨hlate, hless⟩
    rw [hnext, if_neg (by omega), if_neg (by omega), Option.some_inj] at hrun
    exact hsame (hrun.trans (hdown hlate))
  · intro hcond
    refine ⟨_, hnext, fun h => ?_, fun h => ?_, fun h => ?_⟩
    · rw [if_pos (by omega)]
    · rw [if_neg (by omega), if_pos (by omega)]
    · rw [if_neg (by omega), if_neg (by omega)]

end BlockTimes

/-- Three micro blocks within seven seconds. -/
def lateBlocks : BlockTimes where
  timestamps := [0, 3, 7]
  two_le := by decide
  bounds := by decide
  chronological := by decide

/-- Three micro blocks within eight seconds. -/
def laterBlocks : BlockTimes where
  timestamps := [0, 3, 8]
  two_le := by decide
  bounds := by decide
  chronological := by decide

/-- Two blocks that took eight seconds instead of six lower the difficulty. -/
theorem followed_laterBlocks : laterBlocks.Followed 4 false :=
  (laterBlocks.followed_iff false (by decide) (by decide)).2 (by decide)

/-- Two blocks that took seven seconds instead of six leave the difficulty as it is. -/
theorem not_followed_lateBlocks :
    lateBlocks.elapsed = 7 ∧ targetSeconds false * lateBlocks.count = 6 ∧
      calculateNextDifficulty 4 lateBlocks.timestamps false = some 4 ∧
      ¬ lateBlocks.Followed 4 false := by
  refine ⟨by decide, by decide, by decide, ?_⟩
  rintro ⟨next, hrun, -, hdown, -⟩
  rw [show calculateNextDifficulty 4 lateBlocks.timestamps false = some 4 by decide,
    Option.some_inj] at hrun
  have hlower := hdown (by decide)
  rw [← hrun] at hlower
  exact absurd hlower (by decide)

end Kyvera
