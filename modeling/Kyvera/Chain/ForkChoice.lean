import Kyvera.Chain.BlockProducer

/-!
# Work and fork selection

The work of a chain is the sum of the difficulties of its blocks, and forks are compared by it.
The number of hashes that a block takes is exponential in its difficulty, so the two orders agree
between chains of one difficulty, but not in general.
-/

namespace Kyvera

/-- The tip after all blocks of a list are accepted; `none` is an overflow of `totalWork`. -/
def ChainTip.advanceAll (tip : ChainTip) (blocks : List Block) : Option ChainTip :=
  blocks.foldlM ChainTip.advance tip

/-- The sum of the difficulties of a list of blocks. -/
def difficultySum (blocks : List Block) : ℕ :=
  (blocks.map fun b => b.header.difficulty.toNat).sum

/-- The number of hashes expected for a difficulty: 16 times as many for every leading zero. -/
def expectedHashes (difficulty : UInt32) : ℕ := 16 ^ difficulty.toNat

/-- The number of hashes expected for a list of blocks. -/
def expectedWork (blocks : List Block) : ℕ :=
  (blocks.map fun b => expectedHashes b.header.difficulty).sum

section

variable {tip tip' tip₁ tip₂ : ChainTip} {block : Block} {blocks blocks₁ blocks₂ : List Block}

theorem toNat_totalWork_of_advance (h : tip.advance block = some tip') :
    tip'.totalWork.toNat = tip.totalWork.toNat + block.header.difficulty.toNat := by
  unfold ChainTip.advance at h
  rw [Option.map_eq_some_iff] at h
  obtain ⟨totalWork, hwork, rfl⟩ := h
  have hsum := U64.checkedAdd_eq_some_iff.1 hwork
  rwa [UInt32.toNat_toUInt64] at hsum

/-- A list of blocks adds its difficulties to the work. -/
theorem toNat_totalWork_of_advanceAll (h : tip.advanceAll blocks = some tip') :
    tip'.totalWork.toNat = tip.totalWork.toNat + difficultySum blocks := by
  induction blocks generalizing tip with
  | nil =>
      cases h
      rfl
  | cons b rest ih =>
      unfold ChainTip.advanceAll at h
      rw [List.foldlM_cons, Option.bind_eq_bind, Option.bind_eq_some_iff] at h
      obtain ⟨mid, hmid, hrest⟩ := h
      rw [ih hrest, toNat_totalWork_of_advance hmid, Nat.add_assoc]
      rfl

theorem sums_of_one_difficulty {d : UInt32} (h : ∀ b ∈ blocks, b.header.difficulty = d) :
    difficultySum blocks = blocks.length * d.toNat ∧
      expectedWork blocks = blocks.length * expectedHashes d := by
  constructor
  · unfold difficultySum
    rw [List.map_congr_left fun b hb => congrArg UInt32.toNat (h b hb), List.map_const',
      List.sum_replicate, smul_eq_mul]
  · unfold expectedWork
    rw [List.map_congr_left fun b hb => congrArg expectedHashes (h b hb), List.map_const',
      List.sum_replicate, smul_eq_mul]

/-- The list with the larger sum of difficulties ends with the larger work; and so does the one with
the larger number of expected hashes, if all blocks of both lists have one difficulty. -/
theorem totalWork_lt_iff (h₁ : tip.advanceAll blocks₁ = some tip₁)
    (h₂ : tip.advanceAll blocks₂ = some tip₂) :
    (tip₁.totalWork < tip₂.totalWork ↔ difficultySum blocks₁ < difficultySum blocks₂) ∧
      ∀ d : UInt32, d ≠ 0 → (∀ b ∈ blocks₁ ++ blocks₂, b.header.difficulty = d) →
        (tip₁.totalWork < tip₂.totalWork ↔ expectedWork blocks₁ < expectedWork blocks₂) := by
  have hwork : tip₁.totalWork < tip₂.totalWork ↔ difficultySum blocks₁ < difficultySum blocks₂ := by
    rw [UInt64.lt_iff_toNat_lt, toNat_totalWork_of_advanceAll h₁, toNat_totalWork_of_advanceAll h₂,
      Nat.add_lt_add_iff_left]
  refine ⟨hwork, fun d hd hall => hwork.trans ?_⟩
  obtain ⟨hd₁, he₁⟩ := sums_of_one_difficulty fun b hb => hall b (List.mem_append_left _ hb)
  obtain ⟨hd₂, he₂⟩ := sums_of_one_difficulty fun b hb => hall b (List.mem_append_right _ hb)
  have hpos : 0 < d.toNat := UInt32.lt_iff_toNat_lt.1 (UInt32.pos_iff_ne_zero.2 hd)
  have hhashes : 0 < expectedHashes d := Nat.pow_pos (by decide)
  rw [hd₁, hd₂, he₁, he₂, Nat.mul_lt_mul_right hpos, Nat.mul_lt_mul_right hhashes]

end

/-- A block that claims a difficulty. -/
def claimingBlock (difficulty : UInt32) : Block :=
  Block.new (BlockHeader.new 0 1 zeroHash "" difficulty false 0) [] "" 0

/-- One block of difficulty 2 against two of difficulty 2. -/
theorem totalWork_lt_two_blocks :
    ∃ tip₁ tip₂, ChainTip.genesis.advanceAll [claimingBlock 2] = some tip₁ ∧
      ChainTip.genesis.advanceAll [claimingBlock 2, claimingBlock 2] = some tip₂ ∧
      tip₁.totalWork < tip₂.totalWork := by
  have h₁ : ChainTip.genesis.advanceAll [claimingBlock 2] = some
      { ChainTip.genesis with hash := "", height := 1, difficulty := 2, totalWork := 2 } := by decide
  have h₂ : ChainTip.genesis.advanceAll [claimingBlock 2, claimingBlock 2] = some
      { ChainTip.genesis with hash := "", height := 1, difficulty := 2, totalWork := 4 } := by decide
  exact ⟨_, _, h₁, h₂, (totalWork_lt_iff h₁ h₂).1.2 (by decide)⟩

/-- One block of difficulty 2 takes 256 hashes, and three of difficulty 1 take 48, but have the
larger work. -/
theorem totalWork_reversed :
    expectedWork [claimingBlock 1, claimingBlock 1, claimingBlock 1] = 48 ∧
      expectedWork [claimingBlock 2] = 256 ∧
      ∃ tip₁ tip₂, ChainTip.genesis.advanceAll
          [claimingBlock 1, claimingBlock 1, claimingBlock 1] = some tip₁ ∧
        ChainTip.genesis.advanceAll [claimingBlock 2] = some tip₂ ∧
        tip₁.totalWork = 3 ∧ tip₂.totalWork = 2 := by
  refine ⟨by decide, by decide, _, _, rfl, rfl, by decide, by decide⟩

end Kyvera
