import Kyvera.Types.Transaction
import Kyvera.Chain.Merkle
import Kyvera.Chain.Mining
import Kyvera.Library.Checked
import Kyvera.Library.Prog

/-!
# The block producer

The tip is what a node knows of the chain it has accepted: the last block's hash, height and
timestamp, the difficulty, the last epoch index and the work summed up so far.  Blocks are produced
and validated against it, by programs that look at no other state.
-/

namespace Kyvera

open Effect

/-- The current tip of the chain. -/
structure ChainTip where
  hash : String
  height : UInt64
  timestamp : ℤ
  difficulty : UInt32
  epochIndex : UInt64
  totalWork : UInt64
  deriving DecidableEq, Repr

/-- The hash of the block before the first one: 64 zeros. -/
def zeroHash : String := String.ofList (List.replicate 64 '0')

namespace ChainTip

/-- What every node starts with before the first block arrives. -/
def genesis : ChainTip where
  hash := zeroHash
  height := 0
  timestamp := 0
  difficulty := 1
  epochIndex := 0
  totalWork := 0

/-- The tip after a block is accepted; `none` is the overflow of `totalWork`, a panic. -/
def advance (tip : ChainTip) (block : Block) : Option ChainTip :=
  (U64.checkedAdd tip.totalWork block.header.difficulty.toUInt64).map fun totalWork =>
    { hash := block.hash
      height := block.header.index
      timestamp := block.header.timestamp
      difficulty := block.header.difficulty
      epochIndex := if block.header.isEpochBlock then block.header.epochIndex else tip.epochIndex
      totalWork := totalWork }

end ChainTip

/-! ## Producing blocks -/

/-- The errors of the block producer. -/
inductive BlockError where
  | invalidPreviousHash (expected got : String)
  | insufficientProofOfWork
  | invalidTimestamp
  | invalidMerkleRoot
  | invalidHeight
  | miningFailed
  deriving DecidableEq, Repr

/-- The text of an error; `none` is a hash that cannot be cut to eight bytes, a panic. -/
def BlockError.display : BlockError → Option String
  | .invalidPreviousHash expected got => do
      let expected ← Text.takeBytes 8 expected.toList
      let got ← Text.takeBytes 8 got.toList
      return s!"Previous hash mismatch: expected {String.ofList expected}, got {String.ofList got}"
  | .insufficientProofOfWork => some "Block hash does not meet difficulty target"
  | .invalidTimestamp => some "Block timestamp is outside acceptable range"
  | .invalidMerkleRoot => some "Merkle root does not match transaction list"
  | .invalidHeight => some "Block height is not sequential"
  | .miningFailed => some "Mining did not find a solution within the attempt limit"

section

variable (H : Sha3) {σ : Type}

/-- Mine a header and put the block together: the common end of the producers. -/
def produceBlock (header : BlockHeader) (transactionHashes : List String) (minerAddress : String)
    (blockReward maxAttempts : UInt64) : Prog σ BlockError Block := do
  let mined ← Prog.okOr .miningFailed (mineBlock H header maxAttempts)
  let block :=
    Block.new { header with nonce := mined.nonce } transactionHashes minerAddress blockReward
  return { block with hash := mined.hash }

/-- Produce and mine the genesis block; `now` is the reading of the clock. -/
def produceGenesisBlock (now : ℤ) (minerAddress : String) : Prog σ BlockError Block :=
  let header := BlockHeader.new now 0 zeroHash (computeMerkleRoot H []) 1 true 0
  produceBlock H header [] minerAddress GENESIS_BLOCK_REWARD U64.max

/-- Produce and mine a micro block from a list of pending transactions. -/
def produceMicroBlock (now : ℤ) (transactions : List Transaction) (tip : ChainTip)
    (minerAddress : String) (maxAttempts : UInt64) : Prog σ BlockError Block := do
  let txHashes := transactions.map Transaction.hash
  let merkleRoot := computeMerkleRoot H txHashes
  let index ← Prog.orPanic (U64.checkedAdd tip.height 1)
  let header := BlockHeader.new now index tip.hash merkleRoot tip.difficulty false tip.epochIndex
  produceBlock H header txHashes minerAddress 0 maxAttempts

/-- Produce and mine an epoch block.  Its Merkle root commits to the hashes of the micro blocks. -/
def produceEpochBlock (now : ℤ) (microBlockHashes : List String) (tip : ChainTip)
    (minerAddress stateRoot : String) (maxAttempts : UInt64) : Prog σ BlockError Block := do
  let nextEpochIndex ← Prog.orPanic (U64.checkedAdd tip.epochIndex 1)
  let reward := calculateBlockReward nextEpochIndex
  let merkleRoot := computeMerkleRoot H microBlockHashes
  let index ← Prog.orPanic (U64.checkedAdd tip.height 1)
  let header :=
    { BlockHeader.new now index tip.hash merkleRoot tip.difficulty true nextEpochIndex with
      stateRoot := stateRoot }
  produceBlock H header microBlockHashes minerAddress reward maxAttempts

/-! ## Validating blocks -/

/-- Validate an incoming block at the reading `nowMs` of the clock. -/
def validateBlock (nowMs : ℤ) (block : Block) (tip : ChainTip) (transactions : List Transaction) :
    Prog σ BlockError Unit := do
  let expected ← Prog.orPanic (U64.checkedAdd tip.height 1)
  if block.header.index ≠ expected then .err .invalidHeight
  else if block.header.previousHash ≠ tip.hash then
    .err (.invalidPreviousHash tip.hash block.header.previousHash)
  else if !verifyProofOfWork block.hash block.header.difficulty then
    .err .insufficientProofOfWork
  else if block.header.timestamp < tip.timestamp then .err .invalidTimestamp
  else if block.header.timestamp > nowMs + 120000 then .err .invalidTimestamp
  else
    let expectedMerkle := computeMerkleRoot H (transactions.map Transaction.hash)
    if block.header.merkleRoot ≠ expectedMerkle then .err .invalidMerkleRoot
    else
      let recomputedHash := hashBlockHeader H block.header.index block.header.timestamp
        block.header.previousHash block.header.merkleRoot block.header.nonce
        block.header.difficulty block.header.isEpochBlock block.header.epochIndex
        block.header.stateRoot
      if recomputedHash ≠ block.hash then .err .insufficientProofOfWork else pure ()

end

/-- A produced block carries the header it was mined from, with the nonce and the hash that were
found for it. -/
theorem run_produceBlock_eq_ok {H : Sha3} {σ : Type} {s s' : σ} {header : BlockHeader}
    {transactionHashes : List String} {minerAddress : String} {blockReward maxAttempts : UInt64}
    {block : Block}
    (h : (produceBlock H header transactionHashes minerAddress blockReward maxAttempts).run s =
      (.ok block, s')) :
    block.header = { header with nonce := block.header.nonce } ∧
      block.transactionHashes = transactionHashes ∧ block.blockReward = blockReward ∧
      meetsDifficulty block.hash block.header.difficulty = true ∧
      block.header.computeHash H = block.hash := by
  obtain ⟨mined, hmined, hblock⟩ := Prog.run_okOr_bind_eq_ok_iff.1 h
  obtain ⟨hhash, hwork⟩ := mineBlock_sound hmined
  cases hblock
  exact ⟨rfl, rfl, rfl, hwork, hhash⟩

end Kyvera
