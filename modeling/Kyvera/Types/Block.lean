import Mathlib

/-!
# Blocks

A block carries the hashes of what is inside it, not the transactions themselves.
-/

namespace Kyvera

/-- The part of a block that its hash commits to. -/
structure BlockHeader where
  index : UInt64
  timestamp : ℤ
  previousHash : String
  merkleRoot : String
  nonce : UInt64
  difficulty : UInt32
  isEpochBlock : Bool
  epochIndex : UInt64
  stateRoot : String
  deriving DecidableEq, Repr

/-- A header before mining; `now` is the reading of the clock. -/
def BlockHeader.new (now : ℤ) (index : UInt64) (previousHash merkleRoot : String)
    (difficulty : UInt32) (isEpochBlock : Bool) (epochIndex : UInt64) : BlockHeader where
  index := index
  timestamp := now
  previousHash := previousHash
  merkleRoot := merkleRoot
  nonce := 0
  difficulty := difficulty
  isEpochBlock := isEpochBlock
  epochIndex := epochIndex
  stateRoot := ""

/-- A full block.  `hash` is empty until mining is done. -/
structure Block where
  header : BlockHeader
  transactionHashes : List String
  hash : String
  validatorSignature : String
  producerAddress : String
  blockReward : UInt64
  deriving DecidableEq, Repr

/-- A block before its hash is set. -/
def Block.new (header : BlockHeader) (transactionHashes : List String) (producerAddress : String)
    (blockReward : UInt64) : Block where
  header := header
  transactionHashes := transactionHashes
  hash := ""
  validatorSignature := ""
  producerAddress := producerAddress
  blockReward := blockReward

end Kyvera
