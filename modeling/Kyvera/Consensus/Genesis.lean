import Kyvera.Storage.BlockStore
import Kyvera.Storage.StateTrie

/-!
# Genesis

The protocol constants of block zero, and the initialisation of a node that has no chain data.
The amounts are added to whatever the accounts hold already, and the chain tip, by which a second
call is recognised, is written last.
-/

namespace Kyvera

open Effect Std

/-- Total supply of KYV. -/
def TOTAL_SUPPLY : UInt64 := 1500000000000000000

/-- Released over time through block rewards. -/
def MINING_ALLOCATION : UInt64 := 900000000000000000

def ECOSYSTEM_ALLOCATION : UInt64 := 225000000000000000

def FOUNDER_ALLOCATION : UInt64 := 150000000000000000

def COMMUNITY_ALLOCATION : UInt64 := 150000000000000000

def TREASURY_ALLOCATION : UInt64 := 75000000000000000

def ECOSYSTEM_ADDRESS : String :=
  "kyv10000000000000000000000000000000000000000000000000ecosystem00"

def FOUNDER_ADDRESS : String :=
  "kyv10000000000000000000000000000000000000000000000000000founder00"

def COMMUNITY_ADDRESS : String :=
  "kyv100000000000000000000000000000000000000000000000000community00"

/-- Receives the reward of the genesis block. -/
def GENESIS_MINER : String := FOUNDER_ADDRESS

/-- Apply all genesis allocations except the one for mining. -/
def applyGenesisAllocations : DbM Unit := do
  creditAccount ECOSYSTEM_ADDRESS ECOSYSTEM_ALLOCATION
  creditAccount FOUNDER_ADDRESS FOUNDER_ALLOCATION
  creditAccount COMMUNITY_ADDRESS COMMUNITY_ALLOCATION
  creditAccount TREASURY_ADDRESS TREASURY_ALLOCATION
  let expected :=
    ECOSYSTEM_ALLOCATION + FOUNDER_ALLOCATION + COMMUNITY_ALLOCATION + TREASURY_ALLOCATION
  let expectedWithMining := expected + MINING_ALLOCATION
  if expectedWithMining ≠ TOTAL_SUPPLY then
    .err (s!"Genesis allocation error: allocations sum to {expectedWithMining} " ++
      s!"but total supply is {TOTAL_SUPPLY}")
  else pure ()

/-- The error of an initialisation that cannot produce the genesis block. -/
def genesisFailure (e : BlockError) : DbM Block :=
  match e.display with
  | some text => .err s!"Failed to produce genesis block: {text}"
  | none => .panic

/-- Initialise the chain from the genesis block, at the reading `now` of the clock. -/
def initializeChain (H : Sha3) (now : ℤ) : DbM ChainTip := do
  match ← loadChainTip with
  | some tip =>
      .err (s!"Chain already initialized at height {tip.height}. " ++
        "Cannot re-initialize without wiping the database.")
  | none =>
      let genesis ← (produceGenesisBlock H now GENESIS_MINER).rescue genesisFailure
      applyGenesisAllocations
      creditAccount GENESIS_MINER GENESIS_BLOCK_REWARD
      saveBlock genesis
      let stateRoot ← computeStateRoot H
      saveStateRoot stateRoot
      let tip ← Prog.orPanic (ChainTip.genesis.advance genesis)
      saveChainTip tip
      return tip

/-- Whether the block stored at height zero is a genesis block. -/
def verifyGenesisIntegrity : DbM Bool := do
  match ← getBlockByHeight 0 with
  | none => return false
  | some block =>
      if block.header.index ≠ 0 ∨ ¬ block.header.isEpochBlock then return false
      else if block.header.previousHash ≠ zeroHash then return false
      else if block.producerAddress ≠ GENESIS_MINER then return false
      else return true

end Kyvera
