import Kyvera.Library.Bytes
import Kyvera.Library.Checked
import Kyvera.Library.LayerTree
import Kyvera.Library.Netting
import Kyvera.Library.ProRata
import Kyvera.Library.Prog
import Kyvera.Library.Ranking
import Kyvera.Library.Schedule
import Kyvera.Library.Trace
import Kyvera.Library.TreeSum
import Kyvera.Library.Accounting
import Kyvera.Library.Backwards
import Kyvera.Library.Clean
import Kyvera.Library.Errors
import Kyvera.Library.Journal
import Kyvera.Library.Refusals
import Kyvera.Library.Since
import Kyvera.Library.Text
import Kyvera.Library.TreeIndex
import Kyvera.Library.Footprint
import Kyvera.Library.Respects
import Kyvera.Types.Block
import Kyvera.Types.Transaction
import Kyvera.Types.Account
import Kyvera.Types.Json
import Kyvera.Crypto.Digest
import Kyvera.Crypto.Dilithium
import Kyvera.Crypto.Binding
import Kyvera.Crypto.Identity
import Kyvera.Chain.Hash
import Kyvera.Chain.HeaderBinding
import Kyvera.Chain.Merkle
import Kyvera.Chain.Mining
import Kyvera.Chain.BlockProducer
import Kyvera.Chain.Difficulty
import Kyvera.Chain.MerkleProof
import Kyvera.Chain.MiningSearch
import Kyvera.Chain.ForkChoice
import Kyvera.Chain.MerkleBinding
import Kyvera.Chain.ProofShape
import Kyvera.Storage.Db
import Kyvera.Storage.AccountStore
import Kyvera.Storage.BlockStore
import Kyvera.Storage.TxStore
import Kyvera.Storage.SenderHistory
import Kyvera.Storage.StateTrie
import Kyvera.Storage.SnapshotStack
import Kyvera.Mempool.Fees
import Kyvera.Mempool.FeeSplit
import Kyvera.Mempool.Pool
import Kyvera.Mempool.Indexes
import Kyvera.Mempool.Rejections
import Kyvera.Mempool.Admission
import Kyvera.Mempool.Signatures
import Kyvera.Mempool.Executability
import Kyvera.Mempool.Selection
import Kyvera.Mempool.Eviction
import Kyvera.Mempool.Worth
import Kyvera.Mempool.History
import Kyvera.Ledger.Effects
import Kyvera.Ledger.StateRoot
import Kyvera.Ledger.Atomicity
import Kyvera.Ledger.Evolution
import Kyvera.Ledger.Execution
import Kyvera.Ledger.Payouts
import Kyvera.Ledger.Commutation
import Kyvera.Ledger.MaturityScan
import Kyvera.Ledger.Replay
import Kyvera.Ledger.Rollback
import Kyvera.Ledger.Supply
import Kyvera.Ledger.Footprints
import Kyvera.Ledger.Tiers
import Kyvera.Ledger.Unbonding
import Kyvera.Ledger.Distribution
import Kyvera.Ledger.Integrity
import Kyvera.Ledger.Maturity
import Kyvera.Ledger.Slashing
import Kyvera.Ledger.CoinbaseReplay
import Kyvera.Ledger.Economy
import Kyvera.Ledger.Reads
import Kyvera.Ledger.SlashAmount
import Kyvera.Ledger.StakeSplitting
import Kyvera.Ledger.Withdrawals
import Kyvera.Ledger.CleanFailure
import Kyvera.Ledger.HalfDone
import Kyvera.Ledger.Reorganisation
import Kyvera.Ledger.SupplyCap
import Kyvera.Consensus.Coinbase
import Kyvera.Consensus.Staking
import Kyvera.Consensus.Genesis
import Kyvera.Consensus.Rules
import Kyvera.Consensus.Validators
import Kyvera.Consensus.Accepted
import Kyvera.Consensus.Initialization
import Kyvera.Consensus.Linked
import Kyvera.Consensus.Schedule
import Kyvera.Consensus.Weights
import Kyvera.Consensus.Agreement
import Kyvera.Consensus.CatchUp
import Kyvera.Consensus.Emission
import Kyvera.Consensus.Executable
import Kyvera.Consensus.Intervals
import Kyvera.Consensus.Work
import Kyvera.Consensus.History
import Kyvera.Consensus.FeeFloor
import Kyvera.Consensus.GenesisState
import Kyvera.Consensus.StoredChain
import Kyvera.Wallet.Keys
import Kyvera.Wallet.Storage
import Kyvera.Wallet.Directory
import Kyvera.Wallet.TransactionBuilder
import Kyvera.Wallet.TransactionBinding
import Kyvera.Wallet.Settlement
