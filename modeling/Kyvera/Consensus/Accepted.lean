import Kyvera.Consensus.Rules

/-!
# What acceptance guarantees about transactions

The rules look at the transactions of a block in three ways: the first one of an epoch block must
be its coinbase, the paid ones must be affordable, and the hashes they carry must make up the
Merkle root.  Two guarantees that one would expect do not follow: later transactions from the
coinbase sentinel are skipped, and the hash that a transaction carries is never compared with its
contents.
-/

namespace Kyvera

open Effect Effect.Prog

variable {H : Sha3} {nowMs : ℤ} {block : Block} {txs txs' : List Transaction} {tip : ChainTip}
  {db db' : KyveraDb}

/-- The rules accept the block with these transactions. -/
def Accepts (H : Sha3) (nowMs : ℤ) (block : Block) (txs : List Transaction) (tip : ChainTip)
    (db : KyveraDb) : Prop :=
  (validateBlockRules H nowMs block txs tip).run db = (.ok (), db)

theorem Accepts.sealed (h : Accepts H nowMs block txs tip db) : Sealed H block txs :=
  ((guards_validateBlockRules _ _ _).1 h).1.1

theorem Accepts.follows (h : Accepts H nowMs block txs tip db) (h0 : block.header.index ≠ 0) :
    Follows H nowMs block txs tip db.accounts :=
  ((guards_validateBlockRules _ _ _).1 h).1.2.2 h0

theorem accepts_of_follows (hsealed : Sealed H block txs) (h0 : block.header.index ≠ 0)
    (hfollows : Follows H nowMs block txs tip db.accounts) : Accepts H nowMs block txs tip db :=
  (guards_validateBlockRules _ _ _).2 ⟨⟨hsealed, fun h => absurd h h0, fun _ => hfollows⟩, rfl⟩

theorem accepts_of_outcome
    (h : ((validateBlockRules H nowMs block txs tip).run db).1 = .ok ()) :
    Accepts H nowMs block txs tip db :=
  guards_validateBlockRules.run_eq_of_outcome h

/-- A sealed block for the constant hash function, at height 1. -/
def sealedBlock (isEpochBlock : Bool) (merkleRoot : String) : Block where
  header :=
    { index := 1, timestamp := 1000, previousHash := zeroHash, merkleRoot := merkleRoot, nonce := 0
      difficulty := 1, isEpochBlock := isEpochBlock, epochIndex := 1, stateRoot := "" }
  transactionHashes := []
  hash := zeroHash
  validatorSignature := ""
  producerAddress := ""
  blockReward := calculateBlockReward 1

/-! ## Coinbases -/

/-- The transactions from the coinbase sentinel. -/
def coinbases (txs : List Transaction) : List Transaction :=
  txs.filter fun tx => tx.sender = COINBASE_SENDER

/-- There is exactly one coinbase, it is the first transaction, and it pays the reward of the
block's epoch. -/
structure OneCoinbase (block : Block) (txs : List Transaction) : Prop where
  one : (coinbases txs).length = 1
  first : ∃ coinbase rest, txs = coinbase :: rest ∧ coinbase.sender = COINBASE_SENDER ∧
    coinbase.amount = calculateBlockReward block.header.epochIndex

/-- An accepted epoch block has exactly one coinbase, in the right place and of the right amount,
exactly when no later transaction comes from the coinbase sentinel. -/
theorem oneCoinbase_iff (h : Accepts H nowMs block txs tip db) (h0 : block.header.index ≠ 0)
    (hepoch : block.header.isEpochBlock = true) :
    OneCoinbase block txs ↔ ∀ tx ∈ txs.tail, tx.sender ≠ COINBASE_SENDER := by
  obtain ⟨coinbase, rest, rfl, hverified⟩ := ((h.follows h0).epoch hepoch).coinbase
  obtain ⟨hsender, hamount, -, -⟩ := (verifyCoinbase_eq_true_iff ..).1 hverified
  have split : coinbases (coinbase :: rest) = coinbase :: coinbases rest :=
    List.filter_cons_of_pos (by simpa using hsender)
  constructor
  · intro hone tx htx hfrom
    have hempty : (coinbases rest).length + 1 = 0 + 1 := by
      have hlength := hone.one
      rwa [split, List.length_cons] at hlength
    have hmem : tx ∈ coinbases rest := List.mem_filter.2 ⟨htx, by simpa using hfrom⟩
    rw [List.eq_nil_of_length_eq_zero (Nat.succ_injective hempty)] at hmem
    exact List.not_mem_nil hmem
  · intro hrest
    refine ⟨?_, coinbase, rest, rfl, hsender, hamount⟩
    have hnone : coinbases rest = [] :=
      List.filter_eq_nil_iff.2 fun tx htx => by simpa using hrest tx htx
    rw [split, hnone, List.length_singleton]

/-- An epoch block whose only transaction is its coinbase. -/
theorem oneCoinbase_buildCoinbase :
    let coinbase := buildCoinbase Sha3.zero 1000 "kyv1miner" 1 zeroHash
    OneCoinbase (sealedBlock true zeroHash) [coinbase] := by
  intro coinbase
  have accepted : Accepts Sha3.zero 1000 (sealedBlock true zeroHash) [coinbase]
      ChainTip.genesis KyveraDb.empty := accepts_of_outcome (by decide +kernel)
  exact (oneCoinbase_iff accepted (by decide) rfl).2 (by decide)

/-- An epoch block that mints a second time after its coinbase is accepted. -/
theorem not_oneCoinbase_second_coinbase :
    let coinbase := buildCoinbase Sha3.zero 1000 "kyv1miner" 1 zeroHash
    let txs := [coinbase, { coinbase with amount := 10000000000000000000 }]
    Accepts Sha3.zero 1000 (sealedBlock true zeroHash) txs ChainTip.genesis KyveraDb.empty ∧
      ¬ OneCoinbase (sealedBlock true zeroHash) txs := by
  intro coinbase txs
  have accepted : Accepts Sha3.zero 1000 (sealedBlock true zeroHash) txs ChainTip.genesis
      KyveraDb.empty := accepts_of_outcome (by decide +kernel)
  exact ⟨accepted, fun hone => absurd hone.one (by decide)⟩

/-! ## Contents -/

/-- The bytes hashed by the rules for a micro block. -/
def validationInputs (H : Sha3) (block : Block) (txs : List Transaction) : List ByteArray :=
  block.header.input :: merkleInputs H (txs.map Transaction.hash)

/-- Two transactions agree on everything that applying them reads. -/
structure SameEffect (tx tx' : Transaction) : Prop where
  sender : tx.sender = tx'.sender
  receiver : tx.receiver = tx'.receiver
  amount : tx.amount = tx'.amount
  fee : tx.fee = tx'.fee
  nonce : tx.nonce = tx'.nonce
  transactionType : tx.transactionType = tx'.transactionType

/-- Any other list of as many transactions that the rules accept with the block has the same
effect, unless two of the texts hashed collide. -/
def TamperEvident (H : Sha3) (nowMs : ℤ) (block : Block) (txs : List Transaction)
    (tip : ChainTip) (db : KyveraDb) : Prop :=
  ∀ txs', txs'.length = txs.length → Accepts H nowMs block txs' tip db →
    H.CollisionFree (validationInputs H block txs ++ validationInputs H block txs') →
    List.Forall₂ SameEffect txs txs'

/-- Every transaction with another receiver. -/
def redirect (txs : List Transaction) : List Transaction :=
  txs.map fun tx => { tx with receiver := if tx.receiver = "" then "kyv1" else "" }

@[simp] theorem length_redirect (txs : List Transaction) : (redirect txs).length = txs.length :=
  List.length_map _

theorem hashes_redirect (txs : List Transaction) :
    (redirect txs).map Transaction.hash = txs.map Transaction.hash := by
  rw [redirect, List.map_map]
  rfl

theorem paidTransactions_redirect (txs : List Transaction) :
    paidTransactions (redirect txs) = redirect (paidTransactions txs) := by
  rw [paidTransactions, redirect, List.filter_map]
  rfl

/-- No rule looks at a receiver. -/
theorem TransactionsOk.redirect {t : AccountTree} (h : TransactionsOk t txs) :
    TransactionsOk t (redirect txs) where
  senders tx' htx' := by
    rw [paidTransactions_redirect] at htx'
    obtain ⟨tx, htx, rfl⟩ := List.mem_map.1 htx'
    exact h.senders tx htx
  hashes := by
    rw [paidTransactions_redirect, hashes_redirect]
    exact h.hashes

/-- Redirected transactions are accepted with the same micro block. -/
theorem Accepts.redirect (h : Accepts H nowMs block txs tip db) (h0 : block.header.index ≠ 0)
    (hmicro : block.header.isEpochBlock = false) :
    Accepts H nowMs block (redirect txs) tip db := by
  have hsealed := h.sealed
  have hfollows := h.follows h0
  have hne : block.header.isEpochBlock ≠ true := by
    rw [hmicro]
    decide
  apply accepts_of_follows
  · exact ⟨hsealed.work, hsealed.hash, (hashes_redirect txs).symm ▸ hsealed.merkle⟩
  · exact h0
  · refine ⟨hfollows.height, hfollows.previous, ?_, hfollows.timestamp, fun he => absurd he hne, ?_,
      hfollows.transactions.redirect⟩
    · exact ⟨hfollows.size.1, fun hs => (length_redirect txs).symm ▸ hfollows.size.2 hs⟩
    · intro _ tx' htx'
      obtain ⟨tx, htx, rfl⟩ := List.mem_map.1 htx'
      exact hfollows.micro hne tx htx

/-- An accepted micro block is tamper-evident in its transactions exactly when it has none: the
receivers of its transactions can be exchanged without touching a text that is hashed. -/
theorem tamperEvident_iff (h : Accepts H nowMs block txs tip db) (h0 : block.header.index ≠ 0)
    (hmicro : block.header.isEpochBlock = false)
    (hfree : H.CollisionFree (validationInputs H block txs)) :
    TamperEvident H nowMs block txs tip db ↔ txs = [] := by
  constructor
  · intro htamper
    have hinputs : validationInputs H block (redirect txs) = validationInputs H block txs := by
      rw [validationInputs, hashes_redirect]
      rfl
    have hsame := htamper (redirect txs) (length_redirect txs) (h.redirect h0 hmicro)
      (hfree.mono (by
        rw [hinputs, List.append_subset]
        exact ⟨List.Subset.refl _, List.Subset.refl _⟩))
    cases txs with
    | nil => rfl
    | cons tx rest =>
        have hreceiver : tx.receiver = if tx.receiver = "" then "kyv1" else "" :=
          (List.forall₂_cons.1 hsame).1.receiver
        by_cases hempty : tx.receiver = ""
        · rw [if_pos hempty, hempty] at hreceiver
          exact absurd hreceiver.symm (by decide)
        · rw [if_neg hempty] at hreceiver
          exact absurd hreceiver hempty
  · rintro rfl txs' hlength _ _
    rw [List.eq_nil_of_length_eq_zero hlength]
    exact List.Forall₂.nil

/-- The sender and receiver of a transfer in the only block of a chain. -/
def transferTo (receiver : String) : Transaction :=
  { Transaction.new 0 "kyv1a" receiver 40 10 0 .transfer [] with hash := "aa", signature := "sig" }

theorem validationInputs_transferTo (block : Block) (receiver : String) :
    validationInputs Sha3.zero block [transferTo receiver] = [block.header.input] := by
  rw [validationInputs, List.map_singleton, merkleInputs_singleton]

/-- A micro block with one transfer does not commit to its contents. -/
theorem tamperEvident_transfer :
    let db := KyveraDb.withAccounts [{ Account.new "kyv1a" with balance := 100 }]
    ¬ TamperEvident Sha3.zero 1000 (sealedBlock false "aa") [transferTo "kyv1b"]
      ChainTip.genesis db := by
  intro db htamper
  have free : Sha3.zero.CollisionFree
      (validationInputs Sha3.zero (sealedBlock false "aa") [transferTo "kyv1b"]) := by
    rw [validationInputs_transferTo]
    exact Sha3.collisionFree_of_forall_eq fun _ h => List.mem_singleton.1 h
  have none := (tamperEvident_iff (accepts_of_outcome (by decide +kernel)) (by decide) rfl free).1
    htamper
  cases none

/-- One micro block, accepted with a transfer to one receiver and with the same transfer to
another. -/
theorem not_tamperEvident_two_receivers :
    let block := sealedBlock false "aa"
    let db := KyveraDb.withAccounts [{ Account.new "kyv1a" with balance := 100 }]
    Accepts Sha3.zero 1000 block [transferTo "kyv1b"] ChainTip.genesis db ∧
      Accepts Sha3.zero 1000 block [transferTo "kyv1c"] ChainTip.genesis db ∧
      Sha3.zero.CollisionFree (validationInputs Sha3.zero block [transferTo "kyv1b"] ++
        validationInputs Sha3.zero block [transferTo "kyv1c"]) ∧
      ¬ List.Forall₂ SameEffect [transferTo "kyv1b"] [transferTo "kyv1c"] := by
  intro block db
  refine ⟨accepts_of_outcome (by decide +kernel), accepts_of_outcome (by decide +kernel), ?_, ?_⟩
  · rw [validationInputs_transferTo, validationInputs_transferTo]
    exact Sha3.collisionFree_of_forall_eq (b := block.header.input) (by simp)
  · intro hsame
    exact absurd (List.forall₂_cons.1 hsame).1.receiver (by decide)

end Kyvera
