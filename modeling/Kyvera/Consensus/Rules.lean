import Kyvera.Chain.Merkle
import Kyvera.Consensus.Coinbase

/-!
# Consensus rules

Every block received from the network passes through `validateBlockRules`, which returns the
first violation it finds.  The checks read the database and never write to it; an index or height
that leaves 64 bits is a panic.
-/

namespace Kyvera

open Effect Effect.Prog

/-- Allowed clock skew of a block, in milliseconds. -/
def MAX_CLOCK_SKEW_MS : ℤ := 120000

/-- Minimum time between two micro blocks. -/
def MIN_MICRO_BLOCK_INTERVAL_MS : ℤ := 500

/-- Minimum time before an epoch block. -/
def MIN_EPOCH_BLOCK_INTERVAL_MS : ℤ := 60000

/-- Maximum number of transactions in a micro block. -/
def MAX_TRANSACTIONS_PER_MICRO_BLOCK : ℕ := 1000

/-- Maximum number of hashes in an epoch block. -/
def MAX_MICRO_BLOCKS_PER_EPOCH : ℕ := 10000

/-- The first rule that a block breaks. -/
inductive RuleViolation where
  | invalidHeight (expected got : UInt64)
  | invalidPreviousHash (expected got : String)
  | invalidHash
  | insufficientProofOfWork (required : UInt32) (hash : String)
  | invalidTimestamp (reason : String)
  | invalidMerkleRoot
  | blockTooLarge (max got : ℕ)
  | invalidCoinbase (reason : String)
  | duplicateTransaction (hash : String)
  | invalidTransactionNonce (expected got : UInt64)
  | insufficientBalance (address : String) (required available : UInt64)
  | missingCoinbase
  | unexpectedCoinbase
  | invalidEpochIndex (expected got : UInt64)
  | invalidBlockReward (expected got : UInt64)
  | invalidStateRoot
  deriving DecidableEq, Repr

/-- The text of a violation; `none` is a hash or an address that cannot be cut, a panic. -/
def RuleViolation.display : RuleViolation → Option String
  | .invalidHeight expected got => some s!"Invalid height: expected {expected} got {got}"
  | .invalidPreviousHash expected got => do
      let expected ← Text.cut 8 expected
      let got ← Text.cut 8 got
      return s!"Invalid previous hash: expected {expected}... got {got}..."
  | .invalidHash => some "Block hash does not match header contents"
  | .insufficientProofOfWork required hash => do
      let hash ← Text.cut 16 hash
      return s!"Hash {hash} does not meet difficulty {required}"
  | .invalidTimestamp reason => some s!"Invalid timestamp: {reason}"
  | .invalidMerkleRoot => some "Merkle root does not match transaction list"
  | .blockTooLarge max got => some s!"Block has {got} transactions, maximum is {max}"
  | .invalidCoinbase reason => some s!"Invalid coinbase: {reason}"
  | .duplicateTransaction hash => do
      let hash ← Text.cut 16 hash
      return s!"Duplicate transaction: {hash}"
  | .invalidTransactionNonce expected got => some s!"Invalid nonce: expected {expected} got {got}"
  | .insufficientBalance address required available => do
      let address ← Text.cut 12 address
      return s!"Insufficient balance at {address}: need {required} have {available}"
  | .missingCoinbase => some "Epoch block is missing a coinbase transaction"
  | .unexpectedCoinbase => some "Micro block contains a coinbase transaction"
  | .invalidEpochIndex expected got => some s!"Invalid epoch index: expected {expected} got {got}"
  | .invalidBlockReward expected got => some s!"Invalid block reward: expected {expected} got {got}"
  | .invalidStateRoot => some "State root does not match computed state"

/-- A rule: a program over the database that fails with a violation. -/
abbrev RuleM := Prog KyveraDb RuleViolation

/-! ## The rules -/

def checkHeight (block : Block) (tip : ChainTip) : RuleM Unit := do
  let expected ← Prog.orPanic (U64.checkedAdd tip.height 1)
  if block.header.index ≠ expected then
    .err (.invalidHeight expected block.header.index)
  else pure ()

def checkPreviousHash (block : Block) (tip : ChainTip) : RuleM Unit :=
  if block.header.previousHash ≠ tip.hash then
    .err (.invalidPreviousHash tip.hash block.header.previousHash)
  else pure ()

def checkPreviousHashGenesis (block : Block) : RuleM Unit :=
  if block.header.previousHash ≠ zeroHash then
    .err (.invalidPreviousHash zeroHash block.header.previousHash)
  else pure ()

/-- Epoch blocks count the hashes they carry, micro blocks the transactions they come with. -/
def checkBlockSize (block : Block) (transactions : List Transaction) : RuleM Unit :=
  if block.header.isEpochBlock then
    if block.transactionHashes.length > MAX_MICRO_BLOCKS_PER_EPOCH then
      .err (.blockTooLarge MAX_MICRO_BLOCKS_PER_EPOCH block.transactionHashes.length)
    else pure ()
  else
    if transactions.length > MAX_TRANSACTIONS_PER_MICRO_BLOCK then
      .err (.blockTooLarge MAX_TRANSACTIONS_PER_MICRO_BLOCK transactions.length)
    else pure ()

/-- The timestamp rules at the reading `nowMs` of the clock. -/
def checkTimestamp (nowMs : ℤ) (block : Block) (tip : ChainTip) : RuleM Unit :=
  if block.header.timestamp > nowMs + MAX_CLOCK_SKEW_MS then
    .err (.invalidTimestamp
      s!"Block timestamp {block.header.timestamp} is {block.header.timestamp - nowMs}ms in the future")
  else if block.header.timestamp ≤ tip.timestamp ∧ tip.timestamp > 0 then
    .err (.invalidTimestamp
      s!"Block timestamp {block.header.timestamp} is not after previous block timestamp {tip.timestamp}")
  else if tip.timestamp > 0 then
    let elapsed := block.header.timestamp - tip.timestamp
    let minInterval :=
      if block.header.isEpochBlock then MIN_EPOCH_BLOCK_INTERVAL_MS
      else MIN_MICRO_BLOCK_INTERVAL_MS
    if elapsed < minInterval then
      .err (.invalidTimestamp s!"Only {elapsed}ms since last block, minimum is {minInterval}ms")
    else pure ()
  else pure ()

def checkProofOfWork (block : Block) : RuleM Unit :=
  if !meetsDifficulty block.hash block.header.difficulty then
    .err (.insufficientProofOfWork block.header.difficulty block.hash)
  else pure ()

section

variable (H : Sha3)

def checkBlockHash (block : Block) : RuleM Unit :=
  let recomputed := block.header.computeHash H
  if recomputed ≠ block.hash then .err .invalidHash else pure ()

def checkMerkleRoot (block : Block) (transactions : List Transaction) : RuleM Unit :=
  let computed := computeMerkleRoot H (transactions.map Transaction.hash)
  if computed ≠ block.header.merkleRoot then .err .invalidMerkleRoot else pure ()

def checkEpochIndex (block : Block) (tip : ChainTip) : RuleM Unit := do
  let expected ← Prog.orPanic (U64.checkedAdd tip.epochIndex 1)
  if block.header.epochIndex ≠ expected then
    .err (.invalidEpochIndex expected block.header.epochIndex)
  else pure ()

def checkBlockReward (block : Block) : RuleM Unit :=
  let expected := calculateBlockReward block.header.epochIndex
  if block.blockReward ≠ expected then
    .err (.invalidBlockReward expected block.blockReward)
  else pure ()

/-- Only the first transaction is looked at. -/
def checkCoinbase (block : Block) (transactions : List Transaction) : RuleM Unit := do
  let coinbase ← Prog.okOr .missingCoinbase transactions.head?
  if coinbase.sender ≠ COINBASE_SENDER then .err .missingCoinbase
  else if !verifyCoinbase H coinbase block.header.epochIndex block.hash then
    .err (.invalidCoinbase "Coinbase hash, amount, or nonce is incorrect")
  else pure ()

def checkNoCoinbase : List Transaction → RuleM Unit
  | [] => pure ()
  | tx :: rest =>
      if tx.sender = COINBASE_SENDER then .err .unexpectedCoinbase else checkNoCoinbase rest

/-- What the sender must be able to pay at once. -/
def requiredBalance (tx : Transaction) : UInt64 :=
  match tx.transactionType with
  | .transfer => U64.saturatingAdd tx.amount tx.fee
  | .stakeLock => U64.saturatingAdd tx.amount tx.fee
  | .stakeUnlock => tx.fee
  | .contractDeploy | .contractCall => tx.fee

/-- The balance and nonce rules of one transaction.  A sender without an account passes. -/
def checkSender (tx : Transaction) : RuleM Unit := do
  match ← (getAccount tx.sender).mapErr fun _ => .insufficientBalance tx.sender 0 0 with
  | some account =>
      let required := requiredBalance tx
      if account.balance < required then
        .err (.insufficientBalance tx.sender required account.balance)
      else if account.nonce ≠ tx.nonce then
        .err (.invalidTransactionNonce account.nonce tx.nonce)
      else pure ()
  | none => pure ()

/-- The loop of `checkTransactions`; `seenHashes` are the hashes of the transactions before. -/
def checkTransactionsLoop : Finset String → List Transaction → RuleM Unit
  | _, [] => pure ()
  | seenHashes, tx :: rest =>
      if tx.sender = COINBASE_SENDER then checkTransactionsLoop seenHashes rest
      else if tx.hash ∈ seenHashes then .err (.duplicateTransaction tx.hash)
      else do
        checkSender tx
        checkTransactionsLoop (insert tx.hash seenHashes) rest

/-- The rules of the transactions of a block, each against the state before the block. -/
def checkTransactions (transactions : List Transaction) : RuleM Unit :=
  checkTransactionsLoop ∅ transactions

/-- The rules of an epoch block, or the one of a micro block. -/
def checkEpochSpecific (block : Block) (transactions : List Transaction) (tip : ChainTip) :
    RuleM Unit :=
  if block.header.isEpochBlock then do
    checkEpochIndex block tip
    checkBlockReward block
    checkCoinbase H block transactions
  else
    checkNoCoinbase transactions

/-- Validate a complete block. -/
def validateBlockRules (nowMs : ℤ) (block : Block) (transactions : List Transaction)
    (tip : ChainTip) : RuleM Unit :=
  if block.header.index = 0 then do
    checkPreviousHashGenesis block
    checkProofOfWork block
    checkBlockHash H block
    checkMerkleRoot H block transactions
  else do
    checkHeight block tip
    checkPreviousHash block tip
    checkBlockSize block transactions
    checkTimestamp nowMs block tip
    checkProofOfWork block
    checkBlockHash H block
    checkMerkleRoot H block transactions
    checkEpochSpecific H block transactions tip
    checkTransactions transactions

end

/-! ## What the rules accept -/

section Accepts

variable {H : Sha3} {nowMs : ℤ} {block : Block} {txs : List Transaction} {tip : ChainTip}

/-- A counter that must be one more than `n`; the counter after the last one is a panic. -/
theorem guards_successor {n m : UInt64} {e : UInt64 → RuleViolation} :
    Guards (do
      let expected ← Prog.orPanic (U64.checkedAdd n 1)
      if m ≠ expected then .err (e expected) else pure () : RuleM Unit)
      fun _ => m.toNat = n.toNat + 1 := by
  intro db db' u
  simp only [run_bind_eq_ok_iff, run_orPanic_eq_ok_iff, U64.checkedAdd_eq_some_iff]
  constructor
  · rintro ⟨expected, _, ⟨h, rfl⟩, hr⟩
    obtain ⟨he, rfl⟩ := (guards_reject _ _ _).1 hr
    exact ⟨not_not.1 he ▸ h, rfl⟩
  · rintro ⟨h, rfl⟩
    exact ⟨m, db', ⟨h, rfl⟩, (guards_reject _ _ _).2 ⟨not_not.2 rfl, rfl⟩⟩

theorem guards_checkHeight :
    Guards (checkHeight block tip) fun _ => block.header.index.toNat = tip.height.toNat + 1 :=
  guards_successor

theorem guards_checkPreviousHash :
    Guards (checkPreviousHash block tip) fun _ => block.header.previousHash = tip.hash :=
  guards_reject.congr fun _ => not_not

theorem guards_checkPreviousHashGenesis :
    Guards (checkPreviousHashGenesis block) fun _ => block.header.previousHash = zeroHash :=
  guards_reject.congr fun _ => not_not

/-- The size rule: hashes in an epoch block, transactions in a micro block. -/
def SizeOk (block : Block) (txs : List Transaction) : Prop :=
  (block.header.isEpochBlock = true →
    block.transactionHashes.length ≤ MAX_MICRO_BLOCKS_PER_EPOCH) ∧
  (block.header.isEpochBlock ≠ true → txs.length ≤ MAX_TRANSACTIONS_PER_MICRO_BLOCK)

theorem guards_checkBlockSize : Guards (checkBlockSize block txs) fun _ => SizeOk block txs :=
  (guards_reject.ite guards_reject).congr fun _ => by rw [not_lt, not_lt]; rfl

/-- The timestamp rule: not too far ahead of the clock, and after the tip by the minimum
interval. -/
def TimestampOk (nowMs : ℤ) (block : Block) (tip : ChainTip) : Prop :=
  block.header.timestamp ≤ nowMs + MAX_CLOCK_SKEW_MS ∧
  (tip.timestamp > 0 →
    tip.timestamp + (if block.header.isEpochBlock then MIN_EPOCH_BLOCK_INTERVAL_MS
      else MIN_MICRO_BLOCK_INTERVAL_MS) ≤ block.header.timestamp)

theorem minInterval_pos (block : Block) :
    0 < if block.header.isEpochBlock then MIN_EPOCH_BLOCK_INTERVAL_MS
      else MIN_MICRO_BLOCK_INTERVAL_MS := by
  split_ifs <;> decide

theorem guards_checkTimestamp :
    Guards (checkTimestamp nowMs block tip) fun _ => TimestampOk nowMs block tip := by
  have hmin := minInterval_pos block
  apply (guards_reject.ite guards_pass).unless.unless.congr
  intro _
  unfold TimestampOk
  constructor
  · rintro ⟨h1, -, h3, -⟩
    exact ⟨by omega, fun ht => by have := h3 ht; omega⟩
  · rintro ⟨h1, h2⟩
    refine ⟨by omega, fun ⟨hle, ht⟩ => ?_, fun ht => ?_, fun _ => trivial⟩
    · have := h2 ht
      omega
    · have := h2 ht
      omega

theorem guards_checkProofOfWork :
    Guards (checkProofOfWork block)
      fun _ => meetsDifficulty block.hash block.header.difficulty = true :=
  guards_reject.congr fun _ => by simp

theorem guards_checkBlockHash :
    Guards (checkBlockHash H block) fun _ => block.header.computeHash H = block.hash :=
  guards_reject.congr fun _ => not_not

theorem guards_checkMerkleRoot :
    Guards (checkMerkleRoot H block txs)
      fun _ => computeMerkleRoot H (txs.map Transaction.hash) = block.header.merkleRoot :=
  guards_reject.congr fun _ => not_not

theorem guards_checkEpochIndex :
    Guards (checkEpochIndex block tip)
      fun _ => block.header.epochIndex.toNat = tip.epochIndex.toNat + 1 :=
  guards_successor

theorem guards_checkBlockReward :
    Guards (checkBlockReward block)
      fun _ => block.blockReward = calculateBlockReward block.header.epochIndex :=
  guards_reject.congr fun _ => not_not

/-- The first transaction is a verified coinbase of the block. -/
def HeadCoinbase (H : Sha3) (block : Block) (txs : List Transaction) : Prop :=
  ∃ coinbase rest, txs = coinbase :: rest ∧
    verifyCoinbase H coinbase block.header.epochIndex block.hash = true

theorem guards_checkCoinbase :
    Guards (checkCoinbase H block txs) fun _ => HeadCoinbase H block txs := by
  unfold checkCoinbase HeadCoinbase
  rcases txs with _ | ⟨tx, rest⟩
  · intro db db' u
    simp [Prog.okOr]
  · apply guards_reject.unless.congr
    intro _
    constructor
    · rintro ⟨-, hv⟩
      exact ⟨tx, rest, rfl, by simpa using hv⟩
    · rintro ⟨_, _, e, hv⟩
      obtain ⟨rfl, rfl⟩ := List.cons.inj e
      have sender := ((verifyCoinbase_eq_true_iff ..).1 hv).1
      exact ⟨not_not.2 sender, by simpa using hv⟩

theorem guards_checkNoCoinbase :
    Guards (checkNoCoinbase txs) fun _ => ∀ tx ∈ txs, tx.sender ≠ COINBASE_SENDER := by
  induction txs with
  | nil => exact guards_pass.congr fun _ => by simp
  | cons tx rest ih => exact ih.unless.congr fun _ => by rw [List.forall_mem_cons]

/-- What the rules demand of one transaction against the accounts `t`. -/
def SenderOk (t : AccountTree) (tx : Transaction) : Prop :=
  ∀ account, t[tx.sender]? = some account →
    requiredBalance tx ≤ account.balance ∧ account.nonce = tx.nonce

theorem guards_checkSender {tx : Transaction} :
    Guards (checkSender tx) fun db => SenderOk db.accounts tx := by
  intro db db' u
  unfold checkSender SenderOk
  rw [run_bind, run_mapErr, run_getAccount]
  rcases h : db.accounts[tx.sender]? with _ | account
  · simp [h, eq_comm]
  · rw [guards_reject.unless db]
    simp only [h, not_not, UInt64.not_lt, Option.some.injEq, forall_eq']

/-- The transactions of a block that are not from the coinbase sentinel. -/
def paidTransactions (txs : List Transaction) : List Transaction :=
  txs.filter (·.sender ≠ COINBASE_SENDER)

theorem mem_paidTransactions_iff {tx : Transaction} :
    tx ∈ paidTransactions txs ↔ tx ∈ txs ∧ tx.sender ≠ COINBASE_SENDER := by
  simp [paidTransactions]

theorem guards_checkTransactionsLoop {seen : Finset String} :
    Guards (checkTransactionsLoop seen txs) fun db =>
      (∀ tx ∈ paidTransactions txs, SenderOk db.accounts tx ∧ tx.hash ∉ seen) ∧
      ((paidTransactions txs).map Transaction.hash).Nodup := by
  induction txs generalizing seen with
  | nil => exact guards_pass.congr fun _ => by simp [paidTransactions]
  | cons tx rest ih =>
      rw [checkTransactionsLoop]
      by_cases hs : tx.sender = COINBASE_SENDER
      · rw [if_pos hs, paidTransactions, List.filter_cons_of_neg (by simpa using hs)]
        exact ih
      · rw [if_neg hs, paidTransactions, List.filter_cons_of_pos (by simpa using hs)]
        apply (guards_checkSender.bind ih).unless.congr
        intro db
        simp only [List.forall_mem_cons, List.map_cons, List.nodup_cons, List.mem_map,
          Finset.mem_insert, not_or, not_exists, not_and, paidTransactions]
        constructor
        · rintro ⟨h1, h2, h3, h4⟩
          exact ⟨⟨⟨h2, h1⟩, fun x hx => ⟨(h3 x hx).1, (h3 x hx).2.2⟩⟩,
            fun x hx => (h3 x hx).2.1, h4⟩
        · rintro ⟨⟨⟨h2, h1⟩, h3⟩, h5, h4⟩
          exact ⟨h1, h2, fun x hx => ⟨(h3 x hx).1, h5 x hx, (h3 x hx).2⟩, h4⟩

/-- What the rules demand of the transactions of a block: apart from coinbases, senders that can
pay and distinct hashes. -/
structure TransactionsOk (t : AccountTree) (txs : List Transaction) : Prop where
  senders : ∀ tx ∈ paidTransactions txs, SenderOk t tx
  hashes : ((paidTransactions txs).map Transaction.hash).Nodup

theorem guards_checkTransactions :
    Guards (checkTransactions txs) fun db => TransactionsOk db.accounts txs :=
  guards_checkTransactionsLoop.congr fun _ =>
    ⟨fun ⟨h1, h2⟩ => ⟨fun tx htx => (h1 tx htx).1, h2⟩,
      fun ⟨h1, h2⟩ => ⟨fun tx htx => ⟨h1 tx htx, Finset.notMem_empty _⟩, h2⟩⟩

/-- What an accepted epoch block satisfies. -/
structure EpochOk (H : Sha3) (block : Block) (txs : List Transaction) (tip : ChainTip) : Prop where
  index : block.header.epochIndex.toNat = tip.epochIndex.toNat + 1
  reward : block.blockReward = calculateBlockReward block.header.epochIndex
  coinbase : HeadCoinbase H block txs

theorem guards_checkEpochSpecific :
    Guards (checkEpochSpecific H block txs tip) fun _ =>
      (block.header.isEpochBlock = true → EpochOk H block txs tip) ∧
      (block.header.isEpochBlock ≠ true → ∀ tx ∈ txs, tx.sender ≠ COINBASE_SENDER) :=
  ((guards_checkEpochIndex.bind (guards_checkBlockReward.bind guards_checkCoinbase)).congr
    fun _ => ⟨fun ⟨h1, h2, h3⟩ => EpochOk.mk h1 h2 h3, fun ⟨h1, h2, h3⟩ => ⟨h1, h2, h3⟩⟩).ite
    guards_checkNoCoinbase

/-- What every accepted block satisfies, on the genesis path too. -/
structure Sealed (H : Sha3) (block : Block) (txs : List Transaction) : Prop where
  work : meetsDifficulty block.hash block.header.difficulty = true
  hash : block.header.computeHash H = block.hash
  merkle : computeMerkleRoot H (txs.map Transaction.hash) = block.header.merkleRoot

/-- What an accepted block with a predecessor satisfies. -/
structure Follows (H : Sha3) (nowMs : ℤ) (block : Block) (txs : List Transaction)
    (tip : ChainTip) (t : AccountTree) : Prop where
  height : block.header.index.toNat = tip.height.toNat + 1
  previous : block.header.previousHash = tip.hash
  size : SizeOk block txs
  timestamp : TimestampOk nowMs block tip
  epoch : block.header.isEpochBlock = true → EpochOk H block txs tip
  micro : block.header.isEpochBlock ≠ true → ∀ tx ∈ txs, tx.sender ≠ COINBASE_SENDER
  transactions : TransactionsOk t txs

/-- The rules accept a block exactly when it is sealed and either starts a chain or follows the
tip.  The first path never looks at the tip. -/
theorem guards_validateBlockRules :
    Guards (validateBlockRules H nowMs block txs tip) fun db =>
      Sealed H block txs ∧
      (block.header.index = 0 → block.header.previousHash = zeroHash) ∧
      (block.header.index ≠ 0 → Follows H nowMs block txs tip db.accounts) := by
  refine Guards.congr ((guards_checkPreviousHashGenesis.bind (guards_checkProofOfWork.bind
    (guards_checkBlockHash.bind guards_checkMerkleRoot))).ite
    (guards_checkHeight.bind (guards_checkPreviousHash.bind (guards_checkBlockSize.bind
      (guards_checkTimestamp.bind (guards_checkProofOfWork.bind (guards_checkBlockHash.bind
        (guards_checkMerkleRoot.bind (guards_checkEpochSpecific.bind
          guards_checkTransactions))))))))) fun db => ?_
  by_cases h0 : block.header.index = 0
  · simp only [h0, ne_eq, not_true_eq_false, true_implies, false_implies, and_true]
    exact ⟨fun ⟨h1, h2, h3, h4⟩ => ⟨⟨h2, h3, h4⟩, h1⟩, fun ⟨⟨h2, h3, h4⟩, h1⟩ => ⟨h1, h2, h3, h4⟩⟩
  · simp only [h0, ne_eq, not_false_eq_true, true_implies, false_implies, true_and]
    exact ⟨fun ⟨h1, h2, h3, h4, h5, h6, h7, ⟨h8, h9⟩, h10⟩ =>
        ⟨⟨h5, h6, h7⟩, ⟨h1, h2, h3, h4, h8, h9, h10⟩⟩,
      fun ⟨⟨h5, h6, h7⟩, ⟨h1, h2, h3, h4, h8, h9, h10⟩⟩ =>
        ⟨h1, h2, h3, h4, h5, h6, h7, ⟨h8, h9⟩, h10⟩⟩

end Accepts

end Kyvera
