import Kyvera.Consensus.Accepted
import Kyvera.Consensus.Linked

/-!
# Producers and validators

A block is mined by one node and checked by two rule sets of the others.  What the producer
computes for a micro block is what both of them recompute.  For an epoch block it is not: the
producer commits to the hashes of the micro blocks, and the rules recompute the root from the
transactions that come with the block.
-/

namespace Kyvera

open Effect Effect.Prog

variable {σ : Type} {s : σ} {H : Sha3} {now nowMs : ℤ} {block : Block} {txs : List Transaction}
  {tip : ChainTip} {db : KyveraDb} {miner : String} {maxAttempts : UInt64}

/-! ## The second validator -/

/-- What `validateBlock` accepts. -/
structure ValidBlock (H : Sha3) (nowMs : ℤ) (block : Block) (txs : List Transaction)
    (tip : ChainTip) : Prop where
  height : block.header.index.toNat = tip.height.toNat + 1
  previous : block.header.previousHash = tip.hash
  sealed : Sealed H block txs
  after : tip.timestamp ≤ block.header.timestamp
  skew : block.header.timestamp ≤ nowMs + 120000

theorem guards_validateBlock :
    Guards (validateBlock H nowMs block tip txs : Prog σ BlockError Unit)
      fun _ => ValidBlock H nowMs block txs tip := by
  intro s s' u
  simp only [validateBlock, verifyProofOfWork, run_orPanic_bind_eq_ok_iff,
    U64.checkedAdd_eq_some_iff, run_ite_err_eq_ok_iff, not_not, not_lt, Bool.not_eq_true',
    Bool.not_eq_false]
  constructor
  · rintro ⟨expected, hexpected, rfl, hprevious, hwork, hafter, hskew, hmerkle, hhash, hrun⟩
    exact ⟨⟨hexpected, hprevious, ⟨hwork, hhash, hmerkle.symm⟩, hafter, hskew⟩,
      (guards_pass _ _ _).1 hrun |>.2⟩
  · rintro ⟨hvalid, rfl⟩
    exact ⟨_, hvalid.height, rfl, hvalid.previous, hvalid.sealed.work, hvalid.after, hvalid.skew,
      hvalid.sealed.merkle.symm, hvalid.sealed.hash, rfl⟩

/-- At a tip with a positive timestamp, a block with a predecessor that the rules accept passes the
second validator with the same transactions and clock. -/
theorem validateBlock_of_accepts (htip : 0 < tip.timestamp) (h0 : block.header.index ≠ 0)
    (h : Accepts H nowMs block txs tip db) :
    (validateBlock H nowMs block tip txs).run db = (.ok (), db) := by
  have hfollows := h.follows h0
  obtain ⟨hskew, hinterval⟩ := hfollows.timestamp
  have hmin := minInterval_pos block
  have hafter : tip.timestamp ≤ block.header.timestamp := by
    have := hinterval htip
    omega
  exact (guards_validateBlock _ _ _).2
    ⟨⟨hfollows.height, hfollows.previous, h.sealed, hafter, hskew⟩, rfl⟩

/-- A micro block with one transfer, a second after its tip. -/
theorem validateBlock_of_accepts_transfer :
    let db := KyveraDb.withAccounts [{ Account.new "kyv1a" with balance := 100 }]
    let header := BlockHeader.new 2000 5 zeroHash "aa" 1 false 0
    let block := { Block.new header ["aa"] "kyv1miner" 0 with hash := zeroHash }
    (validateBlock Sha3.zero 2500 block (emptyTip 4 1000 5) [transferTo "kyv1b"]).run db =
      (.ok (), db) := by
  intro db header block
  exact validateBlock_of_accepts (by decide) (by decide) (accepts_of_outcome (by decide +kernel))

/-! ## Mined blocks -/

/-- A block mined on top of the tip, under a Merkle root. -/
structure MinedOn (H : Sha3) (tip : ChainTip) (merkleRoot : String) (block : Block) : Prop where
  height : block.header.index.toNat = tip.height.toNat + 1
  previous : block.header.previousHash = tip.hash
  merkle : block.header.merkleRoot = merkleRoot
  work : meetsDifficulty block.hash block.header.difficulty = true
  hash : block.header.computeHash H = block.hash

theorem MinedOn.index_ne_zero {merkleRoot : String} (h : MinedOn H tip merkleRoot block) :
    block.header.index ≠ 0 := by
  intro h0
  have hheight := h.height
  rw [h0, UInt64.toNat_zero] at hheight
  omega

/-- Every producer mines a header that continues the tip. -/
theorem minedOn_of_produceBlock {s' : σ} {header : BlockHeader} {hashes : List String}
    {blockReward : UInt64}
    (h : (produceBlock H header hashes miner blockReward maxAttempts).run s = (.ok block, s'))
    (hindex : U64.checkedAdd tip.height 1 = some header.index)
    (hprevious : header.previousHash = tip.hash) :
    MinedOn H tip header.merkleRoot block ∧ block.header.isEpochBlock = header.isEpochBlock ∧
      block.transactionHashes = hashes := by
  obtain ⟨hheader, hhashes, -, hwork, hhash⟩ := run_produceBlock_eq_ok h
  have hheight : header.index.toNat = tip.height.toNat + 1 := U64.checkedAdd_eq_some_iff.1 hindex
  refine ⟨⟨?_, ?_, ?_, hwork, hhash⟩, ?_, hhashes⟩
  · rw [hheader]
    exact hheight
  · rw [hheader]
    exact hprevious
  · rw [hheader]
  · rw [hheader]

theorem minedOn_produceMicroBlock
    (h : ((produceMicroBlock H now txs tip miner maxAttempts).run s).1 = .ok block) :
    MinedOn H tip (computeMerkleRoot H (txs.map Transaction.hash)) block ∧
      block.header.isEpochBlock = false := by
  obtain ⟨index, hindex, hrun⟩ := run_orPanic_bind_eq_ok_iff.1 (run_eq_of_outcome h)
  obtain ⟨hmined, hkind, -⟩ := minedOn_of_produceBlock hrun hindex rfl
  exact ⟨hmined, hkind⟩

/-! ## Micro blocks -/

/-- Miner and validators agree on micro blocks: what is produced from affordable transactions is
accepted by both rule sets, if the clocks of the miner and the validator are close enough. -/
theorem accepts_produceMicroBlock (hsize : txs.length ≤ MAX_TRANSACTIONS_PER_MICRO_BLOCK)
    (hmicro : ∀ tx ∈ txs, tx.sender ≠ COINBASE_SENDER)
    (htxs : ((checkTransactions txs).run db).1 = .ok ())
    (hblock : ((produceMicroBlock H now txs tip miner maxAttempts).run db).1 = .ok block)
    (hafter : tip.timestamp + 500 ≤ block.header.timestamp)
    (hskew : block.header.timestamp ≤ nowMs + 120000) :
    Accepts H nowMs block txs tip db ∧
      (validateBlock H nowMs block tip txs).run db = (.ok (), db) := by
  obtain ⟨hmined, hkind⟩ := minedOn_produceMicroBlock hblock
  have hnot : block.header.isEpochBlock ≠ true := by
    rw [hkind]
    decide
  have hsealed : Sealed H block txs := ⟨hmined.work, hmined.hash, hmined.merkle.symm⟩
  have htransactions : TransactionsOk db.accounts txs :=
    guards_checkTransactions.outcome_eq_ok_iff.1 htxs
  have htimestamp : TimestampOk nowMs block tip := by
    refine ⟨hskew, fun _ => ?_⟩
    rw [if_neg hnot]
    exact hafter
  constructor
  · apply accepts_of_follows hsealed hmined.index_ne_zero
    exact ⟨hmined.height, hmined.previous, ⟨fun h => absurd h hnot, fun _ => hsize⟩, htimestamp,
      fun h => absurd h hnot, fun _ => hmicro, htransactions⟩
  · apply (guards_validateBlock _ _ _).2
    exact ⟨⟨hmined.height, hmined.previous, hsealed, by omega, hskew⟩, rfl⟩

/-- A micro block with one transfer, mined a second after its tip. -/
theorem accepts_produceMicroBlock_transfer :
    let db := KyveraDb.withAccounts [{ Account.new "kyv1a" with balance := 100 }]
    let header := BlockHeader.new 2000 5 zeroHash "aa" 1 false 0
    let block := { Block.new header ["aa"] "kyv1miner" 0 with hash := zeroHash }
    Accepts Sha3.zero 2500 block [transferTo "kyv1b"] (emptyTip 4 1000 5) db ∧
      (validateBlock Sha3.zero 2500 block (emptyTip 4 1000 5) [transferTo "kyv1b"]).run db =
        (.ok (), db) := by
  intro db header block
  have mined : ((produceMicroBlock Sha3.zero 2000 [transferTo "kyv1b"] (emptyTip 4 1000 5)
      "kyv1miner" 3).run db).1 = .ok block := by
    decide +kernel
  exact accepts_produceMicroBlock (by decide) (by decide) (by decide +kernel) mined (by decide)
    (by decide)

/-! ## Epoch blocks -/

theorem toList_coinbaseText (blockHash : String) (epochBlockHeight : UInt64) :
    ("coinbase:" ++ blockHash ++ ":" ++ toString epochBlockHeight).toList =
      'c' :: ("oinbase:".toList ++ blockHash.toList ++ ":".toList ++
        (toString epochBlockHeight).toList) := by
  simp [String.toList_append]

theorem coinbaseInput_ne_emptyBlockInput (blockHash : String) (epochBlockHeight : UInt64) :
    coinbaseInput blockHash epochBlockHeight ≠ emptyBlockInput := by
  intro h
  have e := congrArg String.toList (String.toByteArray_inj.1 h)
  rw [toList_coinbaseText] at e
  exact absurd (List.cons.inj e).1 (by decide)

/-- The text of a header starts with a digit. -/
theorem coinbaseInput_ne_header (blockHash : String) (epochBlockHeight : UInt64)
    (header : BlockHeader) : coinbaseInput blockHash epochBlockHeight ≠ header.input := by
  intro h
  have e := congrArg String.toList (String.toByteArray_inj.1 h)
  obtain ⟨c, cs, hindex, hdigit⟩ := Text.digits_eq_cons header.index.toNat
  rw [toList_coinbaseText] at e
  simp only [String.toList_append, List.append_assoc, Text.toList_toString_uint64, hindex,
    List.cons_append] at e
  rw [← (List.cons.inj e).1] at hdigit
  exact absurd hdigit (by decide)

/-- A pair of hashes contains no colon. -/
theorem coinbaseInput_ne_pairInput (blockHash : String) (epochBlockHeight : UInt64)
    {left right : String} (hleft : ':' ∉ left.toList) (hright : ':' ∉ right.toList) :
    coinbaseInput blockHash epochBlockHeight ≠ pairInput left right := by
  intro h
  have e := congrArg String.toList (String.toByteArray_inj.1 h)
  have hmem : ':' ∈ ("coinbase:" ++ blockHash ++ ":" ++ toString epochBlockHeight).toList := by
    simp [String.toList_append]
  rw [e, String.toList_append] at hmem
  rcases List.mem_append.1 hmem with hmem | hmem
  · exact hleft hmem
  · exact hright hmem

theorem colon_notMem_hex (H : Sha3) (b : ByteArray) : ':' ∉ (H.sha3256Hex b).toList := by
  intro h
  exact absurd (H.isHex_hex b _ h) (by decide)

theorem minedOn_produceEpochBlock {micro : List String} {stateRoot : String}
    (h : ((produceEpochBlock H now micro tip miner stateRoot maxAttempts).run s).1 = .ok block) :
    MinedOn H tip (computeMerkleRoot H micro) block ∧ block.header.isEpochBlock = true ∧
      block.transactionHashes = micro := by
  obtain ⟨epoch, -, hrest⟩ := run_orPanic_bind_eq_ok_iff.1 (run_eq_of_outcome h)
  obtain ⟨index, hindex, hrun⟩ := run_orPanic_bind_eq_ok_iff.1 hrest
  exact minedOn_of_produceBlock hrun hindex rfl

/-- The bytes whose hashes make up an epoch block: the headers of the micro blocks, the nodes of the
Merkle tree over their hashes, and the text of the coinbase. -/
def epochInputs (H : Sha3) (headers : List BlockHeader) (block : Block) : List ByteArray :=
  headers.map BlockHeader.input ++ merkleInputs H (headers.map fun h => h.computeHash H) ++
    [coinbaseInput block.hash block.header.epochIndex]

/-- The hash of a coinbase is no Merkle root over hashes of micro blocks, if nothing collides. -/
theorem coinbaseHash_ne_merkleRoot {headers : List BlockHeader}
    (hfree : H.CollisionFree (epochInputs H headers block)) :
    H.sha3256Hex (coinbaseInput block.hash block.header.epochIndex) ≠
      computeMerkleRoot H (headers.map fun h => h.computeHash H) := by
  intro e
  have hcoinbase : coinbaseInput block.hash block.header.epochIndex ∈ epochInputs H headers block :=
    List.mem_append_right _ (List.mem_singleton.2 rfl)
  rcases headers with _ | ⟨header, _ | ⟨header', rest⟩⟩
  · apply coinbaseInput_ne_emptyBlockInput
    exact hfree.eq hcoinbase (List.mem_append_left _ (List.mem_singleton.2 rfl)) e
  · apply coinbaseInput_ne_header
    exact hfree.eq hcoinbase (List.mem_append_left _ (List.mem_append_left _ List.mem_cons_self)) e
  · have hleaves : ∀ s ∈ (header :: header' :: rest).map fun h => h.computeHash H,
        ':' ∉ s.toList := by
      intro s hs
      obtain ⟨h, -, rfl⟩ := List.mem_map.1 hs
      exact colon_notMem_hex H _
    obtain ⟨left, right, hleft, hright, hmem, hroot⟩ := computeMerkleRoot_eq_hashPair H
      (p := fun s => ':' ∉ s.toList) (colon_notMem_hex H) _ (by simp) hleaves
    rw [hroot] at e
    apply coinbaseInput_ne_pairInput _ _ hleft hright
    exact hfree.eq hcoinbase (List.mem_append_left _ (List.mem_append_right _ hmem)) e

/-- An epoch block is never accepted with its own coinbase: it commits to the hashes of the micro
blocks, and the Merkle rule recomputes the root from the hash of the coinbase. -/
theorem rejects_produceEpochBlock {headers : List BlockHeader} {stateRoot : String} {now' : ℤ}
    (hsize : headers.length ≤ MAX_MICRO_BLOCKS_PER_EPOCH)
    (hblock : ((produceEpochBlock H now (headers.map fun h => h.computeHash H) tip miner stateRoot
      maxAttempts).run db).1 = .ok block)
    (hafter : tip.timestamp + 60000 ≤ block.header.timestamp)
    (hskew : block.header.timestamp ≤ nowMs + 120000)
    (hfree : H.CollisionFree (epochInputs H headers block)) :
    (validateBlockRules H nowMs block
      [buildCoinbase H now' miner block.header.epochIndex block.hash] tip).run db =
        (.err .invalidMerkleRoot, db) := by
  obtain ⟨hmined, hkind, hhashes⟩ := minedOn_produceEpochBlock hblock
  have hcount : SizeOk block [buildCoinbase H now' miner block.header.epochIndex block.hash] := by
    refine ⟨fun _ => ?_, fun h => absurd hkind h⟩
    rw [hhashes, List.length_map]
    exact hsize
  have htimestamp : TimestampOk nowMs block tip := by
    refine ⟨hskew, fun _ => ?_⟩
    rw [if_pos hkind]
    exact hafter
  have hmerkle : computeMerkleRoot H
      ([buildCoinbase H now' miner block.header.epochIndex block.hash].map Transaction.hash) ≠
        block.header.merkleRoot := by
    rw [hmined.merkle]
    exact coinbaseHash_ne_merkleRoot hfree
  rw [validateBlockRules, if_neg hmined.index_ne_zero, guards_checkHeight.run_bind hmined.height,
    guards_checkPreviousHash.run_bind hmined.previous, guards_checkBlockSize.run_bind hcount,
    guards_checkTimestamp.run_bind htimestamp, guards_checkProofOfWork.run_bind hmined.work,
    guards_checkBlockHash.run_bind hmined.hash, checkMerkleRoot, if_pos hmerkle]
  rfl

/-- The header of a micro block. -/
def microHeader : BlockHeader := BlockHeader.new 1000 4 zeroHash "aa" 1 false 0

/-- The epoch block that is mined over this micro block with the checksum in the place of SHA3. -/
def minedEpochBlock : Block :=
  let root := "1749920179563903131575450660550461365226002245956529718733910064"
  let header := { BlockHeader.new 62002 5 zeroHash root 1 true 1 with stateRoot := zeroHash }
  { Block.new header [root] "kyv1miner" 50000000000 with
    hash := "0313569825116539414297085617147091367009161175724168258528489520" }

theorem produceEpochBlock_minedEpochBlock :
    ((produceEpochBlock Sha3.checksum 62002 [microHeader.computeHash Sha3.checksum]
      (emptyTip 4 1000 5) "kyv1miner" zeroHash 1).run KyveraDb.empty).1 = .ok minedEpochBlock := by
  decide +kernel

theorem collisionFree_minedEpochBlock :
    Sha3.checksum.CollisionFree
      (minedEpochBlock.header.input :: epochInputs Sha3.checksum [microHeader] minedEpochBlock) :=
  Sha3.collisionFree_of_nodup (by decide +kernel)

/-- The rules name the Merkle root of this block. -/
theorem rejects_minedEpochBlock :
    (validateBlockRules Sha3.checksum 62002 minedEpochBlock
      [buildCoinbase Sha3.checksum 62002 "kyv1miner" 1 minedEpochBlock.hash]
      (emptyTip 4 1000 5)).run KyveraDb.empty = (.err .invalidMerkleRoot, KyveraDb.empty) := by
  have mined : ((produceEpochBlock Sha3.checksum 62002
      ([microHeader].map fun h => h.computeHash Sha3.checksum) (emptyTip 4 1000 5) "kyv1miner"
      zeroHash 1).run KyveraDb.empty).1 = .ok minedEpochBlock := produceEpochBlock_minedEpochBlock
  exact rejects_produceEpochBlock (by decide) mined (by decide) (by decide)
    (collisionFree_minedEpochBlock.mono (List.subset_cons_self _ _))

/-- This block is produced in time, nothing collides, and it is not accepted. -/
theorem not_accepts_minedEpochBlock :
    ((produceEpochBlock Sha3.checksum 62002 [microHeader.computeHash Sha3.checksum]
        (emptyTip 4 1000 5) "kyv1miner" zeroHash 1).run KyveraDb.empty).1 = .ok minedEpochBlock ∧
      (emptyTip 4 1000 5).timestamp + 60000 ≤ minedEpochBlock.header.timestamp ∧
      minedEpochBlock.header.timestamp ≤ 62002 + 120000 ∧
      Sha3.checksum.CollisionFree
        (minedEpochBlock.header.input :: epochInputs Sha3.checksum [microHeader] minedEpochBlock) ∧
      ¬ Accepts Sha3.checksum 62002 minedEpochBlock
        [buildCoinbase Sha3.checksum 62002 "kyv1miner" 1 minedEpochBlock.hash] (emptyTip 4 1000 5)
        KyveraDb.empty := by
  refine ⟨produceEpochBlock_minedEpochBlock, by decide, by decide, collisionFree_minedEpochBlock,
    fun h => ?_⟩
  have hmerkle := h.sealed.merkle
  revert hmerkle
  decide +kernel

end Kyvera
