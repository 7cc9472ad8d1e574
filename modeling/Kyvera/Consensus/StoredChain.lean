import Kyvera.Chain.ForkChoice
import Kyvera.Consensus.GenesisState
import Kyvera.Consensus.Linked
import Kyvera.Ledger.Integrity

/-!
# The stored chain

A node that accepts a block saves the block and then the tip.  A disk that refuses one of these
writes leaves a block that no tip leads to, or a height that is above the tip.  So at any time the
saved tip is the one that the stored blocks lead to from genesis on, and a node that starts again
goes on where it was.
-/

namespace Kyvera

open Effect Effect.Prog Std Trace

/-! ## Chains -/

/-- The database stores the blocks as its chain: each is found at its height and by its hash, they
are linked, and they lead from the first tip of all to the saved one. -/
structure KyveraDb.StoresChain (db : KyveraDb) (blocks : List Block) : Prop where
  tip : ∃ tip, db.metadata[CHAIN_TIP_KEY]? = some (.tip tip) ∧
    ChainTip.genesis.advanceAll blocks = some tip ∧ tip.height.toNat + 1 = blocks.length
  index : ∀ (i : ℕ) (hi : i < blocks.length), blocks[i].header.index.toNat = i
  height : ∀ b ∈ blocks, db.blocksByHeight[b.header.index]? = some b.hash
  hash : ∀ b ∈ blocks, db.blocksByHash[b.hash]? = some b
  linked : blocks.IsChain fun b b' => b'.header.previousHash = b.hash

/-- No write changes the blocks or the tip. -/
def KeepsChain (f : KyveraDb → KyveraDb) : Prop :=
  ∀ db, (f db).blocksByHash = db.blocksByHash ∧ (f db).blocksByHeight = db.blocksByHeight ∧
    (f db).metadata[CHAIN_TIP_KEY]? = db.metadata[CHAIN_TIP_KEY]?

/-- The blocks and the tip are the same. -/
def SameChain (db db' : KyveraDb) : Prop :=
  db'.blocksByHash = db.blocksByHash ∧ db'.blocksByHeight = db.blocksByHeight ∧
    db'.metadata[CHAIN_TIP_KEY]? = db.metadata[CHAIN_TIP_KEY]?

instance : Std.Refl SameChain := ⟨fun _ => ⟨rfl, rfl, rfl⟩⟩

instance : IsTrans KyveraDb SameChain where
  trans _ _ _ h h' := ⟨h'.1.trans h.1, h'.2.1.trans h.2.1, h'.2.2.trans h.2.2⟩

section StoresChain

variable {db db' : KyveraDb} {blocks : List Block} {block : Block} {tip tip' : ChainTip}

theorem ChainTip.advanceAll_concat :
    tip.advanceAll (blocks ++ [block]) = (tip.advanceAll blocks).bind fun t => t.advance block := by
  unfold ChainTip.advanceAll
  simp [List.foldlM_append]

theorem ChainTip.at_last (hne : blocks ≠ []) (h : tip.advanceAll blocks = some tip') :
    ∃ last ∈ blocks.getLast?, tip'.hash = last.hash := by
  obtain ⟨front, last, rfl⟩ := (List.eq_nil_or_concat' blocks).resolve_left hne
  rw [advanceAll_concat, Option.bind_eq_some_iff] at h
  obtain ⟨mid, -, hadvance⟩ := h
  obtain ⟨_, -, rfl⟩ := advance_eq_some_iff.1 hadvance
  exact ⟨last, by simp, rfl⟩

theorem KyveraDb.StoresChain.congr (h : db.StoresChain blocks)
    (htip : db'.metadata[CHAIN_TIP_KEY]? = db.metadata[CHAIN_TIP_KEY]?)
    (hheight : ∀ b ∈ blocks, db'.blocksByHeight[b.header.index]? =
      db.blocksByHeight[b.header.index]?)
    (hhash : ∀ b ∈ blocks, db'.blocksByHash[b.hash]? = db.blocksByHash[b.hash]?) :
    db'.StoresChain blocks where
  tip := by
    rw [htip]
    exact h.tip
  index := h.index
  height := fun b hb => (hheight b hb).trans (h.height b hb)
  hash := fun b hb => (hhash b hb).trans (h.hash b hb)
  linked := h.linked

theorem KyveraDb.StoresChain.of_same (h : db.StoresChain blocks) (hs : SameChain db db') :
    db'.StoresChain blocks := by
  obtain ⟨hhash, hheight, htip⟩ := hs
  refine h.congr htip (fun b _ => ?_) fun b _ => ?_
  · rw [hheight]
  · rw [hhash]

theorem KyveraDb.StoresChain.index_lt (h : db.StoresChain blocks) (hb : block ∈ blocks) :
    block.header.index.toNat < blocks.length := by
  obtain ⟨i, hi, rfl⟩ := List.getElem_of_mem hb
  rw [h.index i hi]
  exact hi

/-- A block with a new hash may be written, at any height above the tip. -/
theorem KyveraDb.StoresChain.insertBlock (h : db.StoresChain blocks)
    (hnew : ∀ b ∈ blocks, b.hash ≠ block.hash) :
    { db with blocksByHash := db.blocksByHash.insert block.hash block }.StoresChain blocks :=
  h.congr rfl (fun _ _ => rfl) fun b hb =>
    TreeSum.getElem?_insert_of_ne _ _ (Ne.symm (hnew b hb))

theorem KyveraDb.StoresChain.insertHeight (h : db.StoresChain blocks) {n : UInt64}
    (hn : blocks.length ≤ n.toNat) (hash : String) :
    { db with blocksByHeight := db.blocksByHeight.insert n hash }.StoresChain blocks := by
  refine h.congr rfl (fun b hb => ?_) fun _ _ => rfl
  apply TreeSum.getElem?_insert_of_ne
  rintro rfl
  exact absurd (h.index_lt hb) (Nat.not_lt.2 hn)

/-- The chain goes on with an accepted block once the tip behind it is saved. -/
theorem KyveraDb.StoresChain.adopt {H : Sha3} {a : Arrival} (h : db.StoresChain blocks)
    (htip : db.metadata[CHAIN_TIP_KEY]? = some (.tip tip)) (haccepted : Extends H tip a tip')
    (h0 : a.block.header.index ≠ 0) (hnew : ∀ b ∈ blocks, b.hash ≠ a.block.hash) :
    { db with
      blocksByHash := db.blocksByHash.insert a.block.hash a.block
      blocksByHeight := db.blocksByHeight.insert a.block.header.index a.block.hash
      metadata := db.metadata.insert CHAIN_TIP_KEY (.tip tip') }.StoresChain
        (blocks ++ [a.block]) := by
  obtain ⟨_, hsaved, hadvance, hlength⟩ := h.tip
  rw [htip] at hsaved
  cases hsaved
  have hfollows := haccepted.follows h0
  have hindex : a.block.header.index.toNat = blocks.length := hfollows.height.trans hlength
  have hkept := (h.insertBlock hnew).insertHeight hindex.ge a.block.hash
  have hne : blocks ≠ [] := by
    rintro rfl
    cases hlength
  obtain ⟨last, hlast, hhash⟩ := ChainTip.at_last hne hadvance
  refine ⟨⟨tip', ExtTreeMap.getElem?_insert_self, ?_, ?_⟩, ?_, ?_, ?_, ?_⟩
  · rw [ChainTip.advanceAll_concat, hadvance, Option.bind_some, haccepted.2]
  · rw [haccepted.at_block.2, hindex, List.length_append, List.length_singleton]
  · intro i hi
    rw [List.length_append, List.length_singleton] at hi
    rw [List.getElem_append]
    split_ifs with hlt
    · exact h.index i hlt
    · simp only [List.getElem_singleton]
      omega
  · intro b hb
    rcases List.mem_append.1 hb with hb | hb
    · exact hkept.height b hb
    · rw [List.mem_singleton.1 hb]
      exact ExtTreeMap.getElem?_insert_self
  · intro b hb
    rcases List.mem_append.1 hb with hb | hb
    · exact hkept.hash b hb
    · rw [List.mem_singleton.1 hb]
      exact ExtTreeMap.getElem?_insert_self
  · refine List.isChain_append.2 ⟨h.linked, List.isChain_singleton _, ?_⟩
    intro b hb b' hb'
    rw [Option.mem_unique hb hlast, ← hhash, ← Option.some.inj hb']
    exact hfollows.previous

end StoresChain

/-! ## Operations that leave the chain alone -/

section Footprint

variable {H : Sha3} {db : KyveraDb} {tip : ChainTip}

theorem savesAccounts_keepsChain : SavesAccounts KeepsChain := fun _ _ => ⟨rfl, rfl, rfl⟩

theorem keepsChain_insert {k : String} (hk : k ≠ CHAIN_TIP_KEY) (v : MetaEntry) :
    KeepsChain fun db => { db with metadata := db.metadata.insert k v } :=
  fun _ => ⟨rfl, rfl, TreeSum.getElem?_insert_of_ne _ _ hk⟩

theorem keepsChain_erase {k : String} (hk : k ≠ CHAIN_TIP_KEY) :
    KeepsChain fun db => { db with metadata := db.metadata.erase k } :=
  fun _ => ⟨rfl, rfl, TreeSum.getElem?_erase_of_ne _ hk⟩

theorem keepsChain_op (op : Op) : op.program.WritesOnly KeepsChain := by
  refine op.writesOnly savesAccounts_keepsChain
    (fun p _ => keepsChain_insert (ne_pendingUnstakeKey (by decide) p).symm _) fun k hk => ?_
  apply keepsChain_erase
  rintro rfl
  revert hk
  decide

/-- Only a block or a tip changes the chain. -/
def StorageCall.OffChain : StorageCall → Prop
  | .saveBlock _ => False
  | .saveChainTip _ => False
  | _ => True

theorem keepsChain_saveTransaction (tx : Transaction) :
    (saveTransaction tx).WritesOnly KeepsChain := by
  have hwrite : ∀ k v, KeepsChain fun db =>
      { db with transactions := db.transactions.insert k v } := fun _ _ _ => ⟨rfl, rfl, rfl⟩
  unfold saveTransaction
  exact WritesOnly.ite trivial ((writesOnly_set (hwrite _ _) _).bind fun _ =>
    writesOnly_set (hwrite _ _) _)

/-- With a tip, an initialisation does not get to its first write. -/
theorem readOnly_initializeChain_of_tip (h : db.metadata[CHAIN_TIP_KEY]? = some (.tip tip))
    (now : ℤ) : (initializeChain H now).ReadOnly db := by
  unfold initializeChain
  apply (readOnly_loadChainTip db).everyWrite_bind
  intro found hfound
  rw [run_loadChainTip_of_tip h] at hfound
  cases hfound
  trivial

theorem StorageCall.OffChain.everyWrite {call : StorageCall} (h : call.OffChain)
    (htip : db.metadata[CHAIN_TIP_KEY]? = some (.tip tip)) :
    (call.program H).EveryWrite SameChain db := by
  have hsame : ∀ f, KeepsChain f → ∀ db, SameChain db (f db) := fun f hf db => hf db
  cases call with
  | onAccounts op => exact (keepsChain_op op).everyWrite hsame db
  | saveAccount a => exact (savesAccounts_keepsChain.saveAccount a).everyWrite hsame db
  | saveBlock b => exact absurd h not_false
  | saveChainTip tip => exact absurd h not_false
  | saveBlockTransactions txs =>
      exact (writesOnly_forM fun tx _ => keepsChain_saveTransaction tx).everyWrite hsame db
  | saveStateRoot root =>
      exact (writesOnly_set (keepsChain_insert (by decide) _) _).everyWrite hsame db
  | saveSnapshot s =>
      exact (writesOnly_saveSnapshot s
        (fun n => keepsChain_insert (ne_snapshotKey (by decide) n).symm _)
        fun n => keepsChain_insert (by decide) _).everyWrite hsame db
  | rollbackToSnapshot s =>
      exact (savesAccounts_keepsChain.rollbackToSnapshot s (fun x _ => ⟨rfl, rfl, rfl⟩)
        (keepsChain_insert (by decide) _)).everyWrite hsame db
  | initializeChain now =>
      exact ((readOnly_initializeChain_of_tip htip now).everyWrite).bind fun _ _ => trivial

end Footprint

/-! ## Nodes -/

/-- What a node does: it accepts an arriving block, or it performs another operation. -/
inductive NodeCall where
  | accept (block : Block) (transactions : List Transaction) (nowMs : ℤ)
  | perform (call : StorageCall)

/-- The block that is added to the chain: saved with its tip, unless one of the three writes is
refused. -/
def NodeCall.added : NodeCall × Option ℕ → List Block
  | (.accept block _ _, none) => [block]
  | (.accept block _ _, some n) => if n < 3 then [] else [block]
  | (.perform _, _) => []

/-- A block is saved, and then the tip behind it. -/
def saveAccepted (block : Block) (tip : ChainTip) : DbM Unit := do
  saveBlock block
  saveChainTip tip

/-- The state after a program, on a disk that may refuse the write after the first so many. -/
def afterCut (p : DbM Unit) (cut : Option ℕ) (db : KyveraDb) : KyveraDb :=
  match cut with
  | none => (p.run db).2
  | some n => (p.runRefusing n db).2

/-- A step of a node: a block is accepted by the rules at the saved tip, it has a predecessor, and no
block at a height up to the tip has its hash. -/
def NodeStep (H : Sha3) (db : KyveraDb) : NodeCall × Option ℕ → KyveraDb → Prop
  | (.accept block transactions nowMs, cut), db' =>
      ∃ tip tip', loadChainTip.run db = (.ok (some tip), db) ∧
        Extends H tip ⟨block, transactions, db, nowMs⟩ tip' ∧ block.header.index ≠ 0 ∧
        (∀ n ≤ tip.height, ∀ b, (getBlockByHeight n).run db = (.ok (some b), db) →
          b.hash ≠ block.hash) ∧
        db' = afterCut (saveAccepted block tip') cut db
  | (.perform call, cut), db' => call.OffChain ∧ db' = afterCut (call.program H) cut db

section Nodes

variable {H : Sha3} {db db' : KyveraDb} {blocks : List Block} {block genesis : Block}
  {tip tip' : ChainTip} {now : ℤ}

theorem run_loadChainTip_eq_some_iff :
    loadChainTip.run db = (.ok (some tip), db) ↔ db.metadata[CHAIN_TIP_KEY]? = some (.tip tip) := by
  refine ⟨fun h => ?_, run_loadChainTip_of_tip⟩
  rw [loadChainTip, run_bind_of_ok (KyveraDb.run_getMetadata CHAIN_TIP_KEY db)] at h
  rcases hv : db.metadata[CHAIN_TIP_KEY]? with _ | (t | _ | _ | _) <;> rw [hv] at h <;> cases h
  rfl

theorem KyveraDb.StoresChain.run_getBlockByHeight (h : db.StoresChain blocks) (hb : block ∈ blocks) :
    (getBlockByHeight block.header.index).run db = (.ok (some block), db) := by
  rw [Kyvera.run_getBlockByHeight, h.height block hb, Option.bind_some, h.hash block hb]

/-- A disk that refuses a write of an accepted block leaves the chain as it is, and one that takes
all three adds the block. -/
theorem KyveraDb.StoresChain.accept (h : db.StoresChain blocks) {transactions : List Transaction}
    {nowMs : ℤ} {cut : Option ℕ}
    (hstep : NodeStep H db (.accept block transactions nowMs, cut) db') :
    db'.StoresChain (blocks ++ NodeCall.added (.accept block transactions nowMs, cut)) := by
  obtain ⟨tip, tip', hload, haccepted, h0, hnone, rfl⟩ := hstep
  have htip := run_loadChainTip_eq_some_iff.1 hload
  obtain ⟨_, hsaved, -, hlength⟩ := h.tip
  rw [htip] at hsaved
  cases hsaved
  have hnew : ∀ b ∈ blocks, b.hash ≠ block.hash := by
    intro b hb
    have hlt := h.index_lt hb
    exact hnone b.header.index (UInt64.le_iff_toNat_le.2 (by omega)) b (h.run_getBlockByHeight hb)
  have hindex : block.header.index.toNat = blocks.length :=
    (haccepted.follows h0).height.trans hlength
  have hall := h.adopt htip haccepted h0 hnew
  match cut with
  | none => exact hall
  | some 0 =>
      show db.StoresChain (blocks ++ [])
      rw [List.append_nil]
      exact h
  | some 1 =>
      show KyveraDb.StoresChain _ (blocks ++ [])
      rw [List.append_nil]
      exact h.insertBlock hnew
  | some 2 =>
      show KyveraDb.StoresChain _ (blocks ++ [])
      rw [List.append_nil]
      exact (h.insertBlock hnew).insertHeight hindex.ge block.hash
  | some (n + 3) =>
      show KyveraDb.StoresChain _ (blocks ++ if n + 3 < 3 then [] else [block])
      rw [if_neg (by omega)]
      exact hall

/-- A step of a node adds the block that it saves entirely. -/
theorem KyveraDb.StoresChain.step (h : db.StoresChain blocks) {call : NodeCall × Option ℕ}
    (hstep : NodeStep H db call db') : db'.StoresChain (blocks ++ NodeCall.added call) := by
  obtain ⟨call, cut⟩ := call
  cases call with
  | accept block transactions nowMs => exact h.accept hstep
  | perform call =>
      obtain ⟨hoff, rfl⟩ := hstep
      obtain ⟨tip, htip, -⟩ := h.tip
      have hwrites := hoff.everyWrite (H := H) htip
      show KyveraDb.StoresChain _ (blocks ++ [])
      rw [List.append_nil]
      cases cut with
      | none => exact h.of_same hwrites.run
      | some n => exact h.of_same (hwrites.runRefusing n)

/-- The chain after an initialisation: the genesis block. -/
theorem IsGenesis.storesChain (hg : IsGenesis H now genesis) (db : KyveraDb) :
    (db.initialized H genesis).StoresChain [genesis] where
  tip := by
    refine ⟨genesisTip genesis, ExtTreeMap.getElem?_insert_self, ?_, rfl⟩
    have hadvance : ChainTip.genesis.advanceAll ([] ++ [genesis]) = ChainTip.genesis.advance genesis :=
      ChainTip.advanceAll_concat
    exact hadvance.trans hg.advance
  index := by
    intro i hi
    obtain rfl : i = 0 := Nat.lt_one_iff.1 hi
    rw [List.getElem_singleton, hg.index]
    rfl
  height := by
    intro b hb
    rw [List.mem_singleton.1 hb, hg.index]
    exact ExtTreeMap.getElem?_insert_self
  hash := by
    intro b hb
    rw [List.mem_singleton.1 hb]
    exact ExtTreeMap.getElem?_insert_self
  linked := List.isChain_singleton _

/-- What a node that starts again reads of its chain. -/
structure KyveraDb.ReadsChain (db : KyveraDb) (blocks : List Block) : Prop where
  tip : ∃ tip, loadChainTip.run db = (.ok (some tip), db) ∧
    ChainTip.genesis.advanceAll blocks = some tip ∧ tip.height.toNat + 1 = blocks.length
  block : ∀ (i : ℕ) (hi : i < blocks.length), ∃ height : UInt64, height.toNat = i ∧
    (getBlockByHeight height).run db = (.ok (some blocks[i]), db) ∧
    (getBlockByHash blocks[i].hash).run db = (.ok (some blocks[i]), db)
  linked : blocks.IsChain fun b b' =>
    b'.header.previousHash = b.hash ∧ b'.header.index.toNat = b.header.index.toNat + 1
  genesis : verifyGenesisIntegrity.run db = (.ok true, db)

theorem KyveraDb.StoresChain.reads {later : List Block} (h : db.StoresChain (genesis :: later))
    (hg : IsGenesis H now genesis) : db.ReadsChain (genesis :: later) where
  tip := by
    obtain ⟨tip, htip, hrest⟩ := h.tip
    exact ⟨tip, run_loadChainTip_of_tip htip, hrest⟩
  block := by
    intro i hi
    have hb := List.getElem_mem hi
    refine ⟨_, h.index i hi, h.run_getBlockByHeight hb, ?_⟩
    rw [run_getBlockByHash, h.hash _ hb]
  linked := by
    rw [List.isChain_iff_getElem]
    intro i hi
    refine ⟨List.isChain_iff_getElem.1 h.linked i hi, ?_⟩
    rw [h.index, h.index]
  genesis := by
    have hfound := h.run_getBlockByHeight List.mem_cons_self
    rw [hg.index] at hfound
    exact run_verifyGenesisIntegrity hg hfound

end Nodes

/-! ## Runs -/

section Runs

variable {H : Sha3} {now : ℤ} {tip : ChainTip} {db₀ db : KyveraDb} {blocks : List Block}
  {run : List (Step KyveraDb (NodeCall × Option ℕ))}

/-- A run of a node adds the blocks that it saves entirely, in their order. -/
theorem storesChain_final (h : db.StoresChain blocks) (hrun : IsRun (NodeStep H) db run) :
    (final db run).StoresChain (blocks ++ run.flatMap fun t => NodeCall.added t.call) := by
  induction run generalizing db blocks with
  | nil => simpa [final] using h
  | cons t rest ih =>
      obtain ⟨rfl, ht, hrest⟩ := hrun
      rw [List.flatMap_cons, ← List.append_assoc]
      exact ih (h.step ht) hrest

/-- After an initialisation, and whatever a node did since then, accepting blocks with any of their
writes refused and performing any other operation: a node that starts again reads a linked chain of
the genesis and exactly the blocks that were saved entirely, with the tip that they lead to. -/
theorem readsChain_of_run (hgenesis : (initializeChain H now).run db₀ = (.ok tip, db))
    (hrun : IsRun (NodeStep H) db run) :
    ∃ genesis, IsGenesis H now genesis ∧ tip = genesisTip genesis ∧
      (final db run).ReadsChain (genesis :: run.flatMap fun t => NodeCall.added t.call) := by
  obtain ⟨genesis, hg, htip, rfl⟩ := run_initializeChain hgenesis
  have hstored := storesChain_final (hg.storesChain db₀) hrun
  exact ⟨genesis, hg, htip, hstored.reads hg⟩

end Runs

/-- The tip at the genesis that is mined at time 1 with the checksum in the place of SHA3. -/
def checksumTip : ChainTip :=
  ⟨"0570306743134327235654864160065662372796921996285867193969750320", 0, 1, 1, 0, 1⟩

theorem outcome_initializeChain_checksum :
    ((initializeChain Sha3.checksum 1).run KyveraDb.empty).1 = .ok checksumTip := by
  decide +kernel

/-- An empty block that follows it. -/
def checksumBlock : Block :=
  let header := BlockHeader.new 512 1 checksumTip.hash (computeMerkleRoot Sha3.checksum []) 1 false 0
  { Block.new header [] "kyv1m" 0 with hash := header.computeHash Sha3.checksum }

/-- The rules accept this block whatever the accounts are: it has no transactions. -/
theorem extends_checksumBlock (db : KyveraDb) :
    Extends Sha3.checksum checksumTip ⟨checksumBlock, [], db, 512⟩
      ⟨checksumBlock.hash, 1, 512, 1, 0, 2⟩ := by
  have hempty : ((validateBlockRules Sha3.checksum 512 checksumBlock [] checksumTip).run
      KyveraDb.empty).1 = .ok () := by
    decide +kernel
  obtain ⟨hsealed, -, hfollows⟩ := guards_validateBlockRules.outcome_eq_ok_iff.1 hempty
  have hnone : TransactionsOk db.accounts [] := guards_checkTransactions.outcome_eq_ok_iff.1 rfl
  refine ⟨(guards_validateBlockRules _ _ ()).2 ⟨⟨hsealed, fun h0 => ?_, fun h0 => ?_⟩, rfl⟩, rfl⟩
  · exact absurd (show checksumBlock.header.index = 0 from h0) (by decide)
  · exact { hfollows h0 with transactions := hnone }

theorem nodeStep_checksumBlock {db : KyveraDb} {genesis : Block} {cut : Option ℕ}
    (hg : IsGenesis Sha3.checksum 1 genesis) (hgtip : checksumTip = genesisTip genesis)
    (h : db.StoresChain [genesis]) :
    NodeStep Sha3.checksum db (.accept checksumBlock [] 512, cut)
      (afterCut (saveAccepted checksumBlock ⟨checksumBlock.hash, 1, 512, 1, 0, 2⟩) cut db) := by
  obtain ⟨tip, htip, hadvance, -⟩ := h.tip
  have hone : ChainTip.genesis.advanceAll [genesis] = some (genesisTip genesis) :=
    (@ChainTip.advanceAll_concat [] genesis .genesis).trans hg.advance
  rw [hone, ← hgtip] at hadvance
  cases hadvance
  refine ⟨checksumTip, _, run_loadChainTip_of_tip htip, extends_checksumBlock db, by decide, ?_, rfl⟩
  intro n hn b hb
  obtain rfl : n = 0 := UInt64.le_zero_iff.1 hn
  have hbottom := h.run_getBlockByHeight (List.mem_singleton_self genesis)
  rw [hg.index, hb] at hbottom
  cases hbottom
  rw [show genesis.hash = checksumTip.hash from congrArg ChainTip.hash hgtip.symm]
  decide +kernel

/-- A block whose tip is refused, an operation, and the block again. -/
theorem readsChain_of_refusals :
    let tip := ⟨checksumBlock.hash, 1, 512, 1, 0, 2⟩
    ∃ db, (initializeChain Sha3.checksum 1).run KyveraDb.empty = (.ok checksumTip, db) ∧
      let db₁ := afterCut (saveAccepted checksumBlock tip) (some 2) db
      let db₂ := afterCut (Op.creditAccount "kyv1a" 5).program none db₁
      let db₃ := afterCut (saveAccepted checksumBlock tip) none db₂
      db₁.blocksByHeight[(1 : UInt64)]? = some checksumBlock.hash ∧
        ∃ genesis, IsGenesis Sha3.checksum 1 genesis ∧ checksumTip = genesisTip genesis ∧
          db₃.ReadsChain [genesis, checksumBlock] := by
  intro tip
  have hgenesis := run_eq_of_outcome outcome_initializeChain_checksum
  generalize ((initializeChain Sha3.checksum 1).run KyveraDb.empty).2 = db at hgenesis
  obtain ⟨genesis, hg, hgtip, hdb⟩ := run_initializeChain hgenesis
  have hstored : db.StoresChain [genesis] := hdb ▸ hg.storesChain KyveraDb.empty
  refine ⟨db, hgenesis, ?_⟩
  intro db₁ db₂ db₃
  have hfirst : NodeStep Sha3.checksum db (.accept checksumBlock [] 512, some 2) db₁ :=
    nodeStep_checksumBlock hg hgtip hstored
  have hcredit : NodeStep Sha3.checksum db₁
      (.perform (.onAccounts (.creditAccount "kyv1a" 5)), none) db₂ := ⟨trivial, rfl⟩
  have hsecond : NodeStep Sha3.checksum db₂ (.accept checksumBlock [] 512, none) db₃ :=
    nodeStep_checksumBlock hg hgtip ((hstored.step hfirst).step hcredit)
  have hheight : db₁.blocksByHeight[(1 : UInt64)]? = some checksumBlock.hash :=
    ExtTreeMap.getElem?_insert_self
  clear_value db₃ db₂ db₁
  have hrun : IsRun (NodeStep Sha3.checksum) db
      [⟨db, (.accept checksumBlock [] 512, some 2), db₁⟩,
        ⟨db₁, (.perform (.onAccounts (.creditAccount "kyv1a" 5)), none), db₂⟩,
        ⟨db₂, (.accept checksumBlock [] 512, none), db₃⟩] :=
    ⟨rfl, hfirst, rfl, hcredit, rfl, hsecond, trivial⟩
  exact ⟨hheight, readsChain_of_run hgenesis hrun⟩

end Kyvera
