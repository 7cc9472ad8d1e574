import Kyvera.Consensus.Initialization
import Kyvera.Ledger.Integrity
import Kyvera.Ledger.Unbonding

/-!
# The state after genesis

An initialisation that succeeds writes the allocations, the genesis block under its hash and under
height 0, the state root of the accounts with the allocations, and the tip at the genesis block.
The clock shows in the timestamp of the block, and nowhere else.
-/

namespace Kyvera

open Effect Effect.Prog Std

/-- A genesis block, mined at the reading `now` of the clock. -/
structure IsGenesis (H : Sha3) (now : ℤ) (b : Block) : Prop where
  header : b.header =
    { BlockHeader.new now 0 zeroHash (computeMerkleRoot H []) 1 true 0 with nonce := b.header.nonce }
  transactions : b.transactionHashes = []
  producer : b.producerAddress = GENESIS_MINER
  reward : b.blockReward = GENESIS_BLOCK_REWARD
  work : meetsDifficulty b.hash b.header.difficulty = true
  hash : b.header.computeHash H = b.hash

/-- The tip at a genesis block. -/
def genesisTip (b : Block) : ChainTip := ⟨b.hash, 0, b.header.timestamp, 1, 0, 1⟩

/-- The database after an initialisation with a genesis block. -/
def KyveraDb.initialized (H : Sha3) (db : KyveraDb) (genesis : Block) : KyveraDb :=
  { db.withGenesisCredits with
    blocksByHash := db.blocksByHash.insert genesis.hash genesis
    blocksByHeight := db.blocksByHeight.insert 0 genesis.hash
    metadata := (db.metadata.insert STATE_ROOT_KEY
      (.text (stateRoot H db.withGenesisCredits.accounts))).insert CHAIN_TIP_KEY
        (.tip (genesisTip genesis)) }

section Genesis

variable {H : Sha3} {now : ℤ} {tip : ChainTip} {db db' : KyveraDb} {genesis : Block}

theorem IsGenesis.index (h : IsGenesis H now genesis) : genesis.header.index = 0 := by
  rw [h.header]
  rfl

theorem IsGenesis.advance (h : IsGenesis H now genesis) :
    ChainTip.genesis.advance genesis = some (genesisTip genesis) := by
  unfold ChainTip.advance genesisTip
  rw [h.header]
  rfl

theorem run_prepareGenesis (h : (prepareGenesis H now).run db = (.ok genesis, db')) :
    IsGenesis H now genesis ∧ db' = db := by
  have hsame := (readOnly_prepareGenesis H now db).eq_of_run h
  refine ⟨?_, hsame⟩
  obtain ⟨found, m, hload, hrest⟩ := run_bind_eq_ok_iff.1 h
  cases found with
  | some tip => cases hrest
  | none =>
      dsimp only at hrest
      unfold produceGenesisBlock produceBlock at hrest
      dsimp only at hrest
      rcases hmined : mineBlock H (BlockHeader.new now 0 zeroHash (computeMerkleRoot H []) 1 true 0)
        U64.max with _ | mined <;> rw [hmined] at hrest
      · cases hrest
      · cases hrest
        obtain ⟨hhash, hwork⟩ := mineBlock_sound hmined
        exact ⟨rfl, rfl, rfl, rfl, hwork, hhash⟩

theorem run_recordGenesis (hg : IsGenesis H now genesis) (db : KyveraDb) :
    (recordGenesis H genesis).run db =
      (.ok (genesisTip genesis),
        { db with
          blocksByHash := db.blocksByHash.insert genesis.hash genesis
          blocksByHeight := db.blocksByHeight.insert 0 genesis.hash
          metadata := (db.metadata.insert STATE_ROOT_KEY
            (.text (stateRoot H db.accounts))).insert CHAIN_TIP_KEY (.tip (genesisTip genesis)) }) := by
  have hblock : (saveBlock genesis).run db =
      (.ok (), { db with
        blocksByHash := db.blocksByHash.insert genesis.hash genesis
        blocksByHeight := db.blocksByHeight.insert genesis.header.index genesis.hash }) := rfl
  rw [recordGenesis, run_bind_of_ok hblock, run_bind_of_ok (run_computeStateRoot H _), hg.advance,
    hg.index]
  rfl

/-- A successful initialisation leaves exactly the state after genesis. -/
theorem run_initializeChain (h : (initializeChain H now).run db = (.ok tip, db')) :
    ∃ genesis, IsGenesis H now genesis ∧ tip = genesisTip genesis ∧
      db' = db.initialized H genesis := by
  rw [initializeChain_eq] at h
  obtain ⟨genesis, m, hprepare, hcredits⟩ := run_bind_eq_ok_iff.1 h
  obtain ⟨hg, rfl⟩ := run_prepareGenesis hprepare
  obtain ⟨u, m₁, hcredit, hrest⟩ := run_bind_eq_ok_iff.1 hcredits
  obtain ⟨u', m₂, hlater, hrecord⟩ := run_bind_eq_ok_iff.1 hrest
  obtain ⟨-, rfl⟩ := run_laterCredits_eq_ok hcredit hlater
  rw [run_recordGenesis hg] at hrecord
  cases hrecord
  exact ⟨genesis, hg, rfl, rfl⟩

theorem run_forM_creditAccount_eq_ok_iff (h : db.WellFormed) {payments : List (String × UInt64)}
    {u : Unit} :
    (payments.forM fun e => creditAccount e.1 e.2).run db = (.ok u, db') ↔
      db.Fits payments ∧ db' = db.payAll payments := by
  induction payments generalizing db with
  | nil =>
      constructor
      · intro hrun
        cases hrun
        exact ⟨KyveraDb.fits_nil _, rfl⟩
      · rintro ⟨-, rfl⟩
        rfl
  | cons e rest ih =>
      obtain ⟨y, v⟩ := e
      have hcons : ((y, v) :: rest).forM (fun e => creditAccount e.1 e.2) =
          creditAccount y v >>= fun _ => rest.forM fun e => creditAccount e.1 e.2 := rfl
      rw [hcons, run_bind_eq_ok_iff, h.fits_cons_iff, KyveraDb.payAll_cons]
      simp only [run_creditAccount_eq_ok_iff]
      constructor
      · rintro ⟨_, m, ⟨hroom, rfl⟩, hrest⟩
        obtain ⟨hfit, hdb'⟩ := (ih (h.save _)).1 hrest
        exact ⟨⟨hroom, hfit⟩, hdb'⟩
      · rintro ⟨⟨hroom, hfit⟩, hdb'⟩
        exact ⟨(), _, ⟨hroom, rfl⟩, (ih (h.save _)).2 ⟨hfit, hdb'⟩⟩

theorem forM_genesisCredits :
    (genesisCredits.forM fun e => creditAccount e.1 e.2) =
      creditAccount ECOSYSTEM_ADDRESS ECOSYSTEM_ALLOCATION >>= fun _ => laterCredits := by
  have hlast : ([(GENESIS_MINER, GENESIS_BLOCK_REWARD)].forM fun e => creditAccount e.1 e.2) =
      creditAccount GENESIS_MINER GENESIS_BLOCK_REWARD := by
    have hpure : (fun _ : Unit => (pure () : DbM Unit)) = pure := rfl
    show (creditAccount GENESIS_MINER GENESIS_BLOCK_REWARD >>= fun _ => pure ()) = _
    rw [hpure, bind_pure]
  unfold laterCredits
  rw [← hlast]
  rfl

/-- The genesis credits add the allocations without the one for mining, and the first reward. -/
theorem KyveraDb.WellFormed.supply_initialized (h : db.WellFormed)
    (hrun : (initializeChain H now).run db = (.ok tip, db')) :
    db'.WellFormed ∧ db'.supply + MINING_ALLOCATION.toNat =
      db.supply + TOTAL_SUPPLY.toNat + GENESIS_BLOCK_REWARD.toNat := by
  rw [initializeChain_eq] at hrun
  obtain ⟨genesis, m, hprepare, hcredits⟩ := run_bind_eq_ok_iff.1 hrun
  obtain ⟨-, rfl⟩ := run_prepareGenesis hprepare
  rw [← bind_assoc, ← forM_genesisCredits] at hcredits
  obtain ⟨u, m₁, hpaid, hrecord⟩ := run_bind_eq_ok_iff.1 hcredits
  obtain ⟨hfit, rfl⟩ := (run_forM_creditAccount_eq_ok_iff h).1 hpaid
  have haccounts := (run_recordGenesis_eq_ok hrecord).2.1
  have hsupply := h.supply_payAll hfit
  have hsum : (genesisCredits.map fun e => e.2.toNat).sum + MINING_ALLOCATION.toNat =
      TOTAL_SUPPLY.toNat + GENESIS_BLOCK_REWARD.toNat := by
    decide
  unfold KyveraDb.WellFormed KyveraDb.supply
  rw [haccounts]
  refine ⟨h.payAll genesisCredits, ?_⟩
  have hpaid : (m.payAll genesisCredits).accounts.supply = _ := hsupply
  rw [hpaid]
  unfold KyveraDb.supply
  omega

/-- What an initialisation leaves to be read: the tip, the root of the accounts, and a genesis
block that passes the check of a restart. -/
structure KyveraDb.HasGenesis (H : Sha3) (db : KyveraDb) (tip : ChainTip) : Prop where
  saved : loadChainTip.run db = (.ok (some tip), db)
  root : loadStateRoot.run db = (.ok (some (stateRoot H db.accounts)), db) ∧
    (computeStateRoot H).run db = (.ok (stateRoot H db.accounts), db)
  block : ∃ genesis, (getBlockByHeight tip.height).run db = (.ok (some genesis), db) ∧
    (getBlockByHash tip.hash).run db = (.ok (some genesis), db) ∧
    genesis.blockReward = GENESIS_BLOCK_REWARD
  integrity : verifyGenesisIntegrity.run db = (.ok true, db)
  again : ∀ now, ∃ e, (initializeChain H now).run db = (.err e, db)

/-- The check of a restart passes when a genesis block is found at height 0. -/
theorem run_verifyGenesisIntegrity (hg : IsGenesis H now genesis)
    (h : (getBlockByHeight 0).run db = (.ok (some genesis), db)) :
    verifyGenesisIntegrity.run db = (.ok true, db) := by
  have hprevious : genesis.header.previousHash = zeroHash := by
    rw [hg.header]
    rfl
  have hepoch : genesis.header.isEpochBlock = true := by
    rw [hg.header]
    rfl
  rw [verifyGenesisIntegrity, run_bind_of_ok h]
  simp [hg.index, hprevious, hepoch, hg.producer]

theorem KyveraDb.hasGenesis_initialized (hg : IsGenesis H now genesis) (db : KyveraDb) :
    (db.initialized H genesis).HasGenesis H (genesisTip genesis) := by
  have hheight : (db.initialized H genesis).blocksByHeight[(0 : UInt64)]? = some genesis.hash :=
    ExtTreeMap.getElem?_insert_self
  have hhash : (db.initialized H genesis).blocksByHash[genesis.hash]? = some genesis :=
    ExtTreeMap.getElem?_insert_self
  have htip : (db.initialized H genesis).metadata[CHAIN_TIP_KEY]? =
      some (.tip (genesisTip genesis)) := ExtTreeMap.getElem?_insert_self
  have hroot : (db.initialized H genesis).metadata[STATE_ROOT_KEY]? =
      some (.text (stateRoot H (db.initialized H genesis).accounts)) := by
    refine (TreeSum.getElem?_insert_of_ne _ _ (by decide)).trans ?_
    exact ExtTreeMap.getElem?_insert_self
  have hblock : (getBlockByHeight 0).run (db.initialized H genesis) =
      (.ok (some genesis), db.initialized H genesis) := by
    rw [run_getBlockByHeight, hheight, Option.bind_some, hhash]
  refine ⟨run_loadChainTip_of_tip htip, ⟨?_, run_computeStateRoot H _⟩, ⟨genesis, hblock, ?_,
    hg.reward⟩, run_verifyGenesisIntegrity hg hblock, fun _ => run_initializeChain_of_tip htip⟩
  · rw [loadStateRoot, run_bind_of_ok (KyveraDb.run_getMetadata STATE_ROOT_KEY _), hroot]
    rfl
  · rw [run_getBlockByHash]
    show (Outcome.ok (db.initialized H genesis).blocksByHash[genesis.hash]?, _) = _
    rw [hhash]

/-- From any well-formed database, also one that interrupted attempts have left, an initialisation
that succeeds leaves a genesis that can be read back, and brings in the total supply but for what
is to be mined after the first reward. -/
theorem hasGenesis_of_initializeChain (h : db.WellFormed)
    (hrun : (initializeChain H now).run db = (.ok tip, db')) :
    db'.HasGenesis H tip ∧ db'.WellFormed ∧
      db'.supply + MINING_ALLOCATION.toNat =
        db.supply + TOTAL_SUPPLY.toNat + GENESIS_BLOCK_REWARD.toNat := by
  obtain ⟨hwf, hsupply⟩ := h.supply_initialized hrun
  obtain ⟨genesis, hg, rfl, rfl⟩ := run_initializeChain hrun
  exact ⟨KyveraDb.hasGenesis_initialized hg db, hwf, hsupply⟩

end Genesis

/-- An initialisation after one that was refused its second write, with 64 zeros for every hash: what
the ecosystem fund was credited stays. -/
theorem hasGenesis_of_second_start :
    let left := ((initializeChain Sha3.zero 0).runRefusing 1 KyveraDb.empty).2
    left.supply = ECOSYSTEM_ALLOCATION.toNat ∧
      ∃ db, (initializeChain Sha3.zero 0).run left = (.ok ⟨zeroHash, 0, 0, 1, 0, 1⟩, db) ∧
        db.HasGenesis Sha3.zero ⟨zeroHash, 0, 0, 1, 0, 1⟩ ∧ db.WellFormed ∧
        db.supply + MINING_ALLOCATION.toNat =
          left.supply + TOTAL_SUPPLY.toNat + GENESIS_BLOCK_REWARD.toNat := by
  intro left
  have hwf : left.WellFormed := (sound_empty.refused_initializeChain Sha3.zero 0 1).accounts
  have hok : ((initializeChain Sha3.zero 0).run left).1 = .ok ⟨zeroHash, 0, 0, 1, 0, 1⟩ := by
    decide +kernel
  have hrun := Prog.run_eq_of_outcome hok
  exact ⟨by decide +kernel, _, hrun, hasGenesis_of_initializeChain hwf hrun⟩

end Kyvera
