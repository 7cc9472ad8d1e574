import Kyvera.Consensus.Genesis
import Kyvera.Ledger.StateRoot
import Kyvera.Library.Trace

/-!
# Initialisation with interruptions

An attempt to initialise a node writes nine entries, one after the other, and the chain tip last.
When a write is refused the attempt fails, what it wrote stays, and the next attempt finds no tip:
it adds the allocations to what the accounts hold already.  The ecosystem's allocation is the
first entry, so it shows how many attempts got beyond their first write.
-/

namespace Kyvera

open Effect Std Trace

/-! ## The order of the writes -/

/-- What precedes the first write: no chain tip is found, and the genesis block is mined. -/
def prepareGenesis (H : Sha3) (now : ℤ) : DbM Block := do
  match ← loadChainTip with
  | some tip =>
      .err (s!"Chain already initialized at height {tip.height}. " ++
        "Cannot re-initialize without wiping the database.")
  | none => (produceGenesisBlock H now GENESIS_MINER).rescue genesisFailure

/-- The genesis credits after the first one. -/
def laterCredits : DbM Unit := do
  creditAccount FOUNDER_ADDRESS FOUNDER_ALLOCATION
  creditAccount COMMUNITY_ADDRESS COMMUNITY_ALLOCATION
  creditAccount TREASURY_ADDRESS TREASURY_ALLOCATION
  creditAccount GENESIS_MINER GENESIS_BLOCK_REWARD

/-- What follows the credits: the block, the state root and the tip. -/
def recordGenesis (H : Sha3) (genesis : Block) : DbM ChainTip := do
  saveBlock genesis
  let stateRoot ← computeStateRoot H
  saveStateRoot stateRoot
  let tip ← Prog.orPanic (ChainTip.genesis.advance genesis)
  saveChainTip tip
  return tip

/-- The allocations sum up to the total supply. -/
theorem applyGenesisAllocations_eq :
    applyGenesisAllocations =
      creditAccount ECOSYSTEM_ADDRESS ECOSYSTEM_ALLOCATION >>= fun _ =>
      creditAccount FOUNDER_ADDRESS FOUNDER_ALLOCATION >>= fun _ =>
      creditAccount COMMUNITY_ADDRESS COMMUNITY_ALLOCATION >>= fun _ =>
      creditAccount TREASURY_ADDRESS TREASURY_ALLOCATION := by
  have hsum : ECOSYSTEM_ALLOCATION + FOUNDER_ALLOCATION + COMMUNITY_ALLOCATION +
      TREASURY_ALLOCATION + MINING_ALLOCATION = TOTAL_SUPPLY := by
    decide
  have hpure : (fun _ : Unit => (pure () : DbM Unit)) = pure := rfl
  unfold applyGenesisAllocations
  simp only [hsum, ne_eq, not_true_eq_false, if_false, hpure, bind_pure]

/-- An attempt: the ecosystem's allocation is the first write. -/
theorem initializeChain_eq (H : Sha3) (now : ℤ) :
    initializeChain H now = prepareGenesis H now >>= fun genesis =>
      creditAccount ECOSYSTEM_ADDRESS ECOSYSTEM_ALLOCATION >>= fun _ =>
      laterCredits >>= fun _ => recordGenesis H genesis := by
  unfold initializeChain prepareGenesis laterCredits recordGenesis
  rw [applyGenesisAllocations_eq, bind_assoc]
  congr 1
  funext found
  cases found with
  | some tip => rfl
  | none => simp only [bind_assoc]

theorem readOnly_prepareGenesis (H : Sha3) (now : ℤ) (db : KyveraDb) :
    (prepareGenesis H now).ReadOnly db := by
  apply (readOnly_loadChainTip db).bind
  intro found m
  cases found with
  | some tip => trivial
  | none =>
      apply Prog.ReadOnly.rescue
      · exact (Prog.readOnly_okOr _ _ m).bind fun _ _ => trivial
      · intro e
        unfold genesisFailure
        cases e.display <;> trivial

/-! ## What every write keeps -/

/-- What the ecosystem fund holds. -/
def KyveraDb.ecosystem (db : KyveraDb) : ℕ := (db.account ECOSYSTEM_ADDRESS).balance.toNat

/-- Accounts stay well formed, and the ecosystem fund does not shrink. -/
def EcosystemGrows (db db' : KyveraDb) : Prop :=
  db.WellFormed → db'.WellFormed ∧ db.ecosystem ≤ db'.ecosystem

instance : Std.Refl EcosystemGrows := ⟨fun _ h => ⟨h, le_rfl⟩⟩

instance : IsTrans KyveraDb EcosystemGrows where
  trans _ _ _ h h' hwf := by
    obtain ⟨hm, hle⟩ := h hwf
    obtain ⟨hwf', hle'⟩ := h' hm
    exact ⟨hwf', hle.trans hle'⟩

section Writes

variable {H : Sha3} {db : KyveraDb} {x : String} {v : UInt64}

theorem ecosystemGrows_of_accounts_eq {db' : KyveraDb} (h : db'.accounts = db.accounts) :
    EcosystemGrows db db' := by
  intro hwf
  unfold KyveraDb.WellFormed KyveraDb.ecosystem KyveraDb.account at *
  rw [h]
  exact ⟨hwf, le_rfl⟩

theorem ecosystemGrows_credit (hroom : (db.account x).Room v) :
    EcosystemGrows db (db.save ((db.account x).credit v)) := by
  intro hwf
  refine ⟨hwf.save _, ?_⟩
  unfold KyveraDb.ecosystem
  rw [hwf.account_save (Account.address_credit _ v)]
  split_ifs with hx
  · rw [hroom.toNat_balance_credit, hx]
    omega
  · exact le_rfl

theorem everyWrite_creditAccount (x : String) (v : UInt64) (db : KyveraDb) :
    (creditAccount x v).EveryWrite EcosystemGrows db := by
  apply (readOnly_getOrCreateAccount x db).everyWrite_bind
  intro account haccount
  rw [run_getOrCreateAccount] at haccount
  cases haccount
  apply (Prog.readOnly_okOr _ _ db).everyWrite_bind
  intro balance hbalance
  obtain ⟨hsum, -⟩ := Prog.run_okOr_eq_ok_iff.1 hbalance
  obtain ⟨hroom, rfl⟩ :=
    (U64.exists_checkedAdd_iff (P := fun c => c = balance)).1 ⟨balance, hsum, rfl⟩
  exact ⟨⟨_, rfl⟩, ecosystemGrows_credit hroom, trivial⟩

theorem everyWrite_laterCredits (db : KyveraDb) : laterCredits.EveryWrite EcosystemGrows db := by
  apply (everyWrite_creditAccount _ _ db).bind
  intro _ m
  apply (everyWrite_creditAccount _ _ m).bind
  intro _ m
  apply (everyWrite_creditAccount _ _ m).bind
  intro _ m
  exact everyWrite_creditAccount _ _ m

theorem readOnly_computeStateRoot (H : Sha3) (db : KyveraDb) :
    (computeStateRoot H).ReadOnly db := by
  apply Prog.ReadOnly.everyWrite_bind (p := Prog.get) trivial
  intro found _
  dsimp only
  split_ifs <;> trivial

theorem everyWrite_setMetadata (key : String) (value : MetaEntry) (db : KyveraDb) :
    (KyveraDb.setMetadata key value).EveryWrite EcosystemGrows db :=
  ⟨⟨_, rfl⟩, ecosystemGrows_of_accounts_eq rfl, trivial⟩

theorem everyWrite_recordGenesis (H : Sha3) (genesis : Block) (db : KyveraDb) :
    (recordGenesis H genesis).EveryWrite EcosystemGrows db := by
  have hblock : (saveBlock genesis).EveryWrite EcosystemGrows db :=
    ⟨⟨_, rfl⟩, ecosystemGrows_of_accounts_eq rfl, ⟨_, rfl⟩, ecosystemGrows_of_accounts_eq rfl,
      trivial⟩
  apply hblock.bind
  intro _ m
  apply (readOnly_computeStateRoot H m).everyWrite.bind
  intro root m
  apply (everyWrite_setMetadata STATE_ROOT_KEY (.text root) m).bind
  intro _ m
  apply (Prog.readOnly_orPanic _ m).everyWrite.bind
  intro tip m
  apply (everyWrite_setMetadata CHAIN_TIP_KEY (.tip tip) m).bind
  intro _ m
  trivial

theorem everyWrite_laterCredits_bind (H : Sha3) (genesis : Block) (db : KyveraDb) :
    (laterCredits >>= fun _ => recordGenesis H genesis).EveryWrite EcosystemGrows db := by
  apply (everyWrite_laterCredits db).bind
  intro _ m
  exact everyWrite_recordGenesis H genesis m

theorem everyWrite_initializeChain (H : Sha3) (now : ℤ) (db : KyveraDb) :
    (initializeChain H now).EveryWrite EcosystemGrows db := by
  rw [initializeChain_eq]
  apply (readOnly_prepareGenesis H now db).everyWrite.bind
  intro genesis m
  apply (everyWrite_creditAccount _ _ m).bind
  intro _ m
  exact everyWrite_laterCredits_bind H genesis m

end Writes

/-! ## Attempts -/

/-- An attempt at the reading `call.1` of the clock that stops with an error because the write
after its first `call.2` ones is refused. -/
def Interrupted (H : Sha3) (db : KyveraDb) (call : ℤ × ℕ) (db' : KyveraDb) : Prop :=
  call.2 < (initializeChain H call.1).writes db ∧
    ∃ e, (initializeChain H call.1).runRefusing call.2 db = (.err e, db')

/-- The accounts after one initialisation. -/
def genesisAccounts : AccountTree :=
  (KyveraDb.withAccounts
    [{ Account.new ECOSYSTEM_ADDRESS with balance := ECOSYSTEM_ALLOCATION },
     { Account.new FOUNDER_ADDRESS with balance := FOUNDER_ALLOCATION + GENESIS_BLOCK_REWARD },
     { Account.new COMMUNITY_ADDRESS with balance := COMMUNITY_ALLOCATION },
     { Account.new TREASURY_ADDRESS with balance := TREASURY_ALLOCATION }]).accounts

section Attempts

variable {H : Sha3} {now : ℤ} {tip : ChainTip} {db db' : KyveraDb}

theorem writes_creditAccount_le (x : String) (v : UInt64) (db : KyveraDb) :
    (creditAccount x v).writes db ≤ 1 := by
  rw [creditAccount, Prog.writes_bind_of_ok (run_getOrCreateAccount x db),
    (readOnly_getOrCreateAccount x db).writes_eq_zero, Nat.zero_add]
  cases U64.checkedAdd (db.account x).balance v
  · exact Nat.zero_le 1
  · exact le_rfl

/-- The ecosystem's credit, and then anything that does not take it back. -/
theorem ecosystem_of_run_creditAccount {m : KyveraDb} {u : Unit} (hwf : db.WellFormed)
    (hcredit : (creditAccount ECOSYSTEM_ADDRESS ECOSYSTEM_ALLOCATION).run db = (.ok u, m))
    (hgrows : EcosystemGrows m db') :
    db'.WellFormed ∧ db.ecosystem + ECOSYSTEM_ALLOCATION.toNat ≤ db'.ecosystem := by
  obtain ⟨hroom, rfl⟩ := run_creditAccount_eq_ok_iff.1 hcredit
  obtain ⟨hwf', hle⟩ := hgrows (hwf.save _)
  have hbalance : (db.save ((db.account ECOSYSTEM_ADDRESS).credit ECOSYSTEM_ALLOCATION)).ecosystem =
      db.ecosystem + ECOSYSTEM_ALLOCATION.toNat := by
    unfold KyveraDb.ecosystem
    rw [hwf.account_save (Account.address_credit _ _), if_pos rfl, hroom.toNat_balance_credit]
  exact ⟨hwf', hbalance ▸ hle⟩

theorem Interrupted.eq_of_zero {call : ℤ × ℕ} (h : Interrupted H db call db') (h0 : call.2 = 0) :
    db' = db := by
  obtain ⟨-, e, hrun⟩ := h
  have hstay := (everyWrite_initializeChain H call.1 db).runRefusing_zero
  rw [← h0, hrun] at hstay
  exact hstay

/-- An attempt that gets beyond its first write has credited the ecosystem fund. -/
theorem Interrupted.credited {call : ℤ × ℕ} (hwf : db.WellFormed) (h : Interrupted H db call db')
    (h0 : call.2 ≠ 0) :
    db'.WellFormed ∧ db.ecosystem + ECOSYSTEM_ALLOCATION.toNat ≤ db'.ecosystem := by
  obtain ⟨hlt, e, hrun⟩ := h
  have hprepare := (readOnly_prepareGenesis H call.1 db).writes_eq_zero
  rw [initializeChain_eq, ← Nat.zero_add call.2, ← hprepare] at hlt hrun
  obtain ⟨genesis, m, hgenesis, hcredits, hsplit⟩ := Prog.exists_ok_of_lt_writes_bind hlt
  rw [hsplit] at hrun
  obtain rfl := (readOnly_prepareGenesis H call.1 db).eq_of_run hgenesis
  -- The credit is at most one write, and the refused write comes after it.
  have hone := writes_creditAccount_le ECOSYSTEM_ADDRESS ECOSYSTEM_ALLOCATION m
  obtain ⟨k, hk⟩ := Nat.exists_eq_add_of_le (hone.trans (Nat.one_le_iff_ne_zero.2 h0))
  rw [hk] at hcredits hrun
  obtain ⟨u, m', hcredit, -, hlater⟩ := Prog.exists_ok_of_lt_writes_bind hcredits
  rw [hlater] at hrun
  apply ecosystem_of_run_creditAccount hwf hcredit
  have hgrows := (everyWrite_laterCredits_bind H genesis m').runRefusing k
  rwa [hrun] at hgrows

theorem Interrupted.grows {call : ℤ × ℕ} (h : Interrupted H db call db') :
    EcosystemGrows db db' := by
  obtain ⟨-, e, hrun⟩ := h
  have hgrows := (everyWrite_initializeChain H call.1 db).runRefusing call.2
  rwa [hrun] at hgrows

theorem grows_final {run : List (Step KyveraDb (ℤ × ℕ))}
    (h : IsRun (Interrupted H) db run) : EcosystemGrows db (final db run) :=
  h.invariant_final (I := EcosystemGrows db)
    (fun _ _ _ hs ht => trans_of EcosystemGrows hs ht.grows) (refl_of EcosystemGrows db)

/-- The first attempt beyond its first write leaves the allocation for the whole run. -/
theorem le_ecosystem_final {run : List (Step KyveraDb (ℤ × ℕ))} (hwf : db.WellFormed)
    (h : IsRun (Interrupted H) db run) {t : Step KyveraDb (ℤ × ℕ)} (ht : t ∈ run)
    (h0 : t.call.2 ≠ 0) : ECOSYSTEM_ALLOCATION.toNat ≤ (final db run).ecosystem := by
  obtain ⟨before, after, rfl⟩ := List.append_of_mem ht
  obtain ⟨hbefore, hrest⟩ := isRun_append.1 h
  obtain ⟨hpre, hstep, hafter⟩ := hrest
  rw [hpre] at hstep
  obtain ⟨hpost, hle⟩ := hstep.credited (grows_final hbefore hwf).1 h0
  obtain ⟨-, hkept⟩ := grows_final hafter hpost
  rw [final_append]
  show _ ≤ (final t.post after).ecosystem
  omega

theorem final_of_forall_zero {run : List (Step KyveraDb (ℤ × ℕ))}
    (h : IsRun (Interrupted H) db run) (h0 : ∀ t ∈ run, t.call.2 = 0) : final db run = db := by
  induction run generalizing db with
  | nil => rfl
  | cons t rest ih =>
      obtain ⟨rfl, ht, hrest⟩ := h
      obtain ⟨hzero, hzeros⟩ := List.forall_mem_cons.1 h0
      rw [final, ih hrest hzeros, ht.eq_of_zero hzero]

/-! ## The last attempt -/

/-- The credits of genesis, in the order of their writes. -/
def genesisCredits : List (String × UInt64) :=
  [(ECOSYSTEM_ADDRESS, ECOSYSTEM_ALLOCATION), (FOUNDER_ADDRESS, FOUNDER_ALLOCATION),
   (COMMUNITY_ADDRESS, COMMUNITY_ALLOCATION), (TREASURY_ADDRESS, TREASURY_ALLOCATION),
   (GENESIS_MINER, GENESIS_BLOCK_REWARD)]

/-- The accounts after the genesis credits. -/
def KyveraDb.withGenesisCredits (db : KyveraDb) : KyveraDb :=
  genesisCredits.foldl (fun db e => db.save ((db.account e.1).credit e.2)) db

theorem run_recordGenesis_eq_ok {genesis : Block}
    (h : (recordGenesis H genesis).run db = (.ok tip, db')) :
    (recordGenesis H genesis).writes db = 4 ∧
      db'.accounts = db.accounts ∧ db'.metadata[CHAIN_TIP_KEY]? = some (.tip tip) := by
  obtain ⟨_, m, hblock, hroot⟩ := Prog.run_bind_eq_ok_iff.1 h
  have hstate := run_computeStateRoot H m
  rw [Prog.run_bind_of_ok hstate] at hroot
  obtain ⟨_, m', hsave, hrest⟩ := Prog.run_bind_eq_ok_iff.1 hroot
  obtain ⟨tip', hadvance, htip⟩ := Prog.run_orPanic_bind_eq_ok_iff.1 hrest
  refine ⟨?_, ?_⟩
  · rw [recordGenesis, Prog.writes_bind_of_ok hblock, Prog.writes_bind_of_ok hstate,
      (readOnly_computeStateRoot H m).writes_eq_zero, Prog.writes_bind_of_ok hsave, hadvance]
    rfl
  · cases hblock
    cases hsave
    cases htip
    exact ⟨rfl, ExtTreeMap.getElem?_insert_self⟩

theorem run_creditAccount_eq_ok {x : String} {v : UInt64} {u : Unit}
    (h : (creditAccount x v).run db = (.ok u, db')) :
    (creditAccount x v).writes db = 1 ∧ db' = db.save ((db.account x).credit v) := by
  obtain ⟨hroom, hsave⟩ := run_creditAccount_eq_ok_iff.1 h
  refine ⟨?_, hsave⟩
  have hsum : U64.checkedAdd (db.account x).balance v = some _ := if_pos hroom
  rw [creditAccount, Prog.writes_bind_of_ok (run_getOrCreateAccount x db),
    (readOnly_getOrCreateAccount x db).writes_eq_zero, hsum]
  rfl

theorem run_laterCredits_eq_ok {m : KyveraDb} {u u' : Unit}
    (hcredit : (creditAccount ECOSYSTEM_ADDRESS ECOSYSTEM_ALLOCATION).run db = (.ok u, m))
    (h : laterCredits.run m = (.ok u', db')) :
    laterCredits.writes m = 4 ∧ db' = db.withGenesisCredits := by
  obtain ⟨-, rfl⟩ := run_creditAccount_eq_ok hcredit
  obtain ⟨_, m₁, h₁, hrest₁⟩ := Prog.run_bind_eq_ok_iff.1 h
  obtain ⟨_, m₂, h₂, hrest₂⟩ := Prog.run_bind_eq_ok_iff.1 hrest₁
  obtain ⟨_, m₃, h₃, h₄⟩ := Prog.run_bind_eq_ok_iff.1 hrest₂
  obtain ⟨hw₁, rfl⟩ := run_creditAccount_eq_ok h₁
  obtain ⟨hw₂, rfl⟩ := run_creditAccount_eq_ok h₂
  obtain ⟨hw₃, rfl⟩ := run_creditAccount_eq_ok h₃
  obtain ⟨hw₄, rfl⟩ := run_creditAccount_eq_ok h₄
  refine ⟨?_, rfl⟩
  rw [laterCredits, Prog.writes_bind_of_ok h₁, Prog.writes_bind_of_ok h₂,
    Prog.writes_bind_of_ok h₃, hw₁, hw₂, hw₃, hw₄]

/-- A successful attempt has taken nine writes, added every credit, and saved the tip. -/
theorem run_initializeChain_eq_ok
    (h : (initializeChain H now).run db = (.ok tip, db')) :
    (initializeChain H now).writes db = 9 ∧
    (∃ u m, (creditAccount ECOSYSTEM_ADDRESS ECOSYSTEM_ALLOCATION).run db = (.ok u, m) ∧
      EcosystemGrows m db') ∧
    db'.accounts = db.withGenesisCredits.accounts ∧
      db'.metadata[CHAIN_TIP_KEY]? = some (.tip tip) := by
  rw [initializeChain_eq] at h ⊢
  obtain ⟨genesis, m, hprepare, hcredits⟩ := Prog.run_bind_eq_ok_iff.1 h
  obtain rfl := (readOnly_prepareGenesis H now db).eq_of_run hprepare
  obtain ⟨u, m₁, hcredit, hrest⟩ := Prog.run_bind_eq_ok_iff.1 hcredits
  obtain ⟨u', m₂, hlater, hrecord⟩ := Prog.run_bind_eq_ok_iff.1 hrest
  obtain ⟨hwlater, rfl⟩ := run_laterCredits_eq_ok hcredit hlater
  obtain ⟨hwrecord, haccounts, htip⟩ := run_recordGenesis_eq_ok hrecord
  have hgrows := (everyWrite_laterCredits_bind H genesis m₁).run
  rw [hrest] at hgrows
  refine ⟨?_, ⟨u, m₁, hcredit, hgrows⟩, haccounts, htip⟩
  rw [Prog.writes_bind_of_ok hprepare, (readOnly_prepareGenesis H now m).writes_eq_zero,
    Prog.writes_bind_of_ok hcredit, (run_creditAccount_eq_ok hcredit).1,
    Prog.writes_bind_of_ok hlater, hwlater, hwrecord]

theorem run_initializeChain_of_tip (h : db.metadata[CHAIN_TIP_KEY]? = some (.tip tip)) :
    ∃ e, (initializeChain H now).run db = (.err e, db) := by
  rw [initializeChain, Prog.run_bind_of_ok (run_loadChainTip_of_tip h)]
  exact ⟨_, rfl⟩

theorem account_empty (x : String) : KyveraDb.empty.account x = Account.new x := by
  simp [KyveraDb.account, AccountTree.account, KyveraDb.empty]

theorem nodup_genesisAddresses :
    [ECOSYSTEM_ADDRESS, FOUNDER_ADDRESS, COMMUNITY_ADDRESS, TREASURY_ADDRESS].Nodup := by
  decide

/-- The founder is credited twice, and everyone else once. -/
theorem accounts_withGenesisCredits_empty :
    KyveraDb.empty.withGenesisCredits.accounts = genesisAccounts := by
  have hnodup := nodup_genesisAddresses
  simp only [List.nodup_cons, List.mem_cons, List.not_mem_nil, or_false, not_or] at hnodup
  obtain ⟨⟨hef, hec, het⟩, ⟨hfc, hft⟩, hct, -⟩ := hnodup
  apply ExtTreeMap.ext_getElem?
  intro x
  simp only [KyveraDb.withGenesisCredits, genesisCredits, GENESIS_MINER, genesisAccounts,
    KyveraDb.withAccounts, List.foldl_cons, List.foldl_nil, KyveraDb.accounts_save,
    AccountTree.getElem?_put, KyveraDb.account_save, Account.address_credit, account_empty,
    Account.address_new, if_neg hef, if_neg hec, if_neg het, if_neg hfc, if_neg hft, if_neg hct,
    if_neg (Ne.symm hfc), if_neg (Ne.symm hft), if_true]
  by_cases hx : FOUNDER_ADDRESS = x
  · subst hx
    rw [if_pos rfl, if_neg (Ne.symm hft), if_neg (Ne.symm hfc), if_pos rfl]
    rfl
  · rw [if_neg hx, if_neg hx, if_neg hx]
    rfl

theorem ecosystem_of_accounts_eq (h : db.accounts = genesisAccounts) :
    db.ecosystem = ECOSYSTEM_ALLOCATION.toNat := by
  have hnodup := nodup_genesisAddresses
  simp only [List.nodup_cons, List.mem_cons, List.not_mem_nil, or_false, not_or] at hnodup
  obtain ⟨⟨hef, hec, het⟩, -⟩ := hnodup
  have hgenesis : genesisAccounts.account ECOSYSTEM_ADDRESS =
      { Account.new ECOSYSTEM_ADDRESS with balance := ECOSYSTEM_ALLOCATION } := by
    simp only [genesisAccounts, KyveraDb.withAccounts, List.foldl_cons, List.foldl_nil,
      KyveraDb.accounts_save, AccountTree.account_put, Account.address_new,
      if_neg (Ne.symm hef), if_neg (Ne.symm hec), if_neg (Ne.symm het), if_true]
  unfold KyveraDb.ecosystem KyveraDb.account
  rw [h, hgenesis]

/-- Genesis is applied once, whatever attempts were interrupted before, exactly when each of them
was interrupted at its very first write: every other one has left credits that the last attempt
adds to. -/
theorem initialized_once_iff {run : List (Step KyveraDb (ℤ × ℕ))}
    (h : IsRun (Interrupted H) KyveraDb.empty run)
    (hlast : (initializeChain H now).run (final KyveraDb.empty run) = (.ok tip, db)) :
    (db.accounts = genesisAccounts ∧ ∀ now', ∃ e, (initializeChain H now').run db = (.err e, db)) ↔
      ∀ t ∈ run, t.call.2 = 0 := by
  obtain ⟨-, ⟨u, m, hcredit, hgrows⟩, haccounts, htip⟩ := run_initializeChain_eq_ok hlast
  have hempty : KyveraDb.empty.WellFormed := AccountTree.wellFormed_empty
  constructor
  · rintro ⟨hgenesis, -⟩ t ht
    by_contra h0
    have hbefore := le_ecosystem_final hempty h ht h0
    obtain ⟨-, hlast⟩ := ecosystem_of_run_creditAccount (grows_final h hempty).1 hcredit hgrows
    rw [ecosystem_of_accounts_eq hgenesis] at hlast
    have hpos : 0 < ECOSYSTEM_ALLOCATION.toNat := by decide
    omega
  · intro h0
    rw [final_of_forall_zero h h0, accounts_withGenesisCredits_empty] at haccounts
    exact ⟨haccounts, fun now' => run_initializeChain_of_tip htip⟩

end Attempts

/-- An initialisation that is refused nothing, with 64 zeros for every hash. -/
theorem outcome_initializeChain_zero :
    ((initializeChain Sha3.zero 0).run KyveraDb.empty).1 = .ok ⟨zeroHash, 0, 0, 1, 0, 1⟩ := by
  decide +kernel

/-- A first attempt that is refused its first write, and a second one that is refused none. -/
theorem initialized_once_after_refusal :
    ∃ db, (initializeChain Sha3.zero 0).run KyveraDb.empty =
        (.ok ⟨zeroHash, 0, 0, 1, 0, 1⟩, db) ∧
      db.accounts = genesisAccounts ∧
      ∀ now', ∃ e, (initializeChain Sha3.zero now').run db = (.err e, db) := by
  have hlast := Prog.run_eq_of_outcome outcome_initializeChain_zero
  have hwrites : 0 < (initializeChain Sha3.zero 0).writes KyveraDb.empty := by
    rw [(run_initializeChain_eq_ok hlast).1]
    decide
  have hrun : IsRun (Interrupted Sha3.zero) KyveraDb.empty
      [⟨KyveraDb.empty, (0, 0), KyveraDb.empty⟩] :=
    ⟨rfl, ⟨hwrites, "Write failed", rfl⟩, trivial⟩
  refine ⟨_, hlast, (initialized_once_iff hrun hlast).2 ?_⟩
  intro t ht
  rw [List.mem_singleton.1 ht]

/-- An attempt that is refused its second write has credited the ecosystem fund, and the attempt
after it credits the fund again. -/
theorem not_initialized_once_after_credit :
    let db₁ := ((initializeChain Sha3.zero 0).runRefusing 1 KyveraDb.empty).2
    IsRun (Interrupted Sha3.zero) KyveraDb.empty [⟨KyveraDb.empty, (0, 1), db₁⟩] ∧
      ∃ db, (initializeChain Sha3.zero 0).run db₁ = (.ok ⟨zeroHash, 0, 0, 1, 0, 1⟩, db) ∧
        (db.account ECOSYSTEM_ADDRESS).balance = 2 * ECOSYSTEM_ALLOCATION ∧
        db.accounts ≠ genesisAccounts := by
  intro db₁
  have hunrefused := Prog.run_eq_of_outcome outcome_initializeChain_zero
  have hwrites : 1 < (initializeChain Sha3.zero 0).writes KyveraDb.empty := by
    rw [(run_initializeChain_eq_ok hunrefused).1]
    decide
  have hrefused : ((initializeChain Sha3.zero 0).runRefusing 1 KyveraDb.empty).1 =
      .err "Write failed" := by
    decide +kernel
  have hlast : ((initializeChain Sha3.zero 0).run db₁).1 = .ok ⟨zeroHash, 0, 0, 1, 0, 1⟩ ∧
      (((initializeChain Sha3.zero 0).run db₁).2.account ECOSYSTEM_ADDRESS).balance =
        2 * ECOSYSTEM_ALLOCATION := by
    decide +kernel
  refine ⟨⟨rfl, ⟨hwrites, "Write failed", Prod.ext hrefused rfl⟩, trivial⟩, _,
    Prog.run_eq_of_outcome hlast.1, hlast.2, ?_⟩
  intro hgenesis
  have honce := ecosystem_of_accounts_eq hgenesis
  rw [KyveraDb.ecosystem, hlast.2] at honce
  revert honce
  decide

end Kyvera
