import Kyvera.Consensus.Validators
import Kyvera.Consensus.Staking

/-!
# How accounts evolve

Whatever an operation does to the accounts, and wherever it stops, each account keeps its address,
its nonce never goes back, and its tier either stays with its stake or is computed from the new
one.  No account is removed, and accounts outside of a set of addresses, which depends on the
operation, are not touched.

`Evolves` is this relation.  It is a preorder, so a program evolves the accounts when its single
saves do.
-/

namespace Kyvera

open Effect Effect.Prog

/-! ## One account -/

/-- What may happen to one account. -/
structure Account.Change (a b : Account) : Prop where
  address : b.address = a.address
  nonce : a.nonce.toNat ≤ b.nonce.toNat
  tier : b.stakedBalance = a.stakedBalance ∧ b.validatorTier = a.validatorTier ∨
    b.validatorTier = ValidatorTier.fromStakedBalance b.stakedBalance

theorem Account.Change.refl (a : Account) : a.Change a := ⟨rfl, le_rfl, .inl ⟨rfl, rfl⟩⟩

theorem Account.Change.trans {a b c : Account} (h : a.Change b) (h' : b.Change c) : a.Change c where
  address := h'.address.trans h.address
  nonce := h.nonce.trans h'.nonce
  tier := by
    rcases h'.tier with ⟨hs, ht⟩ | ht
    · rw [hs, ht]
      exact h.tier
    · exact .inr ht

/-! ## All accounts -/

/-- What may happen to the accounts when only addresses in `S` are written. -/
structure AccountTree.Evolves (S : Set String) (t t' : AccountTree) : Prop where
  wellFormed : t'.WellFormed
  change : ∀ x : String, (t.account x).Change (t'.account x)
  stored : ∀ x : String, t[x]?.isSome → t'[x]?.isSome
  frame : ∀ x : String, x ∉ S → t'[x]? = t[x]?

/-- Starting from a well-formed store, the accounts evolve within `S`. -/
def Evolves (S : Set String) (db db' : KyveraDb) : Prop :=
  db.WellFormed → AccountTree.Evolves S db.accounts db'.accounts

namespace Evolves

variable {S : Set String} {db db' db'' : KyveraDb}

instance : Std.Refl (Evolves S) where
  refl _ h := ⟨h, fun _ => .refl _, fun _ hx => hx, fun _ _ => rfl⟩

instance : IsTrans KyveraDb (Evolves S) where
  trans _ _ _ h h' hwf :=
    have e := h hwf
    have e' := h' e.wellFormed
    ⟨e'.wellFormed, fun x => (e.change x).trans (e'.change x),
      fun x hx => e'.stored x (e.stored x hx), fun x hx => (e'.frame x hx).trans (e.frame x hx)⟩

theorem save {x : String} {a : Account} (hx : x ∈ S)
    (ha : db.WellFormed → (db.account x).Change a) : Evolves S db (db.save a) := by
  intro hwf
  have hchange := ha hwf
  have haddr : a.address = x := hchange.address.trans (hwf.address_account x)
  refine ⟨AccountTree.WellFormed.put hwf a, fun y => ?_, fun y hy => ?_, fun y hy => ?_⟩
  · rw [KyveraDb.accounts_save, AccountTree.account_put, haddr]
    split_ifs with h
    · exact h ▸ hchange
    · exact .refl _
  · rw [KyveraDb.accounts_save, AccountTree.getElem?_put]
    split_ifs
    · rfl
    · exact hy
  · rw [KyveraDb.accounts_save, AccountTree.getElem?_put, if_neg]
    rintro rfl
    exact hy (haddr ▸ hx)

end Evolves

/-- A metadata write does not touch the accounts. -/
theorem evolves_of_accounts_eq {S : Set String} {db db' : KyveraDb}
    (h : db'.accounts = db.accounts) : Evolves S db db' := by
  intro hwf
  rw [h]
  exact refl_of (Evolves S) db hwf

/-! ## The operations of the account store -/

section Store

variable {S : Set String} {db : KyveraDb} {x : String} {v : UInt64}

theorem along_saveAccount {a : Account} (hx : x ∈ S)
    (ha : db.WellFormed → (db.account x).Change a) : Along (Evolves S) (saveAccount a) db :=
  Evolves.save hx ha

theorem along_getOrCreateAccount_bind {β : Type} {g : Account → DbM β}
    (h : Along (Evolves S) (g (db.account x)) db) :
    Along (Evolves S) (getOrCreateAccount x >>= g) db := by
  unfold Along
  rw [run_bind_of_ok (run_getOrCreateAccount x db)]
  exact h

theorem along_creditAccount (hx : x ∈ S) : Along (Evolves S) (creditAccount x v) db := by
  refine along_getOrCreateAccount_bind (along_okOr_bind fun balance _ => ?_)
  exact along_saveAccount hx fun _ => ⟨rfl, le_rfl, .inl ⟨rfl, rfl⟩⟩

theorem along_creditNonzero (hx : x ∈ S) : Along (Evolves S) (creditNonzero x v) db := by
  unfold creditNonzero
  split_ifs
  · exact along_creditAccount hx
  · exact along_done () db

theorem along_debitAccount (hx : x ∈ S) : Along (Evolves S) (debitAccount x v) db := by
  refine along_getOrCreateAccount_bind (along_ite_err fun _ => ?_)
  exact along_saveAccount hx fun _ => ⟨rfl, le_rfl, .inl ⟨rfl, rfl⟩⟩

theorem le_of_checkedAdd_one {n m : UInt64} (h : U64.checkedAdd n 1 = some m) :
    n.toNat ≤ m.toNat := by
  rw [U64.checkedAdd_eq_some_iff.1 h]
  exact Nat.le_add_right _ _

theorem along_incrementNonce (hx : x ∈ S) : Along (Evolves S) (incrementNonce x) db := by
  refine along_getOrCreateAccount_bind (along_orPanic_bind fun nonce hn => ?_)
  exact along_saveAccount hx fun _ => ⟨rfl, le_of_checkedAdd_one hn, .inl ⟨rfl, rfl⟩⟩

theorem along_lockStake (hx : x ∈ S) : Along (Evolves S) (lockStake x v) db := by
  refine along_getOrCreateAccount_bind (along_ite_err fun _ => along_okOr_bind fun staked _ => ?_)
  exact along_saveAccount hx fun _ => ⟨rfl, le_rfl, .inr rfl⟩

theorem along_unlockStake (hx : x ∈ S) : Along (Evolves S) (unlockStake x v) db := by
  refine along_getOrCreateAccount_bind (along_ite_err fun _ => along_okOr_bind fun balance _ => ?_)
  exact along_saveAccount hx fun _ => ⟨rfl, le_rfl, .inr rfl⟩

end Store

/-! ## Transactions -/

section Transactions

variable {S : Set String} {db : KyveraDb} {tx : Transaction}

theorem along_applyFeeSplit {fee : UInt64} (ht : TREASURY_ADDRESS ∈ S) :
    Along (Evolves S) (applyFeeSplit fee) db :=
  along_creditNonzero ht

/-- The addresses that a transaction can write. -/
def Transaction.touched (tx : Transaction) : Set String :=
  {tx.sender, tx.receiver, TREASURY_ADDRESS}

theorem along_saveAccount_bind {a : Account} {x : String} {g : Unit → DbM Unit} (hx : x ∈ S)
    (ha : db.WellFormed → (db.account x).Change a)
    (hg : Along (Evolves S) (g ()) (db.save a)) : Along (Evolves S) (saveAccount a >>= g) db :=
  trans_of (Evolves S) (Evolves.save hx ha) hg

theorem along_applyTransfer (hs : tx.sender ∈ S) (hr : tx.receiver ∈ S)
    (ht : TREASURY_ADDRESS ∈ S) : Along (Evolves S) (applyTransfer tx) db := by
  refine along_getOrCreateAccount_bind (along_okOr_bind fun totalCost _ => ?_)
  apply along_ite_err
  intro _
  apply along_ite_err
  intro _
  apply along_orPanic_bind
  intro nonce hn
  refine along_saveAccount_bind hs (fun _ => ⟨rfl, le_of_checkedAdd_one hn, .inl ⟨rfl, rfl⟩⟩) ?_
  refine along_getOrCreateAccount_bind (along_okOr_bind fun balance _ => ?_)
  refine along_saveAccount_bind hr (fun _ => ⟨rfl, le_rfl, .inl ⟨rfl, rfl⟩⟩) ?_
  exact along_applyFeeSplit ht

theorem along_applyStakeLock (hs : tx.sender ∈ S) (ht : TREASURY_ADDRESS ∈ S) :
    Along (Evolves S) (applyStakeLock tx) db := by
  refine along_getOrCreateAccount_bind (along_okOr_bind fun totalCost _ => ?_)
  apply along_ite_err
  intro _
  apply along_ite_err
  intro _
  apply along_okOr_bind
  intro staked _
  apply along_orPanic_bind
  intro nonce hn
  refine along_saveAccount_bind hs (fun _ => ⟨rfl, le_of_checkedAdd_one hn, .inr rfl⟩) ?_
  exact along_applyFeeSplit ht

theorem along_applyStakeUnlock (hs : tx.sender ∈ S) (ht : TREASURY_ADDRESS ∈ S) :
    Along (Evolves S) (applyStakeUnlock tx) db := by
  refine along_getOrCreateAccount_bind (along_ite_err fun _ => along_ite_err fun _ => ?_)
  apply along_ite_err
  intro _
  apply along_okOr_bind
  intro balance _
  apply along_orPanic_bind
  intro nonce hn
  refine along_saveAccount_bind hs (fun _ => ⟨rfl, le_of_checkedAdd_one hn, .inr rfl⟩) ?_
  exact along_applyFeeSplit ht

theorem along_applyFeeOnly (hs : tx.sender ∈ S) (ht : TREASURY_ADDRESS ∈ S) :
    Along (Evolves S) (applyFeeOnly tx) db := by
  refine along_getOrCreateAccount_bind (along_ite_err fun _ => along_ite_err fun _ => ?_)
  apply along_orPanic_bind
  intro nonce hn
  refine along_saveAccount_bind hs (fun _ => ⟨rfl, le_of_checkedAdd_one hn, .inl ⟨rfl, rfl⟩⟩) ?_
  exact along_applyFeeSplit ht

/-- A transaction evolves its sender, its receiver and the treasury, also when it fails after its
first save. -/
theorem along_applyTransaction (hS : tx.touched ⊆ S) :
    Along (Evolves S) (applyTransaction tx) db := by
  have hs : tx.sender ∈ S := hS (.inl rfl)
  have hr : tx.receiver ∈ S := hS (.inr (.inl rfl))
  have ht : TREASURY_ADDRESS ∈ S := hS (.inr (.inr rfl))
  unfold applyTransaction
  cases tx.transactionType with
  | transfer => exact along_applyTransfer hs hr ht
  | stakeLock => exact along_applyStakeLock hs ht
  | stakeUnlock => exact along_applyStakeUnlock hs ht
  | contractDeploy => exact along_applyFeeOnly hs ht
  | contractCall => exact along_applyFeeOnly hs ht

end Transactions

/-! ## Rewards, slashing and unbonding -/

section Epochs

variable {S : Set String} {db : KyveraDb} {x : String}

theorem along_get_bind {β : Type} {g : KyveraDb → DbM β} (h : Along (Evolves S) (g db) db) :
    Along (Evolves S) (Prog.get >>= g) db := h

theorem along_applyCoinbase {coinbase : Transaction} {share : UInt64} (hr : coinbase.receiver ∈ S) :
    Along (Evolves S) (applyCoinbase coinbase share) db := by
  apply along_ite_err
  intro _
  exact Along.bind (along_creditNonzero hr) fun _ m _ => along_creditNonzero hr

theorem along_distributeLoop {totalShare : UInt64} {totalWeight : ℕ}
    {weights : List (String × UInt64)} (hw : ∀ e ∈ weights, e.1 ∈ S) (distributed : UInt64) :
    Along (Evolves S) (distributeLoop totalShare totalWeight distributed weights) db := by
  induction weights generalizing distributed db with
  | nil => exact along_done _ db
  | cons e rest ih =>
      obtain ⟨hx, hrest⟩ := List.forall_mem_cons.1 hw
      unfold distributeLoop
      dsimp only
      split_ifs
      · exact Along.bind (along_creditAccount hx) fun _ m _ => ih hrest _
      · exact ih hrest _

theorem along_distributeValidatorRewards {totalShare : UInt64} :
    Along (Evolves Set.univ) (distributeValidatorRewards totalShare) db := by
  unfold distributeValidatorRewards
  split_ifs
  · exact along_done _ db
  · refine along_get_bind ?_
    dsimp only
    split_ifs
    · exact along_done _ db
    · exact along_done _ db
    · exact along_distributeLoop (fun _ _ => Set.mem_univ _) 0

theorem along_applyEpochRewards {coinbase : Transaction} {fees : UInt64} :
    Along (Evolves Set.univ) (applyEpochRewards coinbase fees) db := by
  apply Along.bind (along_applyCoinbase (Set.mem_univ _))
  intro _ m _
  apply along_orPanic_bind
  intro share _
  apply Along.bind along_distributeValidatorRewards
  intro distributed m' _
  exact along_creditNonzero (Set.mem_univ _)

theorem along_getAccount_bind {β : Type} {g : Option Account → DbM β}
    (h : Along (Evolves S) (g db.accounts[x]?) db) :
    Along (Evolves S) (getAccount x >>= g) db := h

theorem along_slashValidator {slashBps : UInt64} (hx : x ∈ S) (ht : TREASURY_ADDRESS ∈ S) :
    Along (Evolves S) (slashValidator x slashBps) db := by
  refine along_getAccount_bind (along_okOr_bind fun account ha => along_ite_err fun _ => ?_)
  dsimp only
  split_ifs
  · exact along_done _ db
  · apply along_orPanic_bind
    intro staked _
    refine Along.bind (along_saveAccount hx fun _ => ?_) fun _ m _ => ?_
    · rw [KyveraDb.account, AccountTree.account_of_getElem? ha]
      exact ⟨rfl, le_rfl, .inr rfl⟩
    · exact Along.bind (along_creditAccount ht) fun _ m _ => along_done _ m

theorem along_setMetadata {key : String} {value : MetaEntry} :
    Along (Evolves S) (KyveraDb.setMetadata key value) db :=
  evolves_of_accounts_eq rfl

theorem along_requestUnstake {amount epoch : UInt64} (hx : x ∈ S) :
    Along (Evolves S) (requestUnstake x amount epoch) db := by
  refine along_getAccount_bind (along_okOr_bind fun account ha => along_ite_err fun _ => ?_)
  refine Along.bind (along_saveAccount hx fun _ => ?_) fun _ m _ => ?_
  · rw [KyveraDb.account, AccountTree.account_of_getElem? ha]
    exact ⟨rfl, le_rfl, .inr rfl⟩
  · apply along_orPanic_bind
    intro unlock _
    exact Along.bind along_setMetadata fun _ m _ => along_done _ m

theorem along_maturedLoop {epoch : UInt64} {entries : List (String × MetaEntry)} (total : UInt64)
    (keys : List String) :
    Along (Evolves Set.univ) (maturedLoop epoch total keys entries) db := by
  induction entries generalizing total keys db with
  | nil => exact along_done _ db
  | cons e rest ih =>
      apply along_okOr_bind
      intro pending _
      split_ifs
      · exact Along.bind (along_creditAccount (Set.mem_univ _)) fun _ m _ => ih _ _
      · exact ih _ _

theorem along_processMaturedUnstakes {epoch : UInt64} :
    Along (Evolves Set.univ) (processMaturedUnstakes epoch) db := by
  refine along_get_bind (Along.bind (along_maturedLoop _ _) fun r m _ => ?_)
  refine Along.bind (along_forM (fun key _ db => ?_) m) fun _ m' _ => along_done _ m'
  exact evolves_of_accounts_eq rfl

end Epochs

end Kyvera
