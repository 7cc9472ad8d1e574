import Kyvera.Ledger.SlashAmount
import Kyvera.Storage.BlockStore
import Kyvera.Storage.TxStore

/-!
# Operations of two writes

Saving a block, saving a transaction, requesting a withdrawal and slashing a stake each write two
entries, one after the other.  When the second write is refused, the operation fails and the first
entry stays.  So such an operation leaves the database as it was only if its first entry was there
already.
-/

namespace Kyvera

open Effect Effect.Prog Std

/-! ## One operation after the other -/

section Operations

variable {db db₀ : KyveraDb} {n : ℕ} {x : String}

theorem KyveraDb.save_unbond_eq_self_iff {a : Account} {v : UInt64} :
    db.save (a.unbond v) = db ↔ db.accounts[a.address]? = some (a.unbond v) := by
  rcases db with ⟨_, _, accounts, _, _⟩
  simp [KyveraDb.save, AccountTree.put, TreeIndex.insert_eq_self_iff]

/-- Behind a save that is taken, the database to go back to is the one before it. -/
theorem allOrNothing_saveAccount_bind_iff {β : Type} {a : Account} {g : Unit → DbM β} :
    (saveAccount a >>= g).AllOrNothing n db ↔
      ∀ k, n = k + 1 → (g ()).FailsOnlyIn db k (db.save a) :=
  allOrNothing_set_bind_iff

theorem allOrNothing_stored_iff {β : Type} {e : String} {g : Account → DbM β} :
    (getAccount x >>= fun found => okOr e found >>= g).AllOrNothing n db ↔
      ∀ a, db.accounts[x]? = some a → (g a).AllOrNothing n db := by
  unfold AllOrNothing
  rw [(readOnly_getAccount x db).failsOnlyIn_bind_iff (run_getAccount x db),
    failsOnlyIn_okOr_bind_iff]
  exact and_iff_right fun _ => rfl

theorem failsOnlyIn_creditAccount_iff {v : UInt64} :
    (creditAccount x v).FailsOnlyIn db₀ n db ↔
      (n = 0 ∨ ¬ (db.account x).Room v → db = db₀) := by
  unfold creditAccount saveAccount
  rw [(readOnly_getOrCreateAccount x db).failsOnlyIn_bind_iff (run_getOrCreateAccount x db),
    failsOnlyIn_okOr_bind_iff]
  simp only [failsOnlyIn_set_iff]
  by_cases hroom : (db.account x).Room v
  · rw [U64.checkedAdd_of_lt hroom]
    simp [hroom]
  · rw [U64.checkedAdd_of_not_lt hroom]
    simp [hroom]

theorem allOrNothing_saveBlock_iff {block : Block} :
    (saveBlock block).AllOrNothing n db ↔
      (n = 1 → db.blocksByHash[block.hash]? = some block) := by
  unfold saveBlock
  rw [allOrNothing_set_bind_set_iff]
  rcases db with ⟨blocksByHash, _, _, _, _⟩
  simp [TreeIndex.insert_eq_self_iff]

theorem allOrNothing_saveTransaction_iff {tx : Transaction} :
    (saveTransaction tx).AllOrNothing n db ↔
      (tx.hash.isEmpty = false → n = 1 →
        db.transactions[tx.hash]? = some (.transaction tx)) := by
  unfold saveTransaction KyveraDb.setTransaction
  rw [allOrNothing_ite_err_iff, allOrNothing_set_bind_set_iff, Bool.not_eq_true]
  rcases db with ⟨_, _, _, transactions, _⟩
  simp [TreeIndex.insert_eq_self_iff]

/-- An unlock epoch beyond 64 bits is a panic, not an error. -/
theorem allOrNothing_requestUnstake_iff {v e : UInt64} :
    (requestUnstake x v e).AllOrNothing n db ↔
      ∀ a, db.accounts[x]? = some a → v ≤ a.stakedBalance →
        e.toNat + UNBONDING_PERIOD_EPOCHS.toNat < U64.size → n = 1 →
        db.accounts[a.address]? = some (a.unbond v) := by
  unfold requestUnstake
  rw [allOrNothing_stored_iff]
  apply forall₂_congr
  intro a _
  rw [allOrNothing_ite_err_iff, UInt64.not_lt, allOrNothing_saveAccount_bind_iff]
  apply imp_congr_right
  intro _
  unfold savePendingUnstake KyveraDb.setMetadata
  simp only [failsOnlyIn_orPanic_bind_iff, pure_eq_done, failsOnlyIn_bind_done_iff,
    failsOnlyIn_set_iff]
  rw [← KyveraDb.save_unbond_eq_self_iff]
  constructor
  · rintro h hfits rfl
    exact h 0 rfl _ (U64.checkedAdd_of_lt hfits) rfl
  · rintro h k rfl u hu rfl
    exact h (U64.lt_size_of_checkedAdd hu) rfl

/-- The two writes of a slash.  Behind the save, the credit fails when its write is refused, and
without a refused write when the treasury has no room. -/
theorem allOrNothing_moveToTreasury_iff {a : Account} {v : UInt64} :
    (saveAccount (a.unbond v) >>= fun _ => creditAccount TREASURY_ADDRESS v >>= fun _ =>
      (pure v : DbM UInt64)).AllOrNothing n db ↔
    (n = 1 ∨ 1 < n ∧ ¬ (if a.address = TREASURY_ADDRESS then a
        else db.account TREASURY_ADDRESS).Room v →
      db.accounts[a.address]? = some (a.unbond v)) := by
  have hroom : ((db.save (a.unbond v)).account TREASURY_ADDRESS).Room v ↔
      (if a.address = TREASURY_ADDRESS then a else db.account TREASURY_ADDRESS).Room v := by
    rw [KyveraDb.account_save, Account.address_unbond]
    split_ifs <;> rfl
  rw [allOrNothing_saveAccount_bind_iff, ← hroom, ← KyveraDb.save_unbond_eq_self_iff]
  simp only [pure_eq_done, failsOnlyIn_bind_done_iff, failsOnlyIn_creditAccount_iff]
  constructor
  · rintro h (rfl | ⟨hn, hfull⟩)
    · exact h 0 rfl (.inl rfl)
    · exact h (n - 1) (by omega) (.inr hfull)
  · rintro h k rfl (rfl | hfull)
    · exact h (.inl rfl)
    · rcases Nat.eq_zero_or_pos k with rfl | hk
      · exact h (.inl rfl)
      · exact h (.inr ⟨Nat.succ_lt_succ hk, hfull⟩)

/-- A slash that takes more than the stake is a panic, not an error. -/
theorem allOrNothing_slashValidator_iff {slashBps : UInt64} :
    (slashValidator x slashBps).AllOrNothing n db ↔
      ∀ a, db.accounts[x]? = some a →
        slashAmount a.stakedBalance slashBps ≠ 0 →
        slashAmount a.stakedBalance slashBps ≤ a.stakedBalance →
        n = 1 ∨ 1 < n ∧ ¬ (if a.address = TREASURY_ADDRESS then a
          else db.account TREASURY_ADDRESS).Room (slashAmount a.stakedBalance slashBps) →
        db.accounts[a.address]? = some (a.unbond (slashAmount a.stakedBalance slashBps)) := by
  unfold slashValidator
  rw [allOrNothing_stored_iff]
  apply forall₂_congr
  intro a _
  have hempty : a.stakedBalance = 0 → slashAmount a.stakedBalance slashBps = 0 := by
    intro hzero
    rw [slashAmount_eq_zero_iff, hzero, UInt64.toNat_zero, Nat.zero_mul]
    decide
  rw [allOrNothing_ite_err_iff]
  unfold slashAmount at hempty ⊢
  generalize U64.saturatingMul a.stakedBalance slashBps / 10000 = v at hempty ⊢
  by_cases hzero : v = 0
  · simp only [if_pos hzero]
    exact iff_of_true (fun _ => failsOnlyIn_done _) fun hne => absurd hzero hne
  · have hstake : ¬ a.stakedBalance = 0 := fun h => hzero (hempty h)
    simp only [if_neg hzero]
    rw [imp_iff_right hstake, imp_iff_right hzero, ← allOrNothing_moveToTreasury_iff,
      allOrNothing_orPanic_bind_iff]
    unfold U64.checkedSub
    by_cases hle : v ≤ a.stakedBalance
    · rw [if_pos hle, imp_iff_right hle]
      constructor
      · intro h
        exact h _ rfl
      · rintro h _ hsub
        cases hsub
        exact h
    · rw [if_neg hle]
      exact iff_of_true (fun _ hsub => absurd hsub (by simp)) fun h => absurd h hle

theorem KyveraDb.forall_stored_iff {P : Account → Prop} :
    (∀ a, db.accounts[x]? = some a → P a) ↔ (db.accounts[x]?.isSome → P (db.account x)) := by
  rcases hx : db.accounts[x]? with _ | a
  · simp
  · rw [KyveraDb.account, AccountTree.account_of_getElem? hx]
    simp

end Operations

/-! ## What is lost -/

section Lost

variable {db db' : KyveraDb} {x msg : String} {v e : UInt64}

theorem failsOnlyIn_requestUnstake (hx : db.accounts[x]?.isSome)
    (hle : v ≤ (db.account x).stakedBalance) :
    (requestUnstake x v e).FailsOnlyIn (db.save ((db.account x).unbond v)) 1 db := by
  have hstored : db.accounts[x]? = some (db.account x) := AccountTree.getElem?_of_isSome hx
  unfold requestUnstake
  rw [(readOnly_getAccount x db).failsOnlyIn_bind_iff (run_getAccount x db), hstored, okOr_some,
    done_bind, if_neg (UInt64.not_lt.2 hle)]
  apply failsOnlyIn_set_bind_iff.2
  refine ⟨fun h => absurd h one_ne_zero, ?_⟩
  rintro k hk
  rw [failsOnlyIn_orPanic_bind_iff]
  intro u _
  exact failsOnlyIn_bind_done_iff.2 (failsOnlyIn_set_iff.2 fun _ => rfl)

/-- A request whose record is refused takes the amount out of the stake and puts it nowhere. -/
theorem bonded_half_requestUnstake (h : db.WellFormed) (hx : db.accounts[x]?.isSome)
    (hle : v ≤ (db.account x).stakedBalance)
    (hrun : (requestUnstake x v e).runRefusing 1 db = (.err msg, db')) :
    db'.bonded + v.toNat = db.bonded := by
  have hstate := failsOnlyIn_requestUnstake hx hle msg db' hrun
  have hsave := h.supply_save (x := x) (a := (db.account x).unbond v) rfl
  have hunbond := Account.holding_unbond (UInt64.le_iff_toNat_le.1 hle)
  have hpending : (db.save ((db.account x).unbond v)).pendingTotal = db.pendingTotal := rfl
  rw [hstate]
  unfold KyveraDb.bonded
  omega

end Lost

/-! ## When the save has no effect -/

theorem Account.unbond_eq_self_iff {a : Account} {v : UInt64} (hle : v ≤ a.stakedBalance) :
    a.unbond v = a ↔
      v = 0 ∧ a.validatorTier = ValidatorTier.fromStakedBalance a.stakedBalance := by
  constructor
  · intro h
    have hstake : a.stakedBalance - v = a.stakedBalance := congrArg Account.stakedBalance h
    have htier := congrArg Account.validatorTier h
    have hsub := U64.toNat_sub_of_le hle
    have hv : v = 0 := by
      rw [hstake] at hsub
      apply UInt64.toNat_inj.1
      rw [UInt64.toNat_zero]
      omega
    refine ⟨hv, ?_⟩
    rw [← htier]
    show ValidatorTier.fromStakedBalance (a.stakedBalance - v) = _
    rw [hstake]
  · rintro ⟨rfl, htier⟩
    unfold unbond updateValidatorTier
    rw [UInt64.sub_zero, ← htier]

/-- Where accounts are stored under their own addresses, the save of a request has no effect only
for an amount of zero, and the save of a slash that takes something always has one. -/
theorem KyveraDb.WellFormed.stored_unbond_iff {db : KyveraDb} {x : String} {v : UInt64}
    (h : db.WellFormed) (hx : db.accounts[x]?.isSome) (hle : v ≤ (db.account x).stakedBalance) :
    db.accounts[(db.account x).address]? = some ((db.account x).unbond v) ↔
      v = 0 ∧ (db.account x).validatorTier =
        ValidatorTier.fromStakedBalance (db.account x).stakedBalance := by
  have hstored : db.accounts[x]? = some (db.account x) := AccountTree.getElem?_of_isSome hx
  rw [← Account.unbond_eq_self_iff hle, h.address_account, hstored, Option.some_inj, eq_comm]

/-! ## All of them -/

/-- A call of an operation that writes two entries. -/
inductive MultiWrite where
  | saveBlock (block : Block)
  | saveTransaction (tx : Transaction)
  | requestUnstake (address : String) (amount currentEpoch : UInt64)
  | slashValidator (address : String) (slashBps : UInt64)
  deriving DecidableEq, Repr

namespace MultiWrite

/-- On a disk that takes `n` writes and refuses the next one, the call leaves every tree as it was
if it fails. -/
def AllOrNothing (n : ℕ) (db : KyveraDb) : MultiWrite → Prop
  | saveBlock block => (Kyvera.saveBlock block).AllOrNothing n db
  | saveTransaction tx => (Kyvera.saveTransaction tx).AllOrNothing n db
  | requestUnstake address amount currentEpoch =>
      (Kyvera.requestUnstake address amount currentEpoch).AllOrNothing n db
  | slashValidator address slashBps => (Kyvera.slashValidator address slashBps).AllOrNothing n db

/-- The call gets beyond its first write and fails there: the second write is refused, or, for a
slash, the treasury has no room. -/
def FailsHalfway (n : ℕ) (db : KyveraDb) : MultiWrite → Prop
  | saveBlock _ => n = 1
  | saveTransaction tx => tx.hash.isEmpty = false ∧ n = 1
  | requestUnstake address amount currentEpoch =>
      db.accounts[address]?.isSome ∧ amount ≤ (db.account address).stakedBalance ∧
        currentEpoch.toNat + UNBONDING_PERIOD_EPOCHS.toNat < U64.size ∧ n = 1
  | slashValidator address slashBps =>
      let account := db.account address
      let amount := slashAmount account.stakedBalance slashBps
      let treasury :=
        if account.address = TREASURY_ADDRESS then account else db.account TREASURY_ADDRESS
      db.accounts[address]?.isSome ∧ amount ≠ 0 ∧ amount ≤ account.stakedBalance ∧
        (n = 1 ∨ 1 < n ∧ ¬ treasury.Room amount)

/-- The entry that the call writes first is stored already. -/
def FirstStored (db : KyveraDb) : MultiWrite → Prop
  | saveBlock block => db.blocksByHash[block.hash]? = some block
  | saveTransaction tx => db.transactions[tx.hash]? = some (.transaction tx)
  | requestUnstake address amount _ =>
      db.accounts[(db.account address).address]? = some ((db.account address).unbond amount)
  | slashValidator address slashBps =>
      let account := db.account address
      db.accounts[account.address]? =
        some (account.unbond (slashAmount account.stakedBalance slashBps))

end MultiWrite

/-- A call is all or nothing unless it fails halfway and its first write had an effect. -/
theorem multiWrite_allOrNothing_iff (call : MultiWrite) (n : ℕ) (db : KyveraDb) :
    call.AllOrNothing n db ↔ (call.FailsHalfway n db → call.FirstStored db) := by
  cases call with
  | saveBlock block => exact allOrNothing_saveBlock_iff
  | saveTransaction tx => exact allOrNothing_saveTransaction_iff.trans and_imp.symm
  | requestUnstake address amount currentEpoch =>
      apply (allOrNothing_requestUnstake_iff.trans KyveraDb.forall_stored_iff).trans
      simp only [MultiWrite.FailsHalfway, MultiWrite.FirstStored, and_imp]
  | slashValidator address slashBps =>
      apply (allOrNothing_slashValidator_iff.trans KyveraDb.forall_stored_iff).trans
      simp only [MultiWrite.FailsHalfway, MultiWrite.FirstStored, and_imp]

/-- A block that no index knows. -/
def unindexedBlock : Block :=
  { Block.new (BlockHeader.new 1000 1 "aa" "bb" 1 false 0) [] "kyv1v" 0 with hash := "cc" }

/-- A transaction that no index knows. -/
def unindexedTransaction : Transaction :=
  { Transaction.new 1000 "kyv1a" "kyv1b" 40 10 0 .transfer [] with hash := "dd" }

/-- The validator, and a treasury without room. -/
def fullTreasuryDb : KyveraDb :=
  validatorDb.save { Account.new TREASURY_ADDRESS with balance := U64.max }

/-- With the second write refused, the first one stays: a block without its height, a transaction
without its sender, a stake that is taken and neither recorded nor paid to the treasury.  A treasury
without room does the same to a slash on a disk that takes every write. -/
theorem half_done_calls :
    ¬ (MultiWrite.saveBlock unindexedBlock).AllOrNothing 1 KyveraDb.empty ∧
      ¬ (MultiWrite.saveTransaction unindexedTransaction).AllOrNothing 1 KyveraDb.empty ∧
      ¬ (MultiWrite.requestUnstake "kyv1v" 600000000009 5).AllOrNothing 1 validatorDb ∧
      ¬ (MultiWrite.slashValidator "kyv1v" MAJOR_SLASH_BPS).AllOrNothing 1 validatorDb ∧
      ¬ (MultiWrite.slashValidator "kyv1v" MAJOR_SLASH_BPS).AllOrNothing 2 fullTreasuryDb := by
  refine ⟨?_, ?_, ?_, ?_, ?_⟩
  · intro h
    have hstored := allOrNothing_saveBlock_iff.1 h rfl
    exact absurd hstored (by decide)
  · intro h
    have hstored := allOrNothing_saveTransaction_iff.1 h (by decide) rfl
    exact absurd hstored (by decide)
  · intro h
    have hstored := (allOrNothing_requestUnstake_iff.trans KyveraDb.forall_stored_iff).1 h
      (by decide) (by decide) (by decide) rfl
    exact absurd hstored (by decide +kernel)
  · intro h
    have hstored := (allOrNothing_slashValidator_iff.trans KyveraDb.forall_stored_iff).1 h
      (by decide) (by decide +kernel) (by decide +kernel) (.inl rfl)
    exact absurd hstored (by decide +kernel)
  · intro h
    have hstored := (allOrNothing_slashValidator_iff.trans KyveraDb.forall_stored_iff).1 h
      (by decide +kernel) (by decide +kernel) (by decide +kernel)
      (.inr ⟨by decide, by unfold Account.Room; decide +kernel⟩)
    exact absurd hstored (by decide +kernel)

end Kyvera
