import Kyvera.Ledger.MaturityScan
import Kyvera.Ledger.Supply
import Kyvera.Library.Trace
import Kyvera.Library.TreeIndex

/-!
# Unbonding

What is staked, spendable or waiting to be released is bonded.  Staking and unstaking move funds
within one account, and processing matured withdrawals moves them from the records to the
accounts.  A new withdrawal moves them the other way, unless its key is taken: then it replaces the
record that was stored there, and the funds of that record are gone.
-/

namespace Kyvera

open Effect Effect.Prog Std Trace

/-! ## The records -/

/-- The funds of a metadata value: those of a pending withdrawal. -/
def MetaEntry.pendingAmount : MetaEntry → ℕ
  | .pendingUnstake p => p.amount.toNat
  | _ => 0

namespace KyveraDb

/-- The sum of the amounts of all stored withdrawals. -/
def pendingTotal (db : KyveraDb) : ℕ := TreeSum.sumOver MetaEntry.pendingAmount db.metadata

/-- Everything that accounts own or wait for. -/
def bonded (db : KyveraDb) : ℕ := db.supply + db.pendingTotal

/-- The funds of the withdrawal stored under a key, if there is one. -/
def amountAt (db : KyveraDb) (key : String) : ℕ :=
  (db.metadata[key]?.map MetaEntry.pendingAmount).getD 0

end KyveraDb

/-- The record that a request creates. -/
def requested (address : String) (amount epoch : UInt64) : PendingUnstake where
  address := address
  amount := amount
  requestEpoch := epoch
  unlockEpoch := epoch + UNBONDING_PERIOD_EPOCHS

/-- The account after a request. -/
def Account.unbond (a : Account) (v : UInt64) : Account :=
  { a with stakedBalance := a.stakedBalance - v }.updateValidatorTier

@[simp] theorem Account.address_unbond (a : Account) (v : UInt64) :
    (a.unbond v).address = a.address := rfl

theorem Account.holding_unbond {a : Account} {v : UInt64}
    (hv : v.toNat ≤ a.stakedBalance.toNat) : (a.unbond v).holding + v.toNat = a.holding := by
  have hs := U64.toNat_sub_of_le (UInt64.le_iff_toNat_le.2 hv)
  simp only [unbond, holding, balance_updateValidatorTier, stakedBalance_updateValidatorTier]
  omega

section Request

variable {db db' : KyveraDb} {x : String} {v e : UInt64} {p : PendingUnstake}

theorem run_requestUnstake_eq_ok_iff :
    (requestUnstake x v e).run db = (.ok p, db') ↔
      db.accounts[x]?.isSome ∧ v.toNat ≤ (db.account x).stakedBalance.toNat ∧
      e.toNat + UNBONDING_PERIOD_EPOCHS.toNat < U64.size ∧ p = requested x v e ∧
      db' = { db.save ((db.account x).unbond v) with
        metadata := db.metadata.insert (pendingUnstakeKey (requested x v e))
          (.pendingUnstake (requested x v e)) } := by
  rw [requestUnstake, run_getAccount_bind, run_okOr_bind_eq_ok_iff]
  rcases hx : db.accounts[x]? with _ | a
  · simp
  · have ha : db.account x = a := AccountTree.account_of_getElem? hx
    simp only [Option.some.injEq, exists_eq_left', run_ite_err_eq_ok_iff, run_saveAccount_bind,
      run_orPanic_bind_eq_ok_iff, U64.exists_checkedAdd_iff, UInt64.not_lt, UInt64.le_iff_toNat_le,
      Option.isSome_some, true_and, ha]
    apply and_congr_right
    intro _
    apply and_congr_right
    intro _
    constructor
    · intro h
      cases h
      exact ⟨rfl, rfl⟩
    · rintro ⟨rfl, rfl⟩
      rfl

/-- A request moves funds from the stake into its record, and drops what was stored there. -/
theorem bonded_requestUnstake (h : db.WellFormed)
    (hrun : (requestUnstake x v e).run db = (.ok p, db')) :
    db'.WellFormed ∧
    db'.bonded + db.amountAt (pendingUnstakeKey (requested x v e)) = db.bonded := by
  obtain ⟨-, hv, -, -, rfl⟩ := run_requestUnstake_eq_ok_iff.1 hrun
  have hsave := h.supply_save (x := x) (a := (db.account x).unbond v) rfl
  have hunbond := Account.holding_unbond hv
  have hmeta := TreeSum.sumOver_insert_add MetaEntry.pendingAmount db.metadata
    (pendingUnstakeKey (requested x v e)) (.pendingUnstake (requested x v e))
  have hamount : (MetaEntry.pendingUnstake (requested x v e)).pendingAmount = v.toNat := rfl
  refine ⟨h.save _, ?_⟩
  show (db.save ((db.account x).unbond v)).supply + TreeSum.sumOver MetaEntry.pendingAmount
      (db.metadata.insert (pendingUnstakeKey (requested x v e)) (.pendingUnstake (requested x v e)))
      + (db.metadata[pendingUnstakeKey (requested x v e)]?.map MetaEntry.pendingAmount).getD 0 =
    db.supply + TreeSum.sumOver MetaEntry.pendingAmount db.metadata
  omega

end Request

/-! ## Maturity -/

section Matured

variable {db db' : KyveraDb} {epoch : UInt64}

theorem supply_processMaturedUnstakes {total : UInt64} (h : db.WellFormed)
    (hrun : (processMaturedUnstakes epoch).run db = (.ok total, db')) :
    let released := matured epoch db.withdrawals
    db'.WellFormed ∧
    db'.metadata = (released.map Prod.fst).foldl (fun t k => t.erase k) db.metadata ∧
    db'.supply = db.supply + (released.map fun e => e.2.amount.toNat).sum := by
  rcases run_processMaturedUnstakes_cases h epoch with
    ⟨hfit, -, hok⟩ | ⟨front, e, back, m, -, -, herr⟩
  · rw [hok] at hrun
    cases hrun
    refine ⟨h.afterMaturity, rfl, ?_⟩
    show (db.payAll (releases epoch db.withdrawals)).supply = _
    rw [h.supply_payAll hfit, releases, payments, List.map_map]
    rfl
  · rw [herr] at hrun
    cases hrun

theorem matured_stored (db : KyveraDb) (epoch : UInt64) :
    let released := matured epoch db.withdrawals
    (released.map Prod.fst).Nodup ∧
    ∀ e ∈ released, db.metadata[e.1]? = some (MetaEntry.pendingUnstake e.2) := by
  have scan : db.withdrawals.Sublist db.metadata.toList :=
    List.filter_sublist
  refine ⟨?_, ?_⟩
  · exact (matured_keys_sublist _).nodup ((scan.map _).nodup (TreeSum.nodup_keys _))
  · intro e he
    exact ExtTreeMap.mem_toList_iff_getElem?_eq_some.1 (scan.subset (mem_matured_iff.1 he).1)

/-- Processing matured withdrawals moves their funds into the accounts. -/
theorem bonded_processMaturedUnstakes {total : UInt64} (h : db.WellFormed)
    (hrun : (processMaturedUnstakes epoch).run db = (.ok total, db')) :
    db'.WellFormed ∧ db'.bonded = db.bonded := by
  obtain ⟨hwf, hmeta, hsupply⟩ := supply_processMaturedUnstakes h hrun
  obtain ⟨hnodup, hstored⟩ := matured_stored db epoch
  have hsum := TreeSum.sumOver_foldl_erase_add MetaEntry.pendingAmount
    ((matured epoch db.withdrawals).map
      fun e => (e.1, MetaEntry.pendingUnstake e.2)) db.metadata
    (by rwa [List.map_map])
    (by
      intro e he
      obtain ⟨r, hr, rfl⟩ := List.mem_map.1 he
      exact hstored r hr)
  rw [List.map_map, List.map_map] at hsum
  refine ⟨hwf, ?_⟩
  unfold KyveraDb.bonded KyveraDb.pendingTotal
  rw [hmeta, hsupply, ← hsum, Nat.add_assoc]
  exact congrArg _ (Nat.add_comm _ _)

end Matured

/-! ## Keys -/

/-- The key of a withdrawal tells its address and both its epochs, but not its amount. -/
theorem pendingUnstakeKey_eq_iff {p q : PendingUnstake} :
    pendingUnstakeKey p = pendingUnstakeKey q ↔
      p.address = q.address ∧ p.requestEpoch = q.requestEpoch ∧ p.unlockEpoch = q.unlockEpoch := by
  constructor
  · intro h
    have e := congrArg String.toList h
    simp only [pendingUnstakeKey, String.toList_append, List.append_assoc] at e
    have e₁ := List.append_cancel_left e
    obtain ⟨hunlock, e₂⟩ := List.append_inj e₁ ((length_pad20 _).trans (length_pad20 _).symm)
    have e₃ := List.append_cancel_left e₂
    obtain ⟨haddress, e₄⟩ := List.append_inj' e₃ (by
      rw [List.length_append, List.length_append, length_pad20, length_pad20])
    have hrequest := List.append_cancel_left e₄
    exact ⟨String.toList_inj.1 haddress, pad20_injective (String.toList_inj.1 hrequest),
      pad20_injective (String.toList_inj.1 hunlock)⟩
  · rintro ⟨haddress, hrequest, hunlock⟩
    rw [pendingUnstakeKey, pendingUnstakeKey, haddress, hrequest, hunlock]

/-- Every withdrawal is stored under its own key, and unlocks a full period after its request. -/
def KyveraDb.Filed (db : KyveraDb) : Prop :=
  ∀ (k : String) (p : PendingUnstake), db.metadata[k]? = some (.pendingUnstake p) →
    k = pendingUnstakeKey p ∧ p.unlockEpoch = p.requestEpoch + UNBONDING_PERIOD_EPOCHS

/-! ## Runs -/

/-- A call of the staking interface. -/
inductive StakeCall where
  | lockStake (address : String) (amount : UInt64)
  | unlockStake (address : String) (amount : UInt64)
  | requestUnstake (address : String) (amount currentEpoch : UInt64)
  | processMaturedUnstakes (currentEpoch : UInt64)

/-- The program of a call, without its result. -/
def StakeCall.program : StakeCall → DbM Unit
  | .lockStake x v => Kyvera.lockStake x v
  | .unlockStake x v => Kyvera.unlockStake x v
  | .requestUnstake x v e => do let _ ← Kyvera.requestUnstake x v e
  | .processMaturedUnstakes e => do let _ ← Kyvera.processMaturedUnstakes e

/-- A successful call. -/
def Succeeds (db : KyveraDb) (call : StakeCall) (db' : KyveraDb) : Prop :=
  call.program.run db = (.ok (), db')

theorem run_discard_eq_ok_iff {α : Type} {p : DbM α} {db db' : KyveraDb} :
    (do let _ ← p : DbM Unit).run db = (.ok (), db') ↔ ∃ a, p.run db = (.ok a, db') := by
  rw [run_bind_eq_ok_iff]
  constructor
  · rintro ⟨a, m, ha, h⟩
    cases h
    exact ⟨a, ha⟩
  · rintro ⟨a, ha⟩
    exact ⟨a, db', ha, rfl⟩

/-- A request whose key is taken by a withdrawal that still holds funds. -/
def StakeCall.Overwrites (db : KyveraDb) : StakeCall → Prop
  | .requestUnstake x v e =>
      ∃ p, db.metadata[pendingUnstakeKey (requested x v e)]? = some (.pendingUnstake p) ∧
        p.amount ≠ 0
  | _ => False

/-- Where withdrawals are filed, the key of a request is taken by an earlier request of the same
address in the same epoch. -/
theorem overwrites_iff {db : KyveraDb} (hfiled : db.Filed) {x : String} {v e : UInt64} :
    (StakeCall.requestUnstake x v e).Overwrites db ↔
      ∃ (k : String) (p : PendingUnstake), db.metadata[k]? = some (.pendingUnstake p) ∧
        p.address = x ∧ p.requestEpoch = e ∧ p.amount ≠ 0 := by
  constructor
  · rintro ⟨p, hp, hamount⟩
    obtain ⟨haddress, hepoch, -⟩ := pendingUnstakeKey_eq_iff.1 (hfiled _ p hp).1
    exact ⟨_, p, hp, haddress.symm, hepoch.symm, hamount⟩
  · rintro ⟨k, p, hp, rfl, rfl, hamount⟩
    obtain ⟨rfl, hunlock⟩ := hfiled k p hp
    have hkey : pendingUnstakeKey (requested p.address v p.requestEpoch) = pendingUnstakeKey p :=
      pendingUnstakeKey_eq_iff.2 ⟨rfl, rfl, hunlock.symm⟩
    rw [← hkey] at hp
    exact ⟨p, hp, hamount⟩

theorem Succeeds.filed {db db' : KyveraDb} {call : StakeCall} (h : db.WellFormed)
    (hfiled : db.Filed) (hcall : Succeeds db call db') : db'.Filed := by
  cases call with
  | lockStake x v =>
      obtain ⟨-, -, rfl⟩ := run_lockStake_eq_ok_iff.1 hcall
      exact hfiled
  | unlockStake x v =>
      obtain ⟨-, -, rfl⟩ := run_unlockStake_eq_ok_iff.1 hcall
      exact hfiled
  | requestUnstake x v e =>
      obtain ⟨p, hrun⟩ := run_discard_eq_ok_iff.1 hcall
      obtain ⟨-, -, -, -, rfl⟩ := run_requestUnstake_eq_ok_iff.1 hrun
      intro k q hq
      rcases TreeIndex.getElem?_insert_eq_some_iff.1 hq with ⟨rfl, hnew⟩ | ⟨-, hold⟩
      · cases hnew
        exact ⟨rfl, rfl⟩
      · exact hfiled k q hold
  | processMaturedUnstakes e =>
      obtain ⟨total, hrun⟩ := run_discard_eq_ok_iff.1 hcall
      obtain ⟨-, hmeta, -⟩ := supply_processMaturedUnstakes h hrun
      intro k q hq
      rw [hmeta] at hq
      exact hfiled k q (TreeSum.getElem?_foldl_erase_eq_some_iff.1 hq).2

/-- The funds that a call drops. -/
def StakeCall.overwritten (db : KyveraDb) : StakeCall → ℕ
  | .requestUnstake x v e => db.amountAt (pendingUnstakeKey (requested x v e))
  | _ => 0

theorem overwritten_eq_zero_iff {db : KyveraDb} {call : StakeCall} :
    call.overwritten db = 0 ↔ ¬ call.Overwrites db := by
  cases call with
  | lockStake x v => exact iff_of_true rfl not_false
  | unlockStake x v => exact iff_of_true rfl not_false
  | processMaturedUnstakes e => exact iff_of_true rfl not_false
  | requestUnstake x v e =>
      unfold StakeCall.overwritten StakeCall.Overwrites KyveraDb.amountAt
      rcases hkey : db.metadata[pendingUnstakeKey (requested x v e)]? with _ | value
      · simp [hkey]
      · cases value <;> simp [hkey, MetaEntry.pendingAmount, ← UInt64.toNat_inj]

/-- A successful call keeps what is bonded, but for the funds that it drops. -/
theorem Succeeds.bonded {db db' : KyveraDb} {call : StakeCall} (h : db.WellFormed)
    (hcall : Succeeds db call db') :
    db'.WellFormed ∧ db'.bonded + call.overwritten db = db.bonded := by
  cases call with
  | lockStake x v =>
      obtain ⟨hv, hs, rfl⟩ := run_lockStake_eq_ok_iff.1 hcall
      have hsave := h.supply_save (Account.address_lock (db.account x) v)
      rw [Account.holding_lock hv hs] at hsave
      refine ⟨h.save _, ?_⟩
      show (db.save _).supply + db.pendingTotal + 0 = db.supply + db.pendingTotal
      omega
  | unlockStake x v =>
      obtain ⟨hv, hroom, rfl⟩ := run_unlockStake_eq_ok_iff.1 hcall
      have hsave := h.supply_save (Account.address_unlock (db.account x) v)
      rw [Account.holding_unlock hv hroom] at hsave
      refine ⟨h.save _, ?_⟩
      show (db.save _).supply + db.pendingTotal + 0 = db.supply + db.pendingTotal
      omega
  | requestUnstake x v e =>
      obtain ⟨p, hrun⟩ := run_discard_eq_ok_iff.1 hcall
      exact bonded_requestUnstake h hrun
  | processMaturedUnstakes e =>
      obtain ⟨total, hrun⟩ := run_discard_eq_ok_iff.1 hcall
      exact bonded_processMaturedUnstakes h hrun

section Runs

variable {db : KyveraDb} {run : List (Step KyveraDb StakeCall)}

/-- Over any run of successful calls on a well-formed store, what is bonded stays constant exactly
when no request takes the key of a withdrawal that still holds funds. -/
theorem bonded_constant_iff (hwf : db.WellFormed)
    (h : IsRun Succeeds db run) :
    (∀ t ∈ run, t.post.bonded = db.bonded) ↔ ∀ t ∈ run, ¬ t.call.Overwrites t.pre := by
  induction run generalizing db with
  | nil => simp
  | cons t rest ih =>
      obtain ⟨rfl, ht, hrest⟩ := h
      obtain ⟨hpost, hbonded⟩ := ht.bonded hwf
      have hone : t.post.bonded = t.pre.bonded ↔ ¬ t.call.Overwrites t.pre := by
        rw [← overwritten_eq_zero_iff]
        omega
      rw [List.forall_mem_cons, List.forall_mem_cons, hone, ← ih hpost hrest]
      apply and_congr_right
      intro hkept
      rw [hone.2 hkept]

end Runs

/-- The calls of a list, each made on the database that the one before it left. -/
def calls (db : KyveraDb) (list : List StakeCall) : List (Step KyveraDb StakeCall) :=
  trace (fun db call => (call.program.run db).2) db list

theorem isRun_calls {db : KyveraDb} {list : List StakeCall}
    (h : ∀ t ∈ calls db list, (t.call.program.run t.pre).1 = .ok ()) :
    IsRun Succeeds db (calls db list) :=
  isRun_trace fun t ht => run_eq_of_outcome (h t ht)

/-- Two requests of one address in different epochs, released together. -/
theorem bonded_constant_two_epochs :
    let db := KyveraDb.withAccounts [{ Account.new "kyv1a" with balance := 100 }]
    ∀ t ∈ calls db [.lockStake "kyv1a" 60, .requestUnstake "kyv1a" 30 5,
      .requestUnstake "kyv1a" 20 6, .processMaturedUnstakes 16], t.post.bonded = db.bonded := by
  intro db
  apply (bonded_constant_iff (KyveraDb.wellFormed_withAccounts _)
    (isRun_calls (by decide +kernel))).2
  simp only [← overwritten_eq_zero_iff]
  decide +kernel

/-- Two requests of one address in one epoch: the second record replaces the first one. -/
theorem bonded_lost :
    let db := KyveraDb.withAccounts [{ Account.new "kyv1a" with stakedBalance := 100 }]
    let run := calls db [.requestUnstake "kyv1a" 30 5, .requestUnstake "kyv1a" 20 5]
    db.WellFormed ∧ IsRun Succeeds db run ∧ db.bonded = 100 ∧
      run.map (fun t => t.post.bonded) = [100, 70] :=
  ⟨KyveraDb.wellFormed_withAccounts _, isRun_calls (by decide +kernel), by decide, by decide⟩

end Kyvera
