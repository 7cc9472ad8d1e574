import Kyvera.Ledger.Unbonding
import Kyvera.Consensus.Validators

/-!
# Slashing and unbonding

A slash takes its part of the stake that is left at the moment of the slash.  A withdrawal that was
requested before has left the stake and waits in its record, which a slash does not look at.  So
what a request moves out of the stake is out of reach, although it has not been released yet.
-/

namespace Kyvera

open Effect Effect.Prog Std Trace

/-! ## One slash -/

/-- The part of a stake that a slash takes. -/
def slashPart (stake : ℕ) (slashBps : UInt64) : ℕ := stake * slashBps.toNat / 10000

/-- The amount that is computed for it: the product is capped before it is divided. -/
def slashAmount (stake slashBps : UInt64) : UInt64 := U64.saturatingMul stake slashBps / 10000

section Slash

variable {db db' : KyveraDb} {x : String} {slashBps taken : UInt64}

theorem toNat_slashAmount (stake slashBps : UInt64) :
    (slashAmount stake slashBps).toNat =
      min (stake.toNat * slashBps.toNat) (U64.size - 1) / 10000 := by
  rw [slashAmount, UInt64.toNat_div, U64.toNat_saturatingMul]
  rfl

theorem toNat_slashAmount_of_lt {stake : UInt64}
    (hfit : stake.toNat * slashBps.toNat < U64.size) :
    (slashAmount stake slashBps).toNat = slashPart stake.toNat slashBps := by
  rw [toNat_slashAmount, min_eq_left (by omega), slashPart]

theorem slashAmount_le {stake : UInt64} (hbps : slashBps.toNat ≤ 10000) :
    slashAmount stake slashBps ≤ stake := by
  rw [UInt64.le_iff_toNat_le, toNat_slashAmount]
  apply Nat.div_le_of_le_mul
  apply (min_le_left _ _).trans
  rw [Nat.mul_comm]
  exact Nat.mul_le_mul_right _ hbps

/-- The database after a slash that takes something. -/
def KyveraDb.slashed (db : KyveraDb) (x : String) (v : UInt64) : KyveraDb :=
  let m := db.save ((db.account x).unbond v)
  m.save ((m.account TREASURY_ADDRESS).credit v)

/-- What a slash of `x` that takes `v` makes of the account of `y`.  The slashed account may be the
treasury's own. -/
def Account.afterSlash (a : Account) (x : String) (v : UInt64) (y : String) : Account :=
  let slashed := if y = x then a.unbond v else a
  if y = TREASURY_ADDRESS then slashed.credit v else slashed

theorem Account.stakedBalance_afterSlash (a : Account) (x : String) (v : UInt64) :
    (a.afterSlash x v x).stakedBalance = a.stakedBalance - v := by
  rw [Account.afterSlash, if_pos rfl]
  split_ifs <;> rfl

theorem KyveraDb.WellFormed.account_slashed (h : db.WellFormed) (x : String) (v : UInt64)
    (y : String) : (db.slashed x v).account y = (db.account y).afterSlash x v y := by
  have hm := h.save ((db.account x).unbond v)
  have hunbond := h.account_save (Account.address_unbond (db.account x) v)
  rw [KyveraDb.slashed, hm.account_save (Account.address_credit _ v), Account.afterSlash]
  split_ifs with ht hx hx
  · rw [← ht, hunbond, if_pos hx, hx]
  · rw [← ht, hunbond, if_neg hx]
  · rw [hunbond, if_pos hx, hx]
  · rw [hunbond, if_neg hx]

theorem KyveraDb.WellFormed.balance_save_unbond (h : db.WellFormed) (x y : String) (v : UInt64) :
    ((db.save ((db.account x).unbond v)).account y).balance = (db.account y).balance := by
  rw [h.account_save (Account.address_unbond _ v)]
  split_ifs with hy
  · rw [hy]
    rfl
  · rfl

/-- A slash of a stored account succeeds when there is a stake to slash and the treasury has room
for what is taken. -/
theorem run_slashValidator_eq_ok_iff (h : db.WellFormed) (hx : db.accounts[x]?.isSome)
    (hbps : slashBps.toNat ≤ 10000) :
    (slashValidator x slashBps).run db = (.ok taken, db') ↔
      (db.account x).stakedBalance ≠ 0 ∧ taken = slashAmount (db.account x).stakedBalance slashBps ∧
      (taken = 0 ∧ db' = db ∨
        taken ≠ 0 ∧ (db.account TREASURY_ADDRESS).Room taken ∧ db' = db.slashed x taken) := by
  have hstored : db.accounts[x]? = some (db.account x) := AccountTree.getElem?_of_isSome hx
  have hle : slashAmount (db.account x).stakedBalance slashBps ≤ (db.account x).stakedBalance :=
    slashAmount_le hbps
  rw [slashAmount] at hle
  rw [slashValidator, run_getAccount_bind, hstored, okOr_some, done_bind, run_ite_err_eq_ok_iff,
    slashAmount]
  generalize U64.saturatingMul (db.account x).stakedBalance slashBps / 10000 = v at hle ⊢
  apply and_congr_right
  intro _
  by_cases hzero : v = 0
  · rw [if_pos hzero, hzero]
    constructor
    · intro hrun
      cases hrun
      exact ⟨rfl, .inl ⟨rfl, rfl⟩⟩
    · rintro ⟨rfl, ⟨-, rfl⟩ | ⟨hne, -⟩⟩
      · rfl
      · exact absurd rfl hne
  · have hsub : U64.checkedSub (db.account x).stakedBalance v =
        some ((db.account x).stakedBalance - v) := if_pos hle
    have hbalance := h.balance_save_unbond x TREASURY_ADDRESS v
    simp only [if_neg hzero, hsub, orPanic_some, done_bind, run_saveAccount_bind,
      run_bind_eq_ok_iff, run_creditAccount_eq_ok_iff]
    constructor
    · rintro ⟨_, m, ⟨hroom, rfl⟩, hrun⟩
      cases hrun
      exact ⟨rfl, .inr ⟨hzero, (Account.room_congr hbalance).1 hroom, rfl⟩⟩
    · rintro ⟨rfl, ⟨hne, -⟩ | ⟨-, hroom, rfl⟩⟩
      · exact absurd hne hzero
      · exact ⟨(), _, ⟨(Account.room_congr hbalance).2 hroom, rfl⟩, rfl⟩

/-- The withdrawal of an address that is recorded in a metadata value, if it is one. -/
def MetaEntry.pendingAmountOf (x : String) : MetaEntry → ℕ
  | .pendingUnstake p => if p.address = x then p.amount.toNat else 0
  | _ => 0

/-- The stake of an address, and its withdrawals that have not been released. -/
def KyveraDb.atStake (db : KyveraDb) (x : String) : ℕ :=
  (db.account x).stakedBalance.toNat + TreeSum.sumOver (MetaEntry.pendingAmountOf x) db.metadata

theorem KyveraDb.WellFormed.atStake_slashed (h : db.WellFormed) {v : UInt64}
    (hv : v ≤ (db.account x).stakedBalance) :
    (db.slashed x v).atStake x + v.toNat = db.atStake x := by
  have hstake : ((db.slashed x v).account x).stakedBalance = (db.account x).stakedBalance - v := by
    rw [h.account_slashed]
    exact Account.stakedBalance_afterSlash _ x v
  have hsub := U64.toNat_sub_of_le hv
  have hmeta : (db.slashed x v).metadata = db.metadata := rfl
  unfold KyveraDb.atStake
  rw [hstake, hmeta]
  omega

/-- A slash that succeeds lowers what is at stake by what it takes. -/
theorem atStake_slashValidator (h : db.WellFormed) (hx : db.accounts[x]?.isSome)
    (hbps : slashBps.toNat ≤ 10000) (hrun : (slashValidator x slashBps).run db = (.ok taken, db')) :
    db'.atStake x + taken.toNat = db.atStake x := by
  obtain ⟨-, hamount, hcase⟩ := (run_slashValidator_eq_ok_iff h hx hbps).1 hrun
  rcases hcase with ⟨rfl, rfl⟩ | ⟨-, -, rfl⟩
  · rfl
  · apply h.atStake_slashed
    rw [hamount]
    exact slashAmount_le hbps

/-- A slash can take `taken` exactly when this is its part and the treasury has room for it. -/
theorem exists_run_slashValidator_iff (h : db.WellFormed) (hx : db.accounts[x]?.isSome)
    (hbps : slashBps.toNat ≤ 10000) :
    (∃ db', (slashValidator x slashBps).run db = (.ok taken, db')) ↔
      (db.account x).stakedBalance ≠ 0 ∧ taken = slashAmount (db.account x).stakedBalance slashBps ∧
      (db.account TREASURY_ADDRESS).Room taken := by
  constructor
  · rintro ⟨db', hrun⟩
    obtain ⟨hne, hamount, hcase⟩ := (run_slashValidator_eq_ok_iff h hx hbps).1 hrun
    refine ⟨hne, hamount, ?_⟩
    rcases hcase with ⟨rfl, -⟩ | ⟨-, hroom, -⟩
    · exact Account.room_zero _
    · exact hroom
  · rintro ⟨hne, hamount, hroom⟩
    by_cases hzero : taken = 0
    · exact ⟨db, (run_slashValidator_eq_ok_iff h hx hbps).2 ⟨hne, hamount, .inl ⟨hzero, rfl⟩⟩⟩
    · exact ⟨_, (run_slashValidator_eq_ok_iff h hx hbps).2
        ⟨hne, hamount, .inr ⟨hzero, hroom, rfl⟩⟩⟩

/-- A slash lowers what is at stake by `v` exactly when there is a stake, `v` is its part, and the
treasury has room for it. -/
theorem slash_lowers_iff (h : db.WellFormed) (hx : db.accounts[x]?.isSome)
    (hbps : slashBps.toNat ≤ 10000)
    (hfit : (db.account x).stakedBalance.toNat * slashBps.toNat < U64.size) {v : ℕ} :
    (∃ taken db', (slashValidator x slashBps).run db = (.ok taken, db') ∧
      db'.atStake x + v = db.atStake x) ↔
    0 < (db.account x).stakedBalance.toNat ∧
      slashPart (db.account x).stakedBalance.toNat slashBps = v ∧
      (db.account TREASURY_ADDRESS).balance.toNat + v < U64.size := by
  have hpos : (db.account x).stakedBalance ≠ 0 ↔ 0 < (db.account x).stakedBalance.toNat := by
    rw [← UInt64.pos_iff_ne_zero, UInt64.lt_iff_toNat_lt, UInt64.toNat_zero]
  have hpart := toNat_slashAmount_of_lt hfit
  constructor
  · rintro ⟨taken, db', hrun, hlower⟩
    have htaken := atStake_slashValidator h hx hbps hrun
    obtain ⟨hne, rfl, hroom⟩ := (exists_run_slashValidator_iff h hx hbps).1 ⟨db', hrun⟩
    unfold Account.Room at hroom
    exact ⟨hpos.1 hne, by omega, by omega⟩
  · rintro ⟨hstake, rfl, hroom⟩
    rw [← hpart] at hroom ⊢
    obtain ⟨db', hrun⟩ := (exists_run_slashValidator_iff h hx hbps).2 ⟨hpos.2 hstake, rfl, hroom⟩
    exact ⟨_, db', hrun, atStake_slashValidator h hx hbps hrun⟩

end Slash

/-! ## Runs of requests -/

/-- A successful request of an address, given by its amount and its epoch. -/
def Requests (x : String) (db : KyveraDb) (call : UInt64 × UInt64) (db' : KyveraDb) : Prop :=
  ∃ p, (requestUnstake x call.1 call.2).run db = (.ok p, db')

section Runs

variable {db db' : KyveraDb} {x : String} {slashBps : UInt64}
  {run : List (Step KyveraDb (UInt64 × UInt64))}

/-- The sum of the requested amounts. -/
def requestedTotal (run : List (Step KyveraDb (UInt64 × UInt64))) : ℕ :=
  (run.map fun t => t.call.1.toNat).sum

/-- What requests of an address leave behind when they move `r` out of its stake. -/
structure Unstaked (x : String) (r : ℕ) (db db' : KyveraDb) : Prop where
  wellFormed : db'.WellFormed
  stored : db'.accounts[x]?.isSome
  stake : (db'.account x).stakedBalance.toNat + r = (db.account x).stakedBalance.toNat
  balance : ∀ y, (db'.account y).balance = (db.account y).balance

theorem Requests.unstaked {call : UInt64 × UInt64} (h : db.WellFormed)
    (hcall : Requests x db call db') : Unstaked x call.1.toNat db db' := by
  obtain ⟨p, hrun⟩ := hcall
  obtain ⟨hstored, hle, -, -, rfl⟩ := run_requestUnstake_eq_ok_iff.1 hrun
  have hself := h.account_save (Account.address_unbond (db.account x) call.1) x
  rw [if_pos rfl] at hself
  refine ⟨h.save _, ?_, ?_, fun y => h.balance_save_unbond x y call.1⟩
  · show ((db.accounts.put _)[x]?).isSome
    rw [AccountTree.getElem?_put]
    split_ifs
    · rfl
    · exact hstored
  · show ((db.save _).account x).stakedBalance.toNat + _ = _
    rw [hself]
    exact U64.toNat_sub_of_le (UInt64.le_iff_toNat_le.2 hle)

theorem unstaked_of_isRun (h : db.WellFormed) (hx : db.accounts[x]?.isSome)
    (hrun : IsRun (Requests x) db run) : Unstaked x (requestedTotal run) db (final db run) := by
  induction run generalizing db with
  | nil => exact ⟨h, hx, rfl, fun _ => rfl⟩
  | cons t rest ih =>
      obtain ⟨rfl, ht, hrest⟩ := hrun
      have hfirst := ht.unstaked h
      have hlater := ih hfirst.wellFormed hfirst.stored hrest
      refine ⟨hlater.wellFormed, hlater.stored, ?_, fun y => ?_⟩
      · have hstake := hlater.stake
        have hstake' := hfirst.stake
        show _ + (t.call.1.toNat + requestedTotal rest) = _
        show ((final t.post rest).account x).stakedBalance.toNat + _ = _
        omega
      · exact (hlater.balance y).trans (hfirst.balance y)

/-- After requests of a stored account, a slash succeeds and takes its part of the stake from before
the requests, exactly when some stake is left, the part of what is left is the same, and the
treasury has room for it. -/
theorem slash_after_requests_iff (h : db.WellFormed) (hx : db.accounts[x]?.isSome)
    (hbps : slashBps.toNat ≤ 10000)
    (hfit : (db.account x).stakedBalance.toNat * slashBps.toNat < U64.size)
    (hrun : IsRun (Requests x) db run) :
    (∃ taken db', (slashValidator x slashBps).run (final db run) = (.ok taken, db') ∧
      db'.atStake x + slashPart (db.account x).stakedBalance.toNat slashBps =
        (final db run).atStake x) ↔
    requestedTotal run < (db.account x).stakedBalance.toNat ∧
      slashPart ((db.account x).stakedBalance.toNat - requestedTotal run) slashBps =
        slashPart (db.account x).stakedBalance.toNat slashBps ∧
      (db.account TREASURY_ADDRESS).balance.toNat +
        slashPart (db.account x).stakedBalance.toNat slashBps < U64.size := by
  have hunstaked := unstaked_of_isRun h hx hrun
  have hleft := hunstaked.stake
  have hremains : ((final db run).account x).stakedBalance.toNat =
      (db.account x).stakedBalance.toNat - requestedTotal run := by
    omega
  have hfit' : ((final db run).account x).stakedBalance.toNat * slashBps.toNat < U64.size :=
    (Nat.mul_le_mul_right _ (by omega)).trans_lt hfit
  rw [slash_lowers_iff hunstaked.wellFormed hunstaked.stored hbps hfit', hunstaked.balance,
    hremains, Nat.sub_pos_iff_lt]

end Runs

/-- The requests of a list, each made on the database that the one before it left. -/
def requests (x : String) (db : KyveraDb) (list : List (UInt64 × UInt64)) :
    List (Step KyveraDb (UInt64 × UInt64)) :=
  trace (fun db call => ((requestUnstake x call.1 call.2).run db).2) db list

theorem isRun_requests {x : String} {db : KyveraDb} {list : List (UInt64 × UInt64)}
    (h : ∀ t ∈ requests x db list, ((requestUnstake x t.call.1 t.call.2).run t.pre).1 =
      .ok (requested x t.call.1 t.call.2)) : IsRun (Requests x) db (requests x db list) :=
  isRun_trace fun t ht => ⟨_, run_eq_of_outcome (h t ht)⟩

/-- A validator with a bit more than 600 KYV at stake. -/
def validatorDb : KyveraDb :=
  KyveraDb.withAccounts [{ Account.new "kyv1v" with stakedBalance := 600000000009 }]

/-- A request of so little that a tenth of what is left is still 60 KYV. -/
theorem slash_after_small_request :
    ∃ taken db', (slashValidator "kyv1v" MAJOR_SLASH_BPS).run
        (final validatorDb (requests "kyv1v" validatorDb [(9, 5)])) = (.ok taken, db') ∧
      db'.atStake "kyv1v" + 60000000000 =
        (final validatorDb (requests "kyv1v" validatorDb [(9, 5)])).atStake "kyv1v" :=
  (slash_after_requests_iff (KyveraDb.wellFormed_withAccounts _) (by decide) (by decide)
    (by decide) (isRun_requests (by decide +kernel))).2 (by decide +kernel)

/-- A validator that requests its whole stake cannot be slashed any more. -/
theorem slash_after_full_request :
    let run := requests "kyv1v" validatorDb [(600000000009, 5)]
    IsRun (Requests "kyv1v") validatorDb run ∧
      (final validatorDb run).atStake "kyv1v" = 600000000009 ∧
      ((slashValidator "kyv1v" MAJOR_SLASH_BPS).run (final validatorDb run)).1 =
        .err "kyv1v has no staked balance to slash" := by
  intro run
  exact ⟨isRun_requests (by decide +kernel), by decide +kernel, by decide +kernel⟩

end Kyvera
