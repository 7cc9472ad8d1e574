import Kyvera.Ledger.Slashing
import Kyvera.Consensus.Genesis

/-!
# How much a slash takes

The part of a stake that a slash takes is computed in 64 bits: the product of the stake and the
basis points is capped, and then divided.  Where the quotient of the product is larger than that of
the cap, the slash takes too little, and the supply allows for such stakes.
-/

namespace Kyvera

open Effect Effect.Prog Std

/-! ## The capped product -/

/-- The smallest product whose part is larger than what is computed for it. -/
def slashCap : ℕ := (U64.size / 10000 + 1) * 10000

example : slashCap = 18446744073709560000 := rfl

section Amount

variable {stake slashBps : UInt64}

theorem toNat_slashAmount_eq_slashPart_iff :
    (slashAmount stake slashBps).toNat = slashPart stake.toNat slashBps ↔
      stake.toNat * slashBps.toNat < slashCap := by
  have hcap : slashCap =
      ((U64.size - 1) / (10000 : UInt64).toNat + 1) * (10000 : UInt64).toNat := rfl
  rw [hcap]
  exact U64.toNat_saturatingMul_div_eq_iff (by decide)

theorem slashAmount_eq_zero_iff :
    slashAmount stake slashBps = 0 ↔ stake.toNat * slashBps.toNat < 10000 := by
  rw [← UInt64.toNat_inj, toNat_slashAmount, UInt64.toNat_zero]
  generalize stake.toNat * slashBps.toNat = product
  unfold U64.size
  omega

end Amount

/-! ## Exact slashes -/

/-- A slash takes exactly its part of the stake, moves it to the treasury, and changes nothing
else. -/
structure ExactSlash (x : String) (slashBps : UInt64) (db : KyveraDb) (taken : UInt64)
    (db' : KyveraDb) : Prop where
  amount : taken.toNat = slashPart (db.account x).stakedBalance.toNat slashBps
  stake : (db'.account x).stakedBalance.toNat + taken.toNat = (db.account x).stakedBalance.toNat
  treasury : (db'.account TREASURY_ADDRESS).balance.toNat =
    (db.account TREASURY_ADDRESS).balance.toNat + taken.toNat
  accounts : ∀ y, db'.account y = (db.account y).afterSlash x taken y
  others : ∀ y, y ≠ x → y ≠ TREASURY_ADDRESS → db'.accounts[y]? = db.accounts[y]?
  rest : db' = { db with accounts := db'.accounts }

section Exact

variable {db db' : KyveraDb} {x : String} {slashBps taken : UInt64}

theorem Account.balance_afterSlash (a : Account) (x : String) (v : UInt64) :
    (a.afterSlash x v TREASURY_ADDRESS).balance = a.balance + v := by
  rw [Account.afterSlash, if_pos rfl]
  split_ifs <;> rfl

/-- A slash of nothing re-evaluates the tier. -/
theorem Account.afterSlash_zero_eq_iff (a : Account) (x y : String) :
    a.afterSlash x 0 y = a ↔
      (y = x → a.validatorTier = ValidatorTier.fromStakedBalance a.stakedBalance) := by
  have hslash : a.afterSlash x 0 y = if y = x then a.updateValidatorTier else a := by
    unfold Account.afterSlash
    dsimp only
    rw [Account.credit_zero, ite_self, Account.unbond, UInt64.sub_zero]
  rw [hslash]
  by_cases hx : y = x
  · rw [if_pos hx]
    constructor
    · intro h _
      exact (congrArg Account.validatorTier h).symm
    · intro h
      rw [Account.updateValidatorTier, ← h hx]
  · rw [if_neg hx]
    exact iff_of_true rfl fun h => absurd h hx

theorem exactSlash_slashed (h : db.WellFormed) (hle : taken ≤ (db.account x).stakedBalance)
    (hroom : (db.account TREASURY_ADDRESS).Room taken)
    (hamount : taken.toNat = slashPart (db.account x).stakedBalance.toNat slashBps) :
    ExactSlash x slashBps db taken (db.slashed x taken) where
  amount := hamount
  stake := by
    rw [h.account_slashed, Account.stakedBalance_afterSlash]
    exact U64.toNat_sub_of_le hle
  treasury := by
    rw [h.account_slashed, Account.balance_afterSlash]
    exact U64.toNat_add_of_lt hroom
  accounts := h.account_slashed x taken
  others := by
    intro y hx ht
    have hm := h.save ((db.account x).unbond taken)
    show ((db.accounts.put _).put _)[y]? = _
    rw [AccountTree.getElem?_put, AccountTree.getElem?_put, Account.address_credit,
      Account.address_unbond, h.address_account, hm.address_account, if_neg ht.symm, if_neg hx.symm]
  rest := rfl

/-- A slash of nothing is exact when the tier of the account is that of its stake. -/
theorem exactSlash_zero_iff (hpart : slashPart (db.account x).stakedBalance.toNat slashBps = 0) :
    ExactSlash x slashBps db 0 db ↔ (db.account x).validatorTier =
      ValidatorTier.fromStakedBalance (db.account x).stakedBalance := by
  constructor
  · intro h
    exact ((db.account x).afterSlash_zero_eq_iff x x).1 (h.accounts x).symm rfl
  · intro htier
    refine ⟨hpart.symm, rfl, rfl, fun y => ?_, fun _ _ _ => rfl, rfl⟩
    refine (((db.account y).afterSlash_zero_eq_iff x y).2 ?_).symm
    rintro rfl
    exact htier

theorem stored_of_slashValidator (hrun : (slashValidator x slashBps).run db = (.ok taken, db')) :
    db.accounts[x]?.isSome := by
  rw [slashValidator, run_getAccount_bind, run_okOr_bind_eq_ok_iff] at hrun
  obtain ⟨a, ha, -⟩ := hrun
  rw [ha]
  rfl

/-- A slash that succeeds is exact exactly when the product of the stake and the basis points is
below the cap, and, where nothing is taken, the tier of the account was that of its stake. -/
theorem slashValidator_exact_iff (h : db.WellFormed) (hbps : slashBps.toNat ≤ 10000)
    (hrun : (slashValidator x slashBps).run db = (.ok taken, db')) :
    ExactSlash x slashBps db taken db' ↔
      (db.account x).stakedBalance.toNat * slashBps.toNat < slashCap ∧
      ((db.account x).stakedBalance.toNat * slashBps.toNat < 10000 →
        (db.account x).validatorTier =
          ValidatorTier.fromStakedBalance (db.account x).stakedBalance) := by
  have hx := stored_of_slashValidator hrun
  obtain ⟨-, rfl, hcase⟩ := (run_slashValidator_eq_ok_iff h hx hbps).1 hrun
  rw [← toNat_slashAmount_eq_slashPart_iff, ← slashAmount_eq_zero_iff]
  rcases hcase with ⟨hzero, rfl⟩ | ⟨hne, hroom, rfl⟩
  · rw [hzero]
    constructor
    · intro hexact
      have hpart := hexact.amount.symm
      exact ⟨hexact.amount, fun _ => (exactSlash_zero_iff hpart).1 hexact⟩
    · rintro ⟨hpart, htier⟩
      exact (exactSlash_zero_iff hpart.symm).2 (htier rfl)
  · constructor
    · intro hexact
      exact ⟨hexact.amount, fun hzero => absurd hzero hne⟩
    · rintro ⟨hamount, -⟩
      exact exactSlash_slashed h (slashAmount_le hbps) hroom hamount

end Exact

/-- Ten percent of a bit more than 600 KYV are taken exactly. -/
theorem slashValidator_exact_below_cap :
    ExactSlash "kyv1v" MAJOR_SLASH_BPS validatorDb 60000000000
      ((slashValidator "kyv1v" MAJOR_SLASH_BPS).run validatorDb).2 :=
  (slashValidator_exact_iff (KyveraDb.wellFormed_withAccounts _) (by decide)
    (run_eq_of_outcome (by decide +kernel))).2 (by decide +kernel)

/-- A validator with two thirds of the supply at stake. -/
def largeValidatorDb : KyveraDb :=
  KyveraDb.withAccounts
    [{ Account.new "kyv1v" with stakedBalance := 1000000000000000000, validatorTier := some .nexus }]

/-- One percent of the large stake is ten million KYV, of which less than a fifth is taken. -/
theorem slashValidator_large_stake :
    let slash := (slashValidator "kyv1v" MINOR_SLASH_BPS).run largeValidatorDb
    (largeValidatorDb.account "kyv1v").stakedBalance ≤ TOTAL_SUPPLY ∧
      slash.1 = .ok 1844674407370955 ∧
      slashPart (largeValidatorDb.account "kyv1v").stakedBalance.toNat MINOR_SLASH_BPS =
        10000000000000000 ∧
      ¬ ExactSlash "kyv1v" MINOR_SLASH_BPS largeValidatorDb 1844674407370955 slash.2 := by
  intro slash
  refine ⟨by decide +kernel, by decide +kernel, by decide +kernel, fun hexact => ?_⟩
  exact absurd hexact.amount (by decide +kernel)

end Kyvera
