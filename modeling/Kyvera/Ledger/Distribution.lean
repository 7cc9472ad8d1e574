import Kyvera.Ledger.Payouts
import Kyvera.Ledger.Tiers

/-!
# The distribution of rewards

The weights are taken before the first credit, so a distribution is a list of payments that is fixed
in advance: each validator gets its part of the pool, rounded down, in whatever order they come.
-/

namespace Kyvera

open Effect Effect.Prog

section Loop

variable {db db' : KyveraDb} {totalShare distributed d : UInt64} {totalWeight : ℕ}
  {weights weights' : List (String × UInt64)}

theorem sharePayments_perm (h : weights.Perm weights') :
    (sharePayments totalShare totalWeight weights).Perm
      (sharePayments totalShare totalWeight weights') :=
  (h.map _).filter _

/-- The order in which validators are visited makes no difference. -/
theorem run_distributeLoop_perm (h : db.WellFormed) (hp : weights.Perm weights')
    (hrun : (distributeLoop totalShare totalWeight distributed weights).run db = (.ok d, db')) :
    (distributeLoop totalShare totalWeight distributed weights').run db = (.ok d, db') := by
  have hpay : (sharePayments totalShare totalWeight weights).Perm
      (sharePayments totalShare totalWeight weights') := sharePayments_perm hp
  obtain ⟨hfit, rfl, rfl⟩ := (run_distributeLoop_eq_ok_iff h).1 hrun
  obtain ⟨hfit', hsame⟩ := h.payAll_perm hpay hfit
  refine (run_distributeLoop_eq_ok_iff h).2 ⟨hfit', ?_, hsame.symm⟩
  rw [← UInt64.toNat_inj, U64.toNat_foldl_saturatingAdd, U64.toNat_foldl_saturatingAdd,
    ((hpay.map _).map _).sum_eq]

theorem sharePayments_eq_nil (h : ∀ w, validatorShare totalShare w totalWeight = 0)
    (weights : List (String × UInt64)) : sharePayments totalShare totalWeight weights = [] := by
  have hzero : ∀ w, ¬ validatorShare totalShare w totalWeight > 0 := by
    intro w
    rw [h w]
    decide
  induction weights with
  | nil => rfl
  | cons e rest ih => rw [sharePayments_cons_of_not_pos (hzero e.2), ih]

theorem validatorShare_zero (weight : UInt64) (totalWeight : ℕ) :
    validatorShare 0 weight totalWeight = 0 := by
  unfold validatorShare
  rw [UInt64.toNat_zero, Nat.zero_mul, Nat.zero_div]
  rfl

theorem validatorShare_of_no_weight (totalShare weight : UInt64) :
    validatorShare totalShare weight 0 = 0 := by
  unfold validatorShare
  rw [Nat.div_zero]
  rfl

theorem distributeLoop_eq_pure (h : sharePayments totalShare totalWeight weights = []) :
    distributeLoop totalShare totalWeight distributed weights = pure distributed := by
  induction weights with
  | nil => rfl
  | cons e rest ih =>
      obtain ⟨x, w⟩ := e
      unfold distributeLoop
      dsimp only
      by_cases hpos : validatorShare totalShare w totalWeight > 0
      · rw [sharePayments_cons_of_pos hpos] at h
        cases h
      · rw [sharePayments_cons_of_not_pos hpos] at h
        rw [if_neg hpos]
        exact ih h

end Loop

/-! ## The validators -/

/-- The active validators of a database. -/
def KyveraDb.validators (db : KyveraDb) : List Account :=
  (db.accounts.toList.map Prod.snd).filter Account.isValidator

/-- The weight of a validator, under its address. -/
def Account.weighed (v : Account) : String × UInt64 := (v.address, calculateValidatorWeight v)

/-- The weights of all validators together. -/
def KyveraDb.totalWeight (db : KyveraDb) : ℕ :=
  (db.validators.map fun v => (calculateValidatorWeight v).toNat).sum

/-- The part of a validator in a pool, rounded down. -/
def KyveraDb.part (db : KyveraDb) (totalShare : UInt64) (v : Account) : ℕ :=
  ProRata.share totalShare.toNat (calculateValidatorWeight v).toNat db.totalWeight

section Validators

variable {db db' : KyveraDb} {totalShare d : UInt64} {v : Account}

theorem stake_le_weight (v : Account) :
    v.stakedBalance.toNat ≤ (calculateValidatorWeight v).toNat := by
  have hstake := U64.toNat_lt_size v.stakedBalance
  unfold calculateValidatorWeight
  dsimp only
  rw [U64.toNat_saturatingAdd]
  omega

/-- Over tiered accounts every validator is stored, each once, and with a stake. -/
theorem AccountTree.Tiered.validators_spec (h : db.accounts.Tiered) :
    (db.validators.map Account.address).Nodup ∧
    ∀ v ∈ db.validators, db.accounts[v.address]? = some v ∧ 0 < v.stakedBalance.toNat := by
  obtain ⟨validators, hrun, hnodup, hmem⟩ := h.validators
  cases (run_getValidators db).symm.trans hrun
  refine ⟨hnodup, fun v hv => ?_⟩
  obtain ⟨hstored, hstake⟩ := (hmem v).1 hv
  exact ⟨hstored, lt_of_lt_of_le (by decide) (UInt64.le_iff_toNat_le.1 hstake)⟩

theorem weight_le_totalWeight (hv : v ∈ db.validators) :
    (calculateValidatorWeight v).toNat ≤ db.totalWeight :=
  List.le_sum_of_mem (List.mem_map.2 ⟨v, hv, rfl⟩)

theorem totalWeight_pos (h : db.accounts.Tiered) (hne : db.validators ≠ []) : 0 < db.totalWeight := by
  obtain ⟨v, hv⟩ := List.exists_mem_of_ne_nil _ hne
  exact ((h.validators_spec.2 v hv).2.trans_le (stake_le_weight v)).trans_le
    (weight_le_totalWeight hv)

theorem part_lt_size (hv : v ∈ db.validators) : db.part totalShare v < U64.size :=
  (ProRata.share_le_pool (weight_le_totalWeight hv)).trans_lt (U64.toNat_lt_size totalShare)

theorem sum_weighed (db : KyveraDb) :
    ((db.validators.map Account.weighed).map fun e => e.2.toNat).sum = db.totalWeight := by
  rw [List.map_map]
  rfl

/-- A distribution is the loop over the weights of the validators, whether there are any or not. -/
theorem run_distributeValidatorRewards (db : KyveraDb) (totalShare : UInt64) :
    (distributeValidatorRewards totalShare).run db =
      (distributeLoop totalShare db.totalWeight 0 (db.validators.map Account.weighed)).run db := by
  have htotal := sum_weighed db
  by_cases hzero : totalShare = 0
  · rw [distributeValidatorRewards, if_pos hzero, hzero, distributeLoop_eq_pure]
    exact sharePayments_eq_nil (fun w => validatorShare_zero w _) _
  · rw [distributeValidatorRewards, if_neg hzero]
    show (if db.validators.isEmpty then pure 0
      else if ((db.validators.map Account.weighed).map fun e => e.2.toNat).sum = 0 then pure 0
      else distributeLoop totalShare ((db.validators.map Account.weighed).map fun e => e.2.toNat).sum
        0 (db.validators.map Account.weighed) : DbM UInt64).run db = _
    rw [htotal]
    split_ifs with hempty hweight
    · rw [List.isEmpty_iff.1 hempty]
      rfl
    · rw [hweight, distributeLoop_eq_pure]
      exact sharePayments_eq_nil (fun w => validatorShare_of_no_weight _ w) _
    · rfl

/-- What a distribution makes due to an address: the part of its validator. -/
theorem due_sharePayments (h : db.accounts.Tiered) (hv : v ∈ db.validators) :
    due (sharePayments totalShare db.totalWeight (db.validators.map Account.weighed)) v.address =
      db.part totalShare v := by
  have hkeys : (((db.validators.map Account.weighed).map fun e =>
      (e.1, validatorShare totalShare e.2 db.totalWeight)).map Prod.fst).Nodup := by
    rw [List.map_map, List.map_map]
    exact h.validators_spec.1
  rw [sharePayments, due_filter_pos, due_of_mem hkeys]
  · exact toNat_validatorShare (part_lt_size hv)
  · rw [List.map_map]
    exact List.mem_map.2 ⟨v, hv, rfl⟩

theorem paid_eq_sum_part (db : KyveraDb) (totalShare : UInt64) :
    ProRata.paid totalShare.toNat db.totalWeight
      ((db.validators.map Account.weighed).map fun e => e.2.toNat) =
      (db.validators.map (db.part totalShare)).sum := by
  unfold ProRata.paid
  rw [List.map_map, List.map_map]
  rfl

/-- What a distribution pays in all: the sum of the parts. -/
theorem sum_payments_validators (db : KyveraDb) (totalShare : UInt64) :
    (((sharePayments totalShare db.totalWeight (db.validators.map Account.weighed)).map
      Prod.snd).map UInt64.toNat).sum = (db.validators.map (db.part totalShare)).sum := by
  rw [← paid_eq_sum_part]
  apply sum_sharePayments
  intro e he
  obtain ⟨v, hv, rfl⟩ := List.mem_map.1 he
  exact part_lt_size hv

theorem sum_part_bounds (h : db.accounts.Tiered) (hne : db.validators ≠ []) (totalShare : UInt64) :
    (db.validators.map (db.part totalShare)).sum ≤ totalShare.toNat ∧
      totalShare.toNat < (db.validators.map (db.part totalShare)).sum + db.validators.length := by
  have htotal := sum_weighed db
  have hle := ProRata.paid_le_pool totalShare.toNat
    ((db.validators.map Account.weighed).map fun e => e.2.toNat)
  have hrest := ProRata.pool_lt_paid_add_length totalShare.toNat
    (htotal ▸ totalWeight_pos h hne)
  rw [htotal, paid_eq_sum_part] at hle hrest
  rw [List.length_map, List.length_map] at hrest
  exact ⟨hle, hrest⟩

end Validators

/-- Fair distribution: each validator gets its part of the pool, by the weights from before the first
credit, and nothing else changes; less than one unit for each validator is left, and the order in
which they are visited makes no difference. -/
theorem distributeValidatorRewards_fair {db db' : KyveraDb} {totalShare d : UInt64}
    (h : db.accounts.Tiered) (hne : db.validators ≠ [])
    (hrun : (distributeValidatorRewards totalShare).run db = (.ok d, db')) :
    (∀ v ∈ db.validators, ∃ balance : UInt64,
      db'.accounts[v.address]? = some { v with balance := balance } ∧
      balance.toNat = v.balance.toNat + db.part totalShare v) ∧
    (∀ x, x ∉ db.validators.map Account.address → db'.accounts[x]? = db.accounts[x]?) ∧
    db' = { db with accounts := db'.accounts } ∧
    d.toNat = (db.validators.map (db.part totalShare)).sum ∧
    d.toNat ≤ totalShare.toNat ∧
    totalShare.toNat - d.toNat < db.validators.length ∧
    ∀ weights, weights.Perm (db.validators.map Account.weighed) →
      (distributeLoop totalShare db.totalWeight 0 weights).run db = (.ok d, db') := by
  have hwf : db.WellFormed := h.wellFormed
  rw [run_distributeValidatorRewards] at hrun
  obtain ⟨hfit, hd, hdb'⟩ := (run_distributeLoop_eq_ok_iff hwf).1 hrun
  refine ⟨fun v hv => ?_, fun x hx => ?_, ?_, ?_⟩
  · have hstored := (h.validators_spec.2 v hv).1
    have hbalance := hwf.balance_payAll hfit v.address
    rw [due_sharePayments h hv, show db.account v.address = v from
      AccountTree.account_of_getElem? hstored] at hbalance
    rw [hdb']
    exact ⟨_, hwf.getElem?_payAll_of_stored _ hstored, hbalance⟩
  · rw [hdb', hwf.getElem?_payAll, if_neg]
    intro hpaid
    obtain ⟨e, he, rfl⟩ := List.mem_map.1 hpaid
    obtain ⟨w, hw, rfl⟩ := List.mem_map.1 (List.mem_filter.1 he).1
    obtain ⟨v, hv, rfl⟩ := List.mem_map.1 hw
    exact hx (List.mem_map.2 ⟨v, hv, rfl⟩)
  · rw [hdb']
    exact db.payAll_eq _
  · obtain ⟨hle, hrest⟩ := sum_part_bounds h hne totalShare
    have hlt := U64.toNat_lt_size totalShare
    have hsum : d.toNat = (db.validators.map (db.part totalShare)).sum := by
      rw [hd, U64.toNat_foldl_saturatingAdd, sum_payments_validators, UInt64.toNat_zero,
        Nat.zero_add]
      omega
    exact ⟨hsum, by omega, by omega, fun weights hp =>
      run_distributeLoop_perm hwf hp.symm hrun⟩

theorem AccountTree.tiered_withAccounts (accounts : List Account) :
    (KyveraDb.withAccounts (accounts.map Account.updateValidatorTier)).accounts.Tiered := by
  unfold KyveraDb.withAccounts
  refine List.foldlRecOn (motive := fun m => m.accounts.Tiered) _ KyveraDb.save ?_ ?_
  · intro x a ha
    simp [KyveraDb.empty] at ha
  · intro m hm a ha x b hb
    obtain ⟨c, -, rfl⟩ := List.mem_map.1 ha
    rw [KyveraDb.accounts_save, AccountTree.getElem?_put] at hb
    split_ifs at hb with hx
    · obtain rfl := Option.some.inj hb
      exact ⟨hx, rfl⟩
    · exact hm x b hb

/-- A pool of 100 between stakes of 500 and 25,000 KYV: the parts are 1 and 98. -/
theorem distributeValidatorRewards_fair_two :
    let db := KyveraDb.withAccounts
      ([{ Account.new "kyv1a" with stakedBalance := 500000000000 },
        { Account.new "kyv1b" with stakedBalance := 25000000000000 }].map
          Account.updateValidatorTier)
    let db' := ((distributeValidatorRewards 100).run db).2
    (∀ v ∈ db.validators, ∃ balance : UInt64,
      db'.accounts[v.address]? = some { v with balance := balance } ∧
      balance.toNat = v.balance.toNat + db.part 100 v) ∧
    (∀ x, x ∉ db.validators.map Account.address → db'.accounts[x]? = db.accounts[x]?) ∧
    db' = { db with accounts := db'.accounts } ∧
    99 = (db.validators.map (db.part 100)).sum ∧ 99 ≤ 100 ∧ 100 - 99 < db.validators.length ∧
    ∀ weights, weights.Perm (db.validators.map Account.weighed) →
      (distributeLoop 100 db.totalWeight 0 weights).run db = (.ok 99, db') := by
  intro db
  have htiered : db.accounts.Tiered := AccountTree.tiered_withAccounts _
  have hne : db.validators ≠ [] := by decide +kernel
  have hok : ((distributeValidatorRewards 100).run db).1 = .ok 99 := by decide +kernel
  exact distributeValidatorRewards_fair htiered hne (run_eq_of_outcome hok)

end Kyvera
