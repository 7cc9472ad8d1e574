import Kyvera.Consensus.Weights
import Kyvera.Ledger.Distribution

/-!
# Splitting a stake

Higher tiers have higher bonuses, so an owner who divides a stake among several validators has no
more weight than with one, and gets no more of any pool, while all others get no less.  This holds
for stakes below the cut of the bonus.  From the cut on the bonus stays where it is, and two halves
of a stake weigh more than the whole.
-/

namespace Kyvera

open Effect Effect.Prog

/-- What an address has more of in the second database. -/
def gained (db db' : KyveraDb) (x : String) : ℕ :=
  (db'.account x).balance.toNat - (db.account x).balance.toNat

section Weights

variable {a b v : Account} {parts : List Account}

theorem bonusBps_mono (ha : a.validatorTier = ValidatorTier.fromStakedBalance a.stakedBalance)
    (hb : b.validatorTier = ValidatorTier.fromStakedBalance b.stakedBalance)
    (h : a.stakedBalance.toNat ≤ b.stakedBalance.toNat) : a.bonusBps.toNat ≤ b.bonusBps.toNat := by
  unfold Account.bonusBps
  rw [ha, hb, ValidatorTier.fromStakedBalance, ValidatorTier.fromStakedBalance]
  simp only [UInt64.le_iff_toNat_le]
  have hkinetic : ValidatorTier.kinetic.minimumStake.toNat = 5000000000000 := rfl
  have hnexus : ValidatorTier.nexus.minimumStake.toNat = 25000000000000 := rfl
  have higniter : ValidatorTier.igniter.minimumStake.toNat = 500000000000 := rfl
  split_ifs <;> first | decide | omega

/-- Bonuses of the parts of a stake, each computed exactly, add up to no more than its own. -/
theorem sum_fullWeight_le (hv : v.validatorTier = ValidatorTier.fromStakedBalance v.stakedBalance)
    (hparts : ∀ p ∈ parts, p.validatorTier = ValidatorTier.fromStakedBalance p.stakedBalance)
    (hstake : (parts.map fun p => p.stakedBalance.toNat).sum ≤ v.stakedBalance.toNat) :
    (parts.map Account.fullWeight).sum ≤ v.fullWeight := by
  -- No part has a higher tier than the whole, so the whole's bonus bounds theirs.
  have heach : ∀ p ∈ parts, p.fullWeight ≤ p.stakedBalance.toNat +
      ProRata.share v.bonusBps.toNat p.stakedBalance.toNat 10000 := by
    intro p hp
    have hle : p.stakedBalance.toNat ≤ v.stakedBalance.toNat :=
      (List.le_sum_of_mem (List.mem_map_of_mem hp)).trans hstake
    have hbps := bonusBps_mono (hparts p hp) hv hle
    refine Nat.add_le_add_left (Nat.div_le_div_right ?_) _
    rw [Nat.mul_comm]
    exact Nat.mul_le_mul_right _ hbps
  calc (parts.map Account.fullWeight).sum
      ≤ (parts.map fun p => p.stakedBalance.toNat +
          ProRata.share v.bonusBps.toNat p.stakedBalance.toNat 10000).sum :=
        List.sum_le_sum heach
    _ = (parts.map fun p => p.stakedBalance.toNat).sum + ProRata.paid v.bonusBps.toNat 10000
          (parts.map fun p => p.stakedBalance.toNat) := by
        rw [List.sum_map_add, ProRata.paid, List.map_map]
        rfl
    _ ≤ v.stakedBalance.toNat + ProRata.share v.bonusBps.toNat v.stakedBalance.toNat 10000 := by
        refine Nat.add_le_add hstake ((ProRata.paid_le_share_sum _ _ _).trans ?_)
        exact Nat.div_le_div_right (Nat.mul_le_mul_left _ hstake)
    _ = v.fullWeight := by
        rw [Account.fullWeight, ProRata.share, Nat.mul_comm v.bonusBps.toNat]

/-- Below the cut, the parts of a stake weigh no more than the whole. -/
theorem sum_weight_le (hv : v.validatorTier = ValidatorTier.fromStakedBalance v.stakedBalance)
    (hparts : ∀ p ∈ parts, p.validatorTier = ValidatorTier.fromStakedBalance p.stakedBalance)
    (hstake : (parts.map fun p => p.stakedBalance.toNat).sum ≤ v.stakedBalance.toNat)
    (hcut : v.stakedBalance < cutBonusStake) :
    (parts.map fun p => (calculateValidatorWeight p).toNat).sum ≤
      (calculateValidatorWeight v).toNat := by
  have hsupply : cutBonusStake.toNat < TOTAL_SUPPLY.toNat := by decide
  have hfull : ∀ a : Account, a.validatorTier = ValidatorTier.fromStakedBalance a.stakedBalance →
      a.stakedBalance.toNat ≤ v.stakedBalance.toNat →
        (calculateValidatorWeight a).toNat = a.fullWeight := by
    intro a ha hle
    rw [UInt64.lt_iff_toNat_lt] at hcut
    refine (hasFullWeight_iff (UInt64.le_iff_toNat_le.2 ?_) ha).2 (UInt64.lt_iff_toNat_lt.2 ?_)
    · omega
    · omega
  have hsame : (parts.map fun p => (calculateValidatorWeight p).toNat) =
      parts.map Account.fullWeight := by
    refine List.map_congr_left fun p hp => hfull p (hparts p hp) ?_
    exact (List.le_sum_of_mem (List.mem_map_of_mem hp)).trans hstake
  rw [hsame, hfull v hv (Nat.le_refl _)]
  exact sum_fullWeight_le hv hparts hstake

theorem toNat_weight_of_nexus (hsupply : a.stakedBalance ≤ TOTAL_SUPPLY)
    (hbps : a.bonusBps.toNat = 3500) :
    (calculateValidatorWeight a).toNat =
      a.stakedBalance.toNat + min (a.stakedBalance.toNat * 3500) (U64.size - 1) / 10000 := by
  rw [toNat_calculateValidatorWeight hsupply, UInt64.toNat_div, U64.toNat_saturatingMul, hbps]
  rfl

/-- Two halves of a stake weigh more than the whole exactly from the cut on. -/
theorem halves_outweigh_iff (hsupply : v.stakedBalance ≤ TOTAL_SUPPLY)
    (hv : v.validatorTier = ValidatorTier.fromStakedBalance v.stakedBalance)
    (ha : a.validatorTier = ValidatorTier.fromStakedBalance a.stakedBalance)
    (hhalf : a.stakedBalance.toNat + a.stakedBalance.toNat = v.stakedBalance.toNat) :
    (calculateValidatorWeight v).toNat < 2 * (calculateValidatorWeight a).toNat ↔
      cutBonusStake ≤ v.stakedBalance := by
  constructor
  · intro hmore
    by_contra hbelow
    have hstake : ([a, a].map fun p => p.stakedBalance.toNat).sum ≤ v.stakedBalance.toNat := by
      simp
      omega
    have hparts := sum_weight_le hv (by simp [ha]) hstake (UInt64.not_le.1 hbelow)
    simp only [List.map_cons, List.map_nil, List.sum_cons, List.sum_nil] at hparts
    omega
  · intro hcut
    have hwhole : 5270498306774160 ≤ v.stakedBalance.toNat := UInt64.le_iff_toNat_le.1 hcut
    have hcap : v.stakedBalance.toNat ≤ TOTAL_SUPPLY.toNat := UInt64.le_iff_toNat_le.1 hsupply
    have hsupply' : a.stakedBalance ≤ TOTAL_SUPPLY := UInt64.le_iff_toNat_le.2 (by omega)
    have hbps : v.bonusBps.toNat = 3500 :=
      (bonusBps_le_or_nexus hv).resolve_left fun h => by omega
    have hbps' : a.bonusBps.toNat = 3500 :=
      (bonusBps_le_or_nexus ha).resolve_left fun h => by omega
    rw [toNat_weight_of_nexus hsupply hbps, toNat_weight_of_nexus hsupply' hbps']
    unfold U64.size
    omega

/-- Six million KYV weigh less than two stakes of three million. -/
theorem halves_outweigh_iff_six_million :
    (calculateValidatorWeight (stakedValidator 6000000000000000)).toNat <
      2 * (calculateValidatorWeight (stakedValidator 3000000000000000)).toNat :=
  (halves_outweigh_iff (v := stakedValidator 6000000000000000)
    (a := stakedValidator 3000000000000000) (by decide) rfl rfl rfl).2 (by decide)

end Weights

section Distribution

variable {db db' after after' : KyveraDb} {totalShare d d' : UInt64} {u v : Account}
  {parts others : List Account}

theorem gained_distributeValidatorRewards (h : db.accounts.Tiered) (hv : v ∈ db.validators)
    (hrun : (distributeValidatorRewards totalShare).run db = (.ok d, after)) :
    gained db after v.address = db.part totalShare v := by
  have hwf : db.WellFormed := h.wellFormed
  rw [run_distributeValidatorRewards] at hrun
  obtain ⟨hfit, -, rfl⟩ := (run_distributeLoop_eq_ok_iff hwf).1 hrun
  rw [gained, hwf.balance_payAll hfit, due_sharePayments h hv, Nat.add_sub_cancel_left]

theorem AccountTree.Tiered.tier (h : db.accounts.Tiered) (hv : v ∈ db.validators) :
    v.validatorTier = ValidatorTier.fromStakedBalance v.stakedBalance :=
  (h _ _ (h.validators_spec.2 v hv).1).tier

theorem totalWeight_of_perm {validators : List Account} (h : db.validators.Perm validators) :
    db.totalWeight = (validators.map fun v => (calculateValidatorWeight v).toNat).sum :=
  (h.map _).sum_eq

/-- Splitting a stake never pays: where some validators hold no more together than one of them did
alone, and less than the cut, a distribution of the same pool pays them together no more than it
pays that one, and pays each of the others no less. -/
theorem splitting_never_pays (h : db.accounts.Tiered) (h' : db'.accounts.Tiered)
    (hv : db.validators.Perm (v :: others)) (hv' : db'.validators.Perm (parts ++ others))
    (hstake : (parts.map fun p => p.stakedBalance.toNat).sum ≤ v.stakedBalance.toNat)
    (hcut : v.stakedBalance < cutBonusStake)
    (hrun : (distributeValidatorRewards totalShare).run db = (.ok d, after))
    (hrun' : (distributeValidatorRewards totalShare).run db' = (.ok d', after')) :
    (parts.map fun p => gained db' after' p.address).sum ≤ gained db after v.address ∧
      ∀ u ∈ others, gained db after u.address ≤ gained db' after' u.address := by
  have hwhole : v ∈ db.validators := hv.mem_iff.2 List.mem_cons_self
  have hpart : ∀ p ∈ parts, p ∈ db'.validators :=
    fun p hp => hv'.mem_iff.2 (List.mem_append_left _ hp)
  have hweights := sum_weight_le (h.tier hwhole) (fun p hp => h'.tier (hpart p hp)) hstake hcut
  have htotal := totalWeight_of_perm hv
  have htotal' := totalWeight_of_perm hv'
  rw [List.map_cons, List.sum_cons] at htotal
  rw [List.map_append, List.sum_append] at htotal'
  constructor
  · have hsum : (parts.map fun p => gained db' after' p.address) = parts.map (db'.part totalShare) :=
      List.map_congr_left fun p hp => gained_distributeValidatorRewards h' (hpart p hp) hrun'
    rw [hsum, gained_distributeValidatorRewards h hwhole hrun]
    have hpaid := ProRata.paid_le_share totalShare.toNat
      (others.map fun v => (calculateValidatorWeight v).toNat).sum hweights
    rw [← htotal, ← htotal', ProRata.paid, List.map_map] at hpaid
    exact hpaid
  · intro u hu
    have hother : u ∈ db.validators := hv.mem_iff.2 (List.mem_cons_of_mem _ hu)
    have hother' : u ∈ db'.validators := hv'.mem_iff.2 (List.mem_append_right _ hu)
    rw [gained_distributeValidatorRewards h hother hrun,
      gained_distributeValidatorRewards h' hother' hrun']
    have hpos := totalWeight_pos h' (List.ne_nil_of_mem hother')
    exact ProRata.share_anti _ _ (by omega) hpos

end Distribution

/-- A stake of 30,000 KYV next to one of 1,000, whole and in two halves of a lower tier. -/
theorem splitting_never_pays_two_halves :
    let staked (x : String) (stake : UInt64) : Account :=
      { Account.new x with stakedBalance := stake }.updateValidatorTier
    let u := staked "kyv1u" 1000000000000
    let v := staked "kyv1v" 30000000000000
    let p := staked "kyv1p" 15000000000000
    let q := staked "kyv1q" 15000000000000
    let db := KyveraDb.withAccounts ([u, v].map Account.updateValidatorTier)
    let db' := KyveraDb.withAccounts ([u, p, q].map Account.updateValidatorTier)
    let after := ((distributeValidatorRewards 1000).run db).2
    let after' := ((distributeValidatorRewards 1000).run db').2
    ([p, q].map fun p => gained db' after' p.address).sum ≤ gained db after v.address ∧
      ∀ w ∈ [u], gained db after w.address ≤ gained db' after' w.address := by
  intro staked u v p q db db' after after'
  have htiered : db.accounts.Tiered := AccountTree.tiered_withAccounts _
  have htiered' : db'.accounts.Tiered := AccountTree.tiered_withAccounts _
  have hok : ((distributeValidatorRewards 1000).run db).1 = .ok 999 := by decide +kernel
  have hok' : ((distributeValidatorRewards 1000).run db').1 = .ok 998 := by decide +kernel
  exact splitting_never_pays htiered htiered' (by decide +kernel) (by decide +kernel)
    (by decide) (by decide) (run_eq_of_outcome hok) (run_eq_of_outcome hok')

end Kyvera
