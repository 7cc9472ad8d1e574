import Kyvera.Chain.Mining

/-!
# The search for a nonce

The search tries the nonces in order, from zero up to its limit.  What it has not tried yet are the
solutions from the current nonce on: a nonce that fails drops out of them, and one that passes is the
least of them.  So the search ends with the least solution below the limit, or without one when
there is none.
-/

namespace Kyvera

/-! ## Solutions -/

theorem toNat_succ_of_lt {limit nonce : UInt64} (hlt : nonce < limit) :
    (nonce + 1).toNat = nonce.toNat + 1 :=
  U64.toNat_add_of_lt ((Nat.succ_le_of_lt (UInt64.lt_iff_toNat_lt.1 hlt)).trans_lt limit.toNat_lt)

namespace BlockHeader

variable (header : BlockHeader) (H : Sha3)

/-- The hash of a header with another nonce. -/
def hashAt (nonce : UInt64) : String := ({ header with nonce := nonce } : BlockHeader).computeHash H

/-- The hash with this nonce has as many leading zeros as the difficulty asks for. -/
def Solves (nonce : UInt64) : Prop := header.difficulty ≤ countLeadingZeros (header.hashAt H nonce)

/-- The nonces below a limit that solve a header. -/
def solutions (limit : UInt64) : Set UInt64 := {k | k < limit ∧ header.Solves H k}

/-- Those of them from `nonce` on. -/
def solutionsFrom (limit nonce : UInt64) : Set UInt64 :=
  {k | nonce ≤ k ∧ k ∈ header.solutions H limit}

/-- What the search returns for a nonce. -/
def minedAt (nonce : UInt64) : MinedBlock where
  nonce := nonce
  hash := header.hashAt H nonce
  attempts := nonce + 1

variable {header H}

/-- A hash has 64 characters, so its zeros can be counted in 32 bits. -/
theorem meetsDifficulty_hashAt_iff {nonce : UInt64} :
    meetsDifficulty (header.hashAt H nonce) header.difficulty = true ↔ header.Solves H nonce := by
  apply meetsDifficulty_iff_le_countLeadingZeros
  rw [hashAt, computeHash, hashBlockHeader, H.length_hex]
  decide

variable {limit nonce : UInt64}

theorem solutionsFrom_zero : header.solutionsFrom H limit 0 = header.solutions H limit := by
  ext k
  exact and_iff_right (UInt64.le_iff_toNat_le.2 (Nat.zero_le _))

theorem solutionsFrom_limit : header.solutionsFrom H limit limit = ∅ := by
  apply Set.eq_empty_of_forall_notMem
  rintro k ⟨hle, hlt, -⟩
  exact absurd hlt (UInt64.not_lt.2 hle)

theorem isLeast_solutionsFrom (hlt : nonce < limit) (h : header.Solves H nonce) :
    IsLeast (header.solutionsFrom H limit nonce) nonce :=
  ⟨⟨UInt64.le_refl nonce, hlt, h⟩, fun _ hk => hk.1⟩

theorem solutionsFrom_succ (hlt : nonce < limit) (h : ¬ header.Solves H nonce) :
    header.solutionsFrom H limit (nonce + 1) = header.solutionsFrom H limit nonce := by
  have hnext := toNat_succ_of_lt hlt
  ext k
  constructor
  · rintro ⟨hle, hk, hsolves⟩
    rw [UInt64.le_iff_toNat_le, hnext] at hle
    exact ⟨UInt64.le_iff_toNat_le.2 (by omega), hk, hsolves⟩
  · rintro ⟨hle, hk, hsolves⟩
    have hne : nonce ≠ k := by
      rintro rfl
      exact h hsolves
    rw [UInt64.le_iff_toNat_le] at hle
    have hne' : nonce.toNat ≠ k.toNat := fun e => hne (UInt64.toNat_inj.1 e)
    exact ⟨UInt64.le_iff_toNat_le.2 (by omega), hk, hsolves⟩

end BlockHeader

/-! ## The loop -/

/-- The loop as it is written: it goes on while the counter is below the limit.  `none` is the
overflow of the counter, a panic. -/
def mineLoop (H : Sha3) (header : BlockHeader) (maxAttempts nonce : UInt64) :
    Option (Option MinedBlock) :=
  if _hlt : nonce < maxAttempts then
    let hash := hashBlockHeader H header.index header.timestamp header.previousHash
      header.merkleRoot nonce header.difficulty header.isEpochBlock header.epochIndex
      header.stateRoot
    if meetsDifficulty hash header.difficulty then
      (U64.checkedAdd nonce 1).map fun attempts =>
        some { nonce := nonce, hash := hash, attempts := attempts }
    else
      match _hnext : U64.checkedAdd nonce 1 with
      | none => none
      | some next => mineLoop H header maxAttempts next
  else some none
termination_by maxAttempts.toNat - nonce.toNat
decreasing_by
  have hnext := U64.checkedAdd_eq_some_iff.1 _hnext
  rw [UInt64.toNat_one] at hnext
  rw [UInt64.lt_iff_toNat_lt] at _hlt
  omega

section Search

variable {H : Sha3} {header : BlockHeader} {limit nonce : UInt64} {left : ℕ}

theorem mineFrom_succ :
    mineFrom H header (left + 1) nonce =
      if meetsDifficulty (header.hashAt H nonce) header.difficulty then
        some (header.minedAt H nonce)
      else mineFrom H header left (nonce + 1) := rfl

theorem checkedAdd_one_of_lt (hlt : nonce < limit) : U64.checkedAdd nonce 1 = some (nonce + 1) := by
  rw [U64.checkedAdd_eq_some_iff, toNat_succ_of_lt hlt, UInt64.toNat_one]

theorem mineLoop_of_lt (hlt : nonce < limit) :
    mineLoop H header limit nonce =
      if meetsDifficulty (header.hashAt H nonce) header.difficulty then
        some (some (header.minedAt H nonce))
      else mineLoop H header limit (nonce + 1) := by
  have hnext := checkedAdd_one_of_lt hlt
  rw [mineLoop, dif_pos hlt]
  show (if meetsDifficulty (header.hashAt H nonce) header.difficulty then _ else _) = _
  split_ifs
  · rw [hnext]
    rfl
  · split
    · next hnone =>
        rw [hnone] at hnext
        cases hnext
    · next hsome =>
        rw [hsome] at hnext
        rw [Option.some.inj hnext]

/-- The counter does not overflow, and the loop makes the attempts that are left. -/
theorem mineLoop_eq (hleft : nonce.toNat + left = limit.toNat) :
    mineLoop H header limit nonce = some (mineFrom H header left nonce) := by
  induction left generalizing nonce with
  | zero =>
      rw [mineLoop, dif_neg (UInt64.not_lt.2 (UInt64.le_iff_toNat_le.2 hleft.ge))]
      rfl
  | succ left ih =>
      have hlt : nonce < limit := UInt64.lt_iff_toNat_lt.2 (by omega)
      have hnext : (nonce + 1).toNat + left = limit.toNat := by
        rw [toNat_succ_of_lt hlt]
        omega
      rw [mineLoop_of_lt hlt, mineFrom_succ, ih hnext]
      split_ifs <;> rfl

/-- What the search returns: nothing when no solution is left, or the least one. -/
theorem mineFrom_cases (hleft : nonce.toNat + left = limit.toNat) :
    mineFrom H header left nonce = none ∧ header.solutionsFrom H limit nonce = ∅ ∨
      ∃ k, mineFrom H header left nonce = some (header.minedAt H k) ∧
        IsLeast (header.solutionsFrom H limit nonce) k := by
  induction left generalizing nonce with
  | zero =>
      rw [UInt64.toNat_inj.1 hleft]
      exact .inl ⟨rfl, BlockHeader.solutionsFrom_limit⟩
  | succ left ih =>
      have hlt : nonce < limit := UInt64.lt_iff_toNat_lt.2 (by omega)
      rw [mineFrom_succ]
      by_cases hsolves : header.Solves H nonce
      · rw [if_pos (BlockHeader.meetsDifficulty_hashAt_iff.2 hsolves)]
        exact .inr ⟨nonce, rfl, BlockHeader.isLeast_solutionsFrom hlt hsolves⟩
      · rw [if_neg (mt BlockHeader.meetsDifficulty_hashAt_iff.1 hsolves),
          ← BlockHeader.solutionsFrom_succ hlt hsolves]
        apply ih
        rw [toNat_succ_of_lt hlt]
        omega

/-- The result for a nonce below the limit is the one with its hash and its number of attempts. -/
theorem minedAt_eq_iff (hlt : nonce < limit) {mined : MinedBlock} :
    header.minedAt H nonce = mined ↔
      nonce = mined.nonce ∧ mined.hash = header.hashAt H mined.nonce ∧
        mined.attempts.toNat = mined.nonce.toNat + 1 := by
  have hattempts := toNat_succ_of_lt hlt
  constructor
  · rintro rfl
    exact ⟨rfl, rfl, hattempts⟩
  · rintro ⟨rfl, hhash, hcount⟩
    obtain ⟨nonce, hash, attempts⟩ := mined
    rw [BlockHeader.minedAt, MinedBlock.mk.injEq]
    refine ⟨rfl, hhash.symm, ?_⟩
    rw [← UInt64.toNat_inj, hattempts]
    exact hcount.symm

end Search

/-- The search ends without an overflow.  It returns the least nonce below the limit that solves the
header, with its hash and the number of attempts, and nothing exactly when there is none. -/
theorem mineBlock_exact (H : Sha3) (header : BlockHeader) (maxAttempts : UInt64) :
    mineLoop H header maxAttempts 0 = some (mineBlock H header maxAttempts) ∧
      (∀ mined, mineBlock H header maxAttempts = some mined ↔
        IsLeast (header.solutions H maxAttempts) mined.nonce ∧
          mined.hash = header.hashAt H mined.nonce ∧
          mined.attempts.toNat = mined.nonce.toNat + 1) ∧
      (mineBlock H header maxAttempts = none ↔ header.solutions H maxAttempts = ∅) := by
  have hleft : (0 : UInt64).toNat + maxAttempts.toNat = maxAttempts.toNat := Nat.zero_add _
  refine ⟨mineLoop_eq hleft, ?_⟩
  have hcases : mineBlock H header maxAttempts = none ∧ header.solutionsFrom H maxAttempts 0 = ∅ ∨
      ∃ nonce, mineBlock H header maxAttempts = some (header.minedAt H nonce) ∧
        IsLeast (header.solutionsFrom H maxAttempts 0) nonce := mineFrom_cases hleft
  rw [BlockHeader.solutionsFrom_zero] at hcases
  rcases hcases with ⟨hnone, hempty⟩ | ⟨nonce, hsome, hleast⟩
  · rw [hnone, hempty]
    refine ⟨fun mined => iff_of_false (Option.some_ne_none mined).symm ?_, iff_of_true rfl rfl⟩
    rintro ⟨⟨hmem, -⟩, -⟩
    exact hmem
  · have hmem := hleast.1
    rw [hsome]
    have hfound : header.solutions H maxAttempts ≠ ∅ := Set.Nonempty.ne_empty ⟨nonce, hmem⟩
    refine ⟨fun mined => ?_, iff_of_false (Option.some_ne_none _) hfound⟩
    rw [Option.some_inj, minedAt_eq_iff hmem.1]
    apply and_congr_left
    intro _
    constructor
    · rintro rfl
      exact hleast
    · intro hmined
      exact UInt64.le_antisymm (hleast.2 hmined.1) (hmined.2 hleast.1)

end Kyvera
