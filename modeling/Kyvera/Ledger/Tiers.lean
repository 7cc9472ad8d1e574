import Kyvera.Ledger.Replay
import Kyvera.Ledger.Rollback
import Kyvera.Chain.Mining
import Kyvera.Library.TreeIndex

/-!
# Tiers are where the stakes are

The tier of an account is a cached function of its stake.  Every operation keeps each account under
its own address and its tier with its stake, and a snapshot holds only accounts that were stored,
so taking one back keeps this too.
-/

namespace Kyvera

open Effect Effect.Prog Std

/-! ## Tiers -/

/-- An account that may be stored under an address: its own, and with the tier of its stake. -/
structure Account.StoredAt (x : String) (a : Account) : Prop where
  address : a.address = x
  tier : a.validatorTier = ValidatorTier.fromStakedBalance a.stakedBalance

/-- Every account is stored under its own address, with the tier of its stake. -/
def AccountTree.Tiered (t : AccountTree) : Prop :=
  ∀ (x : String) (a : Account), t[x]? = some a → a.StoredAt x

namespace AccountTree.Tiered

variable {t t' : AccountTree}

theorem wellFormed (h : t.Tiered) : t.WellFormed := fun x a ha => (h x a ha).address

theorem account (h : t.Tiered) (x : String) : (t.account x).StoredAt x := by
  unfold AccountTree.account
  rcases hx : t[x]? with _ | a
  · exact ⟨rfl, rfl⟩
  · exact h x a hx

theorem evolves {S : Set String} (h : t.Tiered) (he : AccountTree.Evolves S t t') : t'.Tiered := by
  intro x a ha
  have hchange := he.change x
  have hbefore := h.account x
  rw [account_of_getElem? ha] at hchange
  refine ⟨he.wellFormed x a ha, ?_⟩
  rcases hchange.tier with ⟨hstake, htier⟩ | htier
  · rw [hstake, htier]
    exact hbefore.tier
  · exact htier

end AccountTree.Tiered

theorem isSome_fromStakedBalance_iff {staked : UInt64} :
    (ValidatorTier.fromStakedBalance staked).isSome = true ↔ 500 * KYV_UNITS ≤ staked := by
  have higniter : ValidatorTier.igniter.minimumStake = 500 * KYV_UNITS := by decide
  have hkinetic : ValidatorTier.igniter.minimumStake ≤ ValidatorTier.kinetic.minimumStake := by
    decide
  have hnexus : ValidatorTier.igniter.minimumStake ≤ ValidatorTier.nexus.minimumStake := by decide
  rw [← higniter]
  unfold ValidatorTier.fromStakedBalance
  split_ifs with h₁ h₂ h₃
  · exact iff_of_true rfl (UInt64.le_trans hnexus h₁)
  · exact iff_of_true rfl (UInt64.le_trans hkinetic h₂)
  · exact iff_of_true rfl h₃
  · exact iff_of_false Bool.false_ne_true h₃

/-! ## Runs -/

/-- A database, and the snapshots that were taken on the way to it. -/
structure History where
  db : KyveraDb
  taken : List StateSnapshot

namespace History

/-- What may happen next. -/
inductive Call where
  | op (op : Op)
  | takeSnapshot (blockHeight : UInt64) (affectedAddresses : List String)
  | rollback (i : ℕ)

/-- The start of every history. -/
def start : History := ⟨KyveraDb.empty, []⟩

/-- The history after a call.  A failed call leaves behind what it wrote; a rollback is to the `i`th
snapshot that was taken, if there is one. -/
def after (H : Sha3) (s : History) : Call → History
  | .op op => { s with db := (op.program.run s.db).2 }
  | .takeSnapshot height affected =>
      match (Kyvera.takeSnapshot H height affected).run s.db with
      | (.ok snapshot, db) => ⟨db, s.taken ++ [snapshot]⟩
      | (_, db) => { s with db := db }
  | .rollback i =>
      match s.taken[i]? with
      | some snapshot => { s with db := ((rollbackToSnapshot snapshot).run s.db).2 }
      | none => s

/-- The history after a sequence of calls. -/
def reached (H : Sha3) (calls : List Call) : History := calls.foldl (after H) start

/-- The accounts are tiered, and so is everything that a snapshot could put back. -/
structure Tiered (s : History) : Prop where
  accounts : s.db.accounts.Tiered
  taken : ∀ snapshot ∈ s.taken, ∀ e ∈ snapshot.modifiedAccounts, ∀ a, e.2 = some a → a.StoredAt e.1

variable {H : Sha3} {s : History}

theorem tiered_start : start.Tiered where
  accounts := by
    intro x a h
    simp [start, KyveraDb.empty] at h
  taken := fun _ h => absurd h List.not_mem_nil

theorem tiered_restore {db : KyveraDb} (h : db.accounts.Tiered) {e : String × Option Account}
    (he : ∀ a, e.2 = some a → a.StoredAt e.1) : (db.restore e).accounts.Tiered := by
  obtain ⟨x, _ | a⟩ := e
  · intro y b hb
    exact h y b (TreeIndex.getElem?_erase_eq_some_iff.1 hb).2
  · intro y b hb
    change (db.accounts.put a)[y]? = some b at hb
    rw [AccountTree.getElem?_put] at hb
    have ha := he a rfl
    split_ifs at hb with hy
    · obtain rfl := Option.some.inj hb
      exact ⟨hy, ha.tier⟩
    · exact h y b hb

theorem tiered_rolledBack {db : KyveraDb} (h : db.accounts.Tiered) {snapshot : StateSnapshot}
    (hs : ∀ e ∈ snapshot.modifiedAccounts, ∀ a, e.2 = some a → a.StoredAt e.1) :
    (db.rolledBack snapshot).accounts.Tiered :=
  List.foldlRecOn (motive := fun m => m.accounts.Tiered) snapshot.modifiedAccounts KyveraDb.restore
    h fun _ hm e he => tiered_restore hm (hs e he)

/-- Every call keeps the accounts tiered, wherever it stops. -/
theorem Tiered.after (h : s.Tiered) (call : Call) : (s.after H call).Tiered := by
  cases call with
  | op op => exact ⟨h.accounts.evolves (op.along s.db h.accounts.wellFormed), h.taken⟩
  | takeSnapshot height affected =>
      have hstate := along_eq_takeSnapshot (H := H) height affected s.db
      unfold Along at hstate
      rcases hrun : (Kyvera.takeSnapshot H height affected).run s.db with ⟨snapshot | e | _, db⟩
      · obtain ⟨r, -, rfl, rfl⟩ := run_takeSnapshot_eq_ok_iff.1 hrun
        simp only [History.after, hrun]
        refine ⟨h.accounts, ?_⟩
        intro snapshot hsnapshot e he a ha
        rcases List.mem_append.1 hsnapshot with hold | hnew
        · exact h.taken snapshot hold e he a ha
        · rw [List.mem_singleton.1 hnew] at he
          obtain ⟨x, -, rfl⟩ := List.mem_map.1 he
          exact h.accounts x a ha
      · simp only [hrun] at hstate
        simp only [History.after, hrun]
        exact ⟨hstate ▸ h.accounts, h.taken⟩
      · simp only [hrun] at hstate
        simp only [History.after, hrun]
        exact ⟨hstate ▸ h.accounts, h.taken⟩
  | rollback i =>
      rcases hi : s.taken[i]? with _ | snapshot
      · simp only [History.after, hi]
        exact h
      · have hmem : snapshot ∈ s.taken := List.mem_of_getElem? hi
        simp only [History.after, hi, run_rollbackToSnapshot]
        exact ⟨tiered_rolledBack h.accounts (h.taken snapshot hmem), h.taken⟩

theorem tiered_reached (H : Sha3) (calls : List Call) : (reached H calls).Tiered :=
  List.foldlRecOn calls (after H) tiered_start fun _ h call _ => h.after call

end History

/-! ## Validators -/

/-- Over tiered accounts the validators are the accounts with enough stake, each listed once. -/
theorem AccountTree.Tiered.validators {db : KyveraDb} (h : db.accounts.Tiered) :
    ∃ validators, getValidators.run db = (.ok validators, db) ∧
      (validators.map Account.address).Nodup ∧
      ∀ a, a ∈ validators ↔
        db.accounts[a.address]? = some a ∧ 500 * KYV_UNITS ≤ a.stakedBalance := by
  refine ⟨_, run_getValidators db, ?_, fun a => ?_⟩
  · have haddress : (db.accounts.toList.map Prod.snd).map Account.address =
        db.accounts.toList.map Prod.fst := by
      rw [List.map_map]
      apply List.map_congr_left
      intro e he
      exact (h e.1 e.2 (ExtTreeMap.mem_toList_iff_getElem?_eq_some.1 he)).address
    have hnodup := TreeSum.nodup_keys db.accounts
    rw [← haddress] at hnodup
    exact (List.filter_sublist.map _).nodup hnodup
  · rw [List.mem_filter, List.mem_map]
    constructor
    · rintro ⟨⟨⟨x, b⟩, hmem, rfl⟩, hvalidator⟩
      have hb := ExtTreeMap.mem_toList_iff_getElem?_eq_some.1 hmem
      obtain ⟨haddress, htier⟩ := h x b hb
      rw [Account.isValidator, htier, isSome_fromStakedBalance_iff] at hvalidator
      rw [← haddress] at hb
      exact ⟨hb, hvalidator⟩
    · rintro ⟨ha, hstake⟩
      refine ⟨⟨(a.address, a), ExtTreeMap.mem_toList_iff_getElem?_eq_some.2 ha, rfl⟩, ?_⟩
      rw [Account.isValidator, (h a.address a ha).tier, isSome_fromStakedBalance_iff]
      exact hstake

/-- The invariant of the account store: in every state that calls can reach from an empty database,
every account is stored under its own address with the tier of its stake, and the validators are
exactly the accounts with at least 500 KYV staked, each listed once. -/
theorem tiered_and_validators_reached (H : Sha3) (calls : List History.Call) :
    let db := (History.reached H calls).db
    (∀ (x : String) (a : Account), db.accounts[x]? = some a →
      a.address = x ∧ a.validatorTier = ValidatorTier.fromStakedBalance a.stakedBalance) ∧
    ∃ validators, getValidators.run db = (.ok validators, db) ∧
      (validators.map Account.address).Nodup ∧
      ∀ a, a ∈ validators ↔
        db.accounts[a.address]? = some a ∧ 500 * KYV_UNITS ≤ a.stakedBalance := by
  intro db
  have htiered : db.accounts.Tiered := (History.tiered_reached H calls).accounts
  exact ⟨fun x a ha => ⟨(htiered x a ha).address, (htiered x a ha).tier⟩, htiered.validators⟩

end Kyvera
