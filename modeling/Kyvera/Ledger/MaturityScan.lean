import Kyvera.Consensus.Staking
import Kyvera.Ledger.Payouts

/-!
# The scan for matured withdrawals

The scan pays the matured withdrawals and notes their keys; the keys are removed when the scan is
through.  A scan that stops in the middle has paid the records before the stop and removed none.
What a call does is therefore told by the database before it: whether the payments fit, and where
the scan stops if they do not.
-/

namespace Kyvera

open Effect Effect.Prog Std

/-! ## Matured withdrawals -/

section Matured

variable {epoch : UInt64}

/-- The matured withdrawals among the entries of a scan. -/
def matured (epoch : UInt64) (entries : List (String × MetaEntry)) :
    List (String × PendingUnstake) :=
  entries.filterMap fun e =>
    (e.2.decodePending.filter fun p => p.unlockEpoch ≤ epoch).map fun p => (e.1, p)

theorem matured_cons (epoch : UInt64) (e : String × MetaEntry) (rest : List (String × MetaEntry)) :
    matured epoch (e :: rest) =
      ((e.2.decodePending.filter fun p => p.unlockEpoch ≤ epoch).map fun p => (e.1, p)).toList ++
        matured epoch rest := by
  unfold matured
  rw [List.filterMap_cons]
  cases (e.2.decodePending.filter fun p => p.unlockEpoch ≤ epoch) <;> rfl

theorem decodePending_eq_some_iff {value : MetaEntry} {p : PendingUnstake} :
    value.decodePending = some p ↔ value = .pendingUnstake p := by
  cases value <;> simp [MetaEntry.decodePending]

theorem mem_matured_iff {entries : List (String × MetaEntry)} {k : String} {p : PendingUnstake} :
    (k, p) ∈ matured epoch entries ↔
      (k, MetaEntry.pendingUnstake p) ∈ entries ∧ p.unlockEpoch ≤ epoch := by
  unfold matured
  simp only [List.mem_filterMap, Option.map_eq_some_iff, Option.filter_eq_some_iff,
    decodePending_eq_some_iff, decide_eq_true_eq, Prod.mk.injEq]
  constructor
  · rintro ⟨⟨_, _⟩, hmem, _, ⟨rfl, hle⟩, rfl, rfl⟩
    exact ⟨hmem, hle⟩
  · rintro ⟨hmem, hle⟩
    exact ⟨_, hmem, p, ⟨rfl, hle⟩, rfl, rfl⟩

theorem matured_keys_sublist (entries : List (String × MetaEntry)) :
    ((matured epoch entries).map Prod.fst).Sublist (entries.map Prod.fst) := by
  induction entries with
  | nil => exact List.Sublist.refl _
  | cons e rest ih =>
      rw [matured_cons, List.map_append, List.map_cons]
      cases e.2.decodePending.filter fun p => p.unlockEpoch ≤ epoch with
      | none => exact ih.cons _
      | some p => exact ih.cons_cons _

end Matured

/-! ## The scan -/

/-- What is paid out for withdrawals. -/
def payments (records : List (String × PendingUnstake)) : List (String × UInt64) :=
  records.map fun e => (e.2.address, e.2.amount)

/-- The payments of the matured withdrawals among the entries of a scan. -/
def releases (epoch : UInt64) (entries : List (String × MetaEntry)) : List (String × UInt64) :=
  payments (matured epoch entries)

/-- The scan cannot go on after the entries of `front`: the entry `e` does not decode, or it is a
matured withdrawal that the balance of its address has no room for. -/
structure KyveraDb.StopsAt (db : KyveraDb) (epoch : UInt64) (front : List (String × MetaEntry))
    (e : String × MetaEntry) : Prop where
  decoded : ∀ f ∈ front, f.2.decodePending.isSome
  fits : db.Fits (releases epoch front)
  stop : ∀ p, e.2.decodePending = some p → p.unlockEpoch ≤ epoch ∧
    U64.size ≤ (db.account p.address).balance.toNat + due (releases epoch front) p.address +
      p.amount.toNat

section Scan

variable {db db' : KyveraDb} {epoch : UInt64} {key : String} {value : MetaEntry}
  {p : PendingUnstake} {front entries rest : List (String × MetaEntry)}

theorem matured_cons_of_le (hp : value.decodePending = some p) (hle : p.unlockEpoch ≤ epoch) :
    matured epoch ((key, value) :: rest) = (key, p) :: matured epoch rest := by
  rw [matured_cons, hp, Option.filter_some, if_pos (decide_eq_true hle)]
  rfl

theorem matured_cons_of_not_le (hp : value.decodePending = some p) (hle : ¬ p.unlockEpoch ≤ epoch) :
    matured epoch ((key, value) :: rest) = matured epoch rest := by
  rw [matured_cons, hp, Option.filter_some, if_neg (by rwa [decide_eq_true_eq])]
  rfl

theorem releases_cons_of_le (hp : value.decodePending = some p) (hle : p.unlockEpoch ≤ epoch) :
    releases epoch ((key, value) :: rest) = (p.address, p.amount) :: releases epoch rest := by
  unfold releases
  rw [matured_cons_of_le hp hle]
  rfl

theorem releases_cons_of_not_le (hp : value.decodePending = some p)
    (hle : ¬ p.unlockEpoch ≤ epoch) :
    releases epoch ((key, value) :: rest) = releases epoch rest := by
  unfold releases
  rw [matured_cons_of_not_le hp hle]

theorem releases_append (front back : List (String × MetaEntry)) :
    releases epoch (front ++ back) = releases epoch front ++ releases epoch back := by
  unfold releases payments matured
  rw [List.filterMap_append, List.map_append]

/-- A scan that stops later stops there also with a matured entry in front that is paid first. -/
theorem KyveraDb.StopsAt.cons_of_le (h : db.WellFormed) {e : String × MetaEntry}
    (hp : value.decodePending = some p) (hle : p.unlockEpoch ≤ epoch)
    (hroom : (db.account p.address).Room p.amount)
    (hstop : (db.save ((db.account p.address).credit p.amount)).StopsAt epoch front e) :
    db.StopsAt epoch ((key, value) :: front) e where
  decoded := List.forall_mem_cons.2 ⟨Option.isSome_iff_exists.2 ⟨p, hp⟩, hstop.decoded⟩
  fits := by
    rw [releases_cons_of_le hp hle]
    exact h.fits_cons_iff.2 ⟨hroom, hstop.fits⟩
  stop := by
    intro q hq
    rw [releases_cons_of_le hp hle, ← h.balance_add_due hroom]
    exact hstop.stop q hq

theorem KyveraDb.StopsAt.cons_of_not_le {e : String × MetaEntry}
    (hp : value.decodePending = some p) (hle : ¬ p.unlockEpoch ≤ epoch)
    (hstop : db.StopsAt epoch front e) : db.StopsAt epoch ((key, value) :: front) e where
  decoded := List.forall_mem_cons.2 ⟨Option.isSome_iff_exists.2 ⟨p, hp⟩, hstop.decoded⟩
  fits := by
    rw [releases_cons_of_not_le hp hle]
    exact hstop.fits
  stop := by
    rw [releases_cons_of_not_le hp hle]
    exact hstop.stop

theorem KyveraDb.stopsAt_nil {e : String × MetaEntry}
    (hstop : ∀ p, e.2.decodePending = some p →
      p.unlockEpoch ≤ epoch ∧ ¬ (db.account p.address).Room p.amount) : db.StopsAt epoch [] e where
  decoded := fun _ hf => absurd hf List.not_mem_nil
  fits := db.fits_nil
  stop := fun p hp => ⟨(hstop p hp).1, Nat.le_of_not_lt (hstop p hp).2⟩

/-! ### One entry -/

theorem run_maturedLoop_of_le (hp : value.decodePending = some p) (hle : p.unlockEpoch ≤ epoch)
    (hroom : (db.account p.address).Room p.amount) (total : UInt64) (keys : List String) :
    (maturedLoop epoch total keys ((key, value) :: rest)).run db =
      (maturedLoop epoch (U64.saturatingAdd total p.amount) (keys ++ [key]) rest).run
        (db.save ((db.account p.address).credit p.amount)) := by
  rw [maturedLoop, hp, okOr_some, done_bind, if_pos hle,
    run_bind_of_ok (run_creditAccount_of_room hroom)]

theorem run_maturedLoop_of_not_le (hp : value.decodePending = some p)
    (hle : ¬ p.unlockEpoch ≤ epoch) (total : UInt64) (keys : List String) :
    (maturedLoop epoch total keys ((key, value) :: rest)).run db =
      (maturedLoop epoch total keys rest).run db := by
  rw [maturedLoop, hp, okOr_some, done_bind, if_neg hle]

/-- An entry that does not decode, or a full balance, ends the scan. -/
theorem run_maturedLoop_of_stop
    (hstop : ∀ p, value.decodePending = some p →
      p.unlockEpoch ≤ epoch ∧ ¬ (db.account p.address).Room p.amount)
    (total : UInt64) (keys : List String) :
    ∃ m, (maturedLoop epoch total keys ((key, value) :: rest)).run db = (.err m, db) := by
  unfold maturedLoop
  rcases hp : value.decodePending with _ | p
  · exact ⟨_, rfl⟩
  · obtain ⟨hle, hroom⟩ := hstop p hp
    have hnone : U64.checkedAdd (db.account p.address).balance p.amount = none :=
      U64.checkedAdd_of_not_lt hroom
    rw [okOr_some, done_bind, if_pos hle, creditAccount, run_bind, run_getOrCreateAccount_bind,
      hnone]
    exact ⟨_, rfl⟩

/-! ### All entries -/

/-- The scan pays all matured withdrawals and notes their keys, or it stops at the first entry where
it cannot go on, and has paid the ones before it. -/
theorem run_maturedLoop_cases (h : db.WellFormed) (epoch total : UInt64) (keys : List String)
    (entries : List (String × MetaEntry)) :
    db.Fits (releases epoch entries) ∧ (∀ f ∈ entries, f.2.decodePending.isSome) ∧
      (maturedLoop epoch total keys entries).run db =
        (.ok (((releases epoch entries).map Prod.snd).foldl U64.saturatingAdd total,
          keys ++ (matured epoch entries).map Prod.fst), db.payAll (releases epoch entries)) ∨
    ∃ front e back m, entries = front ++ e :: back ∧ db.StopsAt epoch front e ∧
      (maturedLoop epoch total keys entries).run db = (.err m, db.payAll (releases epoch front)) := by
  induction entries generalizing db total keys with
  | nil =>
      left
      refine ⟨db.fits_nil, fun f hf => absurd hf List.not_mem_nil, ?_⟩
      rw [show matured epoch [] = [] from rfl, List.map_nil, List.append_nil]
      rfl
  | cons e rest ih =>
      obtain ⟨key, value⟩ := e
      by_cases hstop : ∀ p, value.decodePending = some p →
          p.unlockEpoch ≤ epoch ∧ ¬ (db.account p.address).Room p.amount
      · right
        obtain ⟨m, hrun⟩ := run_maturedLoop_of_stop hstop total keys
        exact ⟨[], (key, value), rest, m, rfl, KyveraDb.stopsAt_nil hstop, hrun⟩
      · simp only [not_forall] at hstop
        obtain ⟨p, hp, hgoes⟩ := hstop
        have hdecoded := Option.isSome_iff_exists.2 ⟨p, hp⟩
        by_cases hle : p.unlockEpoch ≤ epoch
        · have hroom : (db.account p.address).Room p.amount := by
            by_contra hfull
            exact hgoes ⟨hle, hfull⟩
          rw [run_maturedLoop_of_le hp hle hroom, releases_cons_of_le hp hle,
            matured_cons_of_le hp hle]
          rcases ih (h.save _) (U64.saturatingAdd total p.amount) (keys ++ [key]) with
            ⟨hfit, hrest, hrun⟩ | ⟨front, e, back, m, rfl, hstop, hrun⟩
          · left
            refine ⟨h.fits_cons_iff.2 ⟨hroom, hfit⟩, List.forall_mem_cons.2 ⟨hdecoded, hrest⟩, ?_⟩
            rw [hrun, List.append_assoc]
            rfl
          · right
            refine ⟨(key, value) :: front, e, back, m, rfl, hstop.cons_of_le h hp hle hroom, ?_⟩
            rw [hrun, releases_cons_of_le hp hle]
            rfl
        · rw [run_maturedLoop_of_not_le hp hle, releases_cons_of_not_le hp hle,
            matured_cons_of_not_le hp hle]
          rcases ih h total keys with ⟨hfit, hrest, hrun⟩ | ⟨front, e, back, m, rfl, hstop, hrun⟩
          · left
            exact ⟨hfit, List.forall_mem_cons.2 ⟨hdecoded, hrest⟩, hrun⟩
          · right
            refine ⟨(key, value) :: front, e, back, m, rfl, hstop.cons_of_not_le hp hle, ?_⟩
            rw [hrun, releases_cons_of_not_le hp hle]

end Scan

/-! ## Processing -/

/-- The entries that a scan for withdrawals visits. -/
def KyveraDb.withdrawals (db : KyveraDb) : List (String × MetaEntry) :=
  scanPrefix db.metadata PENDING_UNSTAKE_PREFIX

/-- The database after a scan that is through. -/
def KyveraDb.afterMaturity (db : KyveraDb) (epoch : UInt64) : KyveraDb :=
  { db.payAll (releases epoch db.withdrawals) with
    metadata := ((matured epoch db.withdrawals).map Prod.fst).foldl (fun t k => t.erase k)
      db.metadata }

section Process

variable {db : KyveraDb} {epoch : UInt64}

theorem mem_withdrawals_iff {e : String × MetaEntry} :
    e ∈ db.withdrawals ↔
      db.metadata[e.1]? = some e.2 ∧ PENDING_UNSTAKE_PREFIX.toList.isPrefixOf e.1.toList := by
  unfold KyveraDb.withdrawals scanPrefix
  rw [List.mem_filter, ExtTreeMap.mem_toList_iff_getElem?_eq_some]

theorem metadata_payAll (db : KyveraDb) (payments : List (String × UInt64)) :
    (db.payAll payments).metadata = db.metadata := by
  rw [db.payAll_eq]

theorem run_removals (keys : List String) (db : KyveraDb) :
    (keys.forM removeMetadata).run db =
      (.ok (), { db with metadata := keys.foldl (fun t k => t.erase k) db.metadata }) := by
  induction keys generalizing db with
  | nil => rfl
  | cons k rest ih => exact ih { db with metadata := db.metadata.erase k }

theorem KyveraDb.WellFormed.afterMaturity (h : db.WellFormed) : (db.afterMaturity epoch).WellFormed :=
  h.payAll _

/-- Processing goes through and removes what it paid, or it stops where the scan stops, and has
removed nothing. -/
theorem run_processMaturedUnstakes_cases (h : db.WellFormed) (epoch : UInt64) :
    db.Fits (releases epoch db.withdrawals) ∧
      (∀ f ∈ db.withdrawals, f.2.decodePending.isSome) ∧
      (processMaturedUnstakes epoch).run db =
        (.ok (((releases epoch db.withdrawals).map Prod.snd).foldl U64.saturatingAdd 0),
          db.afterMaturity epoch) ∨
    ∃ front e back m, db.withdrawals = front ++ e :: back ∧ db.StopsAt epoch front e ∧
      (processMaturedUnstakes epoch).run db = (.err m, db.payAll (releases epoch front)) := by
  have hprogram : (processMaturedUnstakes epoch).run db =
      (maturedLoop epoch 0 [] db.withdrawals >>= fun r => do
        r.2.forM removeMetadata
        return r.1).run db := rfl
  rcases run_maturedLoop_cases h epoch 0 [] db.withdrawals with
    ⟨hfit, hdecoded, hrun⟩ | ⟨front, e, back, m, hsplit, hstop, hrun⟩
  · left
    refine ⟨hfit, hdecoded, ?_⟩
    rw [hprogram, run_bind_of_ok hrun, run_bind_of_ok (run_removals _ _), metadata_payAll,
      List.nil_append]
    rfl
  · right
    refine ⟨front, e, back, m, hsplit, hstop, ?_⟩
    rw [hprogram, run_bind, hrun]

end Process

end Kyvera
