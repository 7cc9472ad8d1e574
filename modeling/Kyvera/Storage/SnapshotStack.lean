import Kyvera.Storage.StateTrie

/-!
# The snapshot stack

Snapshots are numbered, and the number of the next one is kept in the metadata.  Saving a snapshot
reads this number and writes it back without adding one.  So all the snapshots a database receives
are saved under one number, each over the one before it.
-/

namespace Kyvera

open Effect Effect.Prog Std

section Keys

variable {n m : UInt64}

theorem length_snapshotKey (n : UInt64) : (snapshotKey n).toList.length = 29 := by
  rw [snapshotKey, String.toList_append, List.length_append, length_pad20]
  rfl

theorem snapshotKey_ne (n : UInt64) : snapshotKey n ≠ SNAPSHOT_COUNT_KEY := by
  intro h
  have hlength := length_snapshotKey n
  rw [h] at hlength
  exact absurd hlength (by decide)

theorem snapshotKey_injective (h : snapshotKey n = snapshotKey m) : n = m := by
  have e := congrArg String.toList h
  rw [snapshotKey, snapshotKey, String.toList_append, String.toList_append] at e
  exact pad20_injective (String.toList_inj.1 (List.append_cancel_left e))

end Keys

/-! ## One save -/

/-- The count of the stored snapshots reads as `n`. -/
def KyveraDb.Counts (db : KyveraDb) (n : UInt64) : Prop := getSnapshotCount.run db = (.ok n, db)

/-- The database after a snapshot was saved under the number `n`. -/
def KyveraDb.saved (db : KyveraDb) (n : UInt64) (s : StateSnapshot) : KyveraDb :=
  { db with
    metadata := (db.metadata.insert (snapshotKey n) (.snapshot s)).insert SNAPSHOT_COUNT_KEY
      (.text (toString n)) }

section Save

variable {db : KyveraDb} {n m : UInt64} {s : StateSnapshot}

theorem KyveraDb.Counts.unique (hn : db.Counts n) (hm : db.Counts m) : n = m := by
  unfold KyveraDb.Counts at hn hm
  rw [hn] at hm
  cases hm
  rfl

theorem counts_empty : KyveraDb.empty.Counts 0 := by
  unfold KyveraDb.Counts getSnapshotCount
  rw [run_bind, KyveraDb.run_getMetadata, KyveraDb.empty, ExtTreeMap.getElem?_empty]
  rfl

theorem counts_of_text (h : db.metadata[SNAPSHOT_COUNT_KEY]? = some (.text (toString n))) :
    db.Counts n := by
  unfold KyveraDb.Counts getSnapshotCount
  rw [run_bind, KyveraDb.run_getMetadata, h]
  dsimp only
  rw [Text.parseUInt64_toString]
  rfl

/-- A save writes the snapshot under the number that is read, and leaves this number. -/
theorem run_saveSnapshot (h : db.Counts n) :
    (saveSnapshot s).run db = (.ok (), db.saved n s) := by
  rw [saveSnapshot, run_bind_of_ok h]
  rfl

theorem counts_saved (db : KyveraDb) (n : UInt64) (s : StateSnapshot) :
    (db.saved n s).Counts n := by
  apply counts_of_text
  rw [KyveraDb.saved, ExtTreeMap.getElem?_insert_self]

theorem getElem?_saved (db : KyveraDb) (n m : UInt64) (s : StateSnapshot) :
    (db.saved n s).metadata[snapshotKey m]? =
      if n = m then some (.snapshot s) else db.metadata[snapshotKey m]? := by
  rw [KyveraDb.saved, TreeSum.getElem?_insert_of_ne _ _ (snapshotKey_ne m).symm]
  split_ifs with h
  · rw [h, ExtTreeMap.getElem?_insert_self]
  · exact TreeSum.getElem?_insert_of_ne _ _ fun e => h (snapshotKey_injective e)

end Save

/-! ## Any number of saves -/

/-- The snapshots of a list are on the stack, in their order: the count is their number, and each
is stored under its index. -/
structure Stacked (saves : List StateSnapshot) (db : KyveraDb) : Prop where
  count : ∃ n, db.Counts n ∧ n.toNat = saves.length
  entries : ∀ (i : UInt64) s, saves[i.toNat]? = some s →
    db.metadata[snapshotKey i]? = some (.snapshot s)

/-- What saves leave behind on a database whose count reads as `n`. -/
structure Overwritten (n : UInt64) (saves : List StateSnapshot) (db db' : KyveraDb) : Prop where
  count : db'.Counts n
  entry : ∀ m, db'.metadata[snapshotKey m]? =
    if n = m then (saves.getLast?.map .snapshot).or db.metadata[snapshotKey m]?
    else db.metadata[snapshotKey m]?

section Saves

variable {db : KyveraDb} {n : UInt64}

/-- Saves always succeed, do not change the count, and only the last one remains. -/
theorem run_forM_saveSnapshot (h : db.Counts n) (saves : List StateSnapshot) :
    ∃ db', (saves.forM saveSnapshot).run db = (.ok (), db') ∧ Overwritten n saves db db' := by
  induction saves generalizing db with
  | nil =>
      refine ⟨db, rfl, h, fun m => ?_⟩
      split_ifs <;> rfl
  | cons s rest ih =>
      obtain ⟨db', hrun, hleft⟩ := ih (counts_saved db n s)
      refine ⟨db', ?_, hleft.count, fun m => ?_⟩
      · show (saveSnapshot s >>= fun _ => rest.forM saveSnapshot).run db = _
        rw [run_bind_of_ok (run_saveSnapshot h), hrun]
      · rw [hleft.entry, getElem?_saved]
        split_ifs with hm
        · cases rest with
          | nil => rfl
          | cons t rest' =>
              rw [List.getLast?_cons_cons, List.getLast?_cons]
              rfl
        · rfl

end Saves

/-- The stack holds what was saved on a fresh database only when nothing was saved. -/
theorem saveSnapshot_stacked_iff (saves : List StateSnapshot) :
    Stacked saves ((saves.forM saveSnapshot).run KyveraDb.empty).2 ↔ saves = [] := by
  obtain ⟨db', hrun, hleft⟩ := run_forM_saveSnapshot counts_empty saves
  rw [hrun]
  constructor
  · rintro ⟨⟨n, hn, hlength⟩, -⟩
    rw [← hleft.count.unique hn] at hlength
    exact List.length_eq_zero_iff.1 hlength.symm
  · rintro rfl
    exact ⟨⟨0, hleft.count, rfl⟩, fun i s hs => nomatch hs⟩

/-- Two snapshots are saved on a fresh database: the second one lies under the number zero, nothing
under the number one, and the count is still zero. -/
theorem saveSnapshot_loses_first :
    let s₁ : StateSnapshot := { blockHeight := 1, stateRoot := "a", modifiedAccounts := [] }
    let s₂ : StateSnapshot := { blockHeight := 2, stateRoot := "b", modifiedAccounts := [] }
    let saves := ([s₁, s₂].forM saveSnapshot).run KyveraDb.empty
    saves.1 = .ok () ∧ (getSnapshotCount.run saves.2).1 = .ok 0 ∧
      saves.2.metadata[snapshotKey 0]? = some (.snapshot s₂) ∧
      saves.2.metadata[snapshotKey 1]? = none ∧ ¬ Stacked [s₁, s₂] saves.2 := by
  intro s₁ s₂ saves
  have hlast : saves.2.metadata[snapshotKey 0]? = some (.snapshot s₂) := by
    decide +kernel
  refine ⟨by decide +kernel, by decide +kernel, hlast, by decide +kernel, ?_⟩
  rintro ⟨-, hentries⟩
  have hfirst := hentries 0 s₁ rfl
  rw [hlast] at hfirst
  exact absurd hfirst (by decide)

end Kyvera
