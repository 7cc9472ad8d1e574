import Kyvera.Ledger.Evolution
import Kyvera.Ledger.StateRoot
import Kyvera.Library.Trace

/-!
# Undoing blocks

A snapshot remembers the accounts of some addresses.  Restoring it gives back every account as it
was, if nothing else was written in between.  A block writes only the addresses its transactions
touch, so rolling back the snapshots of a stretch of blocks, the last one first, undoes the
stretch.
-/

namespace Kyvera

open Effect Effect.Prog Trace Std

/-! ## One snapshot -/

section Snapshot

variable {H : Sha3} {db db' : KyveraDb}

theorem run_loadStateRoot_eq_ok_iff {r : Option String} :
    loadStateRoot.run db = (.ok r, db') ↔
      db.metadata[STATE_ROOT_KEY]? = r.map MetaEntry.text ∧ db' = db := by
  unfold loadStateRoot
  rw [run_bind, KyveraDb.run_getMetadata]
  rcases db.metadata[STATE_ROOT_KEY]? with _ | _ | _ | _ | _ <;> cases r <;> simp [eq_comm]

theorem run_readAccounts (affected : List String) (db : KyveraDb) :
    (affected.mapM fun address => do return (address, ← getAccount address) : DbM _).run db =
      (.ok (affected.map fun x => (x, db.accounts[x]?)), db) :=
  run_mapM_of_forall_ok fun _ _ => rfl

/-- A snapshot records the saved state root and the accounts as they are stored. -/
theorem run_takeSnapshot_eq_ok_iff {height : UInt64} {affected : List String}
    {snapshot : StateSnapshot} :
    (takeSnapshot H height affected).run db = (.ok snapshot, db') ↔
      ∃ r, loadStateRoot.run db = (.ok r, db) ∧
        snapshot = ⟨height, r.getD (H.sha3256Hex emptyStateInput),
          affected.map fun x => (x, db.accounts[x]?)⟩ ∧ db' = db := by
  have reads := run_readAccounts affected db
  unfold takeSnapshot
  rw [run_bind_eq_ok_iff]
  constructor
  · rintro ⟨r, m, hr, h⟩
    have hm := (run_loadStateRoot_eq_ok_iff.1 hr).2
    rw [hm] at hr h
    rw [run_bind_of_ok reads] at h
    cases h
    exact ⟨r, hr, rfl, rfl⟩
  · rintro ⟨r, hr, rfl, rfl⟩
    exact ⟨r, _, hr, run_bind_of_ok reads⟩

theorem along_eq_takeSnapshot (height : UInt64) (affected : List String) (db : KyveraDb) :
    Along Eq (takeSnapshot H height affected) db := by
  have hload : Along Eq loadStateRoot db := by
    unfold Along loadStateRoot
    rw [run_bind, KyveraDb.run_getMetadata]
    rcases db.metadata[STATE_ROOT_KEY]? with _ | _ | _ | _ | _ <;> rfl
  apply Along.bind hload
  intro r m _
  unfold Along
  rw [run_bind_of_ok (run_readAccounts affected m)]
  rfl

/-- The database after one account is put back. -/
def KyveraDb.restore (db : KyveraDb) (e : String × Option Account) : KyveraDb :=
  match e.2 with
  | some account => db.save account
  | none => { db with accounts := db.accounts.erase e.1 }

/-- The database after a rollback. -/
def KyveraDb.rolledBack (db : KyveraDb) (snapshot : StateSnapshot) : KyveraDb :=
  let m := snapshot.modifiedAccounts.foldl KyveraDb.restore db
  { m with metadata := m.metadata.insert STATE_ROOT_KEY (.text snapshot.stateRoot) }

theorem run_rollbackToSnapshot (snapshot : StateSnapshot) (db : KyveraDb) :
    (rollbackToSnapshot snapshot).run db = (.ok (), db.rolledBack snapshot) := by
  have restores : ∀ e ∈ snapshot.modifiedAccounts, ∀ m : KyveraDb,
      (restoreAccount e.1 e.2).run m = (.ok (), m.restore e) := by
    rintro ⟨x, _ | a⟩ _ m
    · rfl
    · rfl
  exact run_bind_of_ok (run_forM_of_forall_ok restores db)

theorem getElem?_restore {t : AccountTree} (ht : t.WellFormed) (db : KyveraDb) (x y : String) :
    (db.restore (x, t[x]?)).accounts[y]? = if y = x then t[y]? else db.accounts[y]? := by
  unfold KyveraDb.restore
  rcases hx : t[x]? with _ | a
  · dsimp only
    split_ifs with hy
    · rw [hy, hx, ExtTreeMap.getElem?_erase_self]
    · rw [TreeSum.getElem?_erase_of_ne _ (Ne.symm hy)]
  · dsimp only
    rw [KyveraDb.accounts_save, AccountTree.getElem?_put, ht x a hx]
    split_ifs with hy hy' hy'
    · rw [← hy, hx]
    · exact absurd hy.symm hy'
    · exact absurd hy'.symm hy
    · rfl

/-- Restoring accounts of a well-formed store gives back exactly these accounts, however often and
in whatever order they are listed. -/
theorem getElem?_foldl_restore {t : AccountTree} (ht : t.WellFormed) (affected : List String)
    (db : KyveraDb) (y : String) :
    ((affected.map fun x => (x, t[x]?)).foldl KyveraDb.restore db).accounts[y]? =
      if y ∈ affected then t[y]? else db.accounts[y]? := by
  induction affected generalizing db with
  | nil => rfl
  | cons x rest ih =>
      rw [List.map_cons, List.foldl_cons, ih, getElem?_restore ht]
      by_cases hrest : y ∈ rest
      · rw [if_pos hrest, if_pos (List.mem_cons_of_mem x hrest)]
      · rw [if_neg hrest]
        exact if_congr (by simp [hrest]) rfl rfl

theorem accounts_rolledBack {t : AccountTree} (ht : t.WellFormed) {affected : List String}
    (hframe : ∀ x : String, x ∉ affected → db.accounts[x]? = t[x]?) (height : UInt64)
    (root : String) :
    (db.rolledBack ⟨height, root, affected.map fun x => (x, t[x]?)⟩).accounts = t := by
  apply ExtTreeMap.ext_getElem?
  intro y
  refine (getElem?_foldl_restore ht affected db y).trans ?_
  split_ifs with hy
  · rfl
  · exact hframe y hy

end Snapshot

/-! ## Stretches of blocks -/

/-- A block as it is applied: the addresses given to the snapshot before it, its transactions,
which touch only these addresses, and the state root saved after it, if any. -/
structure BlockPlan where
  height : UInt64
  affected : List String
  transactions : List Transaction
  covered : ∀ tx ∈ transactions, tx.touched ⊆ {x | x ∈ affected}
  commit : Option String

/-- Every transaction is attempted, whatever happens to it. -/
def KyveraDb.attemptAll (db : KyveraDb) (txs : List Transaction) : KyveraDb :=
  txs.foldl (fun db tx => ((applyTransaction tx).run db).2) db

/-- The state root is saved, if there is one. -/
def KyveraDb.commit (db : KyveraDb) : Option String → KyveraDb
  | some root => ((saveStateRoot root).run db).2
  | none => db

/-- A snapshot is taken, and then the block is applied. -/
def AppliedWith (H : Sha3) (db : KyveraDb) (call : BlockPlan × StateSnapshot) (db' : KyveraDb) :
    Prop :=
  (takeSnapshot H call.1.height call.1.affected).run db = (.ok call.2, db) ∧
    db' = (db.attemptAll call.1.transactions).commit call.1.commit

theorem evolves_attemptAll {S : Set String} {txs : List Transaction}
    (hS : ∀ tx ∈ txs, tx.touched ⊆ S) (db : KyveraDb) : Evolves S db (db.attemptAll txs) := by
  induction txs generalizing db with
  | nil => exact refl_of (Evolves S) db
  | cons tx rest ih =>
      obtain ⟨htx, hrest⟩ := List.forall_mem_cons.1 hS
      exact trans_of (Evolves S) (along_applyTransaction htx) (ih hrest _)

section Runs

variable {H : Sha3} {db db' : KyveraDb}

theorem AppliedWith.evolves {call : BlockPlan × StateSnapshot} (h : AppliedWith H db call db') :
    Evolves {x | x ∈ call.1.affected} db db' := by
  obtain ⟨-, rfl⟩ := h
  refine trans_of (Evolves _) (evolves_attemptAll call.1.covered db) ?_
  cases call.1.commit with
  | none => exact refl_of (Evolves _) _
  | some root => exact evolves_of_accounts_eq rfl

/-- Undoing one block: from any database with the accounts it left, its snapshot restores the
accounts and the saved state root from before it. -/
theorem AppliedWith.undo {call : BlockPlan × StateSnapshot} (hwf : db.WellFormed)
    (h : AppliedWith H db call db') {m : KyveraDb} (hm : m.accounts = db'.accounts) :
    (m.rolledBack call.2).accounts = db.accounts ∧
    ∀ root, loadStateRoot.run db = (.ok (some root), db) →
      loadStateRoot.run (m.rolledBack call.2) = (.ok (some root), m.rolledBack call.2) := by
  obtain ⟨r, hr, hsnap, -⟩ := run_takeSnapshot_eq_ok_iff.1 h.1
  refine ⟨?_, fun root hroot => ?_⟩
  · rw [hsnap]
    refine accounts_rolledBack hwf (fun x hx => ?_) _ _
    rw [hm]
    exact (h.evolves hwf).frame x hx
  · have hsome : r = some root := by
      rw [hroot] at hr
      cases hr
      rfl
    refine run_loadStateRoot_eq_ok_iff.2 ⟨?_, rfl⟩
    refine ExtTreeMap.getElem?_insert_self.trans ?_
    rw [hsnap, hsome]
    rfl

/-- The snapshots of a run, the last one first. -/
def snapshots (run : List (Step KyveraDb (BlockPlan × StateSnapshot))) : List StateSnapshot :=
  (run.map fun t => t.call.2).reverse

/-- Undoing a stretch of blocks, by induction on the stretch: what follows the first block is
undone first, and leaves the accounts that the first block left. -/
theorem undo_run {run : List (Step KyveraDb (BlockPlan × StateSnapshot))} (hwf : db.WellFormed)
    (h : IsRun (AppliedWith H) db run) {m : KyveraDb}
    (hm : m.accounts = (final db run).accounts) :
    ∃ m', ((snapshots run).forM rollbackToSnapshot).run m = (.ok (), m') ∧
      m'.accounts = db.accounts ∧
      (run ≠ [] → ∀ root, loadStateRoot.run db = (.ok (some root), db) →
        loadStateRoot.run m' = (.ok (some root), m')) := by
  induction run generalizing db m with
  | nil => exact ⟨m, rfl, hm, fun hne => absurd rfl hne⟩
  | cons t rest ih =>
      obtain ⟨rfl, ht, hrest⟩ := h
      obtain ⟨m₁, hrun, hacc, -⟩ := ih (ht.evolves hwf).wellFormed hrest hm
      obtain ⟨hundo, hroot⟩ := ht.undo hwf hacc
      refine ⟨m₁.rolledBack t.call.2, ?_, hundo, fun _ => hroot⟩
      have split : snapshots (t :: rest) = snapshots rest ++ [t.call.2] := by simp [snapshots]
      rw [split, run_forM_append_of_ok hrun]
      exact run_bind_of_ok (run_rollbackToSnapshot _ _)

/-- Reorganisation undo: after blocks `B1, …, Bn` on a well-formed store, each applied after its
snapshot was taken and with any mix of outcomes, rolling back the snapshots from the last to the
`k`th restores the accounts from just before `Bk`, and the state root that was saved then. -/
theorem rollback_restores {first last : List (Step KyveraDb (BlockPlan × StateSnapshot))}
    (hwf : db.WellFormed) (h : IsRun (AppliedWith H) db (first ++ last)) (hlast : last ≠ []) :
    ∃ m, ((snapshots last).forM rollbackToSnapshot).run (final db (first ++ last)) = (.ok (), m) ∧
      m.accounts = (final db first).accounts ∧
      ((computeStateRoot H).run m).1 = ((computeStateRoot H).run (final db first)).1 ∧
      ∀ root, loadStateRoot.run (final db first) = (.ok (some root), final db first) →
        loadStateRoot.run m = (.ok (some root), m) := by
  obtain ⟨hfirst, hrun⟩ := isRun_append.1 h
  have hmid : (final db first).WellFormed :=
    hfirst.invariant_final (I := KyveraDb.WellFormed)
      (fun _ _ _ hs ht => (ht.evolves hs).wellFormed) hwf
  obtain ⟨m, hm, hacc, hroot⟩ := undo_run hmid hrun rfl
  rw [← final_append] at hm
  exact ⟨m, hm, hacc, computeStateRoot_congr hacc, hroot hlast⟩

end Runs

/-- A block with one transfer, after which the root is saved. -/
def transferBlock (height nonce : UInt64) (root : String) : BlockPlan where
  height := height
  affected := ["kyv1b", "kyv1a", TREASURY_ADDRESS, "kyv1a"]
  transactions := [Transaction.new 0 "kyv1a" "kyv1b" 40 10 nonce .transfer []]
  covered := by simp [Transaction.new, Transaction.touched, Set.insert_subset_iff]
  commit := some root

/-- Two blocks, of which the second one is undone. -/
theorem rollback_restores_transferBlock :
    let db := KyveraDb.withAccounts [{ Account.new "kyv1a" with balance := 100 }]
    let B₁ := transferBlock 1 0 "first"
    let B₂ := transferBlock 2 1 "second"
    let db₁ := (db.attemptAll B₁.transactions).commit B₁.commit
    let db₂ := (db₁.attemptAll B₂.transactions).commit B₂.commit
    let s₂ : StateSnapshot := ⟨2, "first", B₂.affected.map fun x => (x, db₁.accounts[x]?)⟩
    ∃ m, ([s₂].forM rollbackToSnapshot).run db₂ = (.ok (), m) ∧ m.accounts = db₁.accounts ∧
      loadStateRoot.run m = (.ok (some "first"), m) := by
  intro db B₁ B₂ db₁ db₂ s₂
  have root₁ : loadStateRoot.run db₁ = (.ok (some "first"), db₁) :=
    run_loadStateRoot_eq_ok_iff.2 ⟨by decide, rfl⟩
  obtain ⟨s₁, taken₁⟩ : ∃ s₁, (takeSnapshot Sha3.zero 1 B₁.affected).run db = (.ok s₁, db) :=
    ⟨_, run_takeSnapshot_eq_ok_iff.2
      ⟨none, run_loadStateRoot_eq_ok_iff.2 ⟨by decide, rfl⟩, rfl, rfl⟩⟩
  have taken₂ : (takeSnapshot Sha3.zero 2 B₂.affected).run db₁ = (.ok s₂, db₁) :=
    run_takeSnapshot_eq_ok_iff.2 ⟨_, root₁, rfl, rfl⟩
  obtain ⟨m, hm, hacc, -, hroot⟩ := @rollback_restores Sha3.zero db
    [⟨db, (B₁, s₁), db₁⟩] [⟨db₁, (B₂, s₂), db₂⟩] (KyveraDb.wellFormed_withAccounts _)
    ⟨rfl, ⟨taken₁, rfl⟩, rfl, ⟨taken₂, rfl⟩, trivial⟩ (List.cons_ne_nil _ _)
  exact ⟨m, hm, hacc, hroot "first" root₁⟩

end Kyvera
