import Kyvera.Ledger.Reads
import Kyvera.Ledger.Rollback
import Kyvera.Ledger.Withdrawals

/-!
# Following a branch

A node applies blocks and undoes them again, the last one first, as branches of the chain win and
lose.  Whatever it has applied and undone on the way, its accounts and its state root are those of
the blocks of its branch, applied in order to where it started: two nodes on one branch agree.

A rollback restores accounts and nothing else.  The pending withdrawals are those of every block
that was ever applied: undoing a request gives back the stake and leaves the withdrawal, and
undoing a release takes back the payment without the record.
-/

namespace Kyvera

open Effect Effect.Prog Std Trace

/-! ## Blocks of operations -/

/-- A block as it is applied: the addresses given to the snapshot before it, its operations, and
the state root saved after it, if any. -/
structure LedgerBlock where
  height : UInt64
  affected : List String
  operations : List Op
  commit : Option String

/-- Every operation is attempted, whatever happens to it. -/
def KyveraDb.attemptOps (db : KyveraDb) (ops : List Op) : KyveraDb :=
  ops.foldl (fun db op => (op.program.run db).2) db

/-- The database after a block. -/
def LedgerBlock.after (block : LedgerBlock) (db : KyveraDb) : KyveraDb :=
  (db.attemptOps block.operations).commit block.commit

/-- Each operation touches only listed addresses, when its turn comes. -/
def Covered (affected : List String) : KyveraDb → List Op → Prop
  | _, [] => True
  | db, op :: rest =>
      op.touched db ⊆ {x | x ∈ affected} ∧ Covered affected (op.program.run db).2 rest

/-- The blocks of a branch, applied in order. -/
def KyveraDb.replay (db : KyveraDb) (blocks : List LedgerBlock) : KyveraDb :=
  blocks.foldl (fun db block => block.after db) db

/-- The state root that a snapshot records. -/
def KyveraDb.rootOf (H : Sha3) (db : KyveraDb) : String :=
  match db.metadata[STATE_ROOT_KEY]? with
  | some (.text root) => root
  | _ => H.sha3256Hex emptyStateInput

/-- The entry of the saved state root. -/
def KyveraDb.rootEntry (db : KyveraDb) : Option MetaEntry := db.metadata[STATE_ROOT_KEY]?

/-- A state root is saved. -/
def KyveraDb.HasRoot (db : KyveraDb) : Prop := ∃ root, db.rootEntry = some (.text root)

/-- The accounts and the state root are the same. -/
structure SameLedger (H : Sha3) (db db' : KyveraDb) : Prop where
  accounts : db.accounts = db'.accounts
  root : db.rootOf H = db'.rootOf H

instance (H : Sha3) : Std.Refl (SameLedger H) := ⟨fun _ => ⟨rfl, rfl⟩⟩

instance (H : Sha3) : IsTrans KyveraDb (SameLedger H) where
  trans _ _ _ h h' := ⟨h.accounts.trans h'.accounts, h.root.trans h'.root⟩

section Blocks

variable {H : Sha3} {db db' : KyveraDb} {block : LedgerBlock}

theorem final_attempts (db : KyveraDb) (ops : List Op) :
    final db (attempts db ops) = db.attemptOps ops := by
  induction ops generalizing db with
  | nil => rfl
  | cons op rest ih => exact ih _

theorem evolves_attemptOps {affected : List String} {ops : List Op} (hwf : db.WellFormed)
    (h : Covered affected db ops) : Evolves {x | x ∈ affected} db (db.attemptOps ops) := by
  induction ops generalizing db with
  | nil => exact refl_of (Evolves _) db
  | cons op rest ih =>
      obtain ⟨hop, hrest⟩ := h
      have hone : Evolves {x | x ∈ affected} db (op.program.run db).2 := Op.along_touched hwf hop
      exact trans_of (Evolves _) hone (ih (hone hwf).wellFormed hrest)

theorem accounts_commit (db : KyveraDb) (root : Option String) :
    (db.commit root).accounts = db.accounts := by
  cases root <;> rfl

theorem LedgerBlock.evolves_after (hwf : db.WellFormed)
    (h : Covered block.affected db block.operations) :
    Evolves {x | x ∈ block.affected} db (block.after db) :=
  trans_of (Evolves _) (evolves_attemptOps hwf h) (evolves_of_accounts_eq (accounts_commit _ _))

theorem rootOf_insert_of_ne {k : String} (hk : k ≠ STATE_ROOT_KEY) (v : MetaEntry) :
    ({ db with metadata := db.metadata.insert k v } : KyveraDb).rootOf H = db.rootOf H := by
  unfold KyveraDb.rootOf
  dsimp only
  rw [TreeSum.getElem?_insert_of_ne _ _ hk]

theorem rootOf_insert_self (root : String) :
    ({ db with metadata := db.metadata.insert STATE_ROOT_KEY (.text root) } : KyveraDb).rootOf H =
      root := by
  unfold KyveraDb.rootOf
  dsimp only
  rw [ExtTreeMap.getElem?_insert_self]

theorem pendingUnstakeKey_ne_root (p : PendingUnstake) : pendingUnstakeKey p ≠ STATE_ROOT_KEY :=
  (ne_pendingUnstakeKey (by decide) p).symm

theorem KyveraDb.HasRoot.run_loadStateRoot (h : db.HasRoot) (H : Sha3) :
    loadStateRoot.run db = (.ok (some (db.rootOf H)), db) := by
  obtain ⟨root, hroot⟩ := h
  have hentry : db.metadata[STATE_ROOT_KEY]? = some (.text root) := hroot
  refine run_loadStateRoot_eq_ok_iff.2 ⟨?_, rfl⟩
  unfold KyveraDb.rootOf
  rw [hentry]
  rfl

theorem hasRoot_insert_root (root : String) :
    ({ db with metadata := db.metadata.insert STATE_ROOT_KEY (.text root) } : KyveraDb).HasRoot :=
  ⟨root, ExtTreeMap.getElem?_insert_self⟩

/-- The saved state root is not written. -/
def KeepsRoot (f : KyveraDb → KyveraDb) : Prop := ∀ db, (f db).rootEntry = db.rootEntry

theorem savesAccounts_keepsRoot : SavesAccounts KeepsRoot := fun _ _ => rfl

theorem rootEntry_of_op (op : Op) (db : KyveraDb) :
    (op.program.run db).2.rootEntry = db.rootEntry := by
  have hwrites : op.program.WritesOnly KeepsRoot := by
    refine op.writesOnly savesAccounts_keepsRoot (fun p _ db => ?_) (fun key hkey db => ?_)
    · exact TreeSum.getElem?_insert_of_ne _ _ (pendingUnstakeKey_ne_root p)
    · refine TreeSum.getElem?_erase_of_ne _ fun hroot => ?_
      rw [hroot] at hkey
      exact absurd hkey (by decide)
  exact hwrites.frame (fun _ hf => hf) db

theorem KyveraDb.HasRoot.attemptOps (h : db.HasRoot) (ops : List Op) :
    (db.attemptOps ops).HasRoot := by
  induction ops generalizing db with
  | nil => exact h
  | cons op rest ih =>
      obtain ⟨root, hroot⟩ := h
      exact ih ⟨root, (rootEntry_of_op op db).trans hroot⟩

theorem LedgerBlock.hasRoot_after (block : LedgerBlock) (h : db.HasRoot) :
    (block.after db).HasRoot := by
  unfold LedgerBlock.after
  cases block.commit with
  | none => exact h.attemptOps _
  | some root => exact hasRoot_insert_root root

theorem KyveraDb.HasRoot.replay (h : db.HasRoot) (blocks : List LedgerBlock) :
    (db.replay blocks).HasRoot := by
  induction blocks generalizing db with
  | nil => exact h
  | cons block rest ih => exact ih (block.hasRoot_after h)

/-- What operations do to the ledger is determined by the ledger. -/
theorem fixesAccounts_sameLedger : FixesAccounts (SameLedger H) where
  accounts h := h.accounts
  save a h := ⟨congrArg (AccountTree.put · a) h.accounts, h.root⟩

theorem SameLedger.attemptOps {ops : List Op}
    (hops : ∀ op ∈ ops, ∀ epoch, op ≠ .processMaturedUnstakes epoch) (h : SameLedger H db db') :
    SameLedger H (db.attemptOps ops) (db'.attemptOps ops) := by
  refine respects_foldl (fun op hop => ?_) h
  refine fixesAccounts_sameLedger.op (fun p hsame => ⟨hsame.accounts, ?_⟩) (hops op hop)
  rw [rootOf_insert_of_ne (pendingUnstakeKey_ne_root p),
    rootOf_insert_of_ne (pendingUnstakeKey_ne_root p)]
  exact hsame.root

theorem SameLedger.commit (h : SameLedger H db db') (root : Option String) :
    SameLedger H (db.commit root) (db'.commit root) := by
  cases root with
  | none => exact h
  | some root => exact ⟨h.accounts, (rootOf_insert_self root).trans (rootOf_insert_self root).symm⟩

/-- No operation of the block releases withdrawals. -/
def LedgerBlock.ReleasesNone (block : LedgerBlock) : Prop :=
  ∀ op ∈ block.operations, ∀ epoch, op ≠ .processMaturedUnstakes epoch

theorem SameLedger.after (hblock : block.ReleasesNone) (h : SameLedger H db db') :
    SameLedger H (block.after db) (block.after db') :=
  (h.attemptOps hblock).commit block.commit

end Blocks

/-! ## The node -/

/-- The database of a node, and the blocks that it can undo with their snapshots, the last one
first. -/
structure Node where
  db : KyveraDb
  applied : List (LedgerBlock × StateSnapshot)

/-- The blocks that a node has applied and not undone, in order. -/
def Node.branch (node : Node) : List LedgerBlock := (node.applied.map Prod.fst).reverse

/-- What a node does next. -/
inductive Move where
  | apply (block : LedgerBlock)
  | undo

/-- A block is applied after its snapshot was taken, and the last one is undone by a rollback. -/
def Move.Makes (H : Sha3) (node : Node) : Move → Node → Prop
  | .apply block, node' => ∃ s,
      (takeSnapshot H block.height block.affected).run node.db = (.ok s, node.db) ∧
        node' = ⟨block.after node.db, (block, s) :: node.applied⟩
  | .undo, node' => ∃ block s rest, node.applied = (block, s) :: rest ∧
      ((rollbackToSnapshot s).run node.db).1 = .ok () ∧
        node' = ⟨((rollbackToSnapshot s).run node.db).2, rest⟩

/-- The snapshot before a block covers what the block writes. -/
def Move.Covers (node : Node) : Move → Prop
  | .apply block => Covered block.affected node.db block.operations
  | .undo => True

/-- The database stands on the applied blocks: each was applied, after its snapshot, to a database
with the ledger that the blocks below it make. -/
def StandsOn (H : Sha3) (base : KyveraDb) : List (LedgerBlock × StateSnapshot) → KyveraDb → Prop
  | [], db => SameLedger H base db
  | (block, s) :: rest, db => ∃ pre, StandsOn H base rest pre ∧ pre.WellFormed ∧
      (takeSnapshot H block.height block.affected).run pre = (.ok s, pre) ∧
      Covered block.affected pre block.operations ∧ SameLedger H (block.after pre) db

section Node

variable {H : Sha3} {base db db' : KyveraDb} {node node' : Node} {move : Move}
  {applied : List (LedgerBlock × StateSnapshot)} {run : List (Step Node Move)}

theorem StandsOn.of_same (h : StandsOn H base applied db) (hsame : SameLedger H db db') :
    StandsOn H base applied db' := by
  cases applied with
  | nil => exact trans_of (SameLedger H) h hsame
  | cons top rest =>
      obtain ⟨pre, hpre, hwf, htaken, hcovered, hafter⟩ := h
      exact ⟨pre, hpre, hwf, htaken, hcovered, trans_of (SameLedger H) hafter hsame⟩

theorem rootOf_of_takeSnapshot {height : UInt64} {affected : List String} {s : StateSnapshot}
    (h : (takeSnapshot H height affected).run db = (.ok s, db)) :
    s = ⟨height, db.rootOf H, affected.map fun x => (x, db.accounts[x]?)⟩ := by
  obtain ⟨r, hload, rfl, -⟩ := run_takeSnapshot_eq_ok_iff.1 h
  have hroot : db.rootOf H = r.getD (H.sha3256Hex emptyStateInput) := by
    unfold KyveraDb.rootOf
    rw [(run_loadStateRoot_eq_ok_iff.1 hload).1]
    cases r <;> rfl
  rw [hroot]

/-- Undoing the last block gives back the ledger that it was applied to. -/
theorem StandsOn.undo {block : LedgerBlock} {s : StateSnapshot}
    (h : StandsOn H base ((block, s) :: applied) db) :
    StandsOn H base applied (db.rolledBack s) := by
  obtain ⟨pre, hpre, hwf, htaken, hcovered, hafter⟩ := h
  refine hpre.of_same ⟨?_, ?_⟩
  · rw [rootOf_of_takeSnapshot htaken]
    refine (accounts_rolledBack hwf (fun x hx => ?_) _ _).symm
    rw [← hafter.accounts]
    exact (LedgerBlock.evolves_after hwf hcovered hwf).frame x hx
  · rw [rootOf_of_takeSnapshot htaken]
    exact (rootOf_insert_self _).symm

theorem StandsOn.wellFormed (hwf : base.WellFormed) (h : StandsOn H base applied db) :
    db.WellFormed := by
  cases applied with
  | nil => exact (show db.accounts.WellFormed from h.accounts ▸ hwf)
  | cons top rest =>
      obtain ⟨pre, -, hpre, -, hcovered, hafter⟩ := h
      have hevolved := (LedgerBlock.evolves_after hpre hcovered hpre).wellFormed
      exact (show db.accounts.WellFormed from hafter.accounts ▸ hevolved)

theorem Move.Makes.standsOn (hwf : base.WellFormed) (h : StandsOn H base node.applied node.db)
    (hmove : move.Makes H node node') (hcovers : move.Covers node) :
    StandsOn H base node'.applied node'.db := by
  cases move with
  | apply block =>
      obtain ⟨s, htaken, rfl⟩ := hmove
      exact ⟨node.db, h, h.wellFormed hwf, htaken, hcovers, refl_of (SameLedger H) _⟩
  | undo =>
      obtain ⟨block, s, rest, happlied, -, rfl⟩ := hmove
      rw [happlied] at h
      rw [run_rollbackToSnapshot]
      exact h.undo

/-- Where a database stands on applied blocks, its ledger is that of the blocks applied in order,
by induction on the blocks: no block looks at anything but the ledger. -/
theorem StandsOn.replay (h : StandsOn H base applied db)
    (hnone : ∀ e ∈ applied, e.1.ReleasesNone) :
    SameLedger H (base.replay (applied.map Prod.fst).reverse) db := by
  induction applied generalizing db with
  | nil => exact h
  | cons top rest ih =>
      obtain ⟨pre, hpre, -, -, -, hafter⟩ := h
      obtain ⟨htop, hrest⟩ := List.forall_mem_cons.1 hnone
      have hbelow := (ih hpre hrest).after htop
      rw [List.map_cons, List.reverse_cons, KyveraDb.replay, List.foldl_append]
      exact trans_of (SameLedger H) hbelow hafter

/-- A saved root is never removed: a rollback saves the one of its snapshot. -/
theorem Move.Makes.hasRoot (h : node.db.HasRoot) (hmove : move.Makes H node node') :
    node'.db.HasRoot := by
  cases move with
  | apply block =>
      obtain ⟨s, -, rfl⟩ := hmove
      exact block.hasRoot_after h
  | undo =>
      obtain ⟨block, s, rest, -, -, rfl⟩ := hmove
      rw [run_rollbackToSnapshot]
      exact hasRoot_insert_root s.stateRoot

/-- Whatever a node has applied and undone, its accounts and its state root are those of the blocks
of its branch, applied in order to the database it started from.  The saved root is too, if one was
saved there: where there was none, a rollback saves the root of the empty state. -/
theorem ledger_of_branch (hwf : base.WellFormed) (h : IsRun (Move.Makes H) ⟨base, []⟩ run)
    (hcovers : ∀ t ∈ run, t.call.Covers t.pre)
    (hnone : ∀ block ∈ (final ⟨base, []⟩ run).branch, block.ReleasesNone) :
    let node := final ⟨base, []⟩ run
    node.db.accounts = (base.replay node.branch).accounts ∧
    node.db.rootOf H = (base.replay node.branch).rootOf H ∧
    ((computeStateRoot H).run node.db).1 = ((computeStateRoot H).run (base.replay node.branch)).1 ∧
    (base.HasRoot →
      (loadStateRoot.run node.db).1 = (loadStateRoot.run (base.replay node.branch)).1) := by
  intro node
  have hstart : StandsOn H base [] base := refl_of (SameLedger H) base
  have hsteps := h.and (P := fun node move _ => move.Covers node) hcovers
  have hstands : StandsOn H base node.applied node.db :=
    hsteps.invariant_final (I := fun node => StandsOn H base node.applied node.db)
      (fun _ _ _ hs hmove => hmove.1.standsOn hwf hs hmove.2) hstart
  have hreplay := hstands.replay fun e he => hnone e.1 (by simpa [Node.branch] using ⟨e.2, he⟩)
  refine ⟨hreplay.accounts.symm, hreplay.root.symm, computeStateRoot_congr hreplay.accounts.symm,
    fun hbase => ?_⟩
  have hnode : node.db.HasRoot := h.invariant_final (I := fun node => node.db.HasRoot)
    (fun _ _ _ hs hmove => hmove.hasRoot hs) hbase
  have hroot : node.db.rootOf H = (base.replay node.branch).rootOf H := hreplay.root.symm
  rw [hnode.run_loadStateRoot H, (hbase.replay node.branch).run_loadStateRoot H, hroot]

end Node

/-! ## The withdrawals -/

/-- The attempts that a move makes. -/
def attemptsOf (t : Step Node Move) : List Attempted :=
  match t.call with
  | .apply block => attempts t.pre.db block.operations
  | .undo => []

section Withdrawals

variable {H : Sha3} {base db : KyveraDb} {node node' : Node} {move : Move} {p : PendingUnstake}
  {run : List (Step Node Move)}

theorem metadata_restore (db : KyveraDb) (e : String × Option Account) :
    (db.restore e).metadata = db.metadata := by
  unfold KyveraDb.restore
  cases e.2 <;> rfl

theorem metadata_foldl_restore (entries : List (String × Option Account)) (db : KyveraDb) :
    (entries.foldl KyveraDb.restore db).metadata = db.metadata := by
  induction entries generalizing db with
  | nil => rfl
  | cons e rest ih => exact (ih _).trans (metadata_restore db e)

theorem holds_insert_root {root : String} :
    ({ db with metadata := db.metadata.insert STATE_ROOT_KEY (.text root) } : KyveraDb).Holds p ↔
      db.Holds p := by
  unfold KyveraDb.Holds
  dsimp only
  rw [TreeSum.getElem?_insert_of_ne _ _ (pendingUnstakeKey_ne_root p).symm]

theorem holds_rolledBack_iff (s : StateSnapshot) : (db.rolledBack s).Holds p ↔ db.Holds p :=
  holds_insert_root.trans (holds_congr (metadata_foldl_restore s.modifiedAccounts db))

theorem holds_commit_iff (root : Option String) : (db.commit root).Holds p ↔ db.Holds p := by
  cases root with
  | none => rfl
  | some root => exact holds_insert_root

theorem KyveraDb.Sound.commit (h : db.Sound) (root : Option String) : (db.commit root).Sound := by
  cases root with
  | none => exact h
  | some root => exact h.setMetadata (.inl rfl)

theorem KyveraDb.Sound.attemptOps (h : db.Sound) (ops : List Op) : (db.attemptOps ops).Sound := by
  rw [← final_attempts]
  exact sound_final h (isRun_attempts db ops)

/-- What a move makes of a withdrawal: an applied block files and closes, an undone one does not
take that back. -/
theorem Move.Makes.holds_iff (hsound : node.db.Sound) (hmove : move.Makes H node node') :
    node'.db.Sound ∧ (node'.db.Holds p ↔
      Since p.Filed p.Closed (attemptsOf ⟨node, move, node'⟩) ∨
        node.db.Holds p ∧ ¬ ∃ t ∈ attemptsOf ⟨node, move, node'⟩, p.Closed t) := by
  cases move with
  | apply block =>
      obtain ⟨s, -, rfl⟩ := hmove
      refine ⟨(hsound.attemptOps _).commit _, (holds_commit_iff _).trans ?_⟩
      rw [← final_attempts, holds_final_iff hsound (isRun_attempts _ _)]
      simp only [attemptsOf, not_exists, not_and]
  | undo =>
      obtain ⟨block, s, rest, -, -, rfl⟩ := hmove
      refine ⟨(keptByWrites_sound.rollbackToSnapshot s _).run hsound, ?_⟩
      rw [run_rollbackToSnapshot]
      refine (holds_rolledBack_iff s).trans ?_
      simp [attemptsOf, not_since_nil]

/-- Whatever was undone, the withdrawals that an address is told of are those of all blocks that
were ever applied: a request counts until it is replaced or released, whether or not its block is
still on the branch. -/
theorem pending_of_moves (hsound : base.Sound) (h : IsRun (Move.Makes H) ⟨base, []⟩ run)
    (x : String) :
    let db := (final ⟨base, []⟩ run).db
    let ever := run.flatMap attemptsOf
    ∃ records, (getPendingUnstakes x).run db = (.ok records, db) ∧
      records.Pairwise (fun p q => p.unlockEpoch < q.unlockEpoch) ∧
      ∀ p, p ∈ records ↔ p.address = x ∧
        (Since p.Filed p.Closed ever ∨ base.Holds p ∧ ∀ t ∈ ever, ¬ p.Closed t) := by
  intro db ever
  have hdb : db.Sound := h.invariant_final (I := fun node => node.db.Sound)
    (fun _ _ _ hs hmove => (hmove.holds_iff (p := ⟨x, 0, 0, 0⟩) hs).1) hsound
  obtain ⟨records, hrun, hordered, hmem⟩ := hdb.pending_listed x
  refine ⟨records, hrun, hordered, fun p => (hmem p).trans (and_congr_right fun _ => ?_)⟩
  have hstep : ∀ t : Step Node Move, t.pre.db.Sound → t.call.Makes H t.pre t.post →
      t.post.db.Sound ∧ (t.post.db.Holds p ↔ Since p.Filed p.Closed (attemptsOf t) ∨
        t.pre.db.Holds p ∧ ¬ ∃ t' ∈ attemptsOf t, p.Closed t') :=
    fun t hpre ht => ht.holds_iff hpre
  have hfinal := h.holds_final_iff (I := fun node => node.db.Sound)
    (P := fun node => node.db.Holds p) hstep hsound
  refine hfinal.trans (or_congr since_flatMap_iff (and_congr_right fun _ => ?_))
  simp only [ever, List.mem_flatMap, not_exists, not_and]
  exact ⟨fun h u ⟨t, ht, hu⟩ => h t ht u hu, fun h t ht u hu => h u ⟨t, ht, hu⟩⟩

end Withdrawals

/-! ## Computed moves -/

/-- The node after a move. -/
def Node.next (H : Sha3) (node : Node) : Move → Node
  | .apply block =>
      let s : StateSnapshot := ⟨block.height, node.db.rootOf H,
        block.affected.map fun x => (x, node.db.accounts[x]?)⟩
      ⟨block.after node.db, (block, s) :: node.applied⟩
  | .undo =>
      match node.applied with
      | [] => node
      | (_, s) :: rest => ⟨node.db.rolledBack s, rest⟩

/-- Only applied blocks are undone. -/
def Feasible (H : Sha3) : Node → List Move → Prop
  | _, [] => True
  | node, .apply block :: rest => Feasible H (node.next H (.apply block)) rest
  | node, .undo :: rest => node.applied ≠ [] ∧ Feasible H (node.next H .undo) rest

/-- On a sound database nothing stops a node from making feasible moves. -/
theorem isRun_moves {H : Sha3} {node : Node} {moves : List Move} (hsound : node.db.Sound)
    (h : Feasible H node moves) : IsRun (Move.Makes H) node (trace (Node.next H) node moves) := by
  induction moves generalizing node with
  | nil => trivial
  | cons move rest ih =>
      have hmakes : move.Makes H node (node.next H move) := by
        cases move with
        | apply block =>
            obtain ⟨r, hload⟩ := hsound.run_loadStateRoot
            obtain ⟨s, htaken⟩ : ∃ s, (takeSnapshot H block.height block.affected).run node.db =
                (.ok s, node.db) := ⟨_, run_takeSnapshot_eq_ok_iff.2 ⟨r, hload, rfl, rfl⟩⟩
            refine ⟨s, htaken, ?_⟩
            rw [rootOf_of_takeSnapshot htaken]
            rfl
        | undo =>
            obtain ⟨⟨block, s⟩, below, happlied⟩ := List.exists_cons_of_ne_nil h.1
            refine ⟨block, s, below, happlied, ?_, ?_⟩
            · rw [run_rollbackToSnapshot]
            · rw [run_rollbackToSnapshot, Node.next, happlied]
      have hnext : (node.next H move).db.Sound :=
        (hmakes.holds_iff (p := ⟨"", 0, 0, 0⟩) hsound).1
      have hrest : Feasible H (node.next H move) rest := by
        cases move with
        | apply block => exact h
        | undo => exact h.2
      exact ⟨rfl, hmakes, ih hnext hrest⟩

/-- Before the fork: 100 units at "kyv1a", of which 50 more are staked, and a saved root. -/
def beforeFork : KyveraDb :=
  let db := KyveraDb.withAccounts [{ Account.new "kyv1a" with balance := 100, stakedBalance := 50 }]
  { db with metadata := db.metadata.insert STATE_ROOT_KEY (.text "genesis") }

/-- The last block of both branches: a transfer, and a saved root. -/
def lastCommon : LedgerBlock where
  height := 1
  affected := ["kyv1a", "kyv1b", TREASURY_ADDRESS]
  operations := [.applyTransaction (Transaction.new 0 "kyv1a" "kyv1b" 40 10 0 .transfer [])]
  commit := some "common"

/-- The block of the branch that loses: a withdrawal is requested. -/
def requestBlock : LedgerBlock where
  height := 2
  affected := ["kyv1a"]
  operations := [.requestUnstake "kyv1a" 20 1]
  commit := some "ours"

/-- The block of the branch that wins: more is staked. -/
def lockBlock : LedgerBlock where
  height := 2
  affected := ["kyv1a"]
  operations := [.lockStake "kyv1a" 30]
  commit := none

/-- A node that changes from one branch to the other. -/
def forkRun : List (Step Node Move) :=
  trace (Node.next Sha3.zero) ⟨beforeFork, []⟩
    [.apply lastCommon, .apply requestBlock, .undo, .apply lockBlock]

theorem sound_beforeFork : beforeFork.Sound :=
  (sound_empty.withAccounts (t := beforeFork.accounts)
    (KyveraDb.wellFormed_withAccounts _)).setMetadata (.inl rfl)

theorem isRun_forkRun : IsRun (Move.Makes Sha3.zero) ⟨beforeFork, []⟩ forkRun :=
  isRun_moves sound_beforeFork ⟨List.cons_ne_nil _ _, trivial⟩

theorem covers_forkRun : ∀ t ∈ forkRun, t.call.Covers t.pre := by
  intro t ht
  simp only [forkRun, trace, List.mem_cons, List.not_mem_nil, or_false] at ht
  rcases ht with rfl | rfl | rfl | rfl
  · refine ⟨?_, trivial⟩
    simp [Op.touched, Transaction.touched, Transaction.new, lastCommon, Set.insert_subset_iff]
  · refine ⟨?_, trivial⟩
    simp [Op.touched, requestBlock]
  · trivial
  · refine ⟨?_, trivial⟩
    simp [Op.touched, lockBlock]

theorem releasesNone_forkRun : ∀ block ∈ [lastCommon, lockBlock], block.ReleasesNone := by
  intro block hblock op hop epoch hrelease
  simp only [List.mem_cons, List.not_mem_nil, or_false] at hblock
  rcases hblock with rfl | rfl <;> cases List.mem_singleton.1 hop <;> cases hrelease

/-- After the change the ledger is that of the branch that won. -/
theorem ledger_of_branch_fork :
    let node := final ⟨beforeFork, []⟩ forkRun
    node.branch = [lastCommon, lockBlock] ∧
      node.db.accounts = (beforeFork.replay [lastCommon, lockBlock]).accounts ∧
      (loadStateRoot.run node.db).1 =
        (loadStateRoot.run (beforeFork.replay [lastCommon, lockBlock])).1 := by
  intro node
  have hbranch : node.branch = [lastCommon, lockBlock] := rfl
  have hledger := ledger_of_branch sound_beforeFork.accounts isRun_forkRun covers_forkRun
    releasesNone_forkRun
  exact ⟨hbranch, hledger.1, hledger.2.2.2 ⟨"genesis", by decide +kernel⟩⟩

/-- After the change the stake of the request is back, and its withdrawal is pending all the same. -/
theorem pending_of_moves_fork :
    let db := (final ⟨beforeFork, []⟩ forkRun).db
    (db.account "kyv1a").stakedBalance = 80 ∧
      ((getPendingUnstakes "kyv1a").run db).1 = .ok [requested "kyv1a" 20 1] ∧
      ∃ records, (getPendingUnstakes "kyv1a").run db = (.ok records, db) ∧
        records.Pairwise (fun p q => p.unlockEpoch < q.unlockEpoch) ∧
        ∀ p, p ∈ records ↔ p.address = "kyv1a" ∧
          (Since p.Filed p.Closed (forkRun.flatMap attemptsOf) ∨
            beforeFork.Holds p ∧ ∀ t ∈ forkRun.flatMap attemptsOf, ¬ p.Closed t) := by
  intro db
  refine ⟨by decide +kernel, by decide +kernel, ?_⟩
  exact pending_of_moves sound_beforeFork isRun_forkRun "kyv1a"

end Kyvera
