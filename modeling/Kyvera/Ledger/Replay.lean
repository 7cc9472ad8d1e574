import Kyvera.Ledger.Evolution
import Kyvera.Ledger.Effects
import Kyvera.Library.Trace

/-!
# At-most-once execution

A transaction succeeds only with the nonce of its sender's account, and leaves a larger one behind.
As nothing ever lowers a nonce, the successful transactions of one sender come with increasing
nonces, whatever happens between them.
-/

namespace Kyvera

open Effect Effect.Prog Trace

/-- An operation on the accounts. -/
inductive Op where
  | applyTransaction (tx : Transaction)
  | creditAccount (address : String) (amount : UInt64)
  | debitAccount (address : String) (amount : UInt64)
  | incrementNonce (address : String)
  | lockStake (address : String) (amount : UInt64)
  | unlockStake (address : String) (amount : UInt64)
  | requestUnstake (address : String) (amount currentEpoch : UInt64)
  | processMaturedUnstakes (currentEpoch : UInt64)
  | slashValidator (address : String) (slashBps : UInt64)
  | applyCoinbase (coinbase : Transaction) (validatorFeeShare : UInt64)
  | applyEpochRewards (coinbase : Transaction) (totalFeesCollected : UInt64)

/-- The program of an operation, without its result. -/
def Op.program : Op → DbM Unit
  | .applyTransaction tx => Kyvera.applyTransaction tx
  | .creditAccount x v => Kyvera.creditAccount x v
  | .debitAccount x v => Kyvera.debitAccount x v
  | .incrementNonce x => Kyvera.incrementNonce x
  | .lockStake x v => Kyvera.lockStake x v
  | .unlockStake x v => Kyvera.unlockStake x v
  | .requestUnstake x v e => do let _ ← Kyvera.requestUnstake x v e
  | .processMaturedUnstakes e => do let _ ← Kyvera.processMaturedUnstakes e
  | .slashValidator x bps => do let _ ← Kyvera.slashValidator x bps
  | .applyCoinbase coinbase share => Kyvera.applyCoinbase coinbase share
  | .applyEpochRewards coinbase fees => Kyvera.applyEpochRewards coinbase fees

theorem Op.along (op : Op) (db : KyveraDb) : Along (Evolves Set.univ) op.program db := by
  cases op with
  | applyTransaction tx => exact along_applyTransaction (Set.subset_univ _)
  | creditAccount x v => exact along_creditAccount (Set.mem_univ _)
  | debitAccount x v => exact along_debitAccount (Set.mem_univ _)
  | incrementNonce x => exact along_incrementNonce (Set.mem_univ _)
  | lockStake x v => exact along_lockStake (Set.mem_univ _)
  | unlockStake x v => exact along_unlockStake (Set.mem_univ _)
  | requestUnstake x v e =>
      exact Along.bind (along_requestUnstake (Set.mem_univ _)) fun _ m _ => along_done () m
  | processMaturedUnstakes e =>
      exact Along.bind along_processMaturedUnstakes fun _ m _ => along_done () m
  | slashValidator x bps =>
      exact Along.bind (along_slashValidator (Set.mem_univ _) (Set.mem_univ _))
        fun _ m _ => along_done () m
  | applyCoinbase coinbase share => exact along_applyCoinbase (Set.mem_univ _)
  | applyEpochRewards coinbase fees => exact along_applyEpochRewards

/-- An attempted operation with its outcome; what a failed attempt wrote stays written. -/
def Attempt (db : KyveraDb) (call : Op × Outcome String Unit) (db' : KyveraDb) : Prop :=
  call.1.program.run db = (call.2, db')

/-- The run of a list of operations, each attempted in the state the one before it left. -/
def attempts : KyveraDb → List Op → List (Step KyveraDb (Op × Outcome String Unit))
  | _, [] => []
  | db, op :: rest =>
      let r := op.program.run db
      ⟨db, (op, r.1), r.2⟩ :: attempts r.2 rest

theorem isRun_attempts (db : KyveraDb) (ops : List Op) : IsRun Attempt db (attempts db ops) := by
  induction ops generalizing db with
  | nil => trivial
  | cons op rest ih => exact ⟨rfl, rfl, ih _⟩

theorem Attempt.evolves {db db' : KyveraDb} {call : Op × Outcome String Unit}
    (h : Attempt db call db') : Evolves Set.univ db db' := by
  have e := call.1.along db
  unfold Along at e
  rwa [h] at e

/-- The transaction of an attempt that succeeded. -/
def succeeded : Op × Outcome String Unit → Option Transaction
  | (.applyTransaction tx, .ok ()) => some tx
  | _ => none

/-- The transactions of a run that succeeded, in order. -/
def successes (run : List (Step KyveraDb (Op × Outcome String Unit))) : List Transaction :=
  run.filterMap fun t => succeeded t.call

theorem succeeded_eq_some_iff {call : Op × Outcome String Unit} {tx : Transaction} :
    succeeded call = some tx ↔ call = (.applyTransaction tx, .ok ()) := by
  constructor
  · intro h
    unfold succeeded at h
    split at h
    · cases h
      rfl
    · cases h
  · rintro rfl
    rfl

/-- A successful transaction carries its sender's nonce and leaves a larger one. -/
theorem nonce_of_success {db db' : KyveraDb} {tx : Transaction} {u : Unit} (hwf : db.WellFormed)
    (h : (applyTransaction tx).run db = (.ok u, db')) :
    (db.account tx.sender).nonce = tx.nonce ∧
      tx.nonce.toNat < (db'.account tx.sender).nonce.toNat := by
  obtain ⟨happ, rfl⟩ := run_applyTransaction_eq_ok_iff.1 h
  refine ⟨happ.charge.nonce, ?_⟩
  rw [hwf.nonce_applied, if_pos rfl, U64.toNat_add_of_lt happ.charge.room, happ.charge.nonce]
  exact Nat.lt_succ_self _

theorem Attempt.wellFormed (db : KyveraDb) (call : Op × Outcome String Unit) (db' : KyveraDb)
    (hwf : db.WellFormed) (h : Attempt db call db') : db'.WellFormed :=
  (h.evolves hwf).wellFormed

section Runs

variable {db : KyveraDb} {run : List (Step KyveraDb (Op × Outcome String Unit))}

theorem nonce_le_of_mem_successes (hwf : db.WellFormed) (h : IsRun Attempt db run) :
    ∀ tx ∈ successes run, (db.account tx.sender).nonce.toNat ≤ tx.nonce.toNat := by
  induction run generalizing db with
  | nil => exact fun tx htx => absurd htx List.not_mem_nil
  | cons t rest ih =>
      obtain ⟨rfl, ht, hrest⟩ := h
      have later : ∀ tx ∈ successes rest, (t.pre.account tx.sender).nonce.toNat ≤ tx.nonce.toNat :=
        fun tx htx => ((ht.evolves hwf).change tx.sender).nonce.trans
          (ih (Attempt.wellFormed _ _ _ hwf ht) hrest tx htx)
      unfold successes
      rw [List.filterMap_cons]
      split
      · exact later
      · next tx htx =>
        refine List.forall_mem_cons.2 ⟨?_, later⟩
        rw [Attempt, succeeded_eq_some_iff.1 htx] at ht
        rw [(nonce_of_success hwf ht).1]

theorem pairwise_successes (hwf : db.WellFormed) (h : IsRun Attempt db run) :
    (successes run).Pairwise fun tx tx' =>
      tx.sender = tx'.sender → tx.nonce.toNat < tx'.nonce.toNat := by
  induction run generalizing db with
  | nil => exact List.Pairwise.nil
  | cons t rest ih =>
      obtain ⟨rfl, ht, hrest⟩ := h
      have hpost := Attempt.wellFormed _ _ _ hwf ht
      unfold successes
      rw [List.filterMap_cons]
      split
      · exact ih hpost hrest
      · next tx htx =>
        refine List.pairwise_cons.2 ⟨fun tx' htx' hsender => ?_, ih hpost hrest⟩
        rw [Attempt, succeeded_eq_some_iff.1 htx] at ht
        -- The later transaction starts from the nonce that this one left behind.
        have hle := nonce_le_of_mem_successes hpost hrest tx' htx'
        rw [← hsender] at hle
        exact (nonce_of_success hwf ht).2.trans_le hle

/-- No attempt lowers a stored nonce or removes an account. -/
theorem stored_nonce_le (hwf : db.WellFormed) (h : IsRun Attempt db run) :
    ∀ t ∈ run, ∀ (x : String) (a : Account), t.pre.accounts[x]? = some a →
      ∃ a', t.post.accounts[x]? = some a' ∧ a.nonce.toNat ≤ a'.nonce.toNat := by
  intro t ht x a ha
  have e := (h.step_of_mem ht).evolves ((h.invariant Attempt.wellFormed hwf t ht).1)
  obtain ⟨a', ha'⟩ := Option.isSome_iff_exists.1 (e.stored x (by rw [ha]; rfl))
  have hle := (e.change x).nonce
  rw [AccountTree.account_of_getElem? ha, AccountTree.account_of_getElem? ha'] at hle
  exact ⟨a', ha', hle⟩

/-- At-most-once execution: over any run of attempts on a well-formed store, the successful
transactions of each sender have strictly increasing nonces, so that no pair of a sender and a
nonce succeeds twice, and no attempt lowers a stored nonce. -/
theorem at_most_once (hwf : db.WellFormed) (h : IsRun Attempt db run) :
    (successes run).Pairwise (fun tx tx' => tx.sender = tx'.sender → tx.nonce < tx'.nonce) ∧
    ((successes run).map fun tx => (tx.sender, tx.nonce)).Nodup ∧
    ∀ t ∈ run, ∀ (x : String) (a : Account), t.pre.accounts[x]? = some a →
      ∃ a', t.post.accounts[x]? = some a' ∧ a.nonce ≤ a'.nonce := by
  refine ⟨?_, ?_, ?_⟩
  · exact (pairwise_successes hwf h).imp fun hlt e => UInt64.lt_iff_toNat_lt.2 (hlt e)
  · refine List.pairwise_map.2 ((pairwise_successes hwf h).imp fun hlt e => ?_)
    obtain ⟨hsender, hnonce⟩ := Prod.mk.inj e
    exact absurd (hlt hsender) (hnonce ▸ Nat.lt_irrefl _)
  · intro t ht x a ha
    obtain ⟨a', ha', hle⟩ := stored_nonce_le hwf h t ht x a ha
    exact ⟨a', ha', UInt64.le_iff_toNat_le.2 hle⟩

end Runs

/-- A transfer attempted twice succeeds once. -/
theorem at_most_once_transfer :
    let tx : Transaction :=
      { Transaction.new 0 "kyv1a" "kyv1b" 40 10 0 .transfer [] with signature := "sig" }
    let db := KyveraDb.withAccounts [{ Account.new "kyv1a" with balance := 100 }]
    let run := attempts db [.applyTransaction tx, .creditAccount "kyv1a" 5, .applyTransaction tx]
    successes run = [tx] ∧ ((successes run).map fun tx => (tx.sender, tx.nonce)).Nodup :=
  ⟨by decide, (at_most_once (KyveraDb.wellFormed_withAccounts _) (isRun_attempts _ _)).2.1⟩

end Kyvera
