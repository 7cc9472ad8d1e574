import Kyvera.Ledger.Distribution
import Kyvera.Ledger.Replay

/-!
# Replayed coinbases

A coinbase has the epoch height as its nonce, but no account records which coinbases were applied.
So a coinbase is credited again whenever there is room for it.  What an application of a coinbase
does to the accounts is decided by the first of its payments that is not zero: if it does not fit,
nothing is written, and if it fits, a balance has grown, whatever comes after.
-/

namespace Kyvera

open Effect Effect.Prog Trace

/-! ## Balances that grow -/

/-- No balance goes back. -/
def Grows (db db' : KyveraDb) : Prop :=
  db.WellFormed → db'.WellFormed ∧
    ∀ x, (db.account x).balance.toNat ≤ (db'.account x).balance.toNat

instance : Std.Refl Grows where
  refl _ h := ⟨h, fun _ => le_rfl⟩

instance : IsTrans KyveraDb Grows where
  trans _ _ _ h h' hwf :=
    ⟨(h' (h hwf).1).1, fun x => ((h hwf).2 x).trans ((h' (h hwf).1).2 x)⟩

section Grows

variable {db : KyveraDb} {x : String} {v : UInt64}

theorem grows_save_credit (h : (db.account x).Room v) :
    Grows db (db.save ((db.account x).credit v)) := by
  intro hwf
  refine ⟨hwf.save _, fun y => ?_⟩
  rw [hwf.account_save (Account.address_credit _ v)]
  split_ifs with hy
  · rw [h.toNat_balance_credit, hy]
    exact Nat.le_add_right _ _
  · exact le_rfl

theorem along_grows_creditAccount (db : KyveraDb) : Along Grows (creditAccount x v) db := by
  unfold Along
  by_cases h : (db.account x).Room v
  · rw [run_creditAccount_of_room h]
    exact grows_save_credit h
  · rw [run_creditAccount_of_not_room h]
    exact refl_of Grows db

theorem along_grows_creditNonzero (db : KyveraDb) : Along Grows (creditNonzero x v) db := by
  unfold creditNonzero
  split_ifs
  · exact along_grows_creditAccount db
  · exact along_done () db

theorem along_grows_distributeLoop {totalShare : UInt64} {totalWeight : ℕ}
    (weights : List (String × UInt64)) (distributed : UInt64) (db : KyveraDb) :
    Along Grows (distributeLoop totalShare totalWeight distributed weights) db := by
  induction weights generalizing distributed db with
  | nil => exact along_done _ db
  | cons e rest ih =>
      unfold distributeLoop
      dsimp only
      split_ifs
      · exact Along.bind (along_grows_creditAccount db) fun _ m _ => ih _ m
      · exact ih _ db

end Grows

/-! ## First payments -/

/-- The first payment of a list that is not zero. -/
def firstPayment (payments : List (String × UInt64)) : Option (String × UInt64) :=
  payments.find? fun e => 0 < e.2

/-- The program fails, and leaves the accounts as they are. -/
def Refused {α : Type} (p : DbM α) (db : KyveraDb) : Prop :=
  (∃ e, (p.run db).1 = .err e) ∧ (p.run db).2.accounts = db.accounts

/-- The program changes the accounts, wherever it stops. -/
def Credited {α : Type} (p : DbM α) (db : KyveraDb) : Prop :=
  (p.run db).2.accounts ≠ db.accounts

/-- The program does to the accounts what its first payment allows. -/
structure FirstPays {α : Type} (p : DbM α) (db : KyveraDb) (payments : List (String × UInt64)) :
    Prop where
  refused : Refused p db ↔ ∃ e ∈ firstPayment payments, ¬ (db.account e.1).Room e.2
  credited : Credited p db ↔ ∃ e ∈ firstPayment payments, (db.account e.1).Room e.2

section Payments

variable {α : Type} {db : KyveraDb} {x : String} {v : UInt64} {g : Unit → DbM α} {p q : DbM α}
  {payments rest : List (String × UInt64)}

theorem exists_firstPayment_iff (hv : 0 < v) (C : String × UInt64 → Prop) :
    (∃ e ∈ firstPayment ((x, v) :: rest), C e) ↔ C (x, v) := by
  have hfirst : firstPayment ((x, v) :: rest) = some (x, v) :=
    List.find?_cons_of_pos (decide_eq_true hv)
  simp [hfirst]

theorem FirstPays.of_run_eq (h : FirstPays q db payments) (hrun : p.run db = q.run db) :
    FirstPays p db payments := by
  refine ⟨?_, ?_⟩
  · rw [Refused, hrun]
    exact h.refused
  · rw [Credited, hrun]
    exact h.credited

theorem firstPays_nil (herr : ∀ e, (p.run db).1 ≠ .err e) (hsame : (p.run db).2 = db) :
    FirstPays p db [] := by
  refine ⟨iff_of_false ?_ ?_, iff_of_false ?_ ?_⟩
  · rintro ⟨⟨e, he⟩, -⟩
    exact herr e he
  · rintro ⟨e, he, -⟩
    cases he
  · exact fun hchanged => hchanged (congrArg KyveraDb.accounts hsame)
  · rintro ⟨e, he, -⟩
    cases he

/-- Behind a credit that fits, a balance stays larger than before. -/
theorem credited_creditAccount_bind (hwf : db.WellFormed) (hv : 0 < v)
    (h : (db.account x).Room v) (hg : ∀ m, Along Grows (g ()) m) :
    Credited (creditAccount x v >>= g) db := by
  intro hsame
  rw [run_bind_of_ok (run_creditAccount_of_room h)] at hsame
  have hbefore : ((g ()).run (db.save ((db.account x).credit v))).2.account x = db.account x := by
    unfold KyveraDb.account at hsame ⊢
    rw [hsame]
  have hgrown := (hg _ (hwf.save ((db.account x).credit v))).2 x
  rw [hwf.account_save (Account.address_credit _ v), if_pos rfl, h.toNat_balance_credit,
    hbefore] at hgrown
  rw [UInt64.lt_iff_toNat_lt, UInt64.toNat_zero] at hv
  omega

theorem firstPays_creditAccount_bind (hwf : db.WellFormed) (hv : 0 < v)
    (hg : ∀ m, Along Grows (g ()) m) :
    FirstPays (creditAccount x v >>= g) db ((x, v) :: rest) := by
  by_cases h : (db.account x).Room v
  · have hcredited := credited_creditAccount_bind hwf hv h hg
    refine ⟨?_, ?_⟩
    · rw [exists_firstPayment_iff hv]
      exact iff_of_false (fun hrefused => hcredited hrefused.2) (not_not.2 h)
    · rw [exists_firstPayment_iff hv]
      exact iff_of_true hcredited h
  · have hrun : (creditAccount x v >>= g).run db =
        (.err "Balance overflow — this should never happen", db) := by
      rw [run_bind, run_creditAccount_of_not_room h]
    refine ⟨?_, ?_⟩
    · rw [exists_firstPayment_iff hv, Refused, hrun]
      exact iff_of_true ⟨⟨_, rfl⟩, rfl⟩ h
    · rw [exists_firstPayment_iff hv, Credited, hrun]
      exact iff_of_false (fun hchanged => hchanged rfl) h

theorem firstPays_creditNonzero_bind (hwf : db.WellFormed) (hg : ∀ m, Along Grows (g ()) m)
    (h : FirstPays (g ()) db rest) : FirstPays (creditNonzero x v >>= g) db ((x, v) :: rest) := by
  unfold creditNonzero
  by_cases hv : v = 0
  · rw [hv, if_neg (by decide)]
    exact ⟨h.refused, h.credited⟩
  · have hpos := UInt64.pos_iff_ne_zero.2 hv
    rw [if_pos hpos]
    exact firstPays_creditAccount_bind hwf hpos hg

theorem firstPays_creditNonzero (hwf : db.WellFormed) :
    FirstPays (creditNonzero x v) db [(x, v)] := by
  rw [← bind_pure (creditNonzero x v)]
  exact firstPays_creditNonzero_bind hwf (fun m => along_done () m)
    (firstPays_nil (fun _ he => nomatch he) rfl)

/-- A distribution in front of another program: its parts are paid first. -/
theorem firstPays_distributeLoop_bind {totalShare distributed : UInt64} {totalWeight : ℕ}
    {k : UInt64 → DbM α} (hwf : db.WellFormed) (hk : ∀ d m, Along Grows (k d) m)
    (h : FirstPays (k distributed) db rest) (weights : List (String × UInt64)) :
    FirstPays (distributeLoop totalShare totalWeight distributed weights >>= k) db
      (weights.map (fun e => (e.1, validatorShare totalShare e.2 totalWeight)) ++ rest) := by
  induction weights with
  | nil => exact h
  | cons e weights ih =>
      obtain ⟨y, w⟩ := e
      unfold distributeLoop
      dsimp only
      rw [List.map_cons, List.cons_append]
      by_cases hpos : validatorShare totalShare w totalWeight > 0
      · rw [if_pos hpos, LawfulMonad.bind_assoc]
        refine firstPays_creditAccount_bind hwf hpos fun m => ?_
        exact Along.bind (along_grows_distributeLoop _ _ m) fun d m' _ => hk d m'
      · have hzero := UInt64.pos_iff_ne_zero.not_left.1 hpos
        rw [if_neg hpos, hzero]
        exact ⟨ih.refused, ih.credited⟩

end Payments

/-! ## Applications of a coinbase -/

/-- The coinbase that an operation applies. -/
def Op.coinbase? : Op → Option Transaction
  | .applyCoinbase coinbase _ => some coinbase
  | .applyEpochRewards coinbase _ => some coinbase
  | _ => none

/-- The rewards of an epoch block behind its coinbase. -/
def validatorRewards (fees : UInt64) : DbM Unit := do
  let share ← orPanic (calculateValidatorFeeShare fees)
  let distributed ← distributeValidatorRewards share
  creditNonzero TREASURY_ADDRESS (U64.saturatingSub share distributed)

/-- What the rewards behind the coinbase set out to pay, zeros included. -/
def KyveraDb.validatorPayments (db : KyveraDb) (fees : UInt64) : List (String × UInt64) :=
  (calculateValidatorFeeShare fees).elim [] fun share =>
    (db.validators.map Account.weighed).map
        (fun e => (e.1, validatorShare share e.2 db.totalWeight)) ++
      [(TREASURY_ADDRESS, share)]

/-- What an operation that applies a coinbase sets out to pay, zeros included. -/
def Op.payments (db : KyveraDb) : Op → List (String × UInt64)
  | .applyCoinbase coinbase share =>
      [(coinbase.receiver, coinbase.amount), (coinbase.receiver, share)]
  | .applyEpochRewards coinbase fees =>
      (coinbase.receiver, coinbase.amount) :: db.validatorPayments fees
  | _ => []

section Applications

variable {db : KyveraDb} {coinbase : Transaction}

theorem firstPays_applyCoinbase (hwf : db.WellFormed) (hsender : coinbase.sender = COINBASE_SENDER)
    (share : UInt64) :
    FirstPays (applyCoinbase coinbase share) db
      (Op.payments db (.applyCoinbase coinbase share)) := by
  rw [applyCoinbase, if_neg (not_not.2 hsender)]
  exact firstPays_creditNonzero_bind hwf (fun m => along_grows_creditNonzero m)
    (firstPays_creditNonzero hwf)

theorem firstPays_validatorRewards (hwf : db.WellFormed) (fees : UInt64) :
    FirstPays (validatorRewards fees) db (db.validatorPayments fees) := by
  unfold validatorRewards KyveraDb.validatorPayments
  cases calculateValidatorFeeShare fees with
  | none => exact firstPays_nil (fun _ he => nomatch he) rfl
  | some share =>
      have htreasury : FirstPays (creditNonzero TREASURY_ADDRESS (U64.saturatingSub share 0)) db
          [(TREASURY_ADDRESS, share)] := by
        rw [U64.saturatingSub_zero]
        exact firstPays_creditNonzero hwf
      refine FirstPays.of_run_eq (firstPays_distributeLoop_bind hwf
        (fun d m => along_grows_creditNonzero m) htreasury (db.validators.map Account.weighed)) ?_
      show (distributeValidatorRewards share >>= _).run db = _
      rw [run_bind, run_bind, run_distributeValidatorRewards]

theorem along_grows_validatorRewards (fees : UInt64) (db : KyveraDb) :
    Along Grows (validatorRewards fees) db := by
  apply along_orPanic_bind
  intro share _
  apply Along.bind
  · unfold Along
    rw [run_distributeValidatorRewards]
    exact along_grows_distributeLoop _ _ db
  · exact fun _ m _ => along_grows_creditNonzero m

theorem firstPays_applyEpochRewards (hwf : db.WellFormed)
    (hsender : coinbase.sender = COINBASE_SENDER) (fees : UInt64) :
    FirstPays (applyEpochRewards coinbase fees) db
      (Op.payments db (.applyEpochRewards coinbase fees)) := by
  have hshare : creditNonzero coinbase.receiver 0 = pure () := rfl
  rw [applyEpochRewards, applyCoinbase, if_neg (not_not.2 hsender), hshare, bind_pure]
  exact firstPays_creditNonzero_bind hwf (fun m => along_grows_validatorRewards fees m)
    (firstPays_validatorRewards hwf fees)

/-- A coinbase that is not refused for its sender pays first what `Op.payments` lists. -/
theorem Op.firstPays {op : Op} (hwf : db.WellFormed) (hop : op.coinbase? = some coinbase)
    (hsender : coinbase.sender = COINBASE_SENDER) :
    FirstPays op.program db (op.payments db) := by
  cases op <;> cases hop
  · exact firstPays_applyCoinbase hwf hsender _
  · exact firstPays_applyEpochRewards hwf hsender _

theorem Op.run_of_sender_ne {op : Op} (hop : op.coinbase? = some coinbase)
    (hsender : coinbase.sender ≠ COINBASE_SENDER) :
    op.program.run db = (.err "Not a coinbase transaction", db) := by
  have hrun : ∀ share, (Kyvera.applyCoinbase coinbase share).run db =
      (.err "Not a coinbase transaction", db) := by
    intro share
    rw [Kyvera.applyCoinbase, if_pos hsender]
    rfl
  cases op <;> cases hop
  · exact hrun _
  · rw [Op.program, Kyvera.applyEpochRewards, run_bind, hrun]

/-- The coinbase of an operation is one that the database takes. -/
def Op.Payable (db : KyveraDb) (op : Op) : Prop :=
  ∃ coinbase ∈ op.coinbase?, coinbase.sender = COINBASE_SENDER ∧
    ∃ e ∈ firstPayment (op.payments db), (db.account e.1).Room e.2

/-- The coinbase of an operation is one that the database does not take. -/
def Op.Unpayable (db : KyveraDb) (op : Op) : Prop :=
  ∃ coinbase ∈ op.coinbase?, coinbase.sender = COINBASE_SENDER →
    ∃ e ∈ firstPayment (op.payments db), ¬ (db.account e.1).Room e.2

theorem Op.credited_iff {op : Op} (hwf : db.WellFormed) (hop : op.coinbase? = some coinbase) :
    Credited op.program db ↔ op.Payable db := by
  unfold Op.Payable
  rw [hop]
  simp only [Option.mem_some, exists_eq_left']
  by_cases hsender : coinbase.sender = COINBASE_SENDER
  · rw [and_iff_right hsender]
    exact (Op.firstPays hwf hop hsender).credited
  · rw [Credited, Op.run_of_sender_ne hop hsender]
    exact iff_of_false (fun hchanged => hchanged rfl) fun h => hsender h.1

theorem Op.refused_iff {op : Op} (hwf : db.WellFormed) (hop : op.coinbase? = some coinbase) :
    Refused op.program db ↔ op.Unpayable db := by
  unfold Op.Unpayable
  rw [hop]
  simp only [Option.mem_some, exists_eq_left']
  by_cases hsender : coinbase.sender = COINBASE_SENDER
  · rw [forall_prop_of_true hsender]
    exact (Op.firstPays hwf hop hsender).refused
  · rw [Refused, Op.run_of_sender_ne hop hsender]
    exact iff_of_true ⟨⟨_, rfl⟩, rfl⟩ fun h => absurd h hsender

end Applications

/-! ## Runs -/

/-- An attempt that was refused: an error, and no account changed. -/
def StepRefused (t : Step KyveraDb (Op × Outcome String Unit)) : Prop :=
  (∃ e, t.call.2 = .err e) ∧ t.post.accounts = t.pre.accounts

/-- An attempt that changed the accounts. -/
def StepCredited (t : Step KyveraDb (Op × Outcome String Unit)) : Prop :=
  t.post.accounts ≠ t.pre.accounts

/-- Both attempts apply a coinbase, and for the same epoch height. -/
def SameHeight (t u : Step KyveraDb (Op × Outcome String Unit)) : Prop :=
  ∃ coinbase ∈ t.call.1.coinbase?, ∃ coinbase' ∈ u.call.1.coinbase?,
    coinbase.nonce = coinbase'.nonce

instance (t u : Step KyveraDb (Op × Outcome String Unit)) : Decidable (SameHeight t u) :=
  inferInstanceAs (Decidable (∃ coinbase ∈ t.call.1.coinbase?,
    ∃ coinbase' ∈ u.call.1.coinbase?, coinbase.nonce = coinbase'.nonce))

/-- Of the coinbases of one epoch height at most one is credited, and each later one is refused. -/
def CreditedOnce (run : List (Step KyveraDb (Op × Outcome String Unit))) : Prop :=
  run.Pairwise fun t u => SameHeight t u → StepCredited t → ¬ StepCredited u ∧ StepRefused u

section Runs

variable {db : KyveraDb} {run : List (Step KyveraDb (Op × Outcome String Unit))}

theorem Attempt.refused_iff {t : Step KyveraDb (Op × Outcome String Unit)}
    (h : Attempt t.pre t.call t.post) : StepRefused t ↔ Refused t.call.1.program t.pre := by
  rw [Refused, h]
  rfl

theorem Attempt.credited_iff {t : Step KyveraDb (Op × Outcome String Unit)}
    (h : Attempt t.pre t.call t.post) : StepCredited t ↔ Credited t.call.1.program t.pre := by
  rw [Credited, h]
  rfl

/-- The exact condition for coinbases that cannot be replayed: where a coinbase was payable when it
was applied, no later one of its height is, and each has a first payment that does not fit. -/
theorem creditedOnce_iff (hwf : db.WellFormed) (h : IsRun Attempt db run) :
    CreditedOnce run ↔
      run.Pairwise fun t u => SameHeight t u → t.call.1.Payable t.pre →
        u.call.1.Unpayable u.pre := by
  unfold CreditedOnce
  refine List.Pairwise.iff_of_mem fun {t u} ht hu => ?_
  refine forall_congr' fun hsame => ?_
  obtain ⟨coinbase, hcoinbase, coinbase', hcoinbase', -⟩ := hsame
  have hpre := fun t ht => (h.invariant Attempt.wellFormed hwf t ht).1
  have hrefused := (h.step_of_mem hu).refused_iff.trans (Op.refused_iff (hpre u hu) hcoinbase')
  have hcredited := (h.step_of_mem ht).credited_iff.trans (Op.credited_iff (hpre t ht) hcoinbase)
  rw [← hrefused, ← hcredited]
  exact forall_congr' fun _ => and_iff_right_of_imp fun hu hchanged => hchanged hu.2

end Runs

/-- Coinbases of two heights, with a transfer of the first reward between them. -/
theorem creditedOnce_two_heights :
    let coinbase := Transaction.new 0 COINBASE_SENDER "kyv1m" 50000000000 0 7 .transfer []
    let run := attempts KyveraDb.empty
      [.applyCoinbase coinbase 0,
        .applyTransaction (Transaction.new 0 "kyv1m" "kyv1b" 40 10 0 .transfer []),
        .applyEpochRewards { coinbase with nonce := 8 } 100]
    (∀ t ∈ run, t.call.2 = .ok ()) ∧ CreditedOnce run := by
  intro coinbase run
  refine ⟨by decide, ?_⟩
  refine (creditedOnce_iff (KyveraDb.wellFormed_withAccounts []) (isRun_attempts _ _)).2 ?_
  have hdistinct : run.Pairwise fun t u => ¬ SameHeight t u := by decide
  exact hdistinct.imp fun hne hsame => absurd hsame hne

/-- A coinbase of 50 KYV applied twice is credited twice. -/
theorem not_creditedOnce_replayed :
    let coinbase := Transaction.new 0 COINBASE_SENDER "kyv1m" 50000000000 0 7 .transfer []
    let run := attempts KyveraDb.empty
      [.applyCoinbase coinbase 0, .applyEpochRewards coinbase 0]
    IsRun Attempt KyveraDb.empty run ∧
    (∀ t ∈ run, t.call.2 = .ok ()) ∧
    ((final KyveraDb.empty run).account "kyv1m").balance = 100000000000 ∧
    ¬ CreditedOnce run := by
  intro coinbase run
  have hok : ∀ t ∈ run, t.call.2 = .ok () := by decide
  refine ⟨isRun_attempts _ _, hok, by decide, ?_⟩
  intro honce
  obtain ⟨hfirst, -⟩ := List.pairwise_cons.1 honce
  have hsame := hfirst _ List.mem_cons_self ⟨coinbase, rfl, coinbase, rfl, rfl⟩
  obtain ⟨-, ⟨e, he⟩, -⟩ := hsame fun h => by
    have hbalance := congrArg (fun m => (m.account "kyv1m").balance) h
    revert hbalance
    decide
  rw [hok _ (List.mem_cons_of_mem _ List.mem_cons_self)] at he
  cases he

end Kyvera
