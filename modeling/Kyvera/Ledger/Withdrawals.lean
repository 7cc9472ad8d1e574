import Kyvera.Ledger.Integrity
import Kyvera.Ledger.Maturity
import Kyvera.Library.Since

/-!
# The list of pending withdrawals

What an address is told to be waiting for is determined by the calls alone: a withdrawal is listed
when its request succeeded, no later request of the address in the same epoch replaced it, and no
release has succeeded since at or beyond its unlock epoch.  Calls that fail, at whatever point, and
all other operations neither add to the list nor take anything from it.
-/

namespace Kyvera

open Effect Effect.Prog Std Trace

/-- An attempt with the databases before and after it. -/
abbrev Attempted := Step KyveraDb (Op × Outcome String Unit)

/-- The attempt is the successful request that creates a record. -/
def PendingUnstake.Filed (p : PendingUnstake) (t : Attempted) : Prop :=
  p = requested p.address p.amount p.requestEpoch ∧
    t.call = (.requestUnstake p.address p.amount p.requestEpoch, .ok ())

/-- The attempt is a successful request that takes the place of a record, or a successful release
at or beyond its unlock epoch. -/
def PendingUnstake.Closed (p : PendingUnstake) (t : Attempted) : Prop :=
  (∃ v, t.call = (.requestUnstake p.address v p.requestEpoch, .ok ())) ∨
    ∃ epoch, p.unlockEpoch ≤ epoch ∧ t.call = (.processMaturedUnstakes epoch, .ok ())

/-- The record is stored under its key. -/
def KyveraDb.Holds (p : PendingUnstake) (db : KyveraDb) : Prop :=
  db.metadata[pendingUnstakeKey p]? = some (.pendingUnstake p)

/-! ## One attempt -/

section Step

variable {db db' : KyveraDb} {p : PendingUnstake} {x : String} {v epoch : UInt64}

/-- A request succeeds with its record, or it writes no record. -/
theorem run_request_cases {o : Outcome String Unit}
    (h : (Op.requestUnstake x v epoch).program.run db = (o, db')) :
    (o = .ok () ∧ (requestUnstake x v epoch).run db = (.ok (requested x v epoch), db')) ∨
      (o ≠ .ok () ∧ db'.metadata = db.metadata) := by
  rw [Op.program, run_bind] at h
  rcases hrun : (requestUnstake x v epoch).run db with ⟨q | e | _, m⟩ <;> rw [hrun] at h <;> cases h
  · obtain ⟨-, -, -, rfl, -⟩ := run_requestUnstake_eq_ok_iff.1 hrun
    exact .inl ⟨rfl, rfl⟩
  all_goals
    refine .inr ⟨by simp, ?_⟩
    rw [requestUnstake, run_getAccount_bind] at hrun
    rcases hx : db.accounts[x]? with _ | a <;> rw [hx] at hrun
    · cases hrun <;> rfl
    · rw [okOr_some, done_bind] at hrun
      split_ifs at hrun
      · cases hrun <;> rfl
      · rw [run_saveAccount_bind] at hrun
        rcases hunlock : U64.checkedAdd epoch UNBONDING_PERIOD_EPOCHS with _ | unlock <;>
          rw [hunlock] at hrun <;> cases hrun <;> rfl

/-- A release succeeds and removes what has matured, or it removes no record. -/
theorem run_release_cases {o : Outcome String Unit} (hwf : db.WellFormed)
    (h : (Op.processMaturedUnstakes epoch).program.run db = (o, db')) :
    (o = .ok () ∧ db' = db.afterMaturity epoch) ∨ (o ≠ .ok () ∧ db'.metadata = db.metadata) := by
  rw [Op.program, run_bind] at h
  rcases run_processMaturedUnstakes_cases hwf epoch with ⟨-, -, hok⟩ | ⟨front, e, back, m, -, -, herr⟩
  · rw [hok] at h
    cases h
    exact .inl ⟨rfl, rfl⟩
  · rw [herr] at h
    cases h
    exact .inr ⟨nofun, metadata_payAll _ _⟩

/-- A successful request stores its record, and takes the place of one with its key. -/
theorem holds_of_requested (h : db.Sound) (hrun : (requestUnstake x v epoch).run db =
      (.ok (requested x v epoch), db')) :
    db'.Holds p ↔ p = requested x v epoch ∨
      db.Holds p ∧ ¬ (p.address = x ∧ p.requestEpoch = epoch) := by
  obtain ⟨-, -, -, -, rfl⟩ := run_requestUnstake_eq_ok_iff.1 hrun
  refine TreeIndex.getElem?_insert_eq_some_iff.trans ?_
  rw [MetaEntry.pendingUnstake.injEq]
  constructor
  · rintro (⟨-, rfl⟩ | ⟨hkey, hold⟩)
    · exact .inl rfl
    · refine .inr ⟨hold, fun ⟨haddress, hepoch⟩ => hkey (pendingUnstakeKey_eq_iff.2 ?_)⟩
      have hunlock := (h.metadata _ _ hold).2
      rw [hepoch] at hunlock
      exact ⟨haddress, hepoch, hunlock⟩
  · rintro (rfl | ⟨hold, hother⟩)
    · exact .inl ⟨rfl, rfl⟩
    · refine .inr ⟨fun hkey => hother ?_, hold⟩
      obtain ⟨haddress, hepoch, -⟩ := pendingUnstakeKey_eq_iff.1 hkey
      exact ⟨haddress, hepoch⟩

theorem isPrefixOf_pendingUnstakeKey (p : PendingUnstake) :
    PENDING_UNSTAKE_PREFIX.toList.isPrefixOf (pendingUnstakeKey p).toList = true := by
  simp only [pendingUnstakeKey, String.toList_append, List.append_assoc]
  exact List.isPrefixOf_iff_prefix.2 (List.prefix_append _ _)

theorem KyveraDb.Holds.mem_withdrawals (h : db.Holds p) :
    (pendingUnstakeKey p, MetaEntry.pendingUnstake p) ∈ db.withdrawals :=
  mem_withdrawals_iff.2 ⟨h, isPrefixOf_pendingUnstakeKey p⟩

theorem holds_afterMaturity_iff :
    (db.afterMaturity epoch).Holds p ↔ db.Holds p ∧ ¬ p.unlockEpoch ≤ epoch := by
  have herased : (db.afterMaturity epoch).Holds p ↔
      pendingUnstakeKey p ∉ (matured epoch db.withdrawals).map Prod.fst ∧ db.Holds p :=
    TreeSum.getElem?_foldl_erase_eq_some_iff
  refine herased.trans (and_comm.trans (and_congr_right fun hold => not_congr ?_))
  exact mem_matured_keys_iff (KyveraDb.Holds.mem_withdrawals hold)

theorem holds_congr (h : db'.metadata = db.metadata) : db'.Holds p ↔ db.Holds p := by
  unfold KyveraDb.Holds
  rw [h]

theorem Op.keepsMetadata {op : Op} (hrequest : ∀ x v epoch, op ≠ .requestUnstake x v epoch)
    (hrelease : ∀ epoch, op ≠ .processMaturedUnstakes epoch) :
    op.program.WritesOnly KeepsMetadata := by
  have hsaves := savesAccounts_keepsMetadata
  cases op with
  | applyTransaction tx => exact hsaves.applyTransaction tx
  | creditAccount x v => exact hsaves.creditAccount x v
  | debitAccount x v => exact hsaves.debitAccount x v
  | incrementNonce x => exact hsaves.incrementNonce x
  | lockStake x v => exact hsaves.lockStake x v
  | unlockStake x v => exact hsaves.unlockStake x v
  | requestUnstake x v epoch => exact absurd rfl (hrequest x v epoch)
  | processMaturedUnstakes epoch => exact absurd rfl (hrelease epoch)
  | slashValidator x bps => exact (hsaves.slashValidator x bps).bind fun _ => trivial
  | applyCoinbase coinbase share => exact hsaves.applyCoinbase coinbase share
  | applyEpochRewards coinbase fees => exact hsaves.applyEpochRewards coinbase fees

/-- What an attempt makes of a record: it files it, it closes it, or it leaves it as it is. -/
theorem holds_of_attempt {op : Op} {o : Outcome String Unit} (h : db.Sound)
    (hrun : op.program.run db = (o, db')) :
    db'.Holds p ↔ p.Filed ⟨db, (op, o), db'⟩ ∨ db.Holds p ∧ ¬ p.Closed ⟨db, (op, o), db'⟩ := by
  simp only [PendingUnstake.Filed, PendingUnstake.Closed, Prod.mk.injEq]
  by_cases hrequest : ∃ x v epoch, op = .requestUnstake x v epoch
  · obtain ⟨x, v, epoch, rfl⟩ := hrequest
    rcases run_request_cases hrun with ⟨rfl, hok⟩ | ⟨hfailed, hmeta⟩
    · rw [holds_of_requested h hok]
      simp only [Op.requestUnstake.injEq, reduceCtorEq, and_true, and_false, exists_false, or_false]
      apply or_congr
      · constructor
        · rintro rfl
          exact ⟨rfl, rfl, rfl, rfl⟩
        · rintro ⟨hp, rfl, rfl, rfl⟩
          exact hp
      · refine and_congr_right fun _ => not_congr ?_
        constructor
        · rintro ⟨rfl, rfl⟩
          exact ⟨v, rfl, rfl, rfl⟩
        · rintro ⟨_, rfl, -, rfl⟩
          exact ⟨rfl, rfl⟩
    · rw [holds_congr hmeta]
      simp [hfailed]
  · by_cases hrelease : ∃ epoch, op = .processMaturedUnstakes epoch
    · obtain ⟨epoch, rfl⟩ := hrelease
      rcases run_release_cases h.accounts hrun with ⟨rfl, rfl⟩ | ⟨hfailed, hmeta⟩
      · rw [holds_afterMaturity_iff]
        simp
      · rw [holds_congr hmeta]
        simp [hfailed]
    · have hkeeps := Op.keepsMetadata (fun x v epoch hop => hrequest ⟨x, v, epoch, hop⟩)
        fun epoch hop => hrelease ⟨epoch, hop⟩
      have hmeta := metadata_of_writesOnly hkeeps db
      rw [hrun] at hmeta
      rw [holds_congr hmeta]
      constructor
      · refine fun hold => .inr ⟨hold, ?_⟩
        rintro (⟨v, rfl, -⟩ | ⟨epoch, -, rfl, -⟩)
        · exact hrequest ⟨_, _, _, rfl⟩
        · exact hrelease ⟨_, rfl⟩
      · rintro (⟨-, rfl, -⟩ | ⟨hold, -⟩)
        · exact absurd ⟨_, _, _, rfl⟩ hrequest
        · exact hold

end Step

/-! ## The list -/

section Listed

variable {db : KyveraDb} {p q : PendingUnstake} {x : String}

theorem pad20_lt {n m : UInt64} (h : n < m) : (pad20 n).toList < (pad20 m).toList := by
  rw [pad20, pad20, String.toList_ofList, String.toList_ofList]
  exact Text.padded_lt (by decide) (UInt64.lt_iff_toNat_lt.1 h)
    ((U64.toNat_lt_size m).trans (by decide))

theorem compare_of_toList_lt {s t : String} (h : s.toList < t.toList) : compare s t = .lt :=
  compareOfLessAndEq_eq_lt.2 (String.lt_iff.2 h)

theorem toList_pendingUnstakeKey (p : PendingUnstake) :
    ∃ rest, (pendingUnstakeKey p).toList =
      PENDING_UNSTAKE_PREFIX.toList ++ ((pad20 p.unlockEpoch).toList ++ rest) := by
  simp only [pendingUnstakeKey, String.toList_append, List.append_assoc]
  exact ⟨_, rfl⟩

theorem compare_pendingUnstakeKey (h : p.unlockEpoch < q.unlockEpoch) :
    compare (pendingUnstakeKey p) (pendingUnstakeKey q) = .lt := by
  obtain ⟨rest, hp⟩ := toList_pendingUnstakeKey p
  obtain ⟨rest', hq⟩ := toList_pendingUnstakeKey q
  apply compare_of_toList_lt
  rw [hp, hq]
  apply List.append_left_lt
  exact Text.append_lt_append (pad20_lt h) ((length_pad20 _).trans (length_pad20 _).symm) _ _

/-- Of two records of one address that are stored in order, the first one is released earlier. -/
theorem unlockEpoch_lt_of_compare (haddress : p.address = q.address)
    (hp : p.unlockEpoch = p.requestEpoch + UNBONDING_PERIOD_EPOCHS)
    (hq : q.unlockEpoch = q.requestEpoch + UNBONDING_PERIOD_EPOCHS)
    (h : compare (pendingUnstakeKey p) (pendingUnstakeKey q) = .lt) :
    p.unlockEpoch < q.unlockEpoch := by
  rcases Nat.lt_trichotomy p.unlockEpoch.toNat q.unlockEpoch.toNat with hlt | heq | hgt
  · exact UInt64.lt_iff_toNat_lt.2 hlt
  · have hunlock : p.unlockEpoch = q.unlockEpoch := UInt64.toNat_inj.1 heq
    have hrequest : p.requestEpoch = q.requestEpoch := by
      rw [hp, hq] at hunlock
      exact (UInt64.add_left_inj _).1 hunlock
    have hkey : pendingUnstakeKey p = pendingUnstakeKey q :=
      pendingUnstakeKey_eq_iff.2 ⟨haddress, hrequest, hunlock⟩
    rw [hkey, ReflOrd.compare_self] at h
    cases h
  · rw [OrientedOrd.eq_swap, compare_pendingUnstakeKey (UInt64.lt_iff_toNat_lt.2 hgt)] at h
    cases h

/-- On a sound database, an address is told of exactly the records that are stored for it, the
earliest one first. -/
theorem KyveraDb.Sound.pending_listed (h : db.Sound) (x : String) :
    ∃ records, (getPendingUnstakes x).run db = (.ok records, db) ∧
      records.Pairwise (fun p q => p.unlockEpoch < q.unlockEpoch) ∧
      ∀ p, p ∈ records ↔ p.address = x ∧ db.Holds p := by
  have hstored : ∀ e ∈ db.withdrawals, ∀ p, e.2.decodePending = some p →
      e.1 = pendingUnstakeKey p ∧ p.unlockEpoch = p.requestEpoch + UNBONDING_PERIOD_EPOCHS := by
    intro e he p hp
    have hentry := (mem_withdrawals_iff.1 he).1
    rw [decodePending_eq_some_iff.1 hp] at hentry
    exact h.metadata _ _ hentry
  have hordered : db.withdrawals.Pairwise fun d e => compare d.1 e.1 = .lt :=
    ExtTreeMap.ordered_keys_toList.filter _
  refine ⟨_, h.run_getPendingUnstakes x, ?_, fun p => ?_⟩
  · rw [List.pairwise_filter, List.pairwise_filterMap]
    refine hordered.imp_of_mem ?_
    intro d e hd he hlt p hp q hq hpx hqx
    obtain ⟨hkey, hunlock⟩ := hstored d hd p hp
    obtain ⟨hkey', hunlock'⟩ := hstored e he q hq
    rw [hkey, hkey'] at hlt
    have haddress : p.address = q.address :=
      (of_decide_eq_true hpx).trans (of_decide_eq_true hqx).symm
    exact unlockEpoch_lt_of_compare haddress hunlock hunlock' hlt
  · rw [List.mem_filter, List.mem_filterMap, decide_eq_true_iff, and_comm]
    refine and_congr_right fun _ => ⟨?_, ?_⟩
    · rintro ⟨e, he, hp⟩
      have hentry := (mem_withdrawals_iff.1 he).1
      rwa [(hstored e he p hp).1, decodePending_eq_some_iff.1 hp] at hentry
    · exact fun hheld => ⟨_, hheld.mem_withdrawals, rfl⟩

/-- In a scan in which everything in front of an entry that passes also passes, the entries that
pass are those in front of the first one that does not. -/
theorem filter_eq_takeWhile {α : Type} {P : α → Bool} {l : List α}
    (h : l.Pairwise fun a b => P b = true → P a = true) : l.filter P = l.takeWhile P := by
  induction l with
  | nil => rfl
  | cons a rest ih =>
      obtain ⟨ha, hrest⟩ := List.pairwise_cons.1 h
      by_cases hpass : P a = true
      · rw [List.filter_cons_of_pos hpass, List.takeWhile_cons_of_pos hpass, ih hrest]
      · rw [List.filter_cons_of_neg hpass, List.takeWhile_cons_of_neg hpass, List.filter_eq_nil_iff]
        exact fun b hb hpass' => hpass (ha b hb hpass')

/-- The entry is a withdrawal that has matured. -/
def MetaEntry.maturedAt (epoch : UInt64) (value : MetaEntry) : Bool :=
  value.decodePending.any fun p => p.unlockEpoch ≤ epoch

theorem matured_filter (epoch : UInt64) (entries : List (String × MetaEntry)) :
    matured epoch (entries.filter fun e => e.2.maturedAt epoch) = matured epoch entries := by
  unfold matured
  rw [List.filterMap_filter]
  congr 1
  funext e
  unfold MetaEntry.maturedAt
  rcases e.2.decodePending with _ | p
  · rfl
  · by_cases hle : p.unlockEpoch ≤ epoch
    · simp [hle]
    · simpa [hle] using UInt64.not_le.1 hle

/-- The key sorts by the unlock epoch first: a scan that stops at the first withdrawal that has not
matured has seen all that have. -/
theorem matured_takeWhile (h : db.Labelled) (epoch : UInt64) :
    matured epoch (db.withdrawals.takeWhile fun e => e.2.maturedAt epoch) =
      matured epoch db.withdrawals := by
  have hordered : db.withdrawals.Pairwise fun d e => compare d.1 e.1 = .lt :=
    ExtTreeMap.ordered_keys_toList.filter _
  rw [← filter_eq_takeWhile, matured_filter]
  refine hordered.imp_of_mem fun {d e} hd he hlt hmatured => ?_
  obtain ⟨p, hp⟩ := h.decoded d hd
  obtain ⟨q, hq⟩ := h.decoded e he
  have hkey : d.1 = pendingUnstakeKey p := by
    have hentry := (mem_withdrawals_iff.1 hd).1
    rw [hp] at hentry
    exact (h _ _ hentry).1
  have hkey' : e.1 = pendingUnstakeKey q := by
    have hentry := (mem_withdrawals_iff.1 he).1
    rw [hq] at hentry
    exact (h _ _ hentry).1
  rw [hkey, hkey'] at hlt
  rw [hq] at hmatured
  rw [hp]
  have hle : q.unlockEpoch ≤ epoch := of_decide_eq_true hmatured
  refine decide_eq_true (UInt64.le_trans (UInt64.not_lt.1 fun hgt => ?_) hle)
  rw [OrientedOrd.eq_swap, compare_pendingUnstakeKey hgt] at hlt
  cases hlt

end Listed

/-! ## Runs -/

section Runs

variable {db : KyveraDb} {run : List Attempted}

theorem holds_final_iff (hsound : db.Sound) (h : IsRun Attempt db run) (p : PendingUnstake) :
    (final db run).Holds p ↔
      Since p.Filed p.Closed run ∨ db.Holds p ∧ ∀ t ∈ run, ¬ p.Closed t := by
  refine h.holds_final_iff (I := KyveraDb.Sound) (fun t hpre ht => ?_) hsound
  obtain ⟨pre, ⟨op, o⟩, post⟩ := t
  have hrun : op.program.run pre = (o, post) := ht
  have hkept : (op.program.run pre).2.Sound := KyveraDb.Sound.op hpre op
  rw [hrun] at hkept
  exact ⟨hkept, holds_of_attempt hpre hrun⟩

theorem sound_final (hsound : db.Sound) (h : IsRun Attempt db run) : (final db run).Sound := by
  refine h.invariant_final (I := KyveraDb.Sound) (fun s call s' hs ht => ?_) hsound
  have hkept := hs.op call.1
  rwa [show call.1.program.run s = (call.2, s') from ht] at hkept

end Runs

/-- In every state that operations lead to, also ones that are cut off by a refused write, a scan for
matured withdrawals could stop at the first one that has not matured. -/
theorem early_stop_of_isRun {H : Sha3} {run : List (Step KyveraDb (StorageCall × Option ℕ))}
    (h : IsRun (Performed H) KyveraDb.empty run) :
    ∀ t ∈ run, ∀ epoch,
      matured epoch (t.post.withdrawals.takeWhile fun e => e.2.maturedAt epoch) =
        matured epoch t.post.withdrawals := by
  intro t ht epoch
  have hlabelled := (h.invariant (I := KyveraDb.Labelled)
    (fun db call _ hs hc => hc.keeps (StorageCall.labelled H call.1 db) hs)
    sound_empty.labelled t ht).2
  exact matured_takeWhile hlabelled epoch

/-- Three withdrawals of two addresses, of which two have matured. -/
theorem early_stop_three :
    let run := trace (StorageCall.perform Sha3.zero) KyveraDb.empty
      [(.saveAccount { Account.new "kyv1b" with stakedBalance := 9 }, none),
        (.saveAccount { Account.new "kyv1a" with stakedBalance := 9 }, none),
        (.onAccounts (.requestUnstake "kyv1a" 3 9), none),
        (.onAccounts (.requestUnstake "kyv1b" 4 2), none),
        (.onAccounts (.requestUnstake "kyv1a" 5 2), some 9)]
    run.map (fun t => (matured 12 t.post.withdrawals).length) = [0, 0, 0, 1, 2] ∧
      ∀ t ∈ run, ∀ epoch,
        matured epoch (t.post.withdrawals.takeWhile fun e => e.2.maturedAt epoch) =
          matured epoch t.post.withdrawals := by
  intro run
  have hlengths : run.map (fun t => (matured 12 t.post.withdrawals).length) = [0, 0, 0, 1, 2] := by
    decide +kernel
  exact ⟨hlengths, early_stop_of_isRun (isRun_trace fun _ _ => rfl)⟩

end Kyvera
