import Kyvera.Ledger.Unbonding

/-!
# Maturity processing

A scan that is through releases exactly what had matured, and nothing is left for a second one.  A
scan that stops in the middle has paid the records before the stop and removed none, so the next
scan pays them again.  Calls that are not interrupted in this way release nothing twice.
-/

namespace Kyvera

open Effect Effect.Prog Std Trace

/-! ## Complete scans -/

section Process

variable {db db' : KyveraDb} {epoch total : UInt64}

theorem mem_withdrawals_afterMaturity_iff {e : String × MetaEntry} :
    e ∈ (db.afterMaturity epoch).withdrawals ↔
      e ∈ db.withdrawals ∧ e.1 ∉ (matured epoch db.withdrawals).map Prod.fst := by
  rw [mem_withdrawals_iff, mem_withdrawals_iff]
  show (((matured epoch db.withdrawals).map Prod.fst).foldl (fun t k => t.erase k)
    db.metadata)[e.1]? = some e.2 ∧ _ ↔ _
  rw [TreeSum.getElem?_foldl_erase_eq_some_iff]
  exact and_assoc.trans and_comm

theorem mem_matured_keys_iff {k : String} {p : PendingUnstake}
    (hp : (k, MetaEntry.pendingUnstake p) ∈ db.withdrawals) :
    k ∈ (matured epoch db.withdrawals).map Prod.fst ↔ p.unlockEpoch ≤ epoch := by
  rw [List.mem_map]
  constructor
  · rintro ⟨⟨_, q⟩, hq, rfl⟩
    obtain ⟨hmem, hle⟩ := mem_matured_iff.1 hq
    have hsame := (mem_withdrawals_iff.1 hp).1.symm.trans (mem_withdrawals_iff.1 hmem).1
    cases hsame
    exact hle
  · intro hle
    exact ⟨(k, p), mem_matured_iff.2 ⟨hp, hle⟩, rfl⟩

/-- What a scan that is through does: it leaves the withdrawals that had not matured, adds to each
balance what had matured for its address, and touches nothing else. -/
structure ReleasedExactly (epoch total : UInt64) (db db' : KyveraDb) : Prop where
  withdrawals : ∀ e, e ∈ db'.withdrawals ↔
    e ∈ db.withdrawals ∧ ∃ p, e.2 = .pendingUnstake p ∧ epoch < p.unlockEpoch
  metadata : ∀ k : String, ¬ PENDING_UNSTAKE_PREFIX.toList.isPrefixOf k.toList →
    db'.metadata[k]? = db.metadata[k]?
  balance : ∀ x, (db'.account x).balance.toNat =
    (db.account x).balance.toNat + due (releases epoch db.withdrawals) x
  account : ∀ x, db'.account x = { db.account x with balance := (db'.account x).balance }
  accounts : ∀ x, x ∉ (releases epoch db.withdrawals).map Prod.fst →
    db'.accounts[x]? = db.accounts[x]?
  trees : db' = { db with accounts := db'.accounts, metadata := db'.metadata }
  total : total.toNat =
    min ((releases epoch db.withdrawals).map fun e => e.2.toNat).sum (U64.size - 1)

theorem releasedExactly_afterMaturity (h : db.WellFormed)
    (hfit : db.Fits (releases epoch db.withdrawals))
    (hdecoded : ∀ f ∈ db.withdrawals, f.2.decodePending.isSome) :
    ReleasedExactly epoch
      (((releases epoch db.withdrawals).map Prod.snd).foldl U64.saturatingAdd 0) db
      (db.afterMaturity epoch) where
  withdrawals := by
    intro ⟨k, v⟩
    rw [mem_withdrawals_afterMaturity_iff]
    apply and_congr_right
    intro hmem
    obtain ⟨p, hp⟩ := Option.isSome_iff_exists.1 (hdecoded _ hmem)
    obtain rfl := decodePending_eq_some_iff.1 hp
    rw [mem_matured_keys_iff hmem, UInt64.not_le]
    constructor
    · intro hlt
      exact ⟨p, rfl, hlt⟩
    · rintro ⟨q, hq, hlt⟩
      cases hq
      exact hlt
  metadata := by
    intro k hk
    apply Option.ext
    intro v
    show (((matured epoch db.withdrawals).map Prod.fst).foldl (fun t k => t.erase k)
      db.metadata)[k]? = some v ↔ _
    rw [TreeSum.getElem?_foldl_erase_eq_some_iff]
    apply and_iff_right
    intro hmem
    obtain ⟨⟨_, p⟩, hp, rfl⟩ := List.mem_map.1 hmem
    exact hk (mem_withdrawals_iff.1 (mem_matured_iff.1 hp).1).2
  balance := h.balance_payAll hfit
  account := h.account_payAll _
  accounts := by
    intro x hx
    exact (h.getElem?_payAll _ x).trans (if_neg hx)
  trees := by
    have hpaid := db.payAll_eq (releases epoch db.withdrawals)
    exact congrArg (fun m => { m with metadata := (db.afterMaturity epoch).metadata }) hpaid
  total := by
    rw [U64.toNat_foldl_saturatingAdd, List.map_map, UInt64.toNat_zero, Nat.zero_add]
    rfl

theorem run_processMaturedUnstakes_of_none (h : db.WellFormed)
    (hnone : ∀ e ∈ db.withdrawals, ∃ p, e.2 = .pendingUnstake p ∧ epoch < p.unlockEpoch) :
    (processMaturedUnstakes epoch).run db = (.ok 0, db) := by
  have hempty : matured epoch db.withdrawals = [] := by
    apply List.eq_nil_iff_forall_not_mem.2
    intro ⟨k, p⟩ hmem
    obtain ⟨hmem, hle⟩ := mem_matured_iff.1 hmem
    obtain ⟨q, hq, hlt⟩ := hnone _ hmem
    cases hq
    exact UInt64.not_le.2 hlt hle
  rcases run_processMaturedUnstakes_cases h epoch with
    ⟨-, -, hrun⟩ | ⟨front, e, back, m, hsplit, hstop, -⟩
  · rw [hrun, KyveraDb.afterMaturity, releases, hempty]
    rfl
  · obtain ⟨q, hq, hlt⟩ := hnone e (hsplit ▸ List.mem_append_right _ List.mem_cons_self)
    have hle := (hstop.stop q (decodePending_eq_some_iff.2 hq)).1
    exact absurd hle (UInt64.not_le.2 hlt)

/-- Maturity processing is exact and idempotent: a scan that is through releases exactly what had
matured, a second one of the same or an earlier epoch finds nothing, and what a request puts aside
is not among the released before its unbonding period has passed. -/
theorem processMaturedUnstakes_exact (h : db.WellFormed)
    (hrun : (processMaturedUnstakes epoch).run db = (.ok total, db')) :
    ReleasedExactly epoch total db db' ∧
    (∀ earlier ≤ epoch, (processMaturedUnstakes earlier).run db' = (.ok 0, db')) ∧
    ∀ (x : String) (v e : UInt64) (p : PendingUnstake) (before requested : KyveraDb),
      (requestUnstake x v e).run before = (.ok p, requested) →
      epoch.toNat < e.toNat + UNBONDING_PERIOD_EPOCHS.toNat →
      ∀ k, (k, p) ∉ matured epoch db.withdrawals := by
  rcases run_processMaturedUnstakes_cases h epoch with
    ⟨hfit, hdecoded, hok⟩ | ⟨front, e, back, m, -, -, herr⟩
  · rw [hok] at hrun
    cases hrun
    have hexact := releasedExactly_afterMaturity h hfit hdecoded
    refine ⟨hexact, fun earlier hle => ?_, ?_⟩
    · apply run_processMaturedUnstakes_of_none h.afterMaturity
      intro e he
      obtain ⟨-, p, hp, hlt⟩ := (hexact.withdrawals e).1 he
      exact ⟨p, hp, UInt64.lt_of_le_of_lt hle hlt⟩
    · intro x v e p before after hrequest hearly k hmem
      obtain ⟨-, -, hsum, rfl, -⟩ := run_requestUnstake_eq_ok_iff.1 hrequest
      have hle := UInt64.le_iff_toNat_le.1 (mem_matured_iff.1 hmem).2
      have hunlock : (requested x v e).unlockEpoch.toNat =
          e.toNat + UNBONDING_PERIOD_EPOCHS.toNat := U64.toNat_add_of_lt hsum
      omega
  · rw [herr] at hrun
    cases hrun

end Process

/-- A database with withdrawals on record. -/
def KyveraDb.withWithdrawals (db : KyveraDb) (pending : List PendingUnstake) : KyveraDb :=
  { db with
    metadata := pending.foldl (fun t p => t.insert (pendingUnstakeKey p) (.pendingUnstake p))
      db.metadata }

/-- Two withdrawals of one address are released together, a third one waits. -/
theorem processMaturedUnstakes_exact_three :
    let db := (KyveraDb.withAccounts [{ Account.new "kyv1a" with balance := 7 }]).withWithdrawals
      [requested "kyv1a" 30 1, requested "kyv1a" 20 2, requested "kyv1a" 40 3]
    let db' := ((processMaturedUnstakes 12).run db).2
    ReleasedExactly 12 50 db db' ∧
    (∀ earlier ≤ 12, (processMaturedUnstakes earlier).run db' = (.ok 0, db')) ∧
    ∀ (x : String) (v e : UInt64) (p : PendingUnstake) (before requested : KyveraDb),
      (requestUnstake x v e).run before = (.ok p, requested) →
      (12 : UInt64).toNat < e.toNat + UNBONDING_PERIOD_EPOCHS.toNat →
      ∀ k, (k, p) ∉ matured 12 db.withdrawals :=
  processMaturedUnstakes_exact (KyveraDb.wellFormed_withAccounts _)
    (run_eq_of_outcome (by decide +kernel))

/-! ## Interrupted scans -/

/-- Processing pays at least one withdrawal and then stops before it has removed any. -/
def KyveraDb.Interrupted (db : KyveraDb) (epoch : UInt64) : Prop :=
  ∃ front e back, db.withdrawals = front ++ e :: back ∧ db.StopsAt epoch front e ∧
    matured epoch front ≠ []

theorem KyveraDb.Interrupted.outcome_ne_ok {db : KyveraDb} {epoch : UInt64}
    (hi : db.Interrupted epoch) (h : db.WellFormed) (total : UInt64) :
    ((processMaturedUnstakes epoch).run db).1 ≠ .ok total := by
  obtain ⟨front, e, back, hsplit, hstop, -⟩ := hi
  rcases run_processMaturedUnstakes_cases h epoch with ⟨hfit, hdecoded, -⟩ | ⟨_, _, _, m, -, -, hrun⟩
  · have hmem : e ∈ db.withdrawals := hsplit ▸ List.mem_append_right _ List.mem_cons_self
    obtain ⟨p, hp⟩ := Option.isSome_iff_exists.1 (hdecoded e hmem)
    obtain ⟨hle, hover⟩ := hstop.stop p hp
    have hdue : due (releases epoch db.withdrawals) p.address = due (releases epoch front) p.address +
        (p.amount.toNat + due (releases epoch back) p.address) := by
      have hself := due_cons p.address p.amount (releases epoch back) p.address
      rw [if_pos rfl] at hself
      rw [hsplit, releases_append, due_append, releases_cons_of_le hp hle, hself]
    have hroom := hfit p.address
    omega
  · rw [hrun]
    exact fun hok => nomatch hok

/-- Calls of maturity processing, each made on the database that the one before it left, whether it
succeeded or not. -/
def maturityCalls (db : KyveraDb) (epochs : List UInt64) : List (Step KyveraDb UInt64) :=
  trace (fun db epoch => ((processMaturedUnstakes epoch).run db).2) db epochs

/-- The latest of some epochs. -/
def latest (epochs : List UInt64) : UInt64 := epochs.foldr (fun e m => if m ≤ e then e else m) 0

theorem le_latest {epochs : List UInt64} {epoch : UInt64} (h : epoch ∈ epochs) :
    epoch ≤ latest epochs := by
  induction epochs with
  | nil => cases h
  | cons e rest ih =>
      show epoch ≤ if latest rest ≤ e then e else latest rest
      rcases List.mem_cons.1 h with rfl | h
      · split_ifs with hle
        · exact UInt64.le_refl _
        · exact UInt64.le_of_lt (UInt64.not_le.1 hle)
      · split_ifs with hle
        · exact UInt64.le_trans (ih h) hle
        · exact ih h

/-- Since `start`, withdrawals that had matured were paid, none of them twice, and nothing else. -/
structure PaidOnce (start : KyveraDb) (last : UInt64) (paid : List (String × PendingUnstake))
    (db : KyveraDb) : Prop where
  distinct : (paid.map Prod.fst).Nodup
  matured : ∀ e ∈ paid, e ∈ matured last start.withdrawals
  balance : ∀ x, (db.account x).balance.toNat =
    (start.account x).balance.toNat + due (payments paid) x

/-- What was paid since `start` is no longer on record. -/
structure Settled (start : KyveraDb) (paid : List (String × PendingUnstake)) (db : KyveraDb) :
    Prop where
  wellFormed : db.WellFormed
  withdrawals : ∀ e ∈ db.withdrawals, e ∈ start.withdrawals ∧ e.1 ∉ paid.map Prod.fst

section Runs

variable {start db : KyveraDb} {epoch last : UInt64} {paid : List (String × PendingUnstake)}
  {epochs : List UInt64}

/-- What was paid once is at most what had matured. -/
theorem PaidOnce.due_le (h : PaidOnce start last paid db) (x : String) :
    due (payments paid) x ≤ due (releases last start.withdrawals) x := by
  have hnodup : paid.Nodup := List.Nodup.of_map _ h.distinct
  obtain ⟨list, hperm, hsub⟩ := hnodup.subperm h.matured
  have hdue : due (payments paid) x = due (payments list) x := due_perm (hperm.symm.map _) x
  rw [hdue]
  exact ((hsub.map _).map _).sum_le_sum fun _ _ => Nat.zero_le _

/-- Paying the matured withdrawals of a part of the scan pays none a second time. -/
theorem PaidOnce.payAll (h : PaidOnce start last paid db) (hs : Settled start paid db)
    (hle : epoch ≤ last) {front : List (String × MetaEntry)} (hsub : front.Sublist db.withdrawals)
    (hfit : db.Fits (releases epoch front)) :
    PaidOnce start last (paid ++ Kyvera.matured epoch front) (db.payAll (releases epoch front)) where
  distinct := by
    have hkeys : (front.map Prod.fst).Nodup :=
      ((hsub.trans List.filter_sublist).map _).nodup (TreeSum.nodup_keys db.metadata)
    rw [List.map_append, List.nodup_append]
    refine ⟨h.distinct, (matured_keys_sublist front).nodup hkeys, ?_⟩
    rintro k hk _ hk' rfl
    obtain ⟨⟨_, p⟩, hp, rfl⟩ := List.mem_map.1 hk'
    exact (hs.withdrawals _ (hsub.subset (mem_matured_iff.1 hp).1)).2 hk
  matured := by
    intro ⟨k, p⟩ he
    rcases List.mem_append.1 he with hold | hnew
    · exact h.matured _ hold
    · obtain ⟨hmem, hunlock⟩ := mem_matured_iff.1 hnew
      exact mem_matured_iff.2
        ⟨(hs.withdrawals _ (hsub.subset hmem)).1, UInt64.le_trans hunlock hle⟩
  balance := by
    intro x
    have happend : payments (paid ++ Kyvera.matured epoch front) =
        payments paid ++ releases epoch front := List.map_append
    rw [hs.wellFormed.balance_payAll hfit, h.balance, happend, due_append, Nat.add_assoc]

/-- One call pays nothing a second time, and settles what it pays unless it is interrupted. -/
theorem PaidOnce.processMaturedUnstakes (h : PaidOnce start last paid db)
    (hs : Settled start paid db) (hle : epoch ≤ last) :
    ∃ paid', PaidOnce start last paid' ((Kyvera.processMaturedUnstakes epoch).run db).2 ∧
      (¬ db.Interrupted epoch →
        Settled start paid' ((Kyvera.processMaturedUnstakes epoch).run db).2) := by
  rcases run_processMaturedUnstakes_cases hs.wellFormed epoch with
    ⟨hfit, -, hrun⟩ | ⟨front, e, back, m, hsplit, hstop, hrun⟩
  · have hpaid := h.payAll hs hle (List.Sublist.refl _) hfit
    rw [hrun]
    refine ⟨_, ⟨hpaid.distinct, hpaid.matured, hpaid.balance⟩, fun _ =>
      ⟨hs.wellFormed.afterMaturity, fun e he => ?_⟩⟩
    obtain ⟨hmem, hkey⟩ := mem_withdrawals_afterMaturity_iff.1 he
    obtain ⟨hstart, hold⟩ := hs.withdrawals e hmem
    rw [List.map_append, List.mem_append]
    exact ⟨hstart, fun hk => hk.elim hold hkey⟩
  · have hsub : front.Sublist db.withdrawals := hsplit ▸ List.sublist_append_left _ _
    have hpaid := h.payAll hs hle hsub hstop.fits
    rw [hrun]
    refine ⟨_, hpaid, fun hclean => ?_⟩
    have hnone : Kyvera.matured epoch front = [] := by
      by_contra hne
      exact hclean ⟨front, e, back, hsplit, hstop, hne⟩
    rw [releases, hnone, List.append_nil]
    exact hs

theorem PaidOnce.maturityCalls (h : PaidOnce start last paid db) (hs : Settled start paid db)
    (hle : ∀ e ∈ epochs, e ≤ last)
    (hclean : ∀ t ∈ (maturityCalls db epochs).dropLast, ¬ t.pre.Interrupted t.call) :
    ∀ t ∈ maturityCalls db epochs, ∃ paid', PaidOnce start last paid' t.post := by
  induction epochs generalizing db paid with
  | nil => exact fun t ht => absurd ht List.not_mem_nil
  | cons e rest ih =>
      obtain ⟨hfirst, hrest⟩ := List.forall_mem_cons.1 hle
      obtain ⟨paid', hpaid, hsettled⟩ := h.processMaturedUnstakes hs hfirst
      intro t ht
      rcases List.mem_cons.1 ht with rfl | htail
      · exact ⟨paid', hpaid⟩
      · have hdrop := List.dropLast_cons_of_ne_nil (List.ne_nil_of_mem htail) (x :=
          (⟨db, e, ((Kyvera.processMaturedUnstakes e).run db).2⟩ : Step KyveraDb UInt64))
        obtain ⟨hone, hlater⟩ := List.forall_mem_cons.1 (hdrop ▸ hclean)
        exact ih hpaid (hsettled hone) hrest hlater t htail

/-- Over any sequence of calls of which none but the last is interrupted, every withdrawal is paid
at most once: an address is never paid more than what had matured for it. -/
theorem maturityCalls_pay_once (h : db.WellFormed)
    (hclean : ∀ t ∈ (maturityCalls db epochs).dropLast, ¬ t.pre.Interrupted t.call) :
    ∀ t ∈ maturityCalls db epochs,
      (∃ paid, PaidOnce db (latest epochs) paid t.post) ∧
      ∀ x, (t.post.account x).balance.toNat ≤
        (db.account x).balance.toNat + due (releases (latest epochs) db.withdrawals) x := by
  intro t ht
  have hstart : PaidOnce db (latest epochs) [] db :=
    ⟨List.nodup_nil, fun e he => absurd he List.not_mem_nil, fun x => rfl⟩
  have hsettled : Settled db [] db := ⟨h, fun e he => ⟨he, List.not_mem_nil⟩⟩
  obtain ⟨paid, hpaid⟩ :=
    hstart.maturityCalls hsettled (fun e he => le_latest he) hclean t ht
  refine ⟨⟨paid, hpaid⟩, fun x => ?_⟩
  rw [hpaid.balance]
  exact Nat.add_le_add_left (hpaid.due_le x) _

end Runs

/-- Two scans that are through, at different epochs. -/
theorem maturityCalls_pay_once_two :
    let db := (KyveraDb.withAccounts [{ Account.new "kyv1a" with balance := 7 }]).withWithdrawals
      [requested "kyv1a" 30 1, requested "kyv1a" 20 2]
    (maturityCalls db [11, 12]).length = 2 ∧ ∀ t ∈ maturityCalls db [11, 12],
      (∃ paid, PaidOnce db (latest [11, 12]) paid t.post) ∧
      ∀ x, (t.post.account x).balance.toNat ≤
        (db.account x).balance.toNat + due (releases (latest [11, 12]) db.withdrawals) x := by
  intro db
  have hwf : db.WellFormed := KyveraDb.wellFormed_withAccounts _
  refine ⟨rfl, ?_⟩
  apply maturityCalls_pay_once hwf
  intro t ht hi
  obtain rfl := List.mem_singleton.1 ht
  exact hi.outcome_ne_ok hwf 30 (by decide +kernel)

/-- A scan that a full balance interrupts pays the record in front of it, and so does the next one:
the address gets twice what it was owed. -/
theorem maturityCalls_pay_twice :
    let db := (KyveraDb.withAccounts [{ Account.new "kyv1b" with balance := U64.max }]).withWithdrawals
      [requested "kyv1a" 5 0, requested "kyv1b" 1 0]
    let run := maturityCalls db [10, 10]
    db.WellFormed ∧
      run.map (fun t => ((processMaturedUnstakes t.call).run t.pre).1) =
        [.err "Balance overflow — this should never happen",
          .err "Balance overflow — this should never happen"] ∧
      run.map (fun t => (t.post.account "kyv1a").balance.toNat) = [5, 10] ∧
      (db.account "kyv1a").balance.toNat +
        due (releases (latest [10, 10]) db.withdrawals) "kyv1a" = 5 := by
  intro db run
  exact ⟨KyveraDb.wellFormed_withAccounts _, by decide +kernel, by decide +kernel,
    by decide +kernel⟩

end Kyvera
