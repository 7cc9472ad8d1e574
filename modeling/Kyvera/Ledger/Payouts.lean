import Kyvera.Consensus.Validators
import Kyvera.Library.ProRata

/-!
# Payouts

Maturity processing and the distribution of rewards both walk over a list and credit one address
after the other.  From outside they pay a list of amounts: every address ends up with the sum of
what is due to it, whatever the order, and nothing but the balances of the paid addresses changes.
-/

namespace Kyvera

open Effect Effect.Prog Std

/-- What the payments of a list make due to an address. -/
def due (payments : List (String × UInt64)) (x : String) : ℕ :=
  (payments.map fun e => if e.1 = x then e.2.toNat else 0).sum

@[simp] theorem due_nil (x : String) : due [] x = 0 := rfl

theorem due_cons (y : String) (v : UInt64) (rest : List (String × UInt64)) (x : String) :
    due ((y, v) :: rest) x = (if y = x then v.toNat else 0) + due rest x := rfl

theorem due_append (payments payments' : List (String × UInt64)) (x : String) :
    due (payments ++ payments') x = due payments x + due payments' x := by
  unfold due
  rw [List.map_append, List.sum_append]

theorem due_perm {payments payments' : List (String × UInt64)} (h : payments.Perm payments')
    (x : String) : due payments x = due payments' x :=
  (h.map _).sum_eq

theorem due_eq_zero {payments : List (String × UInt64)} {x : String}
    (hx : x ∉ payments.map Prod.fst) : due payments x = 0 := by
  induction payments with
  | nil => rfl
  | cons e rest ih =>
      rw [List.map_cons, List.mem_cons, not_or] at hx
      obtain ⟨y, v⟩ := e
      rw [due_cons, if_neg (Ne.symm hx.1), ih hx.2]

theorem due_of_mem {payments : List (String × UInt64)} (hnodup : (payments.map Prod.fst).Nodup)
    {x : String} {v : UInt64} (h : (x, v) ∈ payments) : due payments x = v.toNat := by
  induction payments with
  | nil => cases h
  | cons e rest ih =>
      obtain ⟨hfresh, hrest⟩ := List.nodup_cons.1 hnodup
      rcases List.mem_cons.1 h with rfl | h
      · rw [due_cons, if_pos rfl, due_eq_zero hfresh, Nat.add_zero]
      · have hne : e.1 ≠ x := by
          rintro rfl
          exact hfresh (List.mem_map.2 ⟨_, h, rfl⟩)
        rw [← ih hrest h, ← Nat.zero_add (due rest x)]
        exact congrArg (· + due rest x) (if_neg hne)

theorem sum_map_filter_pos (payments : List (String × UInt64)) {f : String × UInt64 → ℕ}
    (hf : ∀ x, f (x, 0) = 0) :
    ((payments.filter fun e => 0 < e.2).map f).sum = (payments.map f).sum := by
  induction payments with
  | nil => rfl
  | cons e rest ih =>
      obtain ⟨y, v⟩ := e
      by_cases hv : 0 < v
      · rw [List.filter_cons_of_pos (by simpa using hv), List.map_cons, List.map_cons,
          List.sum_cons, List.sum_cons, ih]
      · have hzero : v = 0 := UInt64.pos_iff_ne_zero.not_left.1 hv
        rw [List.filter_cons_of_neg (by simpa using hv), List.map_cons, List.sum_cons, ih, hzero,
          hf, Nat.zero_add]

theorem due_filter_pos (payments : List (String × UInt64)) (x : String) :
    due (payments.filter fun e => 0 < e.2) x = due payments x := by
  apply sum_map_filter_pos
  intro y
  rw [UInt64.toNat_zero, ite_self]

namespace KyveraDb

/-- The database after all payments of a list, made one after the other. -/
def payAll (db : KyveraDb) (payments : List (String × UInt64)) : KyveraDb :=
  payments.foldl (fun m e => m.save ((m.account e.1).credit e.2)) db

/-- No address is paid more than its balance has room for. -/
def Fits (db : KyveraDb) (payments : List (String × UInt64)) : Prop :=
  ∀ x, (db.account x).balance.toNat + due payments x < U64.size

variable {db : KyveraDb} {payments payments' : List (String × UInt64)}

@[simp] theorem payAll_nil (db : KyveraDb) : db.payAll [] = db := rfl

theorem payAll_cons (db : KyveraDb) (y : String) (v : UInt64) (rest : List (String × UInt64)) :
    db.payAll ((y, v) :: rest) = (db.save ((db.account y).credit v)).payAll rest := rfl

theorem fits_nil (db : KyveraDb) : db.Fits [] := fun _ => U64.toNat_lt_size _

theorem payAll_eq (db : KyveraDb) (payments : List (String × UInt64)) :
    db.payAll payments = { db with accounts := (db.payAll payments).accounts } := by
  induction payments generalizing db with
  | nil => rfl
  | cons e rest ih =>
      rw [payAll_cons]
      exact ih (db.save ((db.account e.1).credit e.2))

theorem WellFormed.payAll (h : db.WellFormed) (payments : List (String × UInt64)) :
    (db.payAll payments).WellFormed :=
  List.foldlRecOn payments _ h fun _ hm _ _ => hm.save _

theorem WellFormed.balance_add_due (h : db.WellFormed) {y : String} {v : UInt64}
    (hroom : (db.account y).Room v) (rest : List (String × UInt64)) (x : String) :
    ((db.save ((db.account y).credit v)).account x).balance.toNat + due rest x =
      (db.account x).balance.toNat + due ((y, v) :: rest) x := by
  rw [h.account_save (Account.address_credit _ v), due_cons]
  by_cases hx : x = y
  · rw [if_pos hx, if_pos hx.symm, hroom.toNat_balance_credit, hx, Nat.add_assoc]
  · rw [if_neg hx, if_neg (Ne.symm hx), Nat.zero_add]

/-- Payments fit when the first one does and the others fit after it. -/
theorem WellFormed.fits_cons_iff (h : db.WellFormed) {y : String} {v : UInt64}
    {rest : List (String × UInt64)} :
    db.Fits ((y, v) :: rest) ↔
      (db.account y).Room v ∧ (db.save ((db.account y).credit v)).Fits rest := by
  constructor
  · intro hfit
    have hroom : (db.account y).Room v := by
      have hy := hfit y
      rw [due_cons, if_pos rfl] at hy
      unfold Account.Room
      omega
    refine ⟨hroom, fun x => ?_⟩
    rw [h.balance_add_due hroom]
    exact hfit x
  · rintro ⟨hroom, hfit⟩ x
    rw [← h.balance_add_due hroom]
    exact hfit x

/-- Payments that fit add what is due to the balances. -/
theorem WellFormed.balance_payAll (h : db.WellFormed) (hfit : db.Fits payments) (x : String) :
    ((db.payAll payments).account x).balance.toNat =
      (db.account x).balance.toNat + due payments x := by
  induction payments generalizing db with
  | nil => rfl
  | cons e rest ih =>
      obtain ⟨y, v⟩ := e
      obtain ⟨hroom, hrest⟩ := h.fits_cons_iff.1 hfit
      rw [payAll_cons, ih (h.save _) hrest, h.balance_add_due hroom]

theorem WellFormed.account_payAll (h : db.WellFormed) (payments : List (String × UInt64))
    (x : String) :
    (db.payAll payments).account x =
      { db.account x with balance := ((db.payAll payments).account x).balance } := by
  induction payments generalizing db with
  | nil => rfl
  | cons e rest ih =>
      obtain ⟨y, v⟩ := e
      rw [payAll_cons, ih (h.save _)]
      by_cases hx : x = y
      · rw [h.account_save (Account.address_credit _ v), if_pos hx, hx]
        rfl
      · rw [h.account_save (Account.address_credit _ v), if_neg hx]

/-- Payments create the accounts that they pay, and leave the others as they were. -/
theorem WellFormed.getElem?_payAll (h : db.WellFormed) (payments : List (String × UInt64))
    (x : String) :
    (db.payAll payments).accounts[x]? =
      if x ∈ payments.map Prod.fst then some ((db.payAll payments).account x)
      else db.accounts[x]? := by
  induction payments generalizing db with
  | nil => exact (if_neg List.not_mem_nil).symm
  | cons e rest ih =>
      obtain ⟨y, v⟩ := e
      have haddress := (Account.address_credit (db.account y) v).trans (h.address_account y)
      have hlater := ih (h.save ((db.account y).credit v))
      rw [accounts_save, AccountTree.getElem?_put, haddress] at hlater
      rw [payAll_cons, List.map_cons, hlater]
      by_cases hrest : x ∈ rest.map Prod.fst
      · rw [if_pos hrest, if_pos (List.mem_cons_of_mem y hrest)]
      · rw [if_neg hrest] at hlater ⊢
        by_cases hx : y = x
        · rw [if_pos hx] at hlater ⊢
          rw [if_pos (hx ▸ List.mem_cons_self)]
          exact congrArg some (AccountTree.account_of_getElem? hlater).symm
        · rw [if_neg hx, if_neg]
          exact fun hmem => (List.mem_cons.1 hmem).elim (fun e => hx e.symm) hrest

theorem WellFormed.getElem?_payAll_of_stored (h : db.WellFormed)
    (payments : List (String × UInt64)) {x : String} {a : Account} (ha : db.accounts[x]? = some a) :
    (db.payAll payments).accounts[x]? =
      some { a with balance := ((db.payAll payments).account x).balance } := by
  have hstored : ∃ b, (db.payAll payments).accounts[x]? = some b := by
    rw [h.getElem?_payAll]
    split_ifs
    · exact ⟨_, rfl⟩
    · exact ⟨a, ha⟩
  obtain ⟨b, hb⟩ := hstored
  have haccount : (db.payAll payments).account x = b := AccountTree.account_of_getElem? hb
  have hsame := h.account_payAll payments x
  rw [show db.account x = a from AccountTree.account_of_getElem? ha] at hsame
  rw [hb]
  exact congrArg some (haccount.symm.trans hsame)

/-- The order of payments does not matter. -/
theorem WellFormed.payAll_perm (h : db.WellFormed) (hp : payments.Perm payments')
    (hfit : db.Fits payments) : db.Fits payments' ∧ db.payAll payments' = db.payAll payments := by
  have hfit' : db.Fits payments' := by
    intro x
    rw [← due_perm hp]
    exact hfit x
  have haccount : ∀ x, (db.payAll payments').account x = (db.payAll payments).account x := by
    intro x
    rw [h.account_payAll payments', h.account_payAll payments, Account.mk.injEq]
    refine ⟨rfl, UInt64.toNat_inj.1 ?_, rfl, rfl, rfl, rfl, rfl⟩
    rw [h.balance_payAll hfit', h.balance_payAll hfit, due_perm hp]
  refine ⟨hfit', ?_⟩
  rw [payAll_eq db payments', payAll_eq db payments]
  congr 1
  apply ExtTreeMap.ext_getElem?
  intro x
  rw [h.getElem?_payAll, h.getElem?_payAll, haccount]
  exact if_congr (hp.map _).mem_iff.symm rfl rfl

end KyveraDb

/-! ## The distribution loop -/

/-- The payments of a distribution: the parts that are not zero. -/
def sharePayments (totalShare : UInt64) (totalWeight : ℕ) (weights : List (String × UInt64)) :
    List (String × UInt64) :=
  (weights.map fun e => (e.1, validatorShare totalShare e.2 totalWeight)).filter fun e => 0 < e.2

section Shares

variable {db db' : KyveraDb} {totalShare distributed d : UInt64} {totalWeight : ℕ}
  {weights : List (String × UInt64)} {x : String} {w : UInt64}

theorem toNat_validatorShare {totalShare weight : UInt64} {totalWeight : ℕ}
    (h : ProRata.share totalShare.toNat weight.toNat totalWeight < U64.size) :
    (validatorShare totalShare weight totalWeight).toNat =
      ProRata.share totalShare.toNat weight.toNat totalWeight :=
  UInt64.toNat_ofNat_of_lt h

theorem sharePayments_cons_of_pos (h : validatorShare totalShare w totalWeight > 0) :
    sharePayments totalShare totalWeight ((x, w) :: weights) =
      (x, validatorShare totalShare w totalWeight) ::
        sharePayments totalShare totalWeight weights := by
  unfold sharePayments
  rw [List.map_cons, List.filter_cons_of_pos (by simpa using h)]

theorem sharePayments_cons_of_not_pos (h : ¬ validatorShare totalShare w totalWeight > 0) :
    sharePayments totalShare totalWeight ((x, w) :: weights) =
      sharePayments totalShare totalWeight weights := by
  unfold sharePayments
  rw [List.map_cons, List.filter_cons_of_neg (by simpa using h)]

/-- The loop succeeds when its payments fit, and then makes them. -/
theorem run_distributeLoop_eq_ok_iff (h : db.WellFormed) :
    (distributeLoop totalShare totalWeight distributed weights).run db = (.ok d, db') ↔
      db.Fits (sharePayments totalShare totalWeight weights) ∧
      d = ((sharePayments totalShare totalWeight weights).map Prod.snd).foldl U64.saturatingAdd
        distributed ∧
      db' = db.payAll (sharePayments totalShare totalWeight weights) := by
  induction weights generalizing db distributed with
  | nil =>
      constructor
      · intro hrun
        cases hrun
        exact ⟨KyveraDb.fits_nil _, rfl, rfl⟩
      · rintro ⟨-, rfl, rfl⟩
        rfl
  | cons e rest ih =>
      obtain ⟨x, w⟩ := e
      unfold distributeLoop
      dsimp only
      by_cases hpos : validatorShare totalShare w totalWeight > 0
      · rw [if_pos hpos, sharePayments_cons_of_pos hpos, run_bind_eq_ok_iff, h.fits_cons_iff]
        simp only [run_creditAccount_eq_ok_iff]
        constructor
        · rintro ⟨_, m, ⟨hroom, rfl⟩, hrest⟩
          obtain ⟨hfit, hd, hdb'⟩ := (ih (h.save _)).1 hrest
          exact ⟨⟨hroom, hfit⟩, hd, hdb'⟩
        · rintro ⟨⟨hroom, hfit⟩, hd, hdb'⟩
          exact ⟨(), _, ⟨hroom, rfl⟩, (ih (h.save _)).2 ⟨hfit, hd, hdb'⟩⟩
      · rw [if_neg hpos, sharePayments_cons_of_not_pos hpos]
        exact ih h

/-- Payments of parts that all fit make up what is paid pro rata. -/
theorem sum_sharePayments
    (hfit : ∀ e ∈ weights, ProRata.share totalShare.toNat e.2.toNat totalWeight < U64.size) :
    (((sharePayments totalShare totalWeight weights).map Prod.snd).map UInt64.toNat).sum =
      ProRata.paid totalShare.toNat totalWeight (weights.map fun e => e.2.toNat) := by
  rw [List.map_map, sharePayments]
  refine (sum_map_filter_pos _ fun _ => rfl).trans ?_
  unfold ProRata.paid
  rw [List.map_map, List.map_map]
  congr 1
  apply List.map_congr_left
  intro e he
  exact toNat_validatorShare (hfit e he)

end Shares

end Kyvera
