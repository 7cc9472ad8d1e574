import Kyvera.Storage.StateTrie
import Kyvera.Library.Text

/-!
# The state root commits to the accounts

The text hashed for an account is its address and its JSON without a delimiter between them.  It
is read back from the right: no value of a field contains a colon, so the fields can be told apart
up to the address, which the JSON repeats.  The joined hashes have 64 characters each.
-/

namespace Kyvera

open Effect Std

/-! ## The text of an account -/

/-- The fields after the address, as labels and values. -/
def accountFields (a : Account) : List (List Char × List Char) :=
  [("\",\"balance\"".toList, Text.digits a.balance.toNat),
   (",\"staked_balance\"".toList, Text.digits a.stakedBalance.toNat),
   (",\"nonce\"".toList, Text.digits a.nonce.toNat),
   (",\"validator_tier\"".toList, (jsonTier a.validatorTier).toList),
   (",\"is_contract\"".toList, (toString a.isContract).toList),
   (",\"last_reward_epoch\"".toList, Text.digits a.lastRewardEpoch.toNat ++ "\x7d".toList)]

/-- The text of an address: the key, the first label and the escaped address. -/
def addressText (x : String) : List Char :=
  x.toList ++ "\x7b\"address\":\"".toList ++ x.toList.flatMap escapeChar

/-- The text hashed for an account is a record that starts with its address. -/
theorem toList_accountText (a : Account) :
    (a.address ++ accountJson a).toList =
      Text.record ':' (addressText a.address) (accountFields a) := by
  unfold accountJson jsonString
  simp only [String.toList_append, String.toList_ofList, Text.toList_toString_uint64, accountFields,
    addressText, Text.record, List.append_assoc]
  simp

theorem addressText_injective {x y : String} (h : addressText x = addressText y) : x = y :=
  String.toList_injective (Text.append_flatMap_inj h)

theorem colon_notMem_digits (n : ℕ) : ':' ∉ Text.digits n := by
  intro h
  have hdigit := Text.isDigit_of_mem_digits h
  revert hdigit
  decide

theorem colon_notMem_jsonTier (t : Option ValidatorTier) : ':' ∉ (jsonTier t).toList := by
  rcases t with _ | (_ | _ | _) <;> decide

theorem colon_notMem_bool (b : Bool) : ':' ∉ (toString b).toList := by
  cases b <;> decide

theorem colon_notMem_accountFields (a : Account) : ∀ e ∈ accountFields a, ':' ∉ e.2 := by
  unfold accountFields
  simp only [List.forall_mem_cons]
  refine ⟨colon_notMem_digits _, colon_notMem_digits _, colon_notMem_digits _,
    colon_notMem_jsonTier _, colon_notMem_bool _, ?_, List.forall_mem_nil _⟩
  intro h
  rcases List.mem_append.1 h with h | h
  · exact colon_notMem_digits _ h
  · revert h
    decide

theorem jsonTier_injective {t t' : Option ValidatorTier}
    (h : (jsonTier t).toList = (jsonTier t').toList) : t = t' := by
  rcases t with _ | (_ | _ | _) <;> rcases t' with _ | (_ | _ | _) <;> first | rfl | (revert h; decide)

theorem bool_injective {b b' : Bool} (h : (toString b).toList = (toString b').toList) : b = b' := by
  cases b <;> cases b' <;> first | rfl | (revert h; decide)

/-- The address and the fields are all there is to an account. -/
theorem Account.eq_of_accountFields {a b : Account} (haddress : a.address = b.address)
    (h : accountFields a = accountFields b) : a = b := by
  unfold accountFields at h
  simp only [List.cons.injEq, Prod.mk.injEq, true_and, and_true, List.append_cancel_right_eq] at h
  obtain ⟨hbalance, hstaked, hnonce, htier, hcontract, hepoch⟩ := h
  cases a
  cases b
  rw [Account.mk.injEq]
  exact ⟨haddress, Text.digits_uint64_injective hbalance, Text.digits_uint64_injective hstaked,
    Text.digits_uint64_injective hnonce, jsonTier_injective htier, bool_injective hcontract,
    Text.digits_uint64_injective hepoch⟩

theorem accountText_injective {a b : Account}
    (h : a.address ++ accountJson a = b.address ++ accountJson b) : a = b := by
  have e := congrArg String.toList h
  rw [toList_accountText, toList_accountText] at e
  have hlabels : (accountFields a).map Prod.fst = (accountFields b).map Prod.fst := rfl
  obtain ⟨haddress, hfields⟩ := Text.record_inj hlabels (colon_notMem_accountFields a)
    (colon_notMem_accountFields b) e
  exact Account.eq_of_accountFields (addressText_injective haddress) hfields

theorem accountInput_injective {e e' : String × Account} (he : e.2.address = e.1)
    (he' : e'.2.address = e'.1) (h : accountInput e = accountInput e') : e = e' := by
  obtain ⟨x, a⟩ := e
  obtain ⟨y, b⟩ := e'
  obtain rfl : a.address = x := he
  obtain rfl : b.address = y := he'
  rw [accountText_injective (String.toByteArray_inj.1 h)]

/-! ## The joined hashes -/

/-- The hashes of the accounts, in key order. -/
def accountHashes (H : Sha3) (t : AccountTree) : List String :=
  t.toList.map fun e => H.sha3256Hex (accountInput e)

/-- The bytes hashed last, for the root itself. -/
def rootInput (H : Sha3) (t : AccountTree) : ByteArray :=
  if t.toList = [] then emptyStateInput else joinedInput (accountHashes H t)

/-- The root of an account tree. -/
def stateRoot (H : Sha3) (t : AccountTree) : String := H.sha3256Hex (rootInput H t)

theorem run_computeStateRoot (H : Sha3) (db : KyveraDb) :
    (computeStateRoot H).run db = (.ok (stateRoot H db.accounts), db) := by
  have hempty : (accountHashes H db.accounts).isEmpty = true ↔ db.accounts.toList = [] := by
    rw [List.isEmpty_iff, accountHashes, List.map_eq_nil_iff]
  show Prog.run (if (accountHashes H db.accounts).isEmpty = true then
      pure (H.sha3256Hex emptyStateInput)
    else pure (H.sha3256Hex (joinedInput (accountHashes H db.accounts)))) db = _
  unfold stateRoot rootInput
  by_cases h : db.accounts.toList = []
  · rw [if_pos h, if_pos (hempty.2 h)]
    rfl
  · rw [if_neg h, if_neg (fun e => h (hempty.1 e))]
    rfl

theorem computeStateRoot_congr {H : Sha3} {db db' : KyveraDb} (h : db.accounts = db'.accounts) :
    ((computeStateRoot H).run db).1 = ((computeStateRoot H).run db').1 := by
  rw [run_computeStateRoot, run_computeStateRoot, h]

/-- Everything that is hashed to compute a state root. -/
def stateRootInputs (H : Sha3) (t : AccountTree) : List ByteArray :=
  t.toList.map accountInput ++ [rootInput H t]

theorem length_accountHashes {H : Sha3} {t : AccountTree} :
    ∀ s ∈ accountHashes H t, s.toList.length = 64 := by
  intro s hs
  obtain ⟨e, -, rfl⟩ := List.mem_map.1 hs
  exact H.length_hex _

theorem toList_join_mergeSort (l : List String) :
    (String.join (l.mergeSort (· ≤ ·))).toList =
      ((l.mergeSort (· ≤ ·)).map String.toList).flatten := by
  simp [List.flatMap_def]

theorem length_of_mem_mergeSort {l : List String} (hl : ∀ s ∈ l, s.toList.length = 64) :
    ∀ cs ∈ (l.mergeSort (· ≤ ·)).map String.toList, cs.length = 64 := by
  intro cs hcs
  obtain ⟨s, hs, rfl⟩ := List.mem_map.1 hcs
  exact hl s (List.mem_mergeSort.1 hs)

/-- Lists of hashes that join to the same bytes have the same members. -/
theorem perm_of_joinedInput_eq {l l' : List String} (hl : ∀ s ∈ l, s.toList.length = 64)
    (hl' : ∀ s ∈ l', s.toList.length = 64) (h : joinedInput l = joinedInput l') : l.Perm l' := by
  have e := congrArg String.toList (String.toByteArray_inj.1 h)
  rw [toList_join_mergeSort, toList_join_mergeSort] at e
  have hmap := Text.flatten_inj (by decide) (length_of_mem_mergeSort hl)
    (length_of_mem_mergeSort hl') e
  have hsorted : l.mergeSort (· ≤ ·) = l'.mergeSort (· ≤ ·) :=
    List.map_injective_iff.2 (fun _ _ => String.toList_injective) hmap
  exact (List.mergeSort_perm l _).symm.trans (hsorted ▸ List.mergeSort_perm l' _)

/-- The text of the empty state is no list of hashes: its length is not a multiple of 64. -/
theorem emptyStateInput_ne_joinedInput {l : List String} (hl : ∀ s ∈ l, s.toList.length = 64) :
    emptyStateInput ≠ joinedInput l := by
  intro h
  have e := congrArg String.toList (String.toByteArray_inj.1 h)
  rw [toList_join_mergeSort] at e
  have hlength := congrArg List.length e
  rw [Text.length_flatten_of_forall (length_of_mem_mergeSort hl)] at hlength
  have hsentinel : "kyvera-empty-state".toList.length = 18 := by decide
  omega

/-! ## The root -/

theorem mem_of_accountHashes_perm {H : Sha3} {t t' : AccountTree} (ht : t.WellFormed)
    (ht' : t'.WellFormed)
    (hfree : H.CollisionFree (t.toList.map accountInput ++ t'.toList.map accountInput))
    (h : (accountHashes H t).Perm (accountHashes H t')) {e : String × Account}
    (he : e ∈ t.toList) : e ∈ t'.toList := by
  have hmem : H.sha3256Hex (accountInput e) ∈ accountHashes H t' :=
    h.mem_iff.1 (List.mem_map_of_mem he)
  obtain ⟨e', he', hhash⟩ := List.mem_map.1 hmem
  have hinput : accountInput e = accountInput e' :=
    hfree.eq (List.mem_append_left _ (List.mem_map_of_mem he))
      (List.mem_append_right _ (List.mem_map_of_mem he')) hhash.symm
  have haddress : e.2.address = e.1 := ht e.1 e.2 (ExtTreeMap.mem_toList_iff_getElem?_eq_some.1 he)
  have haddress' : e'.2.address = e'.1 :=
    ht' e'.1 e'.2 (ExtTreeMap.mem_toList_iff_getElem?_eq_some.1 he')
  rw [accountInput_injective haddress haddress' hinput]
  exact he'

theorem AccountTree.eq_of_mem_iff {t t' : AccountTree}
    (h : ∀ e : String × Account, e ∈ t.toList ↔ e ∈ t'.toList) : t = t' := by
  apply ExtTreeMap.ext_getElem?
  intro x
  apply Option.ext
  intro a
  simp only [← ExtTreeMap.mem_toList_iff_getElem?_eq_some]
  exact h (x, a)

/-- Trees that hash the same final bytes are the same. -/
theorem AccountTree.eq_of_rootInput_eq {H : Sha3} {t t' : AccountTree} (ht : t.WellFormed)
    (ht' : t'.WellFormed)
    (hfree : H.CollisionFree (t.toList.map accountInput ++ t'.toList.map accountInput))
    (h : rootInput H t = rootInput H t') : t = t' := by
  unfold rootInput at h
  split_ifs at h with hnil hnil' hnil'
  · apply AccountTree.eq_of_mem_iff
    intro e
    rw [hnil, hnil']
  · exact absurd h (emptyStateInput_ne_joinedInput length_accountHashes)
  · exact absurd h.symm (emptyStateInput_ne_joinedInput length_accountHashes)
  · have hperm := perm_of_joinedInput_eq length_accountHashes length_accountHashes h
    have hfree' : H.CollisionFree (t'.toList.map accountInput ++ t.toList.map accountInput) :=
      hfree.mono (List.append_subset.2
        ⟨List.subset_append_right _ _, List.subset_append_left _ _⟩)
    exact AccountTree.eq_of_mem_iff fun e =>
      ⟨mem_of_accountHashes_perm ht ht' hfree hperm,
        mem_of_accountHashes_perm ht' ht hfree' hperm.symm⟩

/-- The state root commits to the state: two stores, however they were built, have the same root
exactly when they hold the same accounts, if no two texts hashed for the roots collide. -/
theorem computeStateRoot_eq_iff {H : Sha3} {db db' : KyveraDb} (hwf : db.WellFormed)
    (hwf' : db'.WellFormed)
    (hfree : H.CollisionFree (stateRootInputs H db.accounts ++ stateRootInputs H db'.accounts)) :
    ((computeStateRoot H).run db).1 = ((computeStateRoot H).run db').1 ↔
      db.accounts = db'.accounts := by
  refine ⟨fun h => ?_, computeStateRoot_congr⟩
  rw [run_computeStateRoot, run_computeStateRoot] at h
  have hroot : stateRoot H db.accounts = stateRoot H db'.accounts := Outcome.ok.inj h
  have hinput : rootInput H db.accounts = rootInput H db'.accounts := by
    apply hfree.eq _ _ hroot
    · exact List.mem_append_left _ (List.mem_append_right _ (List.mem_singleton.2 rfl))
    · exact List.mem_append_right _ (List.mem_append_right _ (List.mem_singleton.2 rfl))
  apply AccountTree.eq_of_rootInput_eq hwf hwf' _ hinput
  apply hfree.mono
  apply List.append_subset.2
  constructor
  · exact List.Subset.trans (List.subset_append_left _ _) (List.subset_append_left _ _)
  · exact List.Subset.trans (List.subset_append_left _ _) (List.subset_append_right _ _)

/-- Two stores that differ in one balance have different roots. -/
theorem computeStateRoot_ne_of_balance :
    let db := KyveraDb.withAccounts [{ Account.new "a" with balance := 1 }]
    let db' := KyveraDb.withAccounts [{ Account.new "a" with balance := 2 }]
    ((computeStateRoot Sha3.checksum).run db).1 ≠ ((computeStateRoot Sha3.checksum).run db').1 := by
  intro db db' h
  have hnodup : ((stateRootInputs Sha3.checksum db.accounts ++
      stateRootInputs Sha3.checksum db'.accounts).map Sha3.checksum.sha3256Hex).Nodup := by
    decide +kernel
  have hfree : Sha3.checksum.CollisionFree (stateRootInputs Sha3.checksum db.accounts ++
      stateRootInputs Sha3.checksum db'.accounts) :=
    Sha3.collisionFree_of_nodup hnodup
  have heq := (computeStateRoot_eq_iff (KyveraDb.wellFormed_withAccounts _)
    (KyveraDb.wellFormed_withAccounts _) hfree).1 h
  have hbalance := congrArg (fun t : AccountTree => (t.account "a").balance) heq
  revert hbalance
  decide +kernel

end Kyvera
