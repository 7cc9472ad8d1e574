import Mathlib

/-!
# Sums over ordered maps

The sum of a weight over the entries of an ordered map, and how it changes under a single
insertion or removal.
-/

namespace TreeSum

open Std

variable {κ β : Type} [Ord κ] [TransOrd κ] [LawfulEqOrd κ]

/-- The sum of `w` over the values of a map. -/
def sumOver (w : β → ℕ) (t : ExtTreeMap κ β) : ℕ := (t.toList.map fun e => w e.2).sum

theorem getElem?_insert_of_ne (t : ExtTreeMap κ β) {k k' : κ} (v : β) (h : k ≠ k') :
    (t.insert k v)[k']? = t[k']? := by
  rw [ExtTreeMap.getElem?_insert, if_neg (fun e => h (LawfulEqOrd.eq_of_compare e))]

theorem getElem?_erase_of_ne (t : ExtTreeMap κ β) {k k' : κ} (h : k ≠ k') :
    (t.erase k)[k']? = t[k']? := by
  rw [ExtTreeMap.getElem?_erase, if_neg (fun e => h (LawfulEqOrd.eq_of_compare e))]

theorem nodup_toList (t : ExtTreeMap κ β) : t.toList.Nodup :=
  (ExtTreeMap.distinct_keys_toList (t := t)).imp fun h e => h (by rw [e]; exact ReflOrd.compare_self)

omit [TransOrd κ] in
theorem nodup_of_ordered {l : List (κ × β)}
    (h : l.Pairwise fun d e => compare d.1 e.1 = .lt) : l.Nodup := by
  refine h.imp fun hlt e => ?_
  rw [e, ReflOrd.compare_self] at hlt
  cases hlt

/-- A filtered map, read in key order, is the ordered list of the entries that pass. -/
theorem filter_toList_eq {t : ExtTreeMap κ β} {p : κ × β → Bool} {l : List (κ × β)}
    (hl : l.Pairwise fun d e => compare d.1 e.1 = .lt)
    (hmem : ∀ e, e ∈ l ↔ t[e.1]? = some e.2 ∧ p e = true) : t.toList.filter p = l := by
  have hordered : (t.toList.filter p).Pairwise fun d e => compare d.1 e.1 = .lt :=
    ExtTreeMap.ordered_keys_toList.filter _
  have hperm : (t.toList.filter p).Perm l := by
    rw [List.perm_ext_iff_of_nodup (nodup_of_ordered hordered) (nodup_of_ordered hl)]
    intro e
    rw [hmem, List.mem_filter, ExtTreeMap.mem_toList_iff_getElem?_eq_some]
  refine List.Perm.eq_of_pairwise (fun d e _ _ h h' => ?_) hordered hl hperm
  rw [OrientedOrd.eq_swap, h'] at h
  cases h

/-- The entries after an insertion are the new entry and the entries of the other keys. -/
theorem toList_insert_perm (t : ExtTreeMap κ β) (k : κ) (v : β) :
    (t.insert k v).toList.Perm ((k, v) :: (t.erase k).toList) := by
  refine (List.perm_ext_iff_of_nodup (nodup_toList _) ?_).2 ?_
  · refine List.nodup_cons.2 ⟨fun h => ?_, nodup_toList _⟩
    rw [ExtTreeMap.mem_toList_iff_getElem?_eq_some, ExtTreeMap.getElem?_erase_self] at h
    cases h
  · rintro ⟨k', v'⟩
    rw [List.mem_cons, ExtTreeMap.mem_toList_iff_getElem?_eq_some,
      ExtTreeMap.mem_toList_iff_getElem?_eq_some, Prod.mk.injEq]
    by_cases h : k = k'
    · subst h
      simp [eq_comm]
    · simp [getElem?_insert_of_ne t v h, getElem?_erase_of_ne t h, Ne.symm h]

theorem toList_perm_of_getElem? {t : ExtTreeMap κ β} {k : κ} {v : β} (h : t[k]? = some v) :
    t.toList.Perm ((k, v) :: (t.erase k).toList) := by
  have e : t.insert k v = t := by
    apply ExtTreeMap.ext_getElem?
    intro k'
    by_cases hk : k = k'
    · rw [← hk, ExtTreeMap.getElem?_insert_self, h]
    · rw [getElem?_insert_of_ne t v hk]
  have := toList_insert_perm t k v
  rwa [e] at this

theorem erase_of_getElem?_eq_none {t : ExtTreeMap κ β} {k : κ} (h : t[k]? = none) :
    t.erase k = t := by
  apply ExtTreeMap.ext_getElem?
  intro k'
  by_cases hk : k = k'
  · rw [← hk, ExtTreeMap.getElem?_erase_self, h]
  · rw [getElem?_erase_of_ne t hk]

theorem sumOver_insert_eq (w : β → ℕ) (t : ExtTreeMap κ β) (k : κ) (v : β) :
    sumOver w (t.insert k v) = w v + sumOver w (t.erase k) := by
  unfold sumOver
  rw [((toList_insert_perm t k v).map _).sum_eq, List.map_cons, List.sum_cons]

/-- Removing a key takes its weight out of the sum. -/
theorem sumOver_erase_add (w : β → ℕ) (t : ExtTreeMap κ β) (k : κ) :
    sumOver w (t.erase k) + (t[k]?.map w).getD 0 = sumOver w t := by
  rcases h : t[k]? with _ | v
  · rw [erase_of_getElem?_eq_none h]
    rfl
  · unfold sumOver
    rw [((toList_perm_of_getElem? h).map _).sum_eq, List.map_cons, List.sum_cons, Nat.add_comm]
    rfl

/-- An insertion exchanges the weight stored under its key for the new one. -/
theorem sumOver_insert_add (w : β → ℕ) (t : ExtTreeMap κ β) (k : κ) (v : β) :
    sumOver w (t.insert k v) + (t[k]?.map w).getD 0 = sumOver w t + w v := by
  rw [sumOver_insert_eq, ← sumOver_erase_add w t k]
  omega

theorem nodup_keys (t : ExtTreeMap κ β) : (t.toList.map Prod.fst).Nodup :=
  List.pairwise_map.2 ((ExtTreeMap.distinct_keys_toList (t := t)).imp
    fun h e => h (by rw [e]; exact ReflOrd.compare_self))

theorem getElem?_foldl_erase_eq_some_iff {keys : List κ} {t : ExtTreeMap κ β} {k : κ} {v : β} :
    (keys.foldl (fun t k => t.erase k) t)[k]? = some v ↔ k ∉ keys ∧ t[k]? = some v := by
  induction keys generalizing t with
  | nil => exact (and_iff_right List.not_mem_nil).symm
  | cons k' rest ih =>
      rw [List.foldl_cons, ih, List.mem_cons, not_or]
      by_cases hk : k = k'
      · rw [hk, ExtTreeMap.getElem?_erase_self]
        exact iff_of_false (fun h => nomatch h.2) fun h => h.1.1 rfl
      · rw [getElem?_erase_of_ne t (Ne.symm hk), and_assoc]
        exact (and_iff_right hk).symm

/-- Removing stored entries with distinct keys takes their weights out of the sum. -/
theorem sumOver_foldl_erase_add (w : β → ℕ) (l : List (κ × β)) (t : ExtTreeMap κ β)
    (hnodup : (l.map Prod.fst).Nodup) (hl : ∀ e ∈ l, t[e.1]? = some e.2) :
    sumOver w ((l.map Prod.fst).foldl (fun t k => t.erase k) t) + (l.map fun e => w e.2).sum =
      sumOver w t := by
  induction l generalizing t with
  | nil => rfl
  | cons e rest ih =>
      obtain ⟨hne, hrest⟩ := List.nodup_cons.1 hnodup
      have kept : ∀ e' ∈ rest, (t.erase e.1)[e'.1]? = some e'.2 := by
        intro e' he'
        rw [getElem?_erase_of_ne t, hl e' (List.mem_cons_of_mem e he')]
        intro h
        exact hne (h ▸ List.mem_map_of_mem he')
      have hone := sumOver_erase_add w t e.1
      rw [hl e List.mem_cons_self, Option.map_some, Option.getD_some] at hone
      have hsum := ih (t.erase e.1) hrest kept
      rw [List.map_cons, List.foldl_cons, List.map_cons, List.sum_cons]
      omega

end TreeSum
