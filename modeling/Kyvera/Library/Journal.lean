import Kyvera.Library.TreeSum

/-!
# Journals

A journal is a list of entries in the order in which they were written.  Each entry has a key, and
of the entries with one key the last one counts.  Read by key, a journal is the list of the entries
that count, in the order of their keys.
-/

namespace Journal

open Std

variable {α ι κ : Type}

section Last

variable [DecidableEq ι] [DecidableEq κ] {f : α → κ} {entries : List α} {a : α} {k : κ}

/-- The entry with a key that was written last. -/
def last (f : α → κ) (entries : List α) (k : κ) : Option α :=
  entries.reverse.find? fun a => f a = k

@[simp] theorem last_nil (f : α → κ) (k : κ) : last f [] k = none := rfl

theorem last_concat (f : α → κ) (entries : List α) (a : α) (k : κ) :
    last f (entries ++ [a]) k = if f a = k then some a else last f entries k := by
  unfold last
  rw [List.reverse_concat, List.find?_cons]
  by_cases h : f a = k
  · rw [if_pos h, decide_eq_true h]
  · rw [if_neg h, decide_eq_false h]

theorem key_of_last (h : last f entries k = some a) : f a = k := by
  have hfound := List.find?_some h
  exact of_decide_eq_true hfound

theorem mem_of_last (h : last f entries k = some a) : a ∈ entries :=
  List.mem_reverse.1 (List.mem_of_find?_eq_some h)

theorem exists_last (h : a ∈ entries) : ∃ b, last f entries (f a) = some b := by
  rw [← Option.isSome_iff_exists, last, List.find?_isSome]
  exact ⟨a, List.mem_reverse.2 h, decide_eq_true rfl⟩

theorem last_filter (g : α → ι) (i : ι) (f : α → κ) (entries : List α) (k : κ) :
    last f (entries.filter fun a => g a = i) k = last (fun a => (g a, f a)) entries (i, k) := by
  unfold last
  rw [← List.filter_reverse, List.find?_filter]
  congr 1
  funext a
  exact decide_eq_decide.2 (by rw [decide_eq_true_iff, decide_eq_true_iff, Prod.mk.injEq])

end Last

section ByKey

variable [Ord κ] [TransOrd κ] [LawfulEqOrd κ] [DecidableEq κ] {f : α → κ} {entries : List α} {a : α}

/-- The entries that count, each under its key. -/
def index (f : α → κ) (entries : List α) : ExtTreeMap κ α :=
  entries.foldl (fun t a => t.insert (f a) a) ∅

/-- The entries that count, in the order of their keys. -/
def byKey (f : α → κ) (entries : List α) : List α := (index f entries).toList.map Prod.snd

theorem getElem?_index (f : α → κ) (entries : List α) (k : κ) :
    (index f entries)[k]? = last f entries k := by
  induction entries using List.reverseRecOn with
  | nil => exact ExtTreeMap.getElem?_empty
  | append_singleton entries a ih =>
      have hconcat : index f (entries ++ [a]) = (index f entries).insert (f a) a :=
        List.foldl_concat ..
      rw [hconcat, last_concat]
      by_cases h : f a = k
      · rw [if_pos h, h, ExtTreeMap.getElem?_insert_self]
      · rw [if_neg h, TreeSum.getElem?_insert_of_ne _ _ h, ih]

theorem mem_toList_index_iff {k : κ} : (k, a) ∈ (index f entries).toList ↔
    last f entries k = some a := by
  rw [ExtTreeMap.mem_toList_iff_getElem?_eq_some, getElem?_index]

theorem mem_byKey_iff : a ∈ byKey f entries ↔ last f entries (f a) = some a := by
  unfold byKey
  rw [List.mem_map]
  constructor
  · rintro ⟨⟨k, b⟩, hmem, rfl⟩
    have hlast := mem_toList_index_iff.1 hmem
    rw [key_of_last hlast]
    exact hlast
  · exact fun h => ⟨(f a, a), mem_toList_index_iff.2 h, rfl⟩

theorem pairwise_byKey (f : α → κ) (entries : List α) :
    (byKey f entries).Pairwise fun a b => compare (f a) (f b) = .lt := by
  have hordered : (index f entries).toList.Pairwise fun d e => compare (f d.2) (f e.2) = .lt := by
    refine ExtTreeMap.ordered_keys_toList.imp_of_mem ?_
    intro d e hd he h
    rwa [key_of_last (mem_toList_index_iff.1 hd), key_of_last (mem_toList_index_iff.1 he)]
  exact List.pairwise_map.2 hordered

end ByKey

end Journal
