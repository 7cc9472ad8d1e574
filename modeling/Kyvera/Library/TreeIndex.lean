import Kyvera.Library.TreeSum

/-!
# Secondary indexes of ordered maps

An index of a map is a set that holds `f v` for every stored value `v` and nothing else.  It
follows an insertion under a fresh key by one insertion, and a removal by one removal as long as
no two stored values share an index key.
-/

namespace TreeIndex

open Std

variable {κ β ι : Type} [Ord κ] [TransOrd κ] {f : β → ι} {t : ExtTreeMap κ β} {I : Set ι} {k : κ}
  {v : β}

/-- The set holds exactly the index keys of the stored values. -/
def Indexes (f : β → ι) (t : ExtTreeMap κ β) (I : Set ι) : Prop :=
  ∀ i, i ∈ I ↔ ∃ (k : κ) (v : β), t[k]? = some v ∧ f v = i

/-- No two stored values share an index key. -/
def Unique (f : β → ι) (t : ExtTreeMap κ β) : Prop :=
  ∀ (k k' : κ) (v v' : β), t[k]? = some v → t[k']? = some v' → f v = f v' → k = k'

theorem indexes_empty : Indexes f (∅ : ExtTreeMap κ β) ∅ := by
  intro i
  simp

theorem unique_empty : Unique f (∅ : ExtTreeMap κ β) := by
  intro k k' v v' h
  simp at h

variable [LawfulEqOrd κ]

theorem getElem?_insert_eq_some_iff {k' : κ} {v' : β} :
    (t.insert k v)[k']? = some v' ↔ k' = k ∧ v' = v ∨ k' ≠ k ∧ t[k']? = some v' := by
  by_cases h : k' = k
  · subst h
    simp [eq_comm]
  · simp [TreeSum.getElem?_insert_of_ne t v (Ne.symm h), h]

theorem getElem?_erase_eq_some_iff {k' : κ} {v' : β} :
    (t.erase k)[k']? = some v' ↔ k' ≠ k ∧ t[k']? = some v' := by
  by_cases h : k' = k
  · subst h
    simp
  · simp [TreeSum.getElem?_erase_of_ne t (Ne.symm h), h]

theorem insert_eq_self_iff : t.insert k v = t ↔ t[k]? = some v := by
  constructor
  · intro h
    rw [← h]
    exact ExtTreeMap.getElem?_insert_self
  · intro h
    apply ExtTreeMap.ext_getElem?
    intro k'
    by_cases hk : k = k'
    · rw [← hk, ExtTreeMap.getElem?_insert_self, h]
    · exact TreeSum.getElem?_insert_of_ne t v hk

theorem Indexes.insert (h : Indexes f t I) (hk : t[k]? = none) :
    Indexes f (t.insert k v) (Insert.insert (f v) I) := by
  intro i
  rw [Set.mem_insert_iff, h i]
  constructor
  · rintro (rfl | ⟨k', v', hv', rfl⟩)
    · exact ⟨k, v, ExtTreeMap.getElem?_insert_self, rfl⟩
    · refine ⟨k', v', getElem?_insert_eq_some_iff.2 (.inr ⟨?_, hv'⟩), rfl⟩
      rintro rfl
      rw [hk] at hv'
      cases hv'
  · rintro ⟨k', v', hv', rfl⟩
    rcases getElem?_insert_eq_some_iff.1 hv' with ⟨-, rfl⟩ | ⟨-, hv'⟩
    · exact .inl rfl
    · exact .inr ⟨k', v', hv', rfl⟩

theorem Unique.insert (h : Unique f t) (hI : Indexes f t I) (hv : f v ∉ I) :
    Unique f (t.insert k v) := by
  have fresh : ∀ (k' : κ) (v' : β), t[k']? = some v' → f v' ≠ f v := by
    intro k' v' hv' e
    exact hv ((hI _).2 ⟨k', v', hv', e⟩)
  intro k₁ k₂ v₁ v₂ h₁ h₂ e
  rcases getElem?_insert_eq_some_iff.1 h₁ with ⟨rfl, rfl⟩ | ⟨-, g₁⟩ <;>
    rcases getElem?_insert_eq_some_iff.1 h₂ with ⟨rfl, rfl⟩ | ⟨-, g₂⟩
  · rfl
  · exact absurd e.symm (fresh k₂ v₂ g₂)
  · exact absurd e (fresh k₁ v₁ g₁)
  · exact h k₁ k₂ v₁ v₂ g₁ g₂ e

theorem Indexes.erase (h : Indexes f t I) (hu : Unique f t) (hk : t[k]? = some v) :
    Indexes f (t.erase k) (I \ {f v}) := by
  intro i
  rw [Set.mem_sdiff, Set.mem_singleton_iff, h i]
  constructor
  · rintro ⟨⟨k', v', hv', rfl⟩, hne⟩
    refine ⟨k', v', getElem?_erase_eq_some_iff.2 ⟨?_, hv'⟩, rfl⟩
    rintro rfl
    rw [hk] at hv'
    exact hne (congrArg f (Option.some.inj hv').symm)
  · rintro ⟨k', v', hv', rfl⟩
    obtain ⟨hne, hv'⟩ := getElem?_erase_eq_some_iff.1 hv'
    exact ⟨⟨k', v', hv', rfl⟩, fun e => hne (hu k' k v' v hv' hk e)⟩

theorem Unique.erase (h : Unique f t) : Unique f (t.erase k) := by
  intro k₁ k₂ v₁ v₂ h₁ h₂ e
  exact h k₁ k₂ v₁ v₂ (getElem?_erase_eq_some_iff.1 h₁).2 (getElem?_erase_eq_some_iff.1 h₂).2 e

end TreeIndex
