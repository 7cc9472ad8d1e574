import Mathlib

/-!
# Trees built layer by layer

Neighbours in a layer are combined into the next one, and a last element without a neighbour is
combined with itself, until one element is left.  If no two of the combined pairs have the same
result, then two layers have the same top exactly when one of them, every odd layer completed by
the repetition of its last element, is a layer of the other one's tree.
-/

namespace LayerTree

universe u

variable {α β : Type u}

/-! ## Pairs of neighbours -/

/-- The pairs of neighbours in a layer. -/
def pairUp : List α → List (α × α)
  | [] => []
  | [a] => [(a, a)]
  | a :: b :: rest => (a, b) :: pairUp rest

theorem length_pairUp : ∀ l : List α, (pairUp l).length = (l.length + 1) / 2
  | [] => by simp [pairUp]
  | [_] => by simp [pairUp]
  | _ :: _ :: rest => by
      simp only [pairUp, List.length_cons, length_pairUp rest]
      omega

theorem pairUp_map (g : α → β) : ∀ l : List α, pairUp (l.map g) = (pairUp l).map (Prod.map g g)
  | [] => rfl
  | [_] => rfl
  | _ :: _ :: rest => by
      simp only [pairUp, List.map_cons, pairUp_map g rest, Prod.map]

theorem mem_of_mem_pairUp {p : α × α} : ∀ {l : List α}, p ∈ pairUp l → p.1 ∈ l ∧ p.2 ∈ l
  | [], h => absurd h List.not_mem_nil
  | [a], h => by
      rw [pairUp, List.mem_singleton] at h
      subst h
      simp
  | a :: b :: rest, h => by
      rw [pairUp, List.mem_cons] at h
      rcases h with rfl | h
      · simp
      · obtain ⟨h1, h2⟩ := mem_of_mem_pairUp h
        simp [h1, h2]

theorem getElem?_pairUp : ∀ (l : List α) (j : ℕ),
    (pairUp l)[j]? = l[2 * j]?.map fun a => (a, l[2 * j + 1]?.getD a)
  | [], j => by simp [pairUp]
  | [_], 0 => rfl
  | [_], j + 1 => by simp [pairUp]
  | _ :: _ :: _, 0 => rfl
  | _ :: _ :: rest, j + 1 => by
      rw [pairUp, List.getElem?_cons_succ, getElem?_pairUp rest j]
      rfl

theorem pairUp_flatMap : ∀ ps : List (α × α), pairUp (ps.flatMap fun p => [p.1, p.2]) = ps
  | [] => rfl
  | p :: ps => by
      rw [List.flatMap_cons, List.cons_append, List.cons_append, List.nil_append, pairUp,
        pairUp_flatMap ps]

/-! ## Completed layers -/

/-- The layer with every odd layer of its tree completed by a repetition of its last element. -/
def complete {α : Type u} (l : List α) : List α :=
  if 1 < l.length then (complete (pairUp l)).flatMap fun p => [p.1, p.2] else l
termination_by l.length
decreasing_by
  rw [length_pairUp]
  omega

theorem complete_of_lt {l : List α} (h : 1 < l.length) :
    complete l = (complete (pairUp l)).flatMap fun p => [p.1, p.2] := by
  rw [complete, if_pos h]

theorem complete_of_not_lt {l : List α} (h : ¬ 1 < l.length) : complete l = l := by
  rw [complete, if_neg h]

theorem complete_map {α β : Type u} (g : α → β) (l : List α) :
    complete (l.map g) = (complete l).map g := by
  by_cases h : 1 < l.length
  · rw [complete_of_lt h, complete_of_lt (by rwa [List.length_map]), pairUp_map,
      complete_map (Prod.map g g) (pairUp l), List.flatMap_map, List.map_flatMap]
    rfl
  · rw [complete_of_not_lt h, complete_of_not_lt (by rwa [List.length_map])]
termination_by l.length
decreasing_by
  rw [length_pairUp]
  omega

theorem mem_of_mem_complete {α : Type u} {l : List α} {a : α} (h : a ∈ complete l) : a ∈ l := by
  by_cases hl : 1 < l.length
  · rw [complete_of_lt hl, List.mem_flatMap] at h
    obtain ⟨p, hp, ha⟩ := h
    obtain ⟨h1, h2⟩ := mem_of_mem_pairUp (mem_of_mem_complete hp)
    rcases List.mem_cons.1 ha with rfl | ha
    · exact h1
    · rwa [List.mem_singleton.1 ha]
  · rwa [complete_of_not_lt hl] at h
termination_by l.length
decreasing_by
  rw [length_pairUp]
  omega

theorem length_le_length_complete {α : Type u} (l : List α) :
    l.length ≤ (complete l).length := by
  by_cases hl : 1 < l.length
  · have ih := length_le_length_complete (pairUp l)
    rw [length_pairUp] at ih
    rw [complete_of_lt hl, List.length_flatMap]
    simp only [List.length_cons, List.length_nil, List.map_const', List.sum_replicate, smul_eq_mul]
    omega
  · rw [complete_of_not_lt hl]
termination_by l.length
decreasing_by
  rw [length_pairUp]
  omega

/-! ## The tree above a layer -/

section Tree

variable (f : α → α → α)

/-- The layer above a layer. -/
def nextLayer (l : List α) : List α := (pairUp l).map fun p => f p.1 p.2

theorem length_nextLayer (l : List α) : (nextLayer f l).length = (l.length + 1) / 2 := by
  rw [nextLayer, List.length_map, length_pairUp]

/-- What is left when the layers are built one above the other until one has a single element. -/
def top (l : List α) : List α :=
  if 1 < l.length then top (nextLayer f l) else l
termination_by l.length
decreasing_by
  rw [length_nextLayer]
  omega

/-- The pairs that are combined on the way up. -/
def pairs (l : List α) : List (α × α) :=
  if 1 < l.length then pairUp l ++ pairs (nextLayer f l) else []
termination_by l.length
decreasing_by
  rw [length_nextLayer]
  omega

/-- The layers from the bottom to the top. -/
def layers (l : List α) : List (List α) :=
  l :: if 1 < l.length then layers (nextLayer f l) else []
termination_by l.length
decreasing_by
  rw [length_nextLayer]
  omega

variable {f} {l m : List α}

theorem top_of_lt (h : 1 < l.length) : top f l = top f (nextLayer f l) := by
  rw [top, if_pos h]

theorem top_of_not_lt (h : ¬ 1 < l.length) : top f l = l := by
  rw [top, if_neg h]

theorem pairs_of_lt (h : 1 < l.length) : pairs f l = pairUp l ++ pairs f (nextLayer f l) := by
  rw [pairs, if_pos h]

theorem layers_of_lt (h : 1 < l.length) : layers f l = l :: layers f (nextLayer f l) := by
  rw [layers, if_pos h]

theorem layers_of_not_lt (h : ¬ 1 < l.length) : layers f l = [l] := by
  rw [layers, if_neg h]

theorem self_mem_layers : l ∈ layers f l := by
  rw [layers]
  exact List.mem_cons_self

/-- What holds of the bottom and carries over to the next layer holds of every layer. -/
theorem forall_mem_layers {I : List α → Prop} (h0 : I l)
    (hnext : ∀ m, 1 < m.length → I m → I (nextLayer f m)) : ∀ m ∈ layers f l, I m := by
  induction l using top.induct f with
  | case1 l hl ih =>
      rw [layers_of_lt hl, List.forall_mem_cons]
      exact ⟨h0, ih (hnext l hl h0)⟩
  | case2 l hl =>
      rw [layers_of_not_lt hl, List.forall_mem_singleton]
      exact h0

/-- All layers of a tree have its top. -/
theorem top_eq_of_mem_layers (h : m ∈ layers f l) : top f m = top f l := by
  refine forall_mem_layers (I := fun m => top f m = top f l) rfl (fun m hm e => ?_) m h
  rw [← top_of_lt hm, e]

theorem top_mem_layers : top f l ∈ layers f l := by
  induction l using top.induct f with
  | case1 l hl ih =>
      rw [layers_of_lt hl, top_of_lt hl]
      exact List.mem_cons_of_mem _ ih
  | case2 l hl =>
      rw [top_of_not_lt hl]
      exact self_mem_layers

theorem exists_of_mem_layers_nextLayer (hl : 1 < l.length) (h : m ∈ layers f (nextLayer f l)) :
    ∃ m' ∈ layers f l, 1 < m'.length ∧ m = nextLayer f m' := by
  induction l using top.induct f with
  | case2 l hl' => exact absurd hl hl'
  | case1 l _ ih =>
      by_cases hnext : 1 < (nextLayer f l).length
      · rw [layers_of_lt hnext, List.mem_cons] at h
        rcases h with rfl | h
        · exact ⟨l, self_mem_layers, hl, rfl⟩
        · obtain ⟨m', hm', hlt, e⟩ := ih hnext h
          rw [layers_of_lt hl]
          exact ⟨m', List.mem_cons_of_mem _ hm', hlt, e⟩
      · rw [layers_of_not_lt hnext, List.mem_singleton] at h
        exact ⟨l, self_mem_layers, hl, h⟩

/-- The pairs above a layer are combined in every tree that has the layer. -/
theorem pairUp_subset_pairs (h : m ∈ layers f l) (hm : 1 < m.length) :
    pairUp m ⊆ pairs f l := by
  induction l using top.induct f with
  | case1 l hl ih =>
      rw [layers_of_lt hl, List.mem_cons] at h
      rw [pairs_of_lt hl]
      rcases h with rfl | h
      · exact List.subset_append_left _ _
      · exact fun p hp => List.mem_append_right _ (ih h hp)
  | case2 l hl =>
      rw [layers_of_not_lt hl, List.mem_singleton] at h
      exact absurd (h ▸ hm) hl

theorem forall_mem_pairs {P : α → Prop} (hl : ∀ a ∈ l, P a) (hf : ∀ a b, P (f a b)) :
    ∀ p ∈ pairs f l, P p.1 ∧ P p.2 := by
  induction l using top.induct f with
  | case1 l hlt ih =>
      have hnext : ∀ a ∈ nextLayer f l, P a := by
        intro a ha
        obtain ⟨p, _, rfl⟩ := List.mem_map.1 ha
        exact hf p.1 p.2
      rw [pairs_of_lt hlt]
      intro p hp
      rcases List.mem_append.1 hp with hp | hp
      · obtain ⟨h1, h2⟩ := mem_of_mem_pairUp hp
        exact ⟨hl _ h1, hl _ h2⟩
      · exact ih hnext p hp
  | case2 l hlt =>
      rw [pairs, if_neg hlt]
      exact List.forall_mem_nil _

/-! ## Trees with one top -/

theorem complete_nextLayer (l : List α) :
    complete (nextLayer f l) = (complete (pairUp l)).map fun p => f p.1 p.2 :=
  complete_map _ _

theorem top_complete (l : List α) : top f (complete l) = top f l := by
  induction l using top.induct f with
  | case1 l hl ih =>
      have hc := lt_of_lt_of_le hl (length_le_length_complete l)
      have hnext : nextLayer f (complete l) = complete (nextLayer f l) := by
        rw [complete_nextLayer, complete_of_lt hl, nextLayer, pairUp_flatMap]
      rw [top_of_lt hc, hnext, ih, ← top_of_lt hl]
  | case2 l hl => rw [complete_of_not_lt hl]

variable (f) in
/-- A layer of the second tree is the first list, up to the completion of odd layers. -/
def Reaches (l l' : List α) : Prop := ∃ m ∈ layers f l', complete l = complete m

theorem complete_eq_nil_iff {l : List α} : complete l = [] ↔ l = [] := by
  constructor
  · intro h
    have hle := length_le_length_complete l
    rw [h, List.length_nil, Nat.le_zero, List.length_eq_zero_iff] at hle
    exact hle
  · rintro rfl
    exact complete_of_not_lt (by simp)

/-- A tree has an empty layer only above no element at all. -/
theorem eq_nil_of_nil_mem_layers (h : [] ∈ layers f l) : l = [] := by
  by_contra hne
  refine forall_mem_layers (f := f) (I := fun m => m ≠ []) hne (fun m hm _ hnext => ?_) [] h rfl
  have hlength := length_nextLayer f m
  rw [hnext, List.length_nil] at hlength
  omega

theorem reaches_nil_left {l' : List α} : Reaches f [] l' ↔ l' = [] := by
  constructor
  · rintro ⟨m, hm, e⟩
    rw [complete_of_not_lt (by simp)] at e
    rw [complete_eq_nil_iff.1 e.symm] at hm
    exact eq_nil_of_nil_mem_layers hm
  · rintro rfl
    exact ⟨[], self_mem_layers, rfl⟩

theorem reaches_nil_right : Reaches f l [] ↔ l = [] := by
  constructor
  · rintro ⟨m, hm, e⟩
    rw [layers_of_not_lt (by simp), List.mem_singleton] at hm
    subst hm
    rwa [complete_of_not_lt (l := []) (by simp), complete_eq_nil_iff] at e
  · rintro rfl
    exact ⟨[], self_mem_layers, rfl⟩

theorem Reaches.top_eq {l l' : List α} (h : Reaches f l l') : top f l = top f l' := by
  obtain ⟨m, hm, e⟩ := h
  rw [← top_complete l, e, top_complete, top_eq_of_mem_layers hm]

theorem eq_of_map_eq {s : Set α} {g : α → β} (hg : Set.InjOn g s) {l l' : List α}
    (hl : ∀ a ∈ l, a ∈ s) (hl' : ∀ a ∈ l', a ∈ s) (h : l.map g = l'.map g) : l = l' := by
  induction l generalizing l' with
  | nil => exact (List.map_eq_nil_iff.1 h.symm).symm
  | cons a l ih =>
      cases l' with
      | nil => simp at h
      | cons a' l' =>
          rw [List.map_cons, List.map_cons, List.cons.injEq] at h
          rw [List.forall_mem_cons] at hl hl'
          rw [hg hl.1 hl'.1 h.1, ih hl.2 hl'.2 h.2]

/-- Without collisions, two lists have one completion if the layers above them do. -/
theorem complete_eq_of_nextLayer {s : Set (α × α)}
    (hf : Set.InjOn (fun p : α × α => f p.1 p.2) s) {l l' : List α} (hl : 1 < l.length)
    (hl' : 1 < l'.length) (hs : ∀ p ∈ pairUp l, p ∈ s) (hs' : ∀ p ∈ pairUp l', p ∈ s)
    (h : complete (nextLayer f l) = complete (nextLayer f l')) : complete l = complete l' := by
  rw [complete_nextLayer, complete_nextLayer] at h
  have hpairs : complete (pairUp l) = complete (pairUp l') :=
    eq_of_map_eq hf (fun p hp => hs p (mem_of_mem_complete hp))
      (fun p hp => hs' p (mem_of_mem_complete hp)) h
  rw [complete_of_lt hl, complete_of_lt hl', hpairs]

/-- A list that reaches the layer above another one in its tree reaches that one in its own. -/
theorem Reaches.of_nextLayer {s : Set (α × α)}
    (hf : Set.InjOn (fun p : α × α => f p.1 p.2) s) {l l' : List α} (hl : 1 < l.length)
    (hl' : 1 < l'.length) (hs : ∀ p ∈ pairs f l, p ∈ s) (hs' : ∀ p ∈ pairs f l', p ∈ s)
    (h : Reaches f (nextLayer f l) (nextLayer f l')) : Reaches f l l' := by
  obtain ⟨m, hm, e⟩ := h
  obtain ⟨m', hm', hlt, rfl⟩ := exists_of_mem_layers_nextLayer hl' hm
  have hpairs : ∀ p ∈ pairUp l, p ∈ s := fun p hp => hs p (pairUp_subset_pairs self_mem_layers hl hp)
  have hpairs' : ∀ p ∈ pairUp m', p ∈ s := fun p hp => hs' p (pairUp_subset_pairs hm' hlt hp)
  exact ⟨m', hm', complete_eq_of_nextLayer hf hl hlt hpairs hpairs' e⟩

/-- Without collisions, two trees have one top only if a layer of one is, up to the completion of
odd layers, the bottom of the other. -/
theorem reaches_of_top_eq {s : Set (α × α)} (hf : Set.InjOn (fun p : α × α => f p.1 p.2) s)
    {l l' : List α} (hs : ∀ p ∈ pairs f l, p ∈ s) (hs' : ∀ p ∈ pairs f l', p ∈ s)
    (h : top f l = top f l') : Reaches f l l' ∨ Reaches f l' l := by
  induction l using top.induct f generalizing l' with
  | case2 l hl =>
      rw [top_of_not_lt hl] at h
      exact .inl ⟨_, top_mem_layers, by rw [h]⟩
  | case1 l hl ih =>
      by_cases hl' : 1 < l'.length
      · rw [top_of_lt hl, top_of_lt hl'] at h
        have hup : ∀ p ∈ pairs f (nextLayer f l), p ∈ s := by
          intro p hp
          apply hs
          rw [pairs_of_lt hl]
          exact List.mem_append_right _ hp
        have hup' : ∀ p ∈ pairs f (nextLayer f l'), p ∈ s := by
          intro p hp
          apply hs'
          rw [pairs_of_lt hl']
          exact List.mem_append_right _ hp
        rcases ih hup hup' h with hr | hr
        · exact .inl (hr.of_nextLayer hf hl hl' hs hs')
        · exact .inr (hr.of_nextLayer hf hl' hl hs' hs)
      · rw [top_of_not_lt hl'] at h
        exact .inr ⟨_, top_mem_layers, by rw [h]⟩

theorem top_eq_iff {s : Set (α × α)} (hf : Set.InjOn (fun p : α × α => f p.1 p.2) s)
    {l l' : List α} (hs : ∀ p ∈ pairs f l, p ∈ s) (hs' : ∀ p ∈ pairs f l', p ∈ s) :
    top f l = top f l' ↔ Reaches f l l' ∨ Reaches f l' l := by
  constructor
  · exact reaches_of_top_eq hf hs hs'
  · rintro (h | h)
    · exact h.top_eq
    · exact h.top_eq.symm

end Tree

end LayerTree
