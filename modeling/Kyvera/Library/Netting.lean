import Mathlib

/-!
# Guarded actions with additive effects

A list of actions is taken one after the other; each action has a guard that it must meet in the
state where it is taken.  If every action adds a fixed amount to what a guard can see of the
state, then the guards of the whole list can be judged in the state before it: each one sees that
state netted with the actions before it (`Netting.allEnabled_iff`).
-/

namespace Netting

variable {σ α M : Type*}

/-- Every action of a list meets its guard where it is taken. -/
def AllEnabled (enabled : σ → α → Prop) (act : σ → α → σ) : σ → List α → Prop
  | _, [] => True
  | s, a :: rest => enabled s a ∧ AllEnabled enabled act (act s a) rest

/-- Guarded actions on the states of an invariant, seen through `view`: an action adds `change` to
the view, and its guard is a property of the view. -/
structure Additive [Add M] (Inv : σ → Prop) (enabled : σ → α → Prop) (act : σ → α → σ)
    (view : σ → M) (change : α → M) (Admits : M → α → Prop) : Prop where
  inv : ∀ {s a}, Inv s → enabled s a → Inv (act s a)
  view_act : ∀ {s a}, Inv s → enabled s a → view (act s a) = view s + change a
  enabled_iff : ∀ {s a}, Inv s → (enabled s a ↔ Admits (view s) a)

section

variable [AddMonoid M] {Inv : σ → Prop} {enabled : σ → α → Prop} {act : σ → α → σ} {view : σ → M}
  {change : α → M} {Admits : M → α → Prop}

/-- A property of every action of a list and the actions before it. -/
theorem forall_split_cons_iff {P : List α → α → Prop} {a : α} {rest : List α} :
    (∀ pre b post, a :: rest = pre ++ b :: post → P pre b) ↔
      P [] a ∧ ∀ pre b post, rest = pre ++ b :: post → P (a :: pre) b := by
  constructor
  · intro h
    refine ⟨h [] a rest rfl, fun pre b post e => h (a :: pre) b post ?_⟩
    rw [e, List.cons_append]
  · intro h pre b post e
    cases pre with
    | nil =>
        obtain ⟨rfl, -⟩ := List.cons.inj e
        exact h.1
    | cons c pre =>
        obtain ⟨rfl, hrest⟩ := List.cons.inj e
        exact h.2 pre b post hrest

/-- The actions of a list are enabled one after the other exactly when each is admitted by the
first state's view netted with the changes of the actions before it. -/
theorem allEnabled_iff (h : Additive Inv enabled act view change Admits) {s : σ} (hs : Inv s)
    {as : List α} :
    AllEnabled enabled act s as ↔
      ∀ pre a post, as = pre ++ a :: post → Admits (view s + (pre.map change).sum) a := by
  induction as generalizing s with
  | nil =>
      refine ⟨fun _ pre a post e => ?_, fun _ => trivial⟩
      simp at e
  | cons a rest ih =>
      rw [AllEnabled, forall_split_cons_iff, List.map_nil, List.sum_nil, add_zero,
        ← h.enabled_iff hs]
      apply and_congr_right
      intro ha
      rw [ih (h.inv hs ha), h.view_act hs ha]
      simp only [List.map_cons, List.sum_cons, add_assoc]

end

end Netting
