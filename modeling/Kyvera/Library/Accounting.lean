import Kyvera.Library.Trace

/-!
# Accounts of a run

A quantity of the state, what the steps of a run add to it and what they take from it: when every
step keeps the books, the run keeps them, whatever happens in between.
-/

namespace Trace

variable {σ ι : Type} {step : σ → ι → σ → Prop} {f : Step σ ι → ℕ}

/-- The sum of an amount over the steps of a run. -/
def total (f : Step σ ι → ℕ) (run : List (Step σ ι)) : ℕ := (run.map f).sum

@[simp] theorem total_nil (f : Step σ ι → ℕ) : total f [] = 0 := rfl

@[simp] theorem total_cons (f : Step σ ι → ℕ) (t : Step σ ι) (rest : List (Step σ ι)) :
    total f (t :: rest) = f t + total f rest := rfl

/-- Steps that each keep the books in the states of an invariant keep them over a run: what there
is at the end, and was taken on the way, was there at the start or has been added. -/
theorem IsRun.balance {I : σ → Prop} (μ : σ → ℕ) (taken added : Step σ ι → ℕ)
    (hstep : ∀ s c s', I s → step s c s' →
      I s' ∧ μ s' + taken ⟨s, c, s'⟩ = μ s + added ⟨s, c, s'⟩)
    {s : σ} {run : List (Step σ ι)} (h : IsRun step s run) (h0 : I s) :
    I (final s run) ∧ μ (final s run) + total taken run = μ s + total added run := by
  induction run generalizing s with
  | nil => exact ⟨h0, rfl⟩
  | cons t rest ih =>
      obtain ⟨rfl, ht, hrest⟩ := h
      obtain ⟨hpost, hkept⟩ := hstep _ _ _ h0 ht
      have hone : μ t.post + taken t = μ t.pre + added t := hkept
      obtain ⟨hfinal, hsum⟩ := ih hrest hpost
      refine ⟨hfinal, ?_⟩
      rw [total_cons, total_cons]
      show μ (final t.post rest) + _ = _
      omega

end Trace
