import Kyvera.Library.Trace

/-!
# Runs compared from their ends

Where a step can be told from the state after it, a run can be told from the state it ends in.  The
runs are walked backwards, so a rank that every step raises has to say when both have come to the
start.
-/

namespace Trace

variable {σ ι β : Type} {step : σ → ι → σ → Prop} {s : σ} {run run' : List (Step σ ι)}

/-- A run raises a rank by at least one for each of its steps. -/
theorem IsRun.rank_add_length_le {rank : σ → ℕ} (h : IsRun step s run)
    (hrank : ∀ t ∈ run, rank t.pre < rank t.post) :
    rank s + run.length ≤ rank (final s run) := by
  induction run generalizing s with
  | nil => exact Nat.le_refl _
  | cons t rest ih =>
      obtain ⟨rfl, -, hrest⟩ := h
      obtain ⟨ht, hothers⟩ := List.forall_mem_cons.1 hrank
      have hlater := ih hrest hothers
      simp only [List.length_cons, final] at hlater ⊢
      omega

/-- Two runs from one state, with steps that can be told from the states after them, are the same
run when they end in related states. -/
theorem IsRun.map_call_eq_of_final (f : ι → β) (R : σ → σ → Prop) (rank : σ → ℕ)
    (h : IsRun step s run) (h' : IsRun step s run') (hR : ∀ a b, R a b → rank a = rank b)
    (hrank : ∀ t ∈ run ++ run', rank t.pre < rank t.post)
    (hback : ∀ t ∈ run, ∀ t' ∈ run', R t.post t'.post → f t.call = f t'.call ∧ R t.pre t'.pre)
    (hfinal : R (final s run) (final s run')) :
    (run.map fun t => f t.call) = run'.map fun t => f t.call := by
  obtain ⟨hup, hup'⟩ := List.forall_mem_append.1 hrank
  have hranks := hR _ _ hfinal
  -- By induction on the first run from its end; the ranks keep the two runs of one length.
  induction run using List.reverseRecOn generalizing run' with
  | nil =>
      have hlength := h'.rank_add_length_le hup'
      have hnil : run' = [] := List.eq_nil_of_length_eq_zero (by simp only [final] at hranks; omega)
      rw [hnil]
  | append_singleton before t ih =>
      obtain ⟨hbefore, hpre, -, -⟩ := isRun_append.1 h
      cases run' using List.reverseRecOn with
      | nil =>
          have hlength := h.rank_add_length_le hup
          simp only [final, List.length_append, List.length_singleton] at hranks hlength
          omega
      | append_singleton before' t' =>
          obtain ⟨hbefore', hpre', -, -⟩ := isRun_append.1 h'
          rw [final_append, final_append] at hfinal
          obtain ⟨hcall, hstart⟩ := hback t (by simp) t' (by simp) hfinal
          rw [hpre, hpre'] at hstart
          have hup₁ := (List.forall_mem_append.1 hup).1
          have hup₁' := (List.forall_mem_append.1 hup').1
          have hsame := ih hbefore hbefore' (List.forall_mem_append.2 ⟨hup₁, hup₁'⟩)
            (fun t ht t' ht' => hback t (List.mem_append_left _ ht) t' (List.mem_append_left _ ht'))
            hstart hup₁ hup₁' (hR _ _ hstart)
          rw [List.map_append, List.map_append, hsame]
          simp [hcall]

/-- Where the next state is computed from the last one and what is seen of the call, so is the last
state of a run. -/
theorem IsRun.final_eq_foldl {f : ι → β} {g : σ → β → σ}
    (hstep : ∀ a c b, step a c b → b = g a (f c)) (h : IsRun step s run) :
    final s run = (run.map fun t => f t.call).foldl g s := by
  induction run generalizing s with
  | nil => rfl
  | cons t rest ih =>
      obtain ⟨rfl, ht, hrest⟩ := h
      rw [List.map_cons, List.foldl_cons, ← hstep _ _ _ ht]
      exact ih hrest

end Trace
