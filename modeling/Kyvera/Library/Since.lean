import Kyvera.Library.Trace

/-!
# What holds since a step

Some steps of a run set a fact, and some clear it.  At the end it holds when a step has set it that
no later one cleared, or when it held at the start and was never cleared.
-/

namespace Trace

variable {σ ι : Type} {step : σ → ι → σ → Prop} {sets clears : Step σ ι → Prop}

/-- A step of the run sets, and none after it clears. -/
def Since (sets clears : Step σ ι → Prop) (run : List (Step σ ι)) : Prop :=
  ∃ before t after, run = before ++ t :: after ∧ sets t ∧ ∀ t' ∈ after, ¬ clears t'

theorem not_since_nil : ¬ Since sets clears [] := by
  rintro ⟨before, t, after, h, -⟩
  simp at h

theorem since_cons_iff {t : Step σ ι} {rest : List (Step σ ι)} :
    Since sets clears (t :: rest) ↔
      Since sets clears rest ∨ sets t ∧ ∀ t' ∈ rest, ¬ clears t' := by
  constructor
  · rintro ⟨before, t', after, h, hsets, hclear⟩
    cases before with
    | nil =>
        obtain ⟨rfl, rfl⟩ := List.cons.inj h
        exact .inr ⟨hsets, hclear⟩
    | cons s before =>
        obtain ⟨rfl, rfl⟩ := List.cons.inj h
        exact .inl ⟨before, t', after, rfl, hsets, hclear⟩
  · rintro (⟨before, t', after, rfl, hsets, hclear⟩ | ⟨hsets, hclear⟩)
    · exact ⟨t :: before, t', after, rfl, hsets, hclear⟩
    · exact ⟨[], t, rest, rfl, hsets, hclear⟩

theorem since_append_iff {run run' : List (Step σ ι)} :
    Since sets clears (run ++ run') ↔
      Since sets clears run' ∨ Since sets clears run ∧ ∀ t ∈ run', ¬ clears t := by
  induction run with
  | nil => simp [not_since_nil]
  | cons t rest ih =>
      rw [List.cons_append, since_cons_iff, since_cons_iff, ih, List.forall_mem_append]
      tauto

/-- Steps that are runs themselves can be told as one run. -/
theorem since_flatMap_iff {σ' ι' : Type} {f : Step σ' ι' → List (Step σ ι)}
    {run : List (Step σ' ι')} :
    Since (fun t => Since sets clears (f t)) (fun t => ∃ t' ∈ f t, clears t') run ↔
      Since sets clears (run.flatMap f) := by
  induction run with
  | nil => simp [not_since_nil]
  | cons t rest ih =>
      have hrest : (∀ t' ∈ rest, ¬ ∃ u ∈ f t', clears u) ↔ ∀ u ∈ rest.flatMap f, ¬ clears u := by
        simp only [List.mem_flatMap, not_exists, not_and]
        exact ⟨fun h u ⟨t', ht', hu⟩ => h t' ht' u hu, fun h t' ht' u hu => h u ⟨t', ht', hu⟩⟩
      rw [List.flatMap_cons, since_cons_iff, since_append_iff, ih, hrest]

/-- A fact that every step sets, clears or leaves alone is told by the history of the run. -/
theorem IsRun.holds_final_iff {I P : σ → Prop}
    (hstep : ∀ t : Step σ ι, I t.pre → step t.pre t.call t.post →
      I t.post ∧ (P t.post ↔ sets t ∨ P t.pre ∧ ¬ clears t))
    {s : σ} {run : List (Step σ ι)} (h : IsRun step s run) (h0 : I s) :
    P (final s run) ↔ Since sets clears run ∨ P s ∧ ∀ t ∈ run, ¬ clears t := by
  induction run generalizing s with
  | nil => simp [final, not_since_nil]
  | cons t rest ih =>
      obtain ⟨rfl, ht, hrest⟩ := h
      obtain ⟨hpost, hone⟩ := hstep t h0 ht
      rw [final, ih hrest hpost, hone, since_cons_iff, List.forall_mem_cons]
      tauto

end Trace
