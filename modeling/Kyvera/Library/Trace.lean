import Mathlib

/-!
# Runs of a labelled transition relation

A run is the list of the steps it takes, each with the state before it and the state after it, so
that a statement about a run can speak of every step and of every state on the way.
-/

namespace Trace

/-- One step of a run. -/
structure Step (σ ι : Type) where
  pre : σ
  call : ι
  post : σ

variable {σ ι : Type} {step : σ → ι → σ → Prop}

/-- The steps follow one another from `s`, and each is one of the relation. -/
def IsRun (step : σ → ι → σ → Prop) : σ → List (Step σ ι) → Prop
  | _, [] => True
  | s, t :: rest => t.pre = s ∧ step t.pre t.call t.post ∧ IsRun step t.post rest

/-- The state in which a run from `s` ends. -/
def final : σ → List (Step σ ι) → σ
  | s, [] => s
  | _, t :: rest => final t.post rest

@[simp] theorem isRun_nil (s : σ) : IsRun step s [] := trivial

@[simp] theorem isRun_cons {s : σ} {t : Step σ ι} {rest : List (Step σ ι)} :
    IsRun step s (t :: rest) ↔ t.pre = s ∧ step t.pre t.call t.post ∧ IsRun step t.post rest :=
  Iff.rfl

theorem IsRun.step_of_mem {s : σ} {run : List (Step σ ι)} (h : IsRun step s run) {t : Step σ ι}
    (ht : t ∈ run) : step t.pre t.call t.post := by
  induction run generalizing s with
  | nil => cases ht
  | cons t' rest ih =>
      rcases List.mem_cons.1 ht with rfl | ht
      · exact h.2.1
      · exact ih h.2.2 ht

/-- What holds of each step may be asked of the relation. -/
theorem IsRun.and {P : σ → ι → σ → Prop} {s : σ} {run : List (Step σ ι)} (h : IsRun step s run)
    (hP : ∀ t ∈ run, P t.pre t.call t.post) :
    IsRun (fun s c s' => step s c s' ∧ P s c s') s run := by
  induction run generalizing s with
  | nil => trivial
  | cons t rest ih =>
      obtain ⟨hpre, ht, hrest⟩ := h
      obtain ⟨hfirst, hothers⟩ := List.forall_mem_cons.1 hP
      exact ⟨hpre, ⟨ht, hfirst⟩, ih hrest hothers⟩

/-- What holds at the start and is kept by every step holds before and after each of them. -/
theorem IsRun.invariant {I : σ → Prop} (hstep : ∀ s c s', I s → step s c s' → I s') {s : σ}
    {run : List (Step σ ι)} (h : IsRun step s run) (h0 : I s) :
    ∀ t ∈ run, I t.pre ∧ I t.post := by
  induction run generalizing s with
  | nil => exact fun t ht => absurd ht List.not_mem_nil
  | cons t rest ih =>
      obtain ⟨rfl, ht, hrest⟩ := h
      have hpost := hstep _ _ _ h0 ht
      intro t' ht'
      rcases List.mem_cons.1 ht' with rfl | ht'
      · exact ⟨h0, hpost⟩
      · exact ih hrest hpost t' ht'

/-- What holds at the start and is kept by every step holds at the end. -/
theorem IsRun.invariant_final {I : σ → Prop} (hstep : ∀ s c s', I s → step s c s' → I s')
    {s : σ} {run : List (Step σ ι)} (h : IsRun step s run) (h0 : I s) : I (final s run) := by
  induction run generalizing s with
  | nil => exact h0
  | cons t rest ih =>
      obtain ⟨rfl, ht, hrest⟩ := h
      exact ih hrest (hstep _ _ _ h0 ht)

theorem final_append (s : σ) (run run' : List (Step σ ι)) :
    final s (run ++ run') = final (final s run) run' := by
  induction run generalizing s with
  | nil => rfl
  | cons t rest ih => exact ih t.post

theorem isRun_append {s : σ} {run run' : List (Step σ ι)} :
    IsRun step s (run ++ run') ↔ IsRun step s run ∧ IsRun step (final s run) run' := by
  induction run generalizing s with
  | nil => simp [final]
  | cons t rest ih => simp only [List.cons_append, isRun_cons, ih, final, and_assoc]

/-! ## Computed runs -/

/-- The run of a list of calls where `f` computes the next state. -/
def trace (f : σ → ι → σ) : σ → List ι → List (Step σ ι)
  | _, [] => []
  | s, c :: rest => ⟨s, c, f s c⟩ :: trace f (f s c) rest

theorem final_trace (f : σ → ι → σ) (s : σ) (calls : List ι) :
    final s (trace f s calls) = calls.foldl f s := by
  induction calls generalizing s with
  | nil => rfl
  | cons c rest ih => exact ih (f s c)

/-- A computed run is a run when each of its steps is one of the relation. -/
theorem isRun_trace {f : σ → ι → σ} {s : σ} {calls : List ι}
    (h : ∀ t ∈ trace f s calls, step t.pre t.call (f t.pre t.call)) :
    IsRun step s (trace f s calls) := by
  induction calls generalizing s with
  | nil => trivial
  | cons c rest ih =>
      obtain ⟨hc, hrest⟩ := List.forall_mem_cons.1 h
      exact ⟨rfl, hc, ih hrest⟩

end Trace
