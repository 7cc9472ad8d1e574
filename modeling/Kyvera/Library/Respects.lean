import Kyvera.Library.Refusals

/-!
# Executions that agree

Two states may differ in parts that a program never looks at.  A program respects a relation between
states when executions from related states stop in the same way and leave related states, so that
what it does is a function of the parts that the relation fixes.
-/

namespace Effect

namespace Prog

variable {σ ε α β γ : Type}

/-- From related states the program stops in the same way, in related states. -/
def Respects (R : σ → σ → Prop) (p : Prog σ ε α) : Prop :=
  ∀ s s', R s s' → (p.run s).1 = (p.run s').1 ∧ R (p.run s).2 (p.run s').2

section Respects

variable {R : σ → σ → Prop} {p : Prog σ ε α}

theorem respects_done (a : α) : (.done a : Prog σ ε α).Respects R := fun _ _ h => ⟨rfl, h⟩

theorem respects_err (e : ε) : (.err e : Prog σ ε α).Respects R := fun _ _ h => ⟨rfl, h⟩

theorem respects_panic : (.panic : Prog σ ε α).Respects R := fun _ _ h => ⟨rfl, h⟩

theorem respects_okOr (e : ε) (o : Option α) : (okOr e o : Prog σ ε α).Respects R := by
  cases o with
  | none => exact respects_err e
  | some a => exact respects_done a

theorem respects_orPanic (o : Option α) : (orPanic o : Prog σ ε α).Respects R := by
  cases o with
  | none => exact respects_panic
  | some a => exact respects_done a

theorem respects_set {f : σ → σ} (hf : ∀ s s', R s s' → R (f s) (f s')) (e : ε) :
    (set f e).Respects R :=
  fun s s' h => ⟨rfl, hf s s' h⟩

theorem Respects.bind {g : α → Prog σ ε β} (hp : p.Respects R) (hg : ∀ a, (g a).Respects R) :
    (p >>= g).Respects R := by
  intro s s' h
  obtain ⟨houtcome, hstate⟩ := hp s s' h
  rw [run_bind, run_bind]
  generalize p.run s = r at houtcome hstate ⊢
  generalize p.run s' = r' at houtcome hstate ⊢
  obtain ⟨o, m⟩ := r
  obtain ⟨o', m'⟩ := r'
  obtain rfl : o = o' := houtcome
  cases o with
  | ok a => exact hg a m m' hstate
  | err e => exact ⟨rfl, hstate⟩
  | panic => exact ⟨rfl, hstate⟩

/-- A look at a part of the state that the relation fixes. -/
theorem respects_get_bind {τ : Type} (part : σ → τ) (k : τ → Prog σ ε α) {g : σ → Prog σ ε α}
    (hg : ∀ s, g s = k (part s)) (hpart : ∀ s s', R s s' → part s = part s')
    (hk : ∀ t, (k t).Respects R) : (get >>= g).Respects R := by
  intro s s' h
  rw [run_get_bind, run_get_bind, hg, hg, hpart s s' h]
  exact hk _ s s' h

theorem Respects.ite {c : Prop} [Decidable c] {q : Prog σ ε α} (hp : p.Respects R)
    (hq : q.Respects R) : (if c then p else q).Respects R := by
  split_ifs
  · exact hp
  · exact hq

/-- Programs one after the other, whatever each of them stops with. -/
theorem respects_foldl {f : γ → Prog σ ε Unit} {l : List γ} (h : ∀ a ∈ l, (f a).Respects R)
    {s s' : σ} (hs : R s s') :
    R (l.foldl (fun m a => ((f a).run m).2) s) (l.foldl (fun m a => ((f a).run m).2) s') := by
  induction l generalizing s s' with
  | nil => exact hs
  | cons a rest ih =>
      obtain ⟨ha, hrest⟩ := List.forall_mem_cons.1 h
      exact ih hrest (ha s s' hs).2

end Respects

end Prog

end Effect
