import Kyvera.Library.Prog

/-!
# The errors of a program

Which errors a program can end with in a state.  Behind a guard, a program is reached only in the
states that the guard passes, so the errors of a sequence of guards are told apart by what has been
checked before each of them.
-/

namespace Effect

namespace Prog

variable {σ ε α : Type}

/-- Every error that the program ends with in the state satisfies `R`. -/
def ErrsIn (R : ε → Prop) (p : Prog σ ε α) (s : σ) : Prop :=
  ∀ (e : ε) (s' : σ), p.run s = (.err e, s') → R e

section ErrsIn

variable {R : ε → Prop} {p : Prog σ ε α} {s : σ}

theorem errsIn_done (a : α) : ErrsIn R (.done a : Prog σ ε α) s := by
  intro e s' h
  cases h

theorem errsIn_err_iff {e : ε} : ErrsIn R (.err e : Prog σ ε α) s ↔ R e := by
  constructor
  · intro h
    exact h e s rfl
  · intro h e' s' he
    cases he
    exact h

theorem errsIn_panic : ErrsIn R (.panic : Prog σ ε α) s := by
  intro e s' h
  cases h

/-- A test that fails with an error where `c` holds, in front of another program. -/
theorem errsIn_ite_err_iff {c : Prop} [Decidable c] {e : ε} :
    ErrsIn R (if c then .err e else p) s ↔ (c → R e) ∧ (¬ c → ErrsIn R p s) := by
  split_ifs with h
  · rw [errsIn_err_iff, imp_iff_right h, and_iff_left fun hn => absurd h hn]
  · rw [imp_iff_right h, and_iff_right fun hc => absurd hc h]

theorem errsIn_reject_iff {c : Prop} [Decidable c] {e : ε} :
    ErrsIn R (if c then .err e else pure () : Prog σ ε Unit) s ↔ (c → R e) := by
  rw [errsIn_ite_err_iff]
  exact and_iff_left fun _ => errsIn_done ()

theorem errsIn_ite_err {c : Prop} [Decidable c] {e : ε} (he : R e) (hp : ErrsIn R p s) :
    ErrsIn R (if c then .err e else p) s :=
  errsIn_ite_err_iff.2 ⟨fun _ => he, fun _ => hp⟩

theorem errsIn_reject {c : Prop} [Decidable c] {e : ε} (he : R e) :
    ErrsIn R (if c then .err e else pure () : Prog σ ε Unit) s :=
  errsIn_reject_iff.2 fun _ => he

/-- A value that must be there, or the program panics. -/
theorem errsIn_orPanic_bind_iff {γ : Type} {o : Option γ} {g : γ → Prog σ ε α} :
    ErrsIn R (orPanic o >>= g) s ↔ ∀ a, o = some a → ErrsIn R (g a) s := by
  cases o with
  | none => exact iff_of_true errsIn_panic fun a h => by cases h
  | some a =>
      constructor
      · intro h b hb
        cases hb
        exact h
      · intro h
        exact h a rfl

/-- The errors behind a guard are those of the guard, and, where it passes, those of the rest. -/
theorem Guards.errsIn_bind_iff {C : σ → Prop} {q : Prog σ ε Unit} (hq : Guards q C) :
    ErrsIn R (q >>= fun _ => p) s ↔ ErrsIn R q s ∧ (C s → ErrsIn R p s) := by
  constructor
  · intro h
    refine ⟨fun e s' he => h e s' ?_, fun hC e s' he => h e s' ?_⟩
    · rw [Prog.run_bind, he]
    · rw [hq.run_bind hC]
      exact he
  · rintro ⟨hfirst, hrest⟩ e s' he
    rw [Prog.run_bind] at he
    rcases hrun : q.run s with ⟨o, m⟩
    rw [hrun] at he
    cases o with
    | ok u =>
        obtain ⟨hC, rfl⟩ := (hq s m u).1 hrun
        exact hrest hC e s' he
    | err e' =>
        cases he
        exact hfirst _ _ hrun
    | panic => cases he

end ErrsIn

end Prog

end Effect
