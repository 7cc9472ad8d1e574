import Kyvera.Library.Prog

/-!
# Refused writes

A disk that takes some writes of a storage program and refuses the next one: the program goes on
along its refusal path, and what was written before stays written.  `Prog.runRefusing n` is the
execution on the disk that refuses the write after the first `n`, and `Prog.writes` counts the
writes of the execution that is refused none.  `Prog.AllOrNothing n` says that this execution leaves
nothing behind when it fails; `Prog.FailsOnlyIn` says the same of a later part of a program, about
the state before its first part.
-/

namespace Effect

namespace Prog

variable {σ ε ε' α β : Type}

/-- Go on from an error of a program with another program. -/
def rescue (f : ε → Prog σ ε' α) : Prog σ ε α → Prog σ ε' α
  | .done a => .done a
  | .err e => f e
  | .panic => .panic
  | .read k => .read fun s => (k s).rescue f
  | .write w refused rest => .write w (refused.rescue f) (rest.rescue f)

/-- Execution on a disk that takes `n` writes, refuses the next one, and takes those after it. -/
def runRefusing : ℕ → Prog σ ε α → σ → Outcome ε α × σ
  | _, .done a, s => (.ok a, s)
  | _, .err e, s => (.err e, s)
  | _, .panic, s => (.panic, s)
  | n, .read k, s => (k s).runRefusing n s
  | 0, .write _ refused _, s => refused.run s
  | n + 1, .write f _ rest, s => rest.runRefusing n (f s)

/-- The number of writes of an execution on a disk that takes every write. -/
def writes : Prog σ ε α → σ → ℕ
  | .done _, _ => 0
  | .err _, _ => 0
  | .panic, _ => 0
  | .read k, s => (k s).writes s
  | .write f _ rest, s => rest.writes (f s) + 1

/-! ## Composition -/

theorem runRefusing_get_bind (n : ℕ) (g : σ → Prog σ ε β) (s : σ) :
    (get >>= g).runRefusing n s = (g s).runRefusing n s := rfl

theorem writes_bind_of_ok {p : Prog σ ε α} {g : α → Prog σ ε β} {s m : σ} {a : α}
    (h : p.run s = (.ok a, m)) : (p >>= g).writes s = p.writes s + (g a).writes m := by
  change (p.bind g).writes s = _
  induction p generalizing s with
  | done a =>
      cases h
      exact (Nat.zero_add _).symm
  | err e => cases h
  | panic => cases h
  | read k ih => exact ih s h
  | write f refused rest _ ih =>
      show (rest.bind g).writes (f s) + 1 = rest.writes (f s) + 1 + _
      rw [ih h, Nat.add_right_comm]

theorem writes_bind_of_not_ok {p : Prog σ ε α} {g : α → Prog σ ε β} {s : σ}
    (h : ∀ a m, p.run s ≠ (.ok a, m)) : (p >>= g).writes s = p.writes s := by
  change (p.bind g).writes s = _
  induction p generalizing s with
  | done a => exact absurd rfl (h a _)
  | err e => rfl
  | panic => rfl
  | read k ih => exact ih s h
  | write f refused rest _ ih => exact congrArg (· + 1) (ih h)

theorem runRefusing_bind_of_ok {p : Prog σ ε α} {g : α → Prog σ ε β} {s m : σ} {a : α}
    (h : p.run s = (.ok a, m)) (n : ℕ) :
    (p >>= g).runRefusing (p.writes s + n) s = (g a).runRefusing n m := by
  change (p.bind g).runRefusing (p.writes s + n) s = _
  induction p generalizing s with
  | done a =>
      cases h
      show (g a).runRefusing (0 + n) m = _
      rw [Nat.zero_add]
  | err e => cases h
  | panic => cases h
  | read k ih => exact ih s h
  | write f refused rest _ ih =>
      show ((Prog.write f refused rest).bind g).runRefusing (rest.writes (f s) + 1 + n) s = _
      rw [Nat.add_right_comm]
      exact ih h

/-- A disk that refuses a write of a composition after the writes of its first part has let the
first part succeed. -/
theorem exists_ok_of_lt_writes_bind {p : Prog σ ε α} {g : α → Prog σ ε β} {s : σ} {n : ℕ}
    (h : p.writes s + n < (p >>= g).writes s) :
    ∃ a m, p.run s = (.ok a, m) ∧ n < (g a).writes m ∧
      (p >>= g).runRefusing (p.writes s + n) s = (g a).runRefusing n m := by
  by_cases hp : ∃ a m, p.run s = (.ok a, m)
  · obtain ⟨a, m, hrun⟩ := hp
    rw [writes_bind_of_ok hrun] at h
    exact ⟨a, m, hrun, by omega, runRefusing_bind_of_ok hrun n⟩
  · rw [writes_bind_of_not_ok fun a m hrun => hp ⟨a, m, hrun⟩] at h
    omega

/-! ## Programs that stop at a refused write -/

/-- Every write is one of `R`, and one that is refused ends the program with an error. -/
def EveryWrite (R : σ → σ → Prop) : Prog σ ε α → σ → Prop
  | .done _, _ => True
  | .err _, _ => True
  | .panic, _ => True
  | .read k, s => (k s).EveryWrite R s
  | .write f refused rest, s =>
      (∃ e, refused = .err e) ∧ R s (f s) ∧ rest.EveryWrite R (f s)

/-- The property of states goes over from the first to the second. -/
def Keeps (I : σ → Prop) (s s' : σ) : Prop := I s → I s'

instance (I : σ → Prop) : Std.Refl (Keeps I) := ⟨fun _ h => h⟩

instance (I : σ → Prop) : IsTrans σ (Keeps I) := ⟨fun _ _ _ h h' hs => h' (h hs)⟩

/-- The program writes nothing. -/
def ReadOnly (p : Prog σ ε α) (s : σ) : Prop := p.EveryWrite (fun _ _ => False) s

section EveryWrite

variable {R : σ → σ → Prop} {p : Prog σ ε α} {s : σ}

theorem ReadOnly.everyWrite (h : p.ReadOnly s) : p.EveryWrite R s := by
  induction p generalizing s with
  | done a => trivial
  | err e => trivial
  | panic => trivial
  | read k ih => exact ih s h
  | write f refused rest _ _ => exact absurd h.2.1 not_false

theorem ReadOnly.eq_of_run {o : Outcome ε α} {m : σ} (h : p.ReadOnly s)
    (hrun : p.run s = (o, m)) : m = s := by
  induction p generalizing s with
  | done a => exact (Prod.mk.inj hrun).2.symm
  | err e => exact (Prod.mk.inj hrun).2.symm
  | panic => exact (Prod.mk.inj hrun).2.symm
  | read k ih => exact ih s h hrun
  | write f refused rest _ _ => exact absurd h.2.1 not_false

theorem ReadOnly.writes_eq_zero (h : p.ReadOnly s) : p.writes s = 0 := by
  induction p generalizing s with
  | done a => rfl
  | err e => rfl
  | panic => rfl
  | read k ih => exact ih s h
  | write f refused rest _ _ => exact absurd h.2.1 not_false

theorem ReadOnly.rescue {f : ε → Prog σ ε' α} (hp : p.ReadOnly s)
    (hf : ∀ e, (f e).ReadOnly s) : (p.rescue f).ReadOnly s := by
  induction p generalizing s with
  | done a => trivial
  | err e => exact hf e
  | panic => trivial
  | read k ih => exact ih s hp hf
  | write f refused rest _ _ => exact absurd hp.2.1 not_false

theorem readOnly_okOr (e : ε) (o : Option α) (s : σ) : (okOr e o).ReadOnly s := by
  cases o <;> trivial

theorem readOnly_orPanic (o : Option α) (s : σ) : (orPanic o : Prog σ ε α).ReadOnly s := by
  cases o <;> trivial

theorem EveryWrite.bind {g : α → Prog σ ε β} (hp : p.EveryWrite R s)
    (hg : ∀ a m, (g a).EveryWrite R m) : (p >>= g).EveryWrite R s := by
  change (p.bind g).EveryWrite R s
  induction p generalizing s with
  | done a => exact hg a s
  | err e => trivial
  | panic => trivial
  | read k ih => exact ih s hp
  | write f refused rest _ ih =>
      obtain ⟨⟨e, rfl⟩, hR, hrest⟩ := hp
      exact ⟨⟨e, rfl⟩, hR, ih hrest⟩

/-- Behind a program that only looks at the state, that state is still there. -/
theorem ReadOnly.everyWrite_bind {g : α → Prog σ ε β} (hp : p.ReadOnly s)
    (hg : ∀ a, p.run s = (.ok a, s) → (g a).EveryWrite R s) : (p >>= g).EveryWrite R s := by
  change (p.bind g).EveryWrite R s
  induction p generalizing s with
  | done a => exact hg a rfl
  | err e => trivial
  | panic => trivial
  | read k ih => exact ih s hp hg
  | write f refused rest _ _ => exact absurd hp.2.1 not_false

theorem EveryWrite.run [Std.Refl R] [IsTrans σ R] (h : p.EveryWrite R s) : R s (p.run s).2 := by
  induction p generalizing s with
  | done a => exact refl_of R s
  | err e => exact refl_of R s
  | panic => exact refl_of R s
  | read k ih => exact ih s h
  | write f refused rest _ ih => exact trans_of R h.2.1 (ih h.2.2)

theorem EveryWrite.runRefusing [Std.Refl R] [IsTrans σ R] (h : p.EveryWrite R s) (n : ℕ) :
    R s (p.runRefusing n s).2 := by
  induction p generalizing s n with
  | done a => exact refl_of R s
  | err e => exact refl_of R s
  | panic => exact refl_of R s
  | read k ih => exact ih s h n
  | write f refused rest _ ih =>
      obtain ⟨⟨e, rfl⟩, hR, hrest⟩ := h
      cases n with
      | zero => exact refl_of R s
      | succ n => exact trans_of R hR (ih hrest n)

theorem EveryWrite.runRefusing_zero (h : p.EveryWrite R s) : (p.runRefusing 0 s).2 = s := by
  induction p generalizing s with
  | done a => rfl
  | err e => rfl
  | panic => rfl
  | read k ih => exact ih s h
  | write f refused rest _ _ =>
      obtain ⟨⟨e, rfl⟩, -, -⟩ := h
      rfl

end EveryWrite

/-! ## Programs that fail halfway -/

/-- An execution with one write refused fails in the state `s₀` only, if it fails. -/
def FailsOnlyIn (s₀ : σ) (n : ℕ) (p : Prog σ ε α) (s : σ) : Prop :=
  ∀ e s', p.runRefusing n s = (.err e, s') → s' = s₀

/-- An execution with one write refused that fails leaves the state as it was. -/
def AllOrNothing (n : ℕ) (p : Prog σ ε α) (s : σ) : Prop := p.FailsOnlyIn s n s

section FailsOnlyIn

variable {s₀ s : σ} {n : ℕ} {e : ε} {f : σ → σ} {g : α → Prog σ ε β} {p : Prog σ ε α}

@[simp] theorem failsOnlyIn_done (a : α) : (.done a : Prog σ ε α).FailsOnlyIn s₀ n s := by
  intro e s' hrun
  cases hrun

@[simp] theorem failsOnlyIn_panic : (.panic : Prog σ ε α).FailsOnlyIn s₀ n s := by
  intro e s' hrun
  cases hrun

@[simp] theorem failsOnlyIn_err_iff : (.err e : Prog σ ε α).FailsOnlyIn s₀ n s ↔ s = s₀ := by
  constructor
  · intro h
    exact h e s rfl
  · rintro rfl e' s' hrun
    cases hrun
    rfl

/-- A write in front of a program: it is the refused one, or the program goes on behind it. -/
theorem failsOnlyIn_set_bind_iff {g : Unit → Prog σ ε β} :
    (set f e >>= g).FailsOnlyIn s₀ n s ↔
      (n = 0 → s = s₀) ∧ ∀ k, n = k + 1 → (g ()).FailsOnlyIn s₀ k (f s) := by
  cases n with
  | zero =>
      have hrefused : (set f e >>= g).FailsOnlyIn s₀ 0 s ↔ s = s₀ :=
        failsOnlyIn_err_iff (α := β) (n := 0)
      simp [hrefused]
  | succ n =>
      have htaken : (set f e >>= g).FailsOnlyIn s₀ (n + 1) s ↔ (g ()).FailsOnlyIn s₀ n (f s) :=
        Iff.rfl
      simp [htaken]

theorem failsOnlyIn_set_iff : (set f e).FailsOnlyIn s₀ n s ↔ (n = 0 → s = s₀) := by
  have hdone : (set f e >>= .done : Prog σ ε Unit) = set f e := rfl
  rw [← hdone, failsOnlyIn_set_bind_iff]
  simp

theorem failsOnlyIn_okOr_bind_iff {o : Option α} :
    (okOr e o >>= g).FailsOnlyIn s₀ n s ↔
      (o = none → s = s₀) ∧ ∀ a, o = some a → (g a).FailsOnlyIn s₀ n s := by
  cases o <;> simp [okOr]

theorem failsOnlyIn_orPanic_bind_iff {o : Option α} :
    (orPanic o >>= g).FailsOnlyIn s₀ n s ↔ ∀ a, o = some a → (g a).FailsOnlyIn s₀ n s := by
  cases o <;> simp [orPanic]

theorem failsOnlyIn_ite_err_iff {c : Prop} [Decidable c] :
    (if c then .err e else p).FailsOnlyIn s₀ n s ↔ (c → s = s₀) ∧ (¬ c → p.FailsOnlyIn s₀ n s) := by
  split_ifs with h <;> simp [h]

/-- Behind a program that only looks at the state, every write is still to come. -/
theorem ReadOnly.failsOnlyIn_bind_iff {a : α} (h : p.ReadOnly s) (hrun : p.run s = (.ok a, s)) :
    (p >>= g).FailsOnlyIn s₀ n s ↔ (g a).FailsOnlyIn s₀ n s := by
  have hrefusing := runRefusing_bind_of_ok (g := g) hrun n
  rw [h.writes_eq_zero, Nat.zero_add] at hrefusing
  unfold FailsOnlyIn
  rw [hrefusing]

/-- What a program makes of its value has no part in how it fails. -/
theorem failsOnlyIn_bind_done_iff {r : α → β} :
    (p >>= fun a => .done (r a)).FailsOnlyIn s₀ n s ↔ p.FailsOnlyIn s₀ n s := by
  change (p.bind fun a => .done (r a)).FailsOnlyIn s₀ n s ↔ _
  induction p generalizing n s with
  | done a => exact iff_of_true (failsOnlyIn_done _) (failsOnlyIn_done _)
  | err e => exact failsOnlyIn_err_iff.trans failsOnlyIn_err_iff.symm
  | panic => exact iff_of_true failsOnlyIn_panic failsOnlyIn_panic
  | read k ih => exact ih s
  | write w refused rest _ ih =>
      cases n with
      | zero =>
          have hbind := run_bind refused (fun a => (.done (r a) : Prog σ ε β)) s
          show (∀ e s', (refused >>= fun a => .done (r a)).run s = _ → _) ↔
            ∀ e s', refused.run s = _ → _
          rw [hbind]
          rcases refused.run s with ⟨a | e | _, m⟩ <;> simp
      | succ n => exact ih

theorem allOrNothing_ite_err_iff {c : Prop} [Decidable c] :
    (if c then .err e else p).AllOrNothing n s ↔ (¬ c → p.AllOrNothing n s) := by
  unfold AllOrNothing
  rw [failsOnlyIn_ite_err_iff]
  exact and_iff_right fun _ => rfl

theorem allOrNothing_orPanic_bind_iff {o : Option α} :
    (orPanic o >>= g).AllOrNothing n s ↔ ∀ a, o = some a → (g a).AllOrNothing n s :=
  failsOnlyIn_orPanic_bind_iff

/-- Behind a write that is taken, the state to go back to is the one before it. -/
theorem allOrNothing_set_bind_iff {g : Unit → Prog σ ε β} :
    (set f e >>= g).AllOrNothing n s ↔ ∀ k, n = k + 1 → (g ()).FailsOnlyIn s k (f s) := by
  unfold AllOrNothing
  rw [failsOnlyIn_set_bind_iff]
  exact and_iff_right fun _ => rfl

/-- A program of two writes is all or nothing, unless the second one is refused behind a first one
that had an effect. -/
theorem allOrNothing_set_bind_set_iff {g : σ → σ} {e' : ε} :
    (set f e >>= fun _ => set g e').AllOrNothing n s ↔ (n = 1 → f s = s) := by
  rw [allOrNothing_set_bind_iff]
  simp only [failsOnlyIn_set_iff]
  constructor
  · rintro h rfl
    exact h 0 rfl rfl
  · rintro h k rfl rfl
    exact h rfl

end FailsOnlyIn

end Prog

end Effect
