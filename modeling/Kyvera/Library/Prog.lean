import Mathlib

/-!
# Storage programs

A storage program reads a state, changes it by single writes, and stops with a value, an error or
a panic.  The disk answers every write: it takes it, or it refuses it and the program goes on
along its refusal path.  `Prog.run` is the execution on a disk that takes every write.

The rules below compose executions (`run_bind`, `run_bind_eq_ok_iff`), compose programs that only
test the state (`Guards`), and carry a preorder on states along every exit of a program, the
failing ones included (`Along`).
-/

namespace Effect

/-- How a program stops. -/
inductive Outcome (ε α : Type) where
  | ok (a : α)
  | err (e : ε)
  | panic
  deriving DecidableEq, Repr

/-- A program over states `σ` with errors `ε` and values `α`. -/
inductive Prog (σ ε α : Type) where
  | done (a : α)
  | err (e : ε)
  | panic
  | read (k : σ → Prog σ ε α)
  | write (f : σ → σ) (refused rest : Prog σ ε α)

namespace Prog

variable {σ ε ε' α β : Type}

/-- Sequential composition. -/
def bind : Prog σ ε α → (α → Prog σ ε β) → Prog σ ε β
  | .done a, g => g a
  | .err e, _ => .err e
  | .panic, _ => .panic
  | .read k, g => .read fun s => (k s).bind g
  | .write f refused rest, g => .write f (refused.bind g) (rest.bind g)

instance : Monad (Prog σ ε) where
  pure := .done
  bind := bind

/-- Replace the error of a program. -/
def mapErr (f : ε → ε') : Prog σ ε α → Prog σ ε' α
  | .done a => .done a
  | .err e => .err (f e)
  | .panic => .panic
  | .read k => .read fun s => (k s).mapErr f
  | .write w refused rest => .write w (refused.mapErr f) (rest.mapErr f)

/-- The value of an option, or the given error. -/
def okOr (e : ε) : Option α → Prog σ ε α
  | some a => .done a
  | none => .err e

/-- The value of an option, or a panic: checked arithmetic without an error path. -/
def orPanic : Option α → Prog σ ε α
  | some a => .done a
  | none => .panic

/-- A look at the state. -/
def get : Prog σ ε σ := .read .done

/-- A single write; a refused write is the error `e`. -/
def set (f : σ → σ) (e : ε) : Prog σ ε Unit := .write f (.err e) (.done ())

/-- Execution on a disk that takes every write. -/
def run : Prog σ ε α → σ → Outcome ε α × σ
  | .done a, s => (.ok a, s)
  | .err e, s => (.err e, s)
  | .panic, s => (.panic, s)
  | .read k, s => (k s).run s
  | .write f _ rest, s => rest.run (f s)

/-! ## Composition -/

@[simp] theorem pure_eq_done (a : α) : (pure a : Prog σ ε α) = .done a := rfl

@[simp] theorem done_bind (a : α) (g : α → Prog σ ε β) : (.done a : Prog σ ε α) >>= g = g a := rfl

@[simp] theorem err_bind (e : ε) (g : α → Prog σ ε β) : (.err e : Prog σ ε α) >>= g = .err e := rfl

@[simp] theorem panic_bind (g : α → Prog σ ε β) : (.panic : Prog σ ε α) >>= g = .panic := rfl

@[simp] theorem run_done (a : α) (s : σ) : (.done a : Prog σ ε α).run s = (.ok a, s) := rfl

@[simp] theorem run_err (e : ε) (s : σ) : (.err e : Prog σ ε α).run s = (.err e, s) := rfl

@[simp] theorem run_panic (s : σ) : (.panic : Prog σ ε α).run s = (.panic, s) := rfl

@[simp] theorem run_get (s : σ) : (get : Prog σ ε σ).run s = (.ok s, s) := rfl

@[simp] theorem run_set (f : σ → σ) (e : ε) (s : σ) : (set f e).run s = (.ok (), f s) := rfl

theorem run_bind (p : Prog σ ε α) (g : α → Prog σ ε β) (s : σ) :
    (p >>= g).run s =
      match p.run s with
      | (.ok a, s') => (g a).run s'
      | (.err e, s') => (.err e, s')
      | (.panic, s') => (.panic, s') := by
  change (p.bind g).run s = _
  induction p generalizing s with
  | done a => rfl
  | err e => rfl
  | panic => rfl
  | read k ih => exact ih s s
  | write f refused rest _ ih => exact ih (f s)

theorem bind_assoc' {γ : Type} (p : Prog σ ε α) (f : α → Prog σ ε β) (g : β → Prog σ ε γ) :
    (p.bind f).bind g = p.bind fun a => (f a).bind g := by
  induction p with
  | done a => rfl
  | err e => rfl
  | panic => rfl
  | read k ih => exact congrArg Prog.read (funext ih)
  | write w refused rest ih ih' => exact congrArg₂ (Prog.write w) ih ih'

instance : LawfulMonad (Prog σ ε) :=
  LawfulMonad.mk' _
    (fun p => by
      change p.bind .done = p
      induction p with
      | done a => rfl
      | err e => rfl
      | panic => rfl
      | read k ih => exact congrArg Prog.read (funext ih)
      | write w refused rest ih ih' => exact congrArg₂ (Prog.write w) ih ih')
    (fun _ _ => rfl)
    (fun p f g => bind_assoc' p f g)

theorem run_bind_eq_ok_iff {p : Prog σ ε α} {g : α → Prog σ ε β} {s s' : σ} {b : β} :
    (p >>= g).run s = (.ok b, s') ↔
      ∃ a m, p.run s = (.ok a, m) ∧ (g a).run m = (.ok b, s') := by
  rw [run_bind]
  rcases h : p.run s with ⟨_ | _ | _, m⟩ <;> simp

theorem run_bind_of_ok {p : Prog σ ε α} {g : α → Prog σ ε β} {s m : σ} {a : α}
    (h : p.run s = (.ok a, m)) : (p >>= g).run s = (g a).run m := by
  rw [run_bind, h]

theorem run_eq_of_outcome {p : Prog σ ε α} {s : σ} {o : Outcome ε α} (h : (p.run s).1 = o) :
    p.run s = (o, (p.run s).2) := by
  rw [← h]

@[simp] theorem run_get_bind (g : σ → Prog σ ε β) (s : σ) : (get >>= g).run s = (g s).run s := rfl

@[simp] theorem run_set_bind (f : σ → σ) (e : ε) (g : Unit → Prog σ ε β) (s : σ) :
    (set f e >>= g).run s = (g ()).run (f s) := rfl

@[simp] theorem run_okOr_eq_ok_iff {e : ε} {o : Option α} {s s' : σ} {a : α} :
    (okOr e o : Prog σ ε α).run s = (.ok a, s') ↔ o = some a ∧ s' = s := by
  cases o <;> simp [okOr, eq_comm]

@[simp] theorem run_orPanic_eq_ok_iff {o : Option α} {s s' : σ} {a : α} :
    (orPanic o : Prog σ ε α).run s = (.ok a, s') ↔ o = some a ∧ s' = s := by
  cases o <;> simp [orPanic, eq_comm]

/-- A checked computation in front of a program succeeds when it has a value to go on with. -/
theorem run_okOr_bind_eq_ok_iff {γ : Type} {e : ε} {o : Option γ} {g : γ → Prog σ ε β} {s s' : σ}
    {b : β} :
    (okOr e o >>= g).run s = (.ok b, s') ↔ ∃ c, o = some c ∧ (g c).run s = (.ok b, s') := by
  cases o <;> simp [okOr]

theorem run_orPanic_bind_eq_ok_iff {γ : Type} {o : Option γ} {g : γ → Prog σ ε β} {s s' : σ}
    {b : β} :
    (orPanic o >>= g).run s = (.ok b, s') ↔ ∃ c, o = some c ∧ (g c).run s = (.ok b, s') := by
  cases o <;> simp [orPanic]

/-- Programs that always succeed, run one after the other, fold their effects. -/
theorem run_forM_of_forall_ok {f : α → Prog σ ε Unit} {g : σ → α → σ} {l : List α}
    (h : ∀ a ∈ l, ∀ s, (f a).run s = (.ok (), g s a)) (s : σ) :
    (l.forM f).run s = (.ok (), l.foldl g s) := by
  induction l generalizing s with
  | nil => rfl
  | cons a rest ih =>
      obtain ⟨ha, hrest⟩ := List.forall_mem_cons.1 h
      exact (run_bind_of_ok (ha s)).trans (ih hrest (g s a))

/-- A loop that succeeds, continued by a second one. -/
theorem run_forM_append_of_ok {f : α → Prog σ ε Unit} {l l' : List α} {s m : σ} {u : Unit}
    (h : (l.forM f).run s = (.ok u, m)) : ((l ++ l').forM f).run s = (l'.forM f).run m := by
  have e : (l ++ l').forM f = l.forM f >>= fun _ => l'.forM f := List.forM_append
  rw [e, run_bind_of_ok h]

/-- Programs that only look at the state, run one after the other. -/
theorem run_mapM_of_forall_ok {f : α → Prog σ ε β} {g : α → β} {s : σ} {l : List α}
    (h : ∀ a ∈ l, (f a).run s = (.ok (g a), s)) : (l.mapM f).run s = (.ok (l.map g), s) := by
  induction l with
  | nil => rfl
  | cons a rest ih =>
      obtain ⟨ha, hrest⟩ := List.forall_mem_cons.1 h
      rw [List.mapM_cons, run_bind_of_ok ha, run_bind_of_ok (ih hrest)]
      rfl

@[simp] theorem okOr_some (e : ε) (a : α) : (okOr e (some a) : Prog σ ε α) = .done a := rfl

@[simp] theorem orPanic_some (a : α) : (orPanic (some a) : Prog σ ε α) = .done a := rfl

theorem run_mapErr (f : ε → ε') (p : Prog σ ε α) (s : σ) :
    (p.mapErr f).run s =
      match p.run s with
      | (.ok a, s') => (.ok a, s')
      | (.err e, s') => (.err (f e), s')
      | (.panic, s') => (.panic, s') := by
  induction p generalizing s with
  | done a => rfl
  | err e => rfl
  | panic => rfl
  | read k ih => exact ih s s
  | write g refused rest _ ih => exact ih (g s)

@[simp] theorem run_ite_err_eq_ok_iff {c : Prop} [Decidable c] {e : ε} {p : Prog σ ε α} {s s' : σ}
    {a : α} : (if c then .err e else p).run s = (.ok a, s') ↔ ¬ c ∧ p.run s = (.ok a, s') := by
  split_ifs with h <;> simp [h]

/-! ## Guards -/

/-- The program passes exactly in the states where `C` holds, and leaves the state as it is. -/
def Guards (p : Prog σ ε Unit) (C : σ → Prop) : Prop :=
  ∀ (s s' : σ) (u : Unit), p.run s = (.ok u, s') ↔ C s ∧ s' = s

section Guards

variable {p q : Prog σ ε Unit} {C D : σ → Prop}

theorem Guards.congr (h : Guards p C) (hCD : ∀ s, C s ↔ D s) : Guards p D := by
  intro s s' u
  rw [h s s' u, hCD s]

theorem Guards.run_eq_of_outcome (hp : Guards p C) {s : σ} {u : Unit} (h : (p.run s).1 = .ok u) :
    p.run s = (.ok u, s) := by
  have e := Prog.run_eq_of_outcome h
  rwa [((hp _ _ _).1 e).2] at e

theorem Guards.outcome_eq_ok_iff (hp : Guards p C) {s : σ} {u : Unit} :
    (p.run s).1 = .ok u ↔ C s := by
  constructor
  · intro h
    exact ((hp _ _ _).1 (Prog.run_eq_of_outcome h)).1
  · intro h
    rw [(hp s s u).2 ⟨h, rfl⟩]

theorem guards_pass : Guards (pure () : Prog σ ε Unit) fun _ => True := by
  intro s s' u
  simp [eq_comm]

/-- A guard in front of another program: the condition, and then that program alone. -/
theorem Guards.run_bind_eq_ok_iff (hp : Guards p C) {g : Unit → Prog σ ε β} {s s' : σ} {b : β} :
    (p >>= g).run s = (.ok b, s') ↔ C s ∧ (g ()).run s = (.ok b, s') := by
  rw [Prog.run_bind_eq_ok_iff]
  constructor
  · rintro ⟨_, m, hm, hg⟩
    obtain ⟨hC, rfl⟩ := (hp _ _ _).1 hm
    exact ⟨hC, hg⟩
  · rintro ⟨hC, hg⟩
    exact ⟨(), s, (hp _ _ _).2 ⟨hC, rfl⟩, hg⟩

/-- A guard that passes leaves everything to the program behind it. -/
theorem Guards.run_bind (hp : Guards p C) {g : Unit → Prog σ ε β} {s : σ} (h : C s) :
    (p >>= g).run s = (g ()).run s :=
  run_bind_of_ok ((hp s s ()).2 ⟨h, rfl⟩)

theorem Guards.bind (hp : Guards p C) (hq : Guards q D) :
    Guards (p >>= fun _ => q) fun s => C s ∧ D s := by
  intro s s' u
  rw [hp.run_bind_eq_ok_iff, hq s s' u, and_assoc]

/-- A test that fails with an error where `c` holds, in front of another guard. -/
theorem Guards.unless {c : Prop} [Decidable c] {e : ε} (hp : Guards p C) :
    Guards (if c then .err e else p) fun s => ¬ c ∧ C s := by
  intro s s' u
  rw [run_ite_err_eq_ok_iff, hp s s' u, and_assoc]

theorem guards_reject {c : Prop} [Decidable c] {e : ε} :
    Guards (if c then .err e else pure () : Prog σ ε Unit) fun _ => ¬ c :=
  guards_pass.unless.congr fun _ => and_iff_left trivial

theorem Guards.ite {c : Prop} [Decidable c] (hp : Guards p C) (hq : Guards q D) :
    Guards (if c then p else q) fun s => (c → C s) ∧ (¬ c → D s) := by
  split_ifs with h
  · exact hp.congr fun _ => by simp [h]
  · exact hq.congr fun _ => by simp [h]

end Guards

/-! ## Effects along every exit -/

/-- The state in which `p` stops, whatever the outcome, is related to the one it started in. -/
def Along (R : σ → σ → Prop) (p : Prog σ ε α) (s : σ) : Prop := R s (p.run s).2

section Along

variable {R : σ → σ → Prop} {p : Prog σ ε α} {g : α → Prog σ ε β} {s : σ}

theorem along_done [Std.Refl R] (a : α) (s : σ) : Along R (.done a : Prog σ ε α) s := refl_of R s

theorem along_err [Std.Refl R] (e : ε) (s : σ) : Along R (.err e : Prog σ ε α) s := refl_of R s

theorem along_panic [Std.Refl R] (s : σ) : Along R (.panic : Prog σ ε α) s := refl_of R s

theorem Along.bind [IsTrans σ R] (hp : Along R p s)
    (hg : ∀ a m, p.run s = (.ok a, m) → Along R (g a) m) : Along R (p >>= g) s := by
  unfold Along at *
  rw [run_bind]
  rcases h : p.run s with ⟨a | e | _, m⟩ <;> rw [h] at hp
  · exact trans_of R hp (hg a m h)
  · exact hp
  · exact hp

theorem along_okOr_bind [Std.Refl R] {γ : Type} {e : ε} {o : Option γ} {g : γ → Prog σ ε β}
    (h : ∀ a, o = some a → Along R (g a) s) : Along R (okOr e o >>= g) s := by
  cases o with
  | none => exact along_err e s
  | some a => exact h a rfl

theorem along_orPanic_bind [Std.Refl R] {γ : Type} {o : Option γ} {g : γ → Prog σ ε β}
    (h : ∀ a, o = some a → Along R (g a) s) : Along R (orPanic o >>= g) s := by
  cases o with
  | none => exact along_panic s
  | some a => exact h a rfl

theorem along_forM [Std.Refl R] [IsTrans σ R] {γ : Type} {f : γ → Prog σ ε Unit} {l : List γ}
    (h : ∀ a ∈ l, ∀ s, Along R (f a) s) (s : σ) : Along R (l.forM f) s := by
  induction l generalizing s with
  | nil => exact along_done () s
  | cons a rest ih =>
      apply Along.bind (h a List.mem_cons_self s)
      intro _ m _
      exact ih (fun b hb => h b (List.mem_cons_of_mem a hb)) m

theorem along_ite_err [Std.Refl R] {c : Prop} [Decidable c] {e : ε}
    (hp : ¬ c → Along R p s) : Along R (if c then .err e else p) s := by
  split_ifs with h
  · exact along_err e s
  · exact hp h

end Along

end Prog

end Effect
