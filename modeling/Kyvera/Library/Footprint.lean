import Kyvera.Library.Refusals

/-!
# Footprints

The writes that a program can make, whatever it reads.  A footprint is found along the structure of
a program, without a state; what all writes of a footprint keep, every execution keeps, and so does
every execution that is refused a write (`WritesOnly.everyWrite`).
-/

namespace Effect

namespace Prog

variable {σ ε α β γ : Type}

/-- Every write is one of `W`, and one that is refused ends the program with an error. -/
def WritesOnly (W : (σ → σ) → Prop) : Prog σ ε α → Prop
  | .done _ => True
  | .err _ => True
  | .panic => True
  | .read k => ∀ s, (k s).WritesOnly W
  | .write f refused rest => (∃ e, refused = .err e) ∧ W f ∧ rest.WritesOnly W

section WritesOnly

variable {W : (σ → σ) → Prop} {R : σ → σ → Prop} {p : Prog σ ε α}

@[simp] theorem writesOnly_done (a : α) : (.done a : Prog σ ε α).WritesOnly W := trivial

@[simp] theorem writesOnly_pure (a : α) : (pure a : Prog σ ε α).WritesOnly W := trivial

@[simp] theorem writesOnly_err (e : ε) : (.err e : Prog σ ε α).WritesOnly W := trivial

@[simp] theorem writesOnly_panic : (.panic : Prog σ ε α).WritesOnly W := trivial

@[simp] theorem writesOnly_get : (get : Prog σ ε σ).WritesOnly W := fun _ => trivial

@[simp] theorem writesOnly_okOr (e : ε) (o : Option α) : (okOr e o : Prog σ ε α).WritesOnly W := by
  cases o <;> trivial

@[simp] theorem writesOnly_orPanic (o : Option α) : (orPanic o : Prog σ ε α).WritesOnly W := by
  cases o <;> trivial

theorem writesOnly_set {f : σ → σ} (hf : W f) (e : ε) : (set f e).WritesOnly W :=
  ⟨⟨e, rfl⟩, hf, trivial⟩

/-- Every value that the program can stop with satisfies `P`, whatever it reads. -/
def Returns (P : α → Prop) : Prog σ ε α → Prop
  | .done a => P a
  | .err _ => True
  | .panic => True
  | .read k => ∀ s, (k s).Returns P
  | .write _ refused rest => refused.Returns P ∧ rest.Returns P

theorem Returns.bind {P : α → Prop} {Q : β → Prop} {g : α → Prog σ ε β} (hp : p.Returns P)
    (hg : ∀ a, P a → (g a).Returns Q) : (p >>= g).Returns Q := by
  change (p.bind g).Returns Q
  induction p with
  | done a => exact hg a hp
  | err e => trivial
  | panic => trivial
  | read k ih => exact fun s => ih s (hp s)
  | write f refused rest ih ih' => exact ⟨ih hp.1, ih' hp.2⟩

theorem returns_true (p : Prog σ ε α) : p.Returns fun _ => True := by
  induction p with
  | done a => trivial
  | err e => trivial
  | panic => trivial
  | read k ih => exact ih
  | write f refused rest ih ih' => exact ⟨ih, ih'⟩

/-- Behind a program, only the values that it returns have to be considered. -/
theorem WritesOnly.bind_of_returns {P : α → Prop} {g : α → Prog σ ε β} (hp : p.WritesOnly W)
    (hP : p.Returns P) (hg : ∀ a, P a → (g a).WritesOnly W) : (p >>= g).WritesOnly W := by
  change (p.bind g).WritesOnly W
  induction p with
  | done a => exact hg a hP
  | err e => trivial
  | panic => trivial
  | read k ih => exact fun s => ih s (hp s) (hP s)
  | write f refused rest _ ih =>
      obtain ⟨⟨e, rfl⟩, hf, hrest⟩ := hp
      exact ⟨⟨e, rfl⟩, hf, ih hrest hP.2⟩

theorem WritesOnly.bind {g : α → Prog σ ε β} (hp : p.WritesOnly W)
    (hg : ∀ a, (g a).WritesOnly W) : (p >>= g).WritesOnly W :=
  hp.bind_of_returns p.returns_true fun a _ => hg a

theorem WritesOnly.ite {c : Prop} [Decidable c] {q : Prog σ ε α} (hp : p.WritesOnly W)
    (hq : q.WritesOnly W) : (if c then p else q).WritesOnly W := by
  split_ifs
  · exact hp
  · exact hq

theorem writesOnly_forM {f : γ → Prog σ ε Unit} {l : List γ} (h : ∀ a ∈ l, (f a).WritesOnly W) :
    (l.forM f).WritesOnly W := by
  induction l with
  | nil => trivial
  | cons a rest ih =>
      obtain ⟨ha, hrest⟩ := List.forall_mem_cons.1 h
      exact ha.bind fun _ => ih hrest

/-- What the writes of a footprint do to a state, every write of the program does. -/
theorem WritesOnly.everyWrite (hp : p.WritesOnly W) (hW : ∀ f, W f → ∀ s, R s (f s)) (s : σ) :
    p.EveryWrite R s := by
  induction p generalizing s with
  | done a => trivial
  | err e => trivial
  | panic => trivial
  | read k ih => exact ih s (hp s) s
  | write f refused rest _ ih =>
      obtain ⟨hrefused, hf, hrest⟩ := hp
      exact ⟨hrefused, hW f hf s, ih hrest (f s)⟩

theorem WritesOnly.frame {τ : Type} {part : σ → τ} (hp : p.WritesOnly W)
    (hW : ∀ f, W f → ∀ s, part (f s) = part s) (s : σ) : part (p.run s).2 = part s := by
  induction p generalizing s with
  | done a => rfl
  | err e => rfl
  | panic => rfl
  | read k ih => exact ih s (hp s) s
  | write f refused rest _ ih =>
      obtain ⟨-, hf, hrest⟩ := hp
      exact (ih hrest (f s)).trans (hW f hf s)

end WritesOnly

end Prog

end Effect
