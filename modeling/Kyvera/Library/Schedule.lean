import Mathlib

/-!
# Schedules

A schedule is an amount for every height.  One that changes only from interval to interval is
summed up interval by interval, and one that repeats itself is summed up period by period.  Amounts
that are halved from interval to interval are used up after finitely many of them.
-/

namespace Schedule

open Finset

/-! ## Sums -/

section Sums

variable {M : Type*} [AddCommMonoid M]

/-- Over whole intervals, a schedule that changes only between them adds up to as many times its
amounts as an interval is long. -/
theorem sum_range_mul_div (f : ℕ → M) {d : ℕ} (hd : 0 < d) (m : ℕ) :
    ∑ i ∈ range (m * d), f (i / d) = d • ∑ c ∈ range m, f c := by
  induction m with
  | zero => rw [Nat.zero_mul, sum_range_zero, sum_range_zero, smul_zero]
  | succ m ih =>
      have hlast : ∑ i ∈ range d, f ((m * d + i) / d) = d • f m := by
        rw [← card_range d, ← sum_const, card_range]
        apply sum_congr rfl
        intro i hi
        rw [Nat.mul_comm, Nat.mul_add_div hd, Nat.div_eq_of_lt (mem_range.1 hi), Nat.add_zero]
      rw [Nat.succ_mul, sum_range_add, ih, hlast, sum_range_succ, smul_add]

/-- Whole periods of a schedule that repeats itself add up to equal parts. -/
theorem sum_range_mul_add {f : ℕ → M} {p : ℕ} (h : Function.Periodic f p) (k n : ℕ) :
    ∑ i ∈ range (k * p + n), f i = k • ∑ i ∈ range p, f i + ∑ i ∈ range n, f i := by
  have hshift : ∀ k i, f (k * p + i) = f i := by
    intro k i
    rw [Nat.add_comm]
    exact h.nat_mul k i
  have hperiods : ∀ k, ∑ i ∈ range (k * p), f i = k • ∑ i ∈ range p, f i := by
    intro k
    induction k with
    | zero => rw [Nat.zero_mul, sum_range_zero, zero_smul]
    | succ k ih => rw [Nat.succ_mul, sum_range_add, ih, succ_nsmul,
        sum_congr rfl fun i _ => hshift k i]
  rw [sum_range_add, hperiods, sum_congr rfl fun i _ => hshift k i]

end Sums

/-! ## Halving -/

/-- What is left of an amount after it has been halved, rounding down each time. -/
def halved (amount count : ℕ) : ℕ := amount / 2 ^ count

section Halving

variable {amount count count' : ℕ}

theorem halved_antitone (amount : ℕ) : Antitone (halved amount) := by
  intro c c' h
  exact Nat.div_le_div_left (Nat.pow_le_pow_right two_pos h) (Nat.two_pow_pos c)

theorem halved_eq_zero_iff : halved amount count = 0 ↔ amount < 2 ^ count :=
  Nat.div_eq_zero_iff_lt (Nat.two_pow_pos count)

theorem sum_range_halved (h : amount < 2 ^ count) (hle : count ≤ count') :
    ∑ c ∈ range count', halved amount c = ∑ c ∈ range count, halved amount c := by
  symm
  apply sum_subset (range_subset_range.2 hle)
  intro c _ hc
  rw [halved_eq_zero_iff]
  have : count ≤ c := by rwa [mem_range, Nat.not_lt] at hc
  exact h.trans_le (Nat.pow_le_pow_right two_pos this)

/-- What is paid before the number of halvings is taken to be zero again. -/
theorem sum_range_halved_mod (h : amount < 2 ^ count) (hle : count ≤ count') {d : ℕ} (hd : 0 < d) :
    ∑ i ∈ range (count' * d), halved amount (i / d % count') =
      d * ∑ c ∈ range count, halved amount c := by
  have hmod : ∑ c ∈ range count', halved amount (c % count') =
      ∑ c ∈ range count', halved amount c := by
    apply sum_congr rfl
    intro c hc
    rw [Nat.mod_eq_of_lt (mem_range.1 hc)]
  rw [sum_range_mul_div (fun c => halved amount (c % count')) hd, hmod, sum_range_halved h hle,
    smul_eq_mul]

end Halving

end Schedule
