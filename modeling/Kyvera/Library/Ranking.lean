import Mathlib

/-!
# The first few of a ranked list

In a list from the highest element down, the elements among the first `n` are those with fewer than
`n` elements above them.  Where what is left out is worth no more than anything that is taken, no
other choice of the same size is worth more.
-/

namespace Ranking

variable {α : Type} {lt : α → α → Prop} [DecidableRel lt] [Std.Irrefl lt] [IsTrans α lt]

theorem countP_above_head {a : α} {rest : List α} (h : ∀ b ∈ rest, lt b a) :
    (a :: rest).countP (fun y => lt a y) = 0 := by
  rw [List.countP_eq_zero]
  intro b hb hab
  rw [decide_eq_true_eq] at hab
  rcases List.mem_cons.1 hb with rfl | hb
  · exact irrefl_of lt b hab
  · exact irrefl_of lt a (trans_of lt hab (h b hb))

theorem mem_take_iff {l : List α} (hl : l.Pairwise fun a b => lt b a) {x : α} {n : ℕ} :
    x ∈ l.take n ↔ x ∈ l ∧ l.countP (fun y => lt x y) < n := by
  induction l generalizing n with
  | nil => simp
  | cons a rest ih =>
      obtain ⟨hhead, hrest⟩ := List.pairwise_cons.1 hl
      cases n with
      | zero => simp
      | succ n =>
          rw [List.take_succ_cons, List.mem_cons, List.mem_cons, ih hrest]
          by_cases hx : x = a
          · subst hx
            simp only [true_or, true_and, countP_above_head hhead]
            exact iff_of_true trivial (Nat.succ_pos n)
          · simp only [hx, false_or]
            apply and_congr_right
            intro hmem
            -- Everything after the first element has the first element above it.
            rw [List.countP_cons_of_pos (by simpa using hhead x hmem)]
            omega

/-- A choice that is full, or that leaves nothing out, is worth as much as any other, when nothing
that it leaves out is worth more than something that it takes. -/
theorem sum_le_of_best [DecidableEq α] {w : α → ℕ} {best other : Finset α}
    (hfull : other.card ≤ best.card ∨ other ⊆ best)
    (hbest : ∀ a ∈ best, ∀ b ∈ other, b ∉ best → w b ≤ w a) :
    ∑ x ∈ other, w x ≤ ∑ x ∈ best, w x := by
  rcases hfull with hcard | hsub
  · -- What only the other choice has is exchanged for as many elements that are worth no less.
    have hless : ∑ x ∈ other \ best, w x ≤ ∑ x ∈ best \ other, w x := by
      have hmax : ∀ a ∈ best \ other, (other \ best).sup w ≤ w a := by
        intro a ha
        refine Finset.sup_le fun b hb => ?_
        rw [Finset.mem_sdiff] at ha hb
        exact hbest a ha.1 b hb.1 hb.2
      calc ∑ x ∈ other \ best, w x
          ≤ (other \ best).card • (other \ best).sup w :=
            Finset.sum_le_card_nsmul _ _ _ fun x hx => Finset.le_sup hx
        _ ≤ (best \ other).card • (other \ best).sup w :=
            Nat.mul_le_mul_right _ (Finset.card_sdiff_le_card_sdiff_iff.2 hcard)
        _ ≤ ∑ x ∈ best \ other, w x := Finset.card_nsmul_le_sum _ _ _ hmax
    rw [← Finset.sum_inter_add_sum_sdiff other best, ← Finset.sum_inter_add_sum_sdiff best other,
      Finset.inter_comm other best]
    exact Nat.add_le_add_left hless _
  · exact Finset.sum_le_sum_of_subset hsub

end Ranking
