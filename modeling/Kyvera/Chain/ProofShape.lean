import Kyvera.Chain.MerkleProof

/-!
# The shape of a proof

A proof for one of `n` hashes has a sibling for each level of the tree, and there are as many levels
as binary digits are needed to tell `n` positions apart.  The sides of the siblings are the digits of
the position, the lowest first, so they name the position that the proof is for.
-/

namespace Kyvera

/-- The sides of the siblings of a position: on the left of it where its digit is 1. -/
def directionsAt (depth position : ℕ) : List ProofDirection :=
  (List.range depth).map fun k => if position.testBit k then .left else .right

theorem directionsAt_succ (depth position : ℕ) :
    directionsAt (depth + 1) position =
      (if position % 2 = 0 then .right else .left) :: directionsAt depth (position / 2) := by
  have hfirst : (if position.testBit 0 then ProofDirection.left else .right) =
      if position % 2 = 0 then .right else .left := by
    rw [Nat.testBit_zero]
    rcases Nat.mod_two_eq_zero_or_one position with h | h <;> simp [h]
  unfold directionsAt
  rw [List.range_succ_eq_map, List.map_cons, List.map_map, hfirst]
  simp only [Function.comp_def, Nat.succ_eq_add_one, Nat.testBit_succ]

/-- Positions that the depth has room for are told apart by their sides. -/
theorem directionsAt_injective {depth i j : ℕ} (hi : i < 2 ^ depth) (hj : j < 2 ^ depth)
    (h : directionsAt depth i = directionsAt depth j) : i = j := by
  induction depth generalizing i j with
  | zero =>
      rw [pow_zero] at hi hj
      omega
  | succ depth ih =>
      rw [pow_succ] at hi hj
      rw [directionsAt_succ, directionsAt_succ, List.cons.injEq] at h
      have hhalf := ih (by omega) (by omega) h.2
      have hparity : i % 2 = 0 ↔ j % 2 = 0 := by
        have hfirst := h.1
        split_ifs at hfirst with h1 h2 h2
        · exact iff_of_true h1 h2
        · exact iff_of_false h1 h2
      omega

variable (H : Sha3)

theorem snd_siblingAt (layer : List String) (i : ℕ) :
    (siblingAt layer i).2 = if i % 2 = 0 then .right else .left := by
  unfold siblingAt
  split_ifs <;> rfl

/-- The walk up the tree takes one sibling at each level, on the side that the digit says. -/
theorem map_snd_collectSiblings (layer : List String) (i : ℕ) :
    (collectSiblings H layer i).map Prod.snd = directionsAt (Nat.clog 2 layer.length) i := by
  induction layer, i using collectSiblings.induct H with
  | case1 layer i hl ih =>
      have hlevel : Nat.clog 2 layer.length = Nat.clog 2 ((layer.length + 1) / 2) + 1 :=
        Nat.clog_of_two_le (by decide) hl
      rw [collectSiblings, if_pos hl, List.map_cons, ih, snd_siblingAt, hlevel, directionsAt_succ,
        length_buildNextLayer]
  | case2 layer i hl =>
      rw [collectSiblings, if_neg hl, Nat.clog_of_right_le_one (by omega)]
      rfl

theorem length_rebuildInputs (node : String) (siblings : List (String × ProofDirection)) :
    (rebuildInputs H node siblings).length = siblings.length := by
  induction siblings generalizing node with
  | nil => rfl
  | cons s rest ih => rw [rebuildInputs, List.length_cons, List.length_cons, ih]

variable {H}

/-- A proof for one of `n` hashes makes the verifier hash one pair for each of the binary digits of
`n` positions, and the sides of its siblings spell the position of the hash, of which they are the
only spelling. -/
theorem generateProof_spells_position {hashes : List String} {target : String} {proof : MerkleProof}
    (h : generateProof H hashes target = some proof) :
    ∃ i, hashes[i]? = some target ∧
      proof.siblings.map Prod.snd = directionsAt (Nat.clog 2 hashes.length) i ∧
      (proof.inputs H).length = Nat.clog 2 hashes.length ∧
      ∀ j < hashes.length,
        directionsAt (Nat.clog 2 hashes.length) j = proof.siblings.map Prod.snd → j = i := by
  unfold generateProof at h
  split_ifs at h with hempty
  obtain ⟨i, hi, rfl⟩ := Option.map_eq_some_iff.1 h
  obtain ⟨hlt, hat, -⟩ := List.idxOf?_eq_some_iff.1 hi
  have hget : hashes[i]? = some target := List.getElem?_eq_some_iff.2 ⟨hlt, hat⟩
  have hsides := map_snd_collectSiblings H hashes i
  have hlength : (collectSiblings H hashes i).length = Nat.clog 2 hashes.length := by
    rw [← List.length_map (f := Prod.snd), hsides, directionsAt, List.length_map, List.length_range]
  have hroom : hashes.length ≤ 2 ^ Nat.clog 2 hashes.length := Nat.le_pow_clog (by decide) _
  refine ⟨i, hget, hsides, ?_, fun j hj hsame => ?_⟩
  · rw [MerkleProof.inputs, length_rebuildInputs, hlength]
  · exact directionsAt_injective (by omega) (by omega) (hsame.trans hsides)

/-- The last of three hashes is at position 2: its siblings are on the right and on the left. -/
theorem generateProof_spells_position_two :
    ∃ proof, generateProof Sha3.zero ["a", "b", "c"] "c" = some proof ∧
      ∃ i, (["a", "b", "c"] : List String)[i]? = some "c" ∧
        proof.siblings.map Prod.snd = directionsAt (Nat.clog 2 3) i ∧
        (proof.inputs Sha3.zero).length = Nat.clog 2 3 ∧
        ∀ j < 3, directionsAt (Nat.clog 2 3) j = proof.siblings.map Prod.snd → j = i := by
  have hproof : generateProof Sha3.zero ["a", "b", "c"] "c" = some _ := rfl
  exact ⟨_, hproof, generateProof_spells_position hproof⟩

end Kyvera
