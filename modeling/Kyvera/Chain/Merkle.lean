import Kyvera.Chain.Hash

/-!
# Merkle roots

A block commits to its transactions by the root of a binary tree over their hashes.
-/

namespace Kyvera

variable (H : Sha3)

/-- The bytes hashed for a parent node: its two children without delimiter. -/
def pairInput (left right : String) : ByteArray := (left ++ right).toUTF8

/-- Hash two child nodes to produce their parent. -/
def hashPair (left right : String) : String := H.sha3256Hex (pairInput left right)

/-- One layer of the tree from the layer below it; a last node without sibling is paired with
itself. -/
def buildNextLayer : List String → List String
  | [] => []
  | [left] => [hashPair H left left]
  | left :: right :: rest => hashPair H left right :: buildNextLayer rest

theorem length_buildNextLayer : ∀ layer : List String,
    (buildNextLayer H layer).length = (layer.length + 1) / 2
  | [] => rfl
  | [_] => by simp [buildNextLayer]
  | _ :: _ :: rest => by
      simp only [buildNextLayer, List.length_cons, length_buildNextLayer rest]
      omega

/-- Work up the tree layer by layer until a single node is left. -/
def reduceLayers (layer : List String) : List String :=
  if 1 < layer.length then reduceLayers (buildNextLayer H layer) else layer
termination_by layer.length
decreasing_by
  rw [length_buildNextLayer]
  omega

/-- The loop ends with exactly one node, so taking the first one never fails. -/
theorem length_reduceLayers (layer : List String) (h : layer ≠ []) :
    (reduceLayers H layer).length = 1 := by
  induction layer using reduceLayers.induct H with
  | case1 layer hl ih =>
      rw [reduceLayers, if_pos hl]
      apply ih
      intro e
      have := length_buildNextLayer H layer
      rw [e, List.length_nil] at this
      omega
  | case2 layer hl =>
      rw [reduceLayers, if_neg hl]
      have := List.length_pos_iff.2 h
      omega

/-- The bytes hashed for the root of an empty block. -/
def emptyBlockInput : ByteArray := "kyvera-empty-block".toUTF8

/-- The Merkle root of a list of transaction hashes. -/
def computeMerkleRoot (transactionHashes : List String) : String :=
  match transactionHashes with
  | [] => H.sha3256Hex emptyBlockInput
  | [hash] => hash
  | layer => (reduceLayers H layer).headD ""

/-! ## What is hashed -/

/-- The bytes hashed on the way from one layer to the next. -/
def layerInputs : List String → List ByteArray
  | [] => []
  | [left] => [pairInput left left]
  | left :: right :: rest => pairInput left right :: layerInputs rest

/-- The bytes hashed on the way up the tree. -/
def reduceInputs (layer : List String) : List ByteArray :=
  if 1 < layer.length then layerInputs layer ++ reduceInputs (buildNextLayer H layer) else []
termination_by layer.length
decreasing_by
  rw [length_buildNextLayer]
  omega

/-- The bytes hashed for a Merkle root. -/
def merkleInputs (transactionHashes : List String) : List ByteArray :=
  match transactionHashes with
  | [] => [emptyBlockInput]
  | layer => reduceInputs H layer

theorem forall_mem_buildNextLayer {p : String → Prop} (hp : ∀ b, p (H.sha3256Hex b)) :
    ∀ layer : List String, ∀ s ∈ buildNextLayer H layer, p s
  | [] => List.forall_mem_nil _
  | [_] => List.forall_mem_singleton.2 (hp _)
  | _ :: _ :: rest => List.forall_mem_cons.2 ⟨hp _, forall_mem_buildNextLayer hp rest⟩

/-- The root above at least two nodes is the hash of the last two nodes that are left; what holds of
the leaves and of every hash holds of them. -/
theorem reduceLayers_eq_hashPair {p : String → Prop} (hp : ∀ b, p (H.sha3256Hex b))
    (layer : List String) (hl : 1 < layer.length) (hlayer : ∀ s ∈ layer, p s) :
    ∃ left right, p left ∧ p right ∧ pairInput left right ∈ reduceInputs H layer ∧
      reduceLayers H layer = [hashPair H left right] := by
  induction layer using reduceLayers.induct H with
  | case2 layer hshort => exact absurd hl hshort
  | case1 layer _ ih =>
      rw [reduceLayers, if_pos hl, reduceInputs, if_pos hl]
      by_cases hnext : 1 < (buildNextLayer H layer).length
      · obtain ⟨left, right, hleft, hright, hmem, hroot⟩ :=
          ih hnext (forall_mem_buildNextLayer H hp layer)
        exact ⟨left, right, hleft, hright, List.mem_append_right _ hmem, hroot⟩
      · -- A next layer of one node was built from two.
        have hlength := length_buildNextLayer H layer
        obtain ⟨left, right, rfl⟩ := List.length_eq_two.1 (show layer.length = 2 by omega)
        refine ⟨left, right, hlayer left (by simp), hlayer right (by simp),
          List.mem_append_left _ (List.mem_singleton.2 rfl), ?_⟩
        rw [reduceLayers, if_neg hnext]
        rfl

/-- The same for the Merkle root of at least two transaction hashes. -/
theorem computeMerkleRoot_eq_hashPair {p : String → Prop} (hp : ∀ b, p (H.sha3256Hex b))
    (layer : List String) (hl : 1 < layer.length) (hlayer : ∀ s ∈ layer, p s) :
    ∃ left right, p left ∧ p right ∧ pairInput left right ∈ merkleInputs H layer ∧
      computeMerkleRoot H layer = hashPair H left right := by
  obtain ⟨left, right, hleft, hright, hmem, hroot⟩ := reduceLayers_eq_hashPair H hp layer hl hlayer
  have hcompute : computeMerkleRoot H layer = (reduceLayers H layer).headD "" := by
    match layer, hl with
    | _ :: _ :: _, _ => rfl
  have hinputs : merkleInputs H layer = reduceInputs H layer := by
    match layer, hl with
    | _ :: _ :: _, _ => rfl
  rw [hcompute, hinputs, hroot]
  exact ⟨left, right, hleft, hright, hmem, rfl⟩

theorem merkleInputs_singleton (hash : String) : merkleInputs H [hash] = [] := by
  rw [merkleInputs, reduceInputs, if_neg (by simp)]
  exact fun e => List.cons_ne_nil _ _ e

end Kyvera
