import Kyvera.Chain.Merkle
import Kyvera.Library.LayerTree

/-!
# Merkle proofs

A proof lists the siblings on the way from a transaction hash to the root.  The walk of
`generateProof` and the fold of `verifyProof` meet in one step: a node hashed with the sibling at
its position is the node above that position (`getElem?_buildNextLayer_of_getElem?`).
-/

namespace Kyvera

open LayerTree

/-- Which side the sibling is on. -/
inductive ProofDirection
  | left
  | right
  deriving DecidableEq, Repr

/-- What is needed to prove that a transaction is included in a block. -/
structure MerkleProof where
  leafHash : String
  siblings : List (String × ProofDirection)
  root : String
  deriving DecidableEq, Repr

variable (H : Sha3)

/-- The sibling of a position in a layer.  Both indexes lie in the layer if the position does. -/
def siblingAt (layer : List String) (currentIndex : ℕ) : String × ProofDirection :=
  if currentIndex % 2 = 0 then
    (layer.getD (if currentIndex + 1 < layer.length then currentIndex + 1 else currentIndex) "",
      .right)
  else
    (layer.getD (currentIndex - 1) "", .left)

/-- Walk up the tree collecting siblings at each level. -/
def collectSiblings (currentLayer : List String) (currentIndex : ℕ) :
    List (String × ProofDirection) :=
  if 1 < currentLayer.length then
    siblingAt currentLayer currentIndex ::
      collectSiblings (buildNextLayer H currentLayer) (currentIndex / 2)
  else []
termination_by currentLayer.length
decreasing_by
  rw [length_buildNextLayer]
  omega

/-- The proof for the first occurrence of a transaction hash in a block. -/
def generateProof (transactionHashes : List String) (targetHash : String) : Option MerkleProof :=
  if transactionHashes.isEmpty then none
  else
    (transactionHashes.idxOf? targetHash).map fun targetIndex =>
      { leafHash := targetHash
        siblings := collectSiblings H transactionHashes targetIndex
        root := computeMerkleRoot H transactionHashes }

/-- One level of the verifier: the node above a node and its sibling. -/
def verifyStep (currentHash : String) : String × ProofDirection → String
  | (sibling, .right) => hashPair H currentHash sibling
  | (sibling, .left) => hashPair H sibling currentHash

/-- The root that a leaf and its siblings lead to. -/
def rebuildRoot (leafHash : String) (siblings : List (String × ProofDirection)) : String :=
  siblings.foldl (verifyStep H) leafHash

/-- Whether a proof reconstructs its root. -/
def verifyProof (proof : MerkleProof) : Bool :=
  rebuildRoot H proof.leafHash proof.siblings == proof.root

/-! ## What is hashed -/

/-- A node and its sibling in their order. -/
def children (node : String) : String × ProofDirection → String × String
  | (sibling, .right) => (node, sibling)
  | (sibling, .left) => (sibling, node)

theorem verifyStep_eq (node : String) (s : String × ProofDirection) :
    verifyStep H node s = hashPair H (children node s).1 (children node s).2 := by
  obtain ⟨sibling, direction⟩ := s
  cases direction <;> rfl

/-- The bytes hashed for a node and its sibling. -/
def stepInput (node : String) (s : String × ProofDirection) : ByteArray :=
  pairInput (children node s).1 (children node s).2

/-- The bytes hashed on the way from a leaf to the root. -/
def rebuildInputs : String → List (String × ProofDirection) → List ByteArray
  | _, [] => []
  | node, s :: rest => stepInput node s :: rebuildInputs (verifyStep H node s) rest

/-- The bytes hashed by the verifier. -/
def MerkleProof.inputs (proof : MerkleProof) : List ByteArray :=
  rebuildInputs H proof.leafHash proof.siblings

/-! ## The layers of the tree -/

theorem buildNextLayer_eq : ∀ layer : List String,
    buildNextLayer H layer = nextLayer (hashPair H) layer
  | [] => rfl
  | [_] => rfl
  | left :: right :: rest => by
      rw [buildNextLayer, buildNextLayer_eq rest]
      rfl

theorem reduceLayers_eq (layer : List String) :
    reduceLayers H layer = top (hashPair H) layer := by
  induction layer using reduceLayers.induct H with
  | case1 layer hl ih => rw [reduceLayers, if_pos hl, ih, buildNextLayer_eq, ← top_of_lt hl]
  | case2 layer hl => rw [reduceLayers, if_neg hl, top_of_not_lt hl]

theorem layerInputs_eq : ∀ layer : List String,
    layerInputs layer = (pairUp layer).map fun p => pairInput p.1 p.2
  | [] => rfl
  | [_] => rfl
  | left :: right :: rest => by
      rw [layerInputs, layerInputs_eq rest]
      rfl

theorem reduceInputs_eq (layer : List String) :
    reduceInputs H layer = (pairs (hashPair H) layer).map fun p => pairInput p.1 p.2 := by
  induction layer using reduceLayers.induct H with
  | case1 layer hl ih =>
      rw [reduceInputs, if_pos hl, ih, pairs_of_lt hl, List.map_append, layerInputs_eq,
        buildNextLayer_eq]
  | case2 layer hl =>
      rw [reduceInputs, if_neg hl, pairs, if_neg hl, List.map_nil]

theorem reduceLayers_eq_computeMerkleRoot {hashes : List String} (h : hashes ≠ []) :
    reduceLayers H hashes = [computeMerkleRoot H hashes] := by
  obtain ⟨root, hroot⟩ := List.length_eq_one_iff.1 (length_reduceLayers H hashes h)
  match hashes, h with
  | [hash], _ =>
      rw [reduceLayers, if_neg (by simp)]
      rfl
  | _ :: _ :: _, _ =>
      show _ = [(reduceLayers H _).headD ""]
      rw [hroot, List.headD_cons]

/-- A node and the sibling at its position are the pair above them. -/
theorem getElem?_pairUp_siblingAt {layer : List String} {i : ℕ} {node : String}
    (h : layer[i]? = some node) :
    (pairUp layer)[i / 2]? = some (children node (siblingAt layer i)) := by
  have hi : i < layer.length := (List.getElem?_eq_some_iff.1 h).1
  rw [getElem?_pairUp, siblingAt]
  by_cases heven : i % 2 = 0
  · -- A left child: its sibling is the next node, or the node itself at the end of an odd layer.
    rw [show 2 * (i / 2) = i by omega, h, Option.map_some, if_pos heven]
    by_cases hnext : i + 1 < layer.length
    · rw [if_pos hnext, List.getElem?_eq_getElem hnext, List.getD_eq_getElem _ _ hnext]
      rfl
    · rw [if_neg hnext, List.getElem?_eq_none (by omega), List.getD_eq_getElem?_getD, h]
      rfl
  · -- A right child: its sibling is the node before.
    have hprev : i - 1 < layer.length := by omega
    rw [show 2 * (i / 2) = i - 1 by omega, show i - 1 + 1 = i by omega, h,
      List.getElem?_eq_getElem hprev, Option.map_some, if_neg heven,
      List.getD_eq_getElem _ _ hprev]
    rfl

/-- One step of the verifier along the siblings of the tree is one step up the tree. -/
theorem getElem?_buildNextLayer_siblingAt {layer : List String} {i : ℕ} {node : String}
    (h : layer[i]? = some node) :
    (buildNextLayer H layer)[i / 2]? = some (verifyStep H node (siblingAt layer i)) := by
  rw [buildNextLayer_eq, nextLayer, List.getElem?_map, getElem?_pairUp_siblingAt h, verifyStep_eq]
  rfl

/-! ## Completeness -/

/-- The siblings collected from a position lead from its node to the root. -/
theorem reduceLayers_eq_rebuildRoot {layer : List String} {i : ℕ} {node : String}
    (h : layer[i]? = some node) :
    reduceLayers H layer = [rebuildRoot H node (collectSiblings H layer i)] := by
  induction layer using reduceLayers.induct H generalizing i node with
  | case1 layer hl ih =>
      rw [reduceLayers, if_pos hl, collectSiblings, if_pos hl,
        ih (getElem?_buildNextLayer_siblingAt H h)]
      rfl
  | case2 layer hl =>
      have hi := (List.getElem?_eq_some_iff.1 h).1
      obtain ⟨root, rfl⟩ := List.length_eq_one_iff.1 (show layer.length = 1 by omega)
      obtain rfl : i = 0 := by rw [List.length_singleton] at hi; omega
      rw [reduceLayers, if_neg hl, collectSiblings, if_neg hl, Option.some.inj h]
      rfl

theorem generateProof_eq (hashes : List String) (target : String) :
    generateProof H hashes target = (hashes.idxOf? target).map fun i =>
      { leafHash := target, siblings := collectSiblings H hashes i,
        root := computeMerkleRoot H hashes } := by
  cases hashes with
  | nil => rfl
  | cons hash rest => rfl

/-- The proof collected from a position verifies. -/
theorem rebuildRoot_collectSiblings {hashes : List String} {i : ℕ} {leaf : String}
    (h : hashes[i]? = some leaf) :
    rebuildRoot H leaf (collectSiblings H hashes i) = computeMerkleRoot H hashes := by
  have hne : hashes ≠ [] := List.ne_nil_of_mem (List.mem_of_getElem? h)
  have e := reduceLayers_eq_rebuildRoot H h
  rw [reduceLayers_eq_computeMerkleRoot H hne] at e
  exact (List.cons.inj e).1.symm

/-- A proof is generated exactly for the hashes of the block, and it verifies against the root of
the block. -/
theorem generateProof_complete (hashes : List String) (target : String) :
    ((generateProof H hashes target).isSome = true ↔ target ∈ hashes) ∧
      ∀ proof ∈ generateProof H hashes target,
        proof.root = computeMerkleRoot H hashes ∧ proof.leafHash = target ∧
          verifyProof H proof = true := by
  rw [generateProof_eq, Option.isSome_map, List.isSome_idxOf?]
  refine ⟨Iff.rfl, fun proof hproof => ?_⟩
  obtain ⟨i, hi, rfl⟩ := Option.map_eq_some_iff.1 hproof
  obtain ⟨hlt, hat, _⟩ := List.idxOf?_eq_some_iff.1 hi
  have hget : hashes[i]? = some target := by rw [List.getElem?_eq_getElem hlt, hat]
  refine ⟨rfl, rfl, ?_⟩
  rw [verifyProof, rebuildRoot_collectSiblings H hget]
  exact beq_self_eq_true _

end Kyvera
