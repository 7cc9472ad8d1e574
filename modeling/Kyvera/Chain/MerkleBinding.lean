import Kyvera.Chain.MerkleProof

/-!
# What a Merkle root binds

Without collisions a pair of nodes is determined by its hash, as long as both are hashes of 64
characters.  A proof that follows the directions of a position can then only be the generated one.
The root alone fixes less: leaves and inner nodes look alike and a last node without neighbour is
repeated, so a proof may start elsewhere in the tree and two lists may have one root.  Both are
described exactly.
-/

namespace Kyvera

open LayerTree

section Pairs

/-- Two pairs that are hashed as the same bytes are the same text cut in two places. -/
theorem pairInput_eq_iff {l r l' r' : String} :
    pairInput l r = pairInput l' r' ↔ l ++ r = l' ++ r' := by
  rw [pairInput, pairInput]
  exact String.toByteArray_inj

theorem append_inj_left {l r l' r' : String} (h : l ++ r = l' ++ r') (hl : l.length = l'.length) :
    l = l' ∧ r = r' := by
  have e := congrArg String.toList h
  rw [String.toList_append, String.toList_append] at e
  obtain ⟨e₁, e₂⟩ := List.append_inj e (by rwa [String.length_toList, String.length_toList])
  exact ⟨String.toList_inj.1 e₁, String.toList_inj.1 e₂⟩

theorem append_inj_right {l r l' r' : String} (h : l ++ r = l' ++ r')
    (hr : r.length = r'.length) : l = l' ∧ r = r' := by
  apply append_inj_left h
  have e := congrArg String.length h
  rw [String.length_append, String.length_append] at e
  omega

/-- A node of 64 characters in a pair is a node of every pair of 64-character nodes that has the
same text. -/
theorem children_eq {node l r : String} {s : String × ProofDirection} (hnode : node.length = 64)
    (hl : l.length = 64) (hr : r.length = 64)
    (h : stepInput node s = pairInput l r) : children node s = (l, r) := by
  rw [stepInput, pairInput_eq_iff] at h
  obtain ⟨sibling, direction⟩ := s
  cases direction with
  | left =>
      obtain ⟨e₁, e₂⟩ := append_inj_right h (hnode.trans hr.symm)
      exact Prod.ext e₁ e₂
  | right =>
      obtain ⟨e₁, e₂⟩ := append_inj_left h (hnode.trans hl.symm)
      exact Prod.ext e₁ e₂

theorem children_inj {node node' : String} {s s' : String × ProofDirection} (hd : s.2 = s'.2)
    (h : children node s = children node' s') : node = node' ∧ s = s' := by
  obtain ⟨sibling, direction⟩ := s
  obtain ⟨sibling', direction'⟩ := s'
  obtain rfl : direction = direction' := hd
  cases direction with
  | left =>
      obtain ⟨rfl, rfl⟩ := Prod.mk.inj h
      exact ⟨rfl, rfl⟩
  | right =>
      obtain ⟨rfl, rfl⟩ := Prod.mk.inj h
      exact ⟨rfl, rfl⟩

theorem length_children {node : String} {s : String × ProofDirection} (hnode : node.length = 64)
    (hs : s.1.length = 64) :
    (children node s).1.length = 64 ∧ (children node s).2.length = 64 := by
  obtain ⟨sibling, direction⟩ := s
  cases direction with
  | left => exact ⟨hs, hnode⟩
  | right => exact ⟨hnode, hs⟩

end Pairs

/-- A text of 64 equal characters. -/
def uniformHash (c : Char) : String := String.ofList (List.replicate 64 c)

theorem length_uniformHash (c : Char) : (uniformHash c).length = 64 := by
  rw [uniformHash, String.length_ofList, List.length_replicate]

variable (H : Sha3)

theorem length_hashPair (left right : String) : (hashPair H left right).length = 64 :=
  H.length_hex _

theorem length_of_mem_buildNextLayer {layer : List String} {node : String}
    (h : node ∈ buildNextLayer H layer) : node.length = 64 :=
  forall_mem_buildNextLayer H (p := fun s => s.length = 64) (fun b => H.length_hex b) layer node h

theorem length_verifyStep (node : String) (s : String × ProofDirection) :
    (verifyStep H node s).length = 64 := by
  rw [verifyStep_eq]
  exact length_hashPair H _ _

theorem hashPair_children (node : String) (s : String × ProofDirection) :
    verifyStep H node s = H.sha3256Hex (stepInput node s) := by
  rw [verifyStep_eq]
  rfl

/-! ## Proofs for a known position -/

/-- Two proofs with the same directions that lead to the same node are equal. -/
theorem rebuildRoot_inj {node node' : String} {siblings siblings' : List (String × ProofDirection)}
    (hnode : node.length = 64) (hnode' : node'.length = 64)
    (hs : ∀ s ∈ siblings, s.1.length = 64) (hs' : ∀ s ∈ siblings', s.1.length = 64)
    (hd : siblings.map Prod.snd = siblings'.map Prod.snd)
    (hcf : H.CollisionFree (rebuildInputs H node siblings ++ rebuildInputs H node' siblings'))
    (h : rebuildRoot H node siblings = rebuildRoot H node' siblings') :
    node = node' ∧ siblings = siblings' := by
  induction siblings generalizing node node' siblings' with
  | nil =>
      obtain rfl : siblings' = [] := List.map_eq_nil_iff.1 hd.symm
      exact ⟨h, rfl⟩
  | cons s rest ih =>
      cases siblings' with
      | nil => simp at hd
      | cons s' rest' =>
          rw [List.map_cons, List.map_cons, List.cons.injEq] at hd
          rw [List.forall_mem_cons] at hs hs'
          have hsub : rebuildInputs H (verifyStep H node s) rest ++
              rebuildInputs H (verifyStep H node' s') rest' ⊆
                rebuildInputs H node (s :: rest) ++ rebuildInputs H node' (s' :: rest') :=
            List.append_subset.2
              ⟨List.subset_append_of_subset_left _ (List.subset_cons_self _ _),
                List.subset_append_of_subset_right _ (List.subset_cons_self _ _)⟩
          obtain ⟨hstep, hrest⟩ := ih (length_verifyStep H node s) (length_verifyStep H node' s')
            hs.2 hs'.2 hd.2 (hcf.mono hsub) h
          have hinput : stepInput node s = stepInput node' s' := by
            rw [hashPair_children, hashPair_children] at hstep
            exact hcf.eq (List.mem_append_left _ List.mem_cons_self)
              (List.mem_append_right _ List.mem_cons_self) hstep
          obtain ⟨hl, hr⟩ := length_children hnode' hs'.1
          obtain ⟨rfl, rfl⟩ := children_inj hd.1 (children_eq hnode hl hr hinput)
          exact ⟨rfl, by rw [hrest]⟩

/-- Everything hashed along the siblings of the tree is hashed for the root. -/
theorem rebuildInputs_collectSiblings_subset {layer : List String} {i : ℕ} {node : String}
    (h : layer[i]? = some node) :
    rebuildInputs H node (collectSiblings H layer i) ⊆ reduceInputs H layer := by
  induction layer using reduceLayers.induct H generalizing i node with
  | case1 layer hl ih =>
      rw [collectSiblings, if_pos hl, reduceInputs, if_pos hl]
      apply List.cons_subset.2
      constructor
      · rw [List.mem_append, layerInputs_eq]
        exact .inl (List.mem_map.2 ⟨_, List.mem_of_getElem? (getElem?_pairUp_siblingAt h), rfl⟩)
      · exact List.subset_append_of_subset_right _ (ih (getElem?_buildNextLayer_siblingAt H h))
  | case2 layer hl =>
      rw [collectSiblings, if_neg hl]
      exact List.nil_subset _

theorem forall_mem_collectSiblings {p : String → Prop} (hp : ∀ b, p (H.sha3256Hex b))
    {layer : List String} (hlayer : ∀ node ∈ layer, p node) {i : ℕ} (hi : i < layer.length) :
    ∀ s ∈ collectSiblings H layer i, p s.1 := by
  induction layer using reduceLayers.induct H generalizing i with
  | case1 layer hl ih =>
      rw [collectSiblings, if_pos hl, List.forall_mem_cons]
      have hget : layer[i]? = some layer[i] := List.getElem?_eq_getElem hi
      constructor
      · obtain ⟨h1, h2⟩ := mem_of_mem_pairUp (List.mem_of_getElem? (getElem?_pairUp_siblingAt hget))
        -- The sibling is one of the two nodes of the pair.
        generalize siblingAt layer i = s at h1 h2
        obtain ⟨sibling, direction⟩ := s
        cases direction with
        | left => exact hlayer _ h1
        | right => exact hlayer _ h2
      · apply ih (forall_mem_buildNextLayer H hp layer)
        rw [length_buildNextLayer]
        omega
  | case2 layer hl =>
      rw [collectSiblings, if_neg hl]
      exact List.forall_mem_nil _

theorem merkleInputs_of_ne_nil {hashes : List String} (h : hashes ≠ []) :
    merkleInputs H hashes = reduceInputs H hashes := by
  match hashes, h with
  | _ :: _, _ => rfl

theorem merkleInputs_pair (left right : String) :
    merkleInputs H [left, right] = [pairInput left right] := by
  rw [merkleInputs_of_ne_nil H (List.cons_ne_nil _ _), reduceInputs, if_pos (by simp), reduceInputs,
    if_neg (by simp [buildNextLayer])]
  rfl

theorem verifyProof_eq_true_iff {proof : MerkleProof} :
    verifyProof H proof = true ↔ rebuildRoot H proof.leafHash proof.siblings = proof.root := by
  rw [verifyProof, beq_iff_eq]

theorem generateProof_getElem {hashes : List String} (hnodup : hashes.Nodup) {i : ℕ}
    (hi : i < hashes.length) :
    generateProof H hashes hashes[i] =
      some { leafHash := hashes[i], siblings := collectSiblings H hashes i,
             root := computeMerkleRoot H hashes } := by
  have hidx : hashes.idxOf? hashes[i] = some i := by
    rw [List.idxOf?_eq_some_iff]
    refine ⟨hi, rfl, fun j hj e => ?_⟩
    exact absurd ((hnodup.getElem_inj_iff).1 e) (Nat.ne_of_lt hj)
  rw [generateProof_eq, hidx, Option.map_some]

/-- A proof that follows the directions of a position and verifies is the generated proof. -/
theorem verifyProof_positional {hashes : List String} (h64 : ∀ hash ∈ hashes, hash.length = 64)
    (hnodup : hashes.Nodup) {i : ℕ} (hi : i < hashes.length) {proof generated : MerkleProof}
    (hgenerated : generateProof H hashes hashes[i] = some generated)
    (hleaf : proof.leafHash.length = 64) (hsiblings : ∀ s ∈ proof.siblings, s.1.length = 64)
    (hroot : proof.root = computeMerkleRoot H hashes)
    (hdirections : proof.siblings.map Prod.snd = generated.siblings.map Prod.snd)
    (hcf : H.CollisionFree (merkleInputs H hashes ++ proof.inputs H))
    (hverify : verifyProof H proof = true) :
    proof.leafHash = hashes[i] ∧ proof.siblings = generated.siblings := by
  rw [generateProof_getElem H hnodup hi] at hgenerated
  obtain rfl := Option.some.inj hgenerated
  have hget : hashes[i]? = some hashes[i] := List.getElem?_eq_getElem hi
  have hne : hashes ≠ [] := List.ne_nil_of_mem (List.getElem_mem hi)
  have hlead : rebuildRoot H proof.leafHash proof.siblings =
      rebuildRoot H hashes[i] (collectSiblings H hashes i) := by
    rw [(verifyProof_eq_true_iff H).1 hverify, hroot, rebuildRoot_collectSiblings H hget]
  rw [merkleInputs_of_ne_nil H hne] at hcf
  have hsub : rebuildInputs H proof.leafHash proof.siblings ++
      rebuildInputs H hashes[i] (collectSiblings H hashes i) ⊆
        reduceInputs H hashes ++ proof.inputs H :=
    List.append_subset.2 ⟨List.subset_append_right _ _,
      List.subset_append_of_subset_left _ (rebuildInputs_collectSiblings_subset H hget)⟩
  exact rebuildRoot_inj H hleaf (h64 _ (List.getElem_mem hi)) hsiblings
    (forall_mem_collectSiblings H (p := fun s => s.length = 64) (fun b => H.length_hex b) h64 hi)
    hdirections (hcf.mono hsub) hlead

theorem verifyProof_positional_pair :
    let hashes := [uniformHash 'a', uniformHash 'b']
    let proof : MerkleProof :=
      { leafHash := uniformHash 'a', siblings := [(uniformHash 'b', .right)],
        root := computeMerkleRoot Sha3.checksum hashes }
    proof.leafHash = hashes[0] ∧
      proof.siblings = collectSiblings Sha3.checksum hashes 0 := by
  intro hashes proof
  have hnodup : hashes.Nodup := by decide +kernel
  have hsiblings : collectSiblings Sha3.checksum hashes 0 = proof.siblings := by
    rw [collectSiblings, if_pos (by decide), collectSiblings, if_neg (by decide)]
    rfl
  refine verifyProof_positional Sha3.checksum ?_ hnodup (by decide)
    (generateProof_getElem Sha3.checksum hnodup _) (length_uniformHash 'a') ?_ rfl ?_ ?_ ?_
  · simp [hashes, length_uniformHash]
  · simp [proof, length_uniformHash]
  · rw [hsiblings]
  · apply Sha3.collisionFree_of_forall_eq (b := pairInput (uniformHash 'a') (uniformHash 'b'))
    simp [hashes, proof, merkleInputs_pair, MerkleProof.inputs, rebuildInputs, stepInput, children]
  · rw [verifyProof_eq_true_iff, ← hsiblings]
    exact rebuildRoot_collectSiblings Sha3.checksum rfl

/-! ## Proofs for no position -/

/-- The siblings are the tree's own ones on the way from a node of the layer to the top. -/
def Ascends : List String → String → List (String × ProofDirection) → Prop
  | layer, node, [] => layer = [node]
  | layer, node, s :: rest =>
      1 < layer.length ∧ children node s ∈ pairUp layer ∧
        Ascends (buildNextLayer H layer) (verifyStep H node s) rest

/-- The text is a chain of hashes over the leaf: hashed with the siblings one after the other, the
leaf gives it. -/
inductive HashedFrom (leaf : String) : List (String × ProofDirection) → String → Prop
  | leaf : HashedFrom leaf [] leaf
  | step {siblings : List (String × ProofDirection)} {node : String} (s : String × ProofDirection) :
      HashedFrom leaf siblings node →
        HashedFrom leaf (siblings ++ [s]) (H.sha3256Hex (stepInput node s))

/-- The kinds of proofs that end in the root of the block without starting at one of its hashes. -/
inductive StartsElsewhere (hashes : List String) (proof : MerkleProof) : Prop
  /-- The leaf is a node above the hashes of the block. -/
  | above (layer : List String) :
      layer ∈ layers (hashPair H) (buildNextLayer H hashes) → 1 < hashes.length →
        Ascends H layer proof.leafHash proof.siblings → StartsElsewhere hashes proof
  /-- The leaf and its sibling are the text of a pair of nodes, cut in another place. -/
  | cut (layer : List String) (s : String × ProofDirection)
      (rest : List (String × ProofDirection)) (left right : String) :
      layer ∈ layers (hashPair H) hashes → 1 < layer.length → (left, right) ∈ pairUp layer →
        proof.siblings = s :: rest → proof.leafHash.length ≠ 64 →
        (children proof.leafHash s).1 ++ (children proof.leafHash s).2 = left ++ right →
        Ascends H (buildNextLayer H layer) (hashPair H left right) rest →
        StartsElsewhere hashes proof
  /-- A hash of the block is itself a chain of hashes over the leaf. -/
  | below (lower upper : List (String × ProofDirection)) (hash : String) :
      hash ∈ hashes → proof.siblings = lower ++ upper → lower ≠ [] →
        HashedFrom H proof.leafHash lower hash → Ascends H hashes hash upper →
        StartsElsewhere hashes proof

theorem rebuildRoot_append (leaf : String) (lower upper : List (String × ProofDirection)) :
    rebuildRoot H leaf (lower ++ upper) = rebuildRoot H (rebuildRoot H leaf lower) upper :=
  List.foldl_append

theorem hashedFrom_iff {leaf node : String} {siblings : List (String × ProofDirection)} :
    HashedFrom H leaf siblings node ↔ rebuildRoot H leaf siblings = node := by
  constructor
  · intro h
    induction h with
    | leaf => rfl
    | step s _ ih =>
        rw [rebuildRoot_append, ih, ← hashPair_children]
        rfl
  · rintro rfl
    induction siblings using List.reverseRecOn with
    | nil => exact .leaf
    | append_singleton siblings s ih =>
        rw [rebuildRoot_append]
        show HashedFrom H leaf (siblings ++ [s]) (verifyStep H (rebuildRoot H leaf siblings) s)
        rw [hashPair_children]
        exact .step s ih

theorem rebuildInputs_append (leaf : String) (lower upper : List (String × ProofDirection)) :
    rebuildInputs H leaf (lower ++ upper) =
      rebuildInputs H leaf lower ++ rebuildInputs H (rebuildRoot H leaf lower) upper := by
  induction lower generalizing leaf with
  | nil => rfl
  | cons s lower ih =>
      rw [List.cons_append, rebuildInputs, ih, rebuildInputs]
      rfl

theorem Ascends.mem {layer : List String} {node : String}
    {siblings : List (String × ProofDirection)} (h : Ascends H layer node siblings) :
    node ∈ layer := by
  cases siblings with
  | nil =>
      obtain rfl : layer = [node] := h
      exact List.mem_singleton_self _
  | cons s rest =>
      obtain ⟨hl, hr⟩ := mem_of_mem_pairUp h.2.1
      obtain ⟨sibling, direction⟩ := s
      cases direction with
      | left => exact hr
      | right => exact hl

theorem Ascends.top_eq {layer : List String} {node : String}
    {siblings : List (String × ProofDirection)} (h : Ascends H layer node siblings) :
    reduceLayers H layer = [rebuildRoot H node siblings] := by
  induction siblings generalizing layer node with
  | nil =>
      obtain rfl : layer = [node] := h
      rw [reduceLayers, if_neg (by simp)]
      rfl
  | cons s rest ih =>
      rw [reduceLayers, if_pos h.1, ih h.2.2]
      rfl

theorem HashedFrom.exists_of_ne_nil {leaf node : String}
    {siblings : List (String × ProofDirection)} (h : HashedFrom H leaf siblings node)
    (hne : siblings ≠ []) : ∃ lower s node', siblings = lower ++ [s] ∧
      HashedFrom H leaf lower node' ∧ node = H.sha3256Hex (stepInput node' s) := by
  cases h with
  | leaf => exact absurd rfl hne
  | step s h => exact ⟨_, s, _, rfl, h, rfl⟩

theorem HashedFrom.length {leaf node : String} {siblings : List (String × ProofDirection)}
    (h : HashedFrom H leaf siblings node) (hne : siblings ≠ []) : node.length = 64 := by
  obtain ⟨_, _, _, _, _, rfl⟩ := h.exists_of_ne_nil H hne
  exact H.length_hex _

theorem mem_layers_of_next {layer m : List String} (hl : 1 < layer.length)
    (h : m ∈ layers (hashPair H) (buildNextLayer H layer)) : m ∈ layers (hashPair H) layer := by
  rw [layers_of_lt hl, ← buildNextLayer_eq]
  exact List.mem_cons_of_mem _ h

theorem length_of_mem_pairUp {layer : List String} (h64 : ∀ node ∈ layer, node.length = 64)
    {left right : String} (h : (left, right) ∈ pairUp layer) :
    left.length = 64 ∧ right.length = 64 :=
  ⟨h64 _ (mem_of_mem_pairUp h).1, h64 _ (mem_of_mem_pairUp h).2⟩

/-- A way whose last step gives a node of the next layer: the last step hashes a pair of the layer,
so it starts at a node of the layer unless it starts with another cut of the pair. -/
theorem start_of_step {layer : List String} (hl : 1 < layer.length)
    (h64 : ∀ node ∈ layer, node.length = 64) {proof : MerkleProof} {node : String}
    {lower upper : List (String × ProofDirection)} {s : String × ProofDirection}
    (hsiblings : proof.siblings = lower ++ s :: upper)
    (hnode : HashedFrom H proof.leafHash lower node)
    (hmem : H.sha3256Hex (stepInput node s) ∈ buildNextLayer H layer)
    (hascends : Ascends H (buildNextLayer H layer) (H.sha3256Hex (stepInput node s)) upper)
    (hcf : H.CollisionFree (reduceInputs H layer ++ proof.inputs H)) :
    Ascends H layer proof.leafHash proof.siblings ∨ StartsElsewhere H layer proof := by
  rw [buildNextLayer_eq, nextLayer, List.mem_map] at hmem
  obtain ⟨⟨left, right⟩, hpair, hhash⟩ := hmem
  obtain ⟨hleft, hright⟩ := length_of_mem_pairUp h64 hpair
  have hstep : stepInput node s ∈ proof.inputs H := by
    rw [MerkleProof.inputs, hsiblings, rebuildInputs_append, (hashedFrom_iff H).1 hnode]
    exact List.mem_append_right _ List.mem_cons_self
  have hlayer : pairInput left right ∈ reduceInputs H layer := by
    rw [reduceInputs, if_pos hl, layerInputs_eq]
    exact List.mem_append_left _ (List.mem_map.2 ⟨_, hpair, rfl⟩)
  have hinput : stepInput node s = pairInput left right :=
    hcf.eq (List.mem_append_right _ hstep) (List.mem_append_left _ hlayer) hhash.symm
  have hup : children node s = (left, right) → Ascends H layer node (s :: upper) := by
    intro e
    refine ⟨hl, e ▸ hpair, ?_⟩
    rwa [hashPair_children]
  by_cases hlower : lower = []
  · subst hlower
    obtain rfl : proof.leafHash = node := (hashedFrom_iff H).1 hnode
    by_cases hleaf : proof.leafHash.length = 64
    · rw [hsiblings]
      exact .inl (hup (children_eq hleaf hleft hright hinput))
    · rw [hinput] at hascends
      exact .inr (.cut layer s upper left right self_mem_layers hl hpair hsiblings hleaf
        (pairInput_eq_iff.1 hinput) hascends)
  · have hascends' := hup (children_eq (hnode.length H hlower) hleft hright hinput)
    exact .inr (.below lower (s :: upper) node (hascends'.mem H) hsiblings hlower hnode hascends')

/-- A proof that leads to the top of a tree climbs it from its bottom or starts elsewhere. -/
theorem ascends_or_startsElsewhere {layer : List String} (hne : layer ≠ [])
    (h64 : ∀ node ∈ layer, node.length = 64) {proof : MerkleProof}
    (hcf : H.CollisionFree (reduceInputs H layer ++ proof.inputs H))
    (h : reduceLayers H layer = [rebuildRoot H proof.leafHash proof.siblings]) :
    Ascends H layer proof.leafHash proof.siblings ∨ StartsElsewhere H layer proof := by
  induction layer using reduceLayers.induct H with
  | case2 layer hl =>
      rw [reduceLayers, if_neg hl] at h
      by_cases hs : proof.siblings = []
      · rw [hs] at h ⊢
        exact .inl h
      · exact .inr (.below proof.siblings [] _ (h ▸ List.mem_singleton_self _)
          (List.append_nil _).symm hs ((hashedFrom_iff H).2 rfl) h)
  | case1 layer hl ih =>
      have hnext : buildNextLayer H layer ≠ [] := by
        rw [← List.length_pos_iff, length_buildNextLayer]
        omega
      rw [reduceLayers, if_pos hl] at h
      have hsub : reduceInputs H (buildNextLayer H layer) ++ proof.inputs H ⊆
          reduceInputs H layer ++ proof.inputs H := by
        rw [reduceInputs.eq_def H layer, if_pos hl, List.append_assoc]
        exact List.subset_append_right _ _
      rcases ih hnext (fun node hn => length_of_mem_buildNextLayer H hn) (hcf.mono hsub) h with
        hup | hstart
      · exact .inr (.above _ self_mem_layers hl hup)
      · cases hstart with
        | above m hm hlt hup =>
            exact .inr (.above m (mem_layers_of_next H hlt hm) hl hup)
        | cut m s rest left right hm hlt hpair hs hleaf htext hup =>
            exact .inr (.cut m s rest left right (mem_layers_of_next H hl hm) hlt hpair hs hleaf
              htext hup)
        | below lower upper hash hmem hs hlower hfrom hup =>
            obtain ⟨lower, s, node, rfl, hnode, rfl⟩ := hfrom.exists_of_ne_nil H hlower
            rw [List.append_assoc] at hs
            exact start_of_step H hl h64 hs hnode hmem hup hcf

theorem reduceLayers_eq_of_mem_layers {hashes layer : List String}
    (h : layer ∈ layers (hashPair H) hashes) : reduceLayers H layer = reduceLayers H hashes := by
  rw [reduceLayers_eq, reduceLayers_eq, top_eq_of_mem_layers h]

/-- A proof that starts elsewhere leads to the root of the block all the same. -/
theorem StartsElsewhere.top_eq {hashes : List String} {proof : MerkleProof}
    (h : StartsElsewhere H hashes proof) :
    reduceLayers H hashes = [rebuildRoot H proof.leafHash proof.siblings] := by
  cases h with
  | above layer hlayer hl hup =>
      rw [← reduceLayers_eq_of_mem_layers H (mem_layers_of_next H hl hlayer), hup.top_eq]
  | cut layer s rest left right hlayer hl _ hs _ htext hup =>
      have hstep : verifyStep H proof.leafHash s = hashPair H left right := by
        rw [hashPair_children, stepInput, pairInput_eq_iff.2 htext]
        rfl
      have htop := hup.top_eq
      rw [← hstep] at htop
      rw [← reduceLayers_eq_of_mem_layers H hlayer, reduceLayers, if_pos hl, hs]
      exact htop
  | below lower upper hash _ hs _ hfrom hup =>
      rw [hs, rebuildRoot_append, (hashedFrom_iff H).1 hfrom]
      exact hup.top_eq

/-- A proof against the root of a block verifies exactly if it climbs the tree from one of the
hashes of the block or starts elsewhere. -/
theorem verifyProof_iff {hashes : List String} (hne : hashes ≠ [])
    (h64 : ∀ hash ∈ hashes, hash.length = 64) {proof : MerkleProof}
    (hroot : proof.root = computeMerkleRoot H hashes)
    (hcf : H.CollisionFree (merkleInputs H hashes ++ proof.inputs H)) :
    verifyProof H proof = true ↔
      Ascends H hashes proof.leafHash proof.siblings ∨ StartsElsewhere H hashes proof := by
  rw [merkleInputs_of_ne_nil H hne] at hcf
  have htop : reduceLayers H hashes = [rebuildRoot H proof.leafHash proof.siblings] ↔
      verifyProof H proof = true := by
    rw [verifyProof_eq_true_iff, hroot, reduceLayers_eq_computeMerkleRoot H hne, List.cons.injEq,
      eq_comm]
    exact and_iff_left rfl
  rw [← htop]
  constructor
  · exact ascends_or_startsElsewhere H hne h64 hcf
  · rintro (h | h)
    · exact h.top_eq
    · exact h.top_eq

/-- A proof that starts elsewhere, at a text that is no hash of the block. -/
def Forged (hashes : List String) (proof : MerkleProof) : Prop :=
  StartsElsewhere H hashes proof ∧ proof.leafHash ∉ hashes

/-- A verifying proof proves that its leaf is in the block exactly if it is not forged. -/
theorem verifyProof_membership_iff {hashes : List String} (hlength : 2 ≤ hashes.length)
    (h64 : ∀ hash ∈ hashes, hash.length = 64) {proof : MerkleProof}
    (hroot : proof.root = computeMerkleRoot H hashes)
    (hcf : H.CollisionFree (merkleInputs H hashes ++ proof.inputs H)) :
    (verifyProof H proof = true → proof.leafHash ∈ hashes) ↔ ¬ Forged H hashes proof := by
  have hne : hashes ≠ [] := by
    rintro rfl
    exact absurd hlength (by decide)
  rw [verifyProof_iff H hne h64 hroot hcf]
  constructor
  · rintro h ⟨helse, hnot⟩
    exact hnot (h (.inr helse))
  · rintro hforged (hup | helse)
    · exact hup.mem H
    · by_contra hnot
      exact hforged ⟨helse, hnot⟩

/-- The proof that is the root alone adds nothing to what the block hashes. -/
theorem collisionFree_root_of_pair (left right root : String) :
    H.CollisionFree (merkleInputs H [left, right] ++
      MerkleProof.inputs H { leafHash := root, siblings := [], root := root }) := by
  apply Sha3.collisionFree_of_forall_eq (b := pairInput left right)
  simp [merkleInputs_pair, MerkleProof.inputs, rebuildInputs]

theorem verifyProof_root_of_pair :
    let hashes := [uniformHash 'a', uniformHash 'b']
    let root := computeMerkleRoot Sha3.checksum hashes
    let proof : MerkleProof := { leafHash := root, siblings := [], root := root }
    2 ≤ hashes.length ∧ (∀ hash ∈ hashes, hash.length = 64) ∧
      proof.root = computeMerkleRoot Sha3.checksum hashes ∧
      Sha3.checksum.CollisionFree
        (merkleInputs Sha3.checksum hashes ++ proof.inputs Sha3.checksum) ∧
      verifyProof Sha3.checksum proof = true ∧ proof.leafHash ∉ hashes := by
  intro hashes root proof
  have hroot : root = hashPair Sha3.checksum (uniformHash 'a') (uniformHash 'b') := by
    show (reduceLayers Sha3.checksum hashes).headD "" = _
    rw [reduceLayers, if_pos (by decide), reduceLayers, if_neg (by decide)]
    rfl
  refine ⟨le_rfl, ?_, rfl, collisionFree_root_of_pair Sha3.checksum _ _ root, ?_, ?_⟩
  · simp [hashes, length_uniformHash]
  · rw [verifyProof_eq_true_iff]
    rfl
  · show root ∉ hashes
    rw [hroot]
    decide +kernel

theorem verifyProof_membership_iff_root_of_pair :
    let hashes := [uniformHash 'a', uniformHash 'b']
    let root := computeMerkleRoot Sha3.checksum hashes
    let proof : MerkleProof := { leafHash := root, siblings := [], root := root }
    (verifyProof Sha3.checksum proof = true → proof.leafHash ∈ hashes) ↔
      ¬ Forged Sha3.checksum hashes proof := by
  intro hashes root proof
  refine verifyProof_membership_iff Sha3.checksum le_rfl ?_ rfl
    (collisionFree_root_of_pair Sha3.checksum _ _ root)
  simp [hashes, length_uniformHash]

/-! ## Blocks with one root -/

/-- One of the lists, every odd layer completed by the repetition of its last node, is a layer of
the tree of the other one; or one is empty and the other one the hash that stands for it. -/
def SharesTree (hashes hashes' : List String) : Prop :=
  Reaches (hashPair H) hashes hashes' ∨ Reaches (hashPair H) hashes' hashes ∨
    hashes = [] ∧ hashes' = [H.sha3256Hex emptyBlockInput] ∨
    hashes' = [] ∧ hashes = [H.sha3256Hex emptyBlockInput]

/-- The pairs hashed for the roots of two blocks are determined by their hashes. -/
theorem injOn_hashPair {hashes hashes' : List String} (hne : hashes ≠ []) (hne' : hashes' ≠ [])
    (h64 : ∀ hash ∈ hashes, hash.length = 64) (h64' : ∀ hash ∈ hashes', hash.length = 64)
    (hcf : H.CollisionFree (merkleInputs H hashes ++ merkleInputs H hashes')) :
    Set.InjOn (fun p : String × String => hashPair H p.1 p.2)
      {p | p ∈ pairs (hashPair H) hashes ++ pairs (hashPair H) hashes'} := by
  have hinputs : merkleInputs H hashes ++ merkleInputs H hashes' =
      (pairs (hashPair H) hashes ++ pairs (hashPair H) hashes').map fun p => pairInput p.1 p.2 := by
    rw [merkleInputs_of_ne_nil H hne, merkleInputs_of_ne_nil H hne', reduceInputs_eq,
      reduceInputs_eq, List.map_append]
  rw [hinputs] at hcf
  have hlength : ∀ p ∈ pairs (hashPair H) hashes ++ pairs (hashPair H) hashes',
      p.1.length = 64 := by
    intro p hp
    rcases List.mem_append.1 hp with hp | hp
    · exact (forall_mem_pairs h64 (length_hashPair H) p hp).1
    · exact (forall_mem_pairs h64' (length_hashPair H) p hp).1
  intro p hp q hq e
  have htext := pairInput_eq_iff.1
    (hcf.eq (List.mem_map_of_mem hp) (List.mem_map_of_mem hq) e)
  obtain ⟨h1, h2⟩ := append_inj_left htext ((hlength p hp).trans (hlength q hq).symm)
  exact Prod.ext h1 h2

/-- The text of an empty block is too short for a pair of hashes. -/
theorem emptyBlockInput_ne_pairInput {left right : String} (hleft : left.length = 64) :
    emptyBlockInput ≠ pairInput left right := by
  intro h
  have e := congrArg String.length (String.toByteArray_inj.1 h)
  rw [String.length_append, hleft] at e
  have hempty : "kyvera-empty-block".length = 18 := by decide
  omega

/-- The root of an empty block is the root of no other block but the one of that hash alone. -/
theorem computeMerkleRoot_nil_eq_iff {hashes : List String}
    (h64 : ∀ hash ∈ hashes, hash.length = 64)
    (hcf : H.CollisionFree (merkleInputs H [] ++ merkleInputs H hashes)) :
    computeMerkleRoot H [] = computeMerkleRoot H hashes ↔
      hashes = [] ∨ hashes = [H.sha3256Hex emptyBlockInput] := by
  rcases hashes with _ | ⟨hash, _ | ⟨hash', rest⟩⟩
  · simp
  · show H.sha3256Hex emptyBlockInput = hash ↔ _
    simp [eq_comm]
  · obtain ⟨left, right, hleft, _, hmem, hroot⟩ := computeMerkleRoot_eq_hashPair H
      (p := fun s => s.length = 64) (fun b => H.length_hex b) _ (by simp) h64
    constructor
    · intro e
      rw [hroot] at e
      refine absurd (hcf.eq ?_ (List.mem_append_right _ hmem) e) (emptyBlockInput_ne_pairInput hleft)
      exact List.mem_append_left _ (List.mem_singleton_self _)
    · rintro (h | h)
      · cases h
      · cases h

theorem sharesTree_comm {hashes hashes' : List String} :
    SharesTree H hashes hashes' ↔ SharesTree H hashes' hashes := by
  unfold SharesTree
  rw [or_left_comm, or_comm (b := hashes' = [] ∧ hashes = [H.sha3256Hex emptyBlockInput])]

theorem sharesTree_nil_iff {hashes : List String} :
    SharesTree H [] hashes ↔ hashes = [] ∨ hashes = [H.sha3256Hex emptyBlockInput] := by
  simp only [SharesTree, reaches_nil_left, reaches_nil_right]
  simp

theorem sharesTree_iff_of_ne_nil {hashes hashes' : List String} (hne : hashes ≠ [])
    (hne' : hashes' ≠ []) : SharesTree H hashes hashes' ↔
      Reaches (hashPair H) hashes hashes' ∨ Reaches (hashPair H) hashes' hashes := by
  simp [SharesTree, hne, hne']

/-- Without collisions, two blocks have one root exactly if they share a tree. -/
theorem computeMerkleRoot_eq_iff {hashes hashes' : List String}
    (h64 : ∀ hash ∈ hashes, hash.length = 64) (h64' : ∀ hash ∈ hashes', hash.length = 64)
    (hcf : H.CollisionFree (merkleInputs H hashes ++ merkleInputs H hashes')) :
    computeMerkleRoot H hashes = computeMerkleRoot H hashes' ↔ SharesTree H hashes hashes' := by
  by_cases hne : hashes = []
  · subst hne
    rw [computeMerkleRoot_nil_eq_iff H h64' hcf, sharesTree_nil_iff]
  by_cases hne' : hashes' = []
  · subst hne'
    have hcf' : H.CollisionFree (merkleInputs H [] ++ merkleInputs H hashes) :=
      hcf.mono (List.append_subset.2 ⟨List.subset_append_right _ _, List.subset_append_left _ _⟩)
    rw [eq_comm, sharesTree_comm, computeMerkleRoot_nil_eq_iff H h64 hcf', sharesTree_nil_iff]
  have hinj := injOn_hashPair H hne hne' h64 h64' hcf
  rw [sharesTree_iff_of_ne_nil H hne hne', ← top_eq_iff hinj
    (fun p hp => List.mem_append_left _ hp) (fun p hp => List.mem_append_right _ hp),
    ← reduceLayers_eq, ← reduceLayers_eq, reduceLayers_eq_computeMerkleRoot H hne,
    reduceLayers_eq_computeMerkleRoot H hne', List.cons.injEq]
  exact (and_iff_left rfl).symm

/-- Two different blocks have different roots exactly if they do not share a tree. -/
theorem computeMerkleRoot_binds_iff {hashes hashes' : List String}
    (h64 : ∀ hash ∈ hashes, hash.length = 64) (h64' : ∀ hash ∈ hashes', hash.length = 64)
    (hcf : H.CollisionFree (merkleInputs H hashes ++ merkleInputs H hashes')) :
    (hashes ≠ hashes' → computeMerkleRoot H hashes ≠ computeMerkleRoot H hashes') ↔
      ¬ (hashes ≠ hashes' ∧ SharesTree H hashes hashes') := by
  rw [ne_eq (computeMerkleRoot H hashes), computeMerkleRoot_eq_iff H h64 h64' hcf, not_and]

theorem merkleInputs_triple (a b c : String) :
    merkleInputs H [a, b, c] = [pairInput a b, pairInput c c,
      pairInput (hashPair H a b) (hashPair H c c)] := by
  rw [merkleInputs_of_ne_nil H (List.cons_ne_nil _ _), reduceInputs, if_pos (by simp), reduceInputs,
    if_pos (by simp [buildNextLayer]), reduceInputs, if_neg (by simp [buildNextLayer])]
  rfl

theorem merkleInputs_repeat (a b c : String) :
    merkleInputs H [a, b, c, c] = merkleInputs H [a, b, c] := by
  rw [merkleInputs_triple, merkleInputs_of_ne_nil H (List.cons_ne_nil _ _), reduceInputs,
    if_pos (by simp), reduceInputs, if_pos (by simp [buildNextLayer]), reduceInputs,
    if_neg (by simp [buildNextLayer])]
  rfl

theorem computeMerkleRoot_repeat (a b c : String) :
    computeMerkleRoot H [a, b, c, c] = computeMerkleRoot H [a, b, c] := by
  show (reduceLayers H _).headD "" = (reduceLayers H _).headD ""
  rw [reduceLayers, if_pos (by simp), reduceLayers.eq_def H [a, b, c], if_pos (by simp)]
  rfl

theorem collisionFree_triple :
    let hashes := [uniformHash 'a', uniformHash 'b', uniformHash 'c']
    Sha3.checksum.CollisionFree (merkleInputs Sha3.checksum hashes) := by
  intro hashes
  apply Sha3.collisionFree_of_nodup
  rw [merkleInputs_triple]
  simp only [hashPair, List.map_cons, List.map_nil, Sha3.checksum_sha3256Hex]
  decide +kernel

theorem computeMerkleRoot_triple :
    let hashes := [uniformHash 'a', uniformHash 'b', uniformHash 'c']
    let hashes' := [uniformHash 'a', uniformHash 'b', uniformHash 'c', uniformHash 'c']
    (∀ hash ∈ hashes, hash.length = 64) ∧ (∀ hash ∈ hashes', hash.length = 64) ∧
      Sha3.checksum.CollisionFree
        (merkleInputs Sha3.checksum hashes ++ merkleInputs Sha3.checksum hashes') ∧
      hashes ≠ hashes' ∧
      computeMerkleRoot Sha3.checksum hashes = computeMerkleRoot Sha3.checksum hashes' := by
  intro hashes hashes'
  refine ⟨?_, ?_, ?_, ?_, (computeMerkleRoot_repeat Sha3.checksum _ _ _).symm⟩
  · simp [hashes, length_uniformHash]
  · simp [hashes', length_uniformHash]
  · rw [merkleInputs_repeat]
    exact collisionFree_triple.mono (by simp [hashes])
  · simp [hashes, hashes']

theorem computeMerkleRoot_binds_iff_triple :
    let hashes := [uniformHash 'a', uniformHash 'b', uniformHash 'c']
    let hashes' := [uniformHash 'a', uniformHash 'b', uniformHash 'c', uniformHash 'c']
    (hashes ≠ hashes' →
        computeMerkleRoot Sha3.checksum hashes ≠ computeMerkleRoot Sha3.checksum hashes') ↔
      ¬ (hashes ≠ hashes' ∧ SharesTree Sha3.checksum hashes hashes') := by
  intro hashes hashes'
  refine computeMerkleRoot_binds_iff Sha3.checksum ?_ ?_ ?_
  · simp [hashes, length_uniformHash]
  · simp [hashes', length_uniformHash]
  · rw [merkleInputs_repeat]
    exact collisionFree_triple.mono (by simp [hashes])

end Kyvera
