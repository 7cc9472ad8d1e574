import Kyvera.Consensus.CatchUp
import Kyvera.Consensus.Linked
import Kyvera.Library.Backwards

/-!
# What a tip says of its history

An accepted block names the hash of the block before it, and its own hash is computed from its
header.  So two nodes that have come to tips with one hash, at one height, have accepted the same
headers in the same order and agree on everything their tips say, on whatever forks they have been.
The block hash has to tell the headers apart: no collision, and no two of them with one text.
-/

namespace Kyvera

open Trace

/-- The headers of the blocks that a run accepts. -/
def headers (run : List (Step ChainTip Arrival)) : List BlockHeader :=
  run.map fun t => t.call.block.header

/-- The tip after a sealed block with the header. -/
def ChainTip.sealedBy (H : Sha3) (tip : ChainTip) (header : BlockHeader) : ChainTip :=
  ⟨header.computeHash H, header.index, header.timestamp, header.difficulty,
    if header.isEpochBlock then header.epochIndex else tip.epochIndex,
    tip.totalWork + header.difficulty.toUInt64⟩

/-- The block hash tells the headers of two runs apart: neither collide texts that are hashed, nor
are two headers one text. -/
structure Distinguished (H : Sha3) (run run' : List (Step ChainTip Arrival)) : Prop where
  collisionFree : H.CollisionFree ((headers run ++ headers run').map BlockHeader.input)
  input : ∀ header ∈ headers run, ∀ header' ∈ headers run',
    header.input = header'.input → header = header'

section Extends

variable {H : Sha3} {tip tip' : ChainTip} {a : Arrival}

theorem Extends.computeHash (h : Extends H tip a tip') :
    tip'.hash = a.block.header.computeHash H := by
  rw [h.at_block.1]
  exact ((guards_validateBlockRules _ _ _).1 h.1).1.1.hash.symm

/-- An accepted block makes the tip that its header says. -/
theorem Extends.sealedBy (h : Extends H tip a tip') : tip' = tip.sealedBy H a.block.header := by
  have hhash := h.computeHash
  obtain ⟨totalWork, hwork, rfl⟩ := advance_eq_some_iff.1 h.2
  have hsum : totalWork = tip.totalWork + a.block.header.difficulty.toUInt64 := by
    have hexact := U64.checkedAdd_eq_some_iff.1 hwork
    have hlt := U64.toNat_lt_size totalWork
    rw [← UInt64.toNat_inj, U64.toNat_add_of_lt (by omega), hexact]
  rw [ChainTip.sealedBy, ← hhash, hsum]

end Extends

section Runs

variable {H : Sha3} {tip : ChainTip} {run run' : List (Step ChainTip Arrival)}

theorem header_mem_headers {t : Step ChainTip Arrival} (ht : t ∈ run) :
    t.call.block.header ∈ headers run :=
  List.mem_map_of_mem ht

/-- Two accepted blocks with one hash have one header and follow one tip. -/
theorem Distinguished.header_eq (hd : Distinguished H run run') {t t' : Step ChainTip Arrival}
    (ht : t ∈ run) (ht' : t' ∈ run') (hstep : Extends H t.pre t.call t.post)
    (hstep' : Extends H t'.pre t'.call t'.post) (hhash : t.post.hash = t'.post.hash) :
    t.call.block.header = t'.call.block.header := by
  have hmem := header_mem_headers ht
  have hmem' := header_mem_headers ht'
  refine hd.input _ hmem _ hmem' (hd.collisionFree.eq ?_ ?_ ?_)
  · exact List.mem_map_of_mem (List.mem_append_left _ hmem)
  · exact List.mem_map_of_mem (List.mem_append_right _ hmem')
  · exact hstep.computeHash.symm.trans (hhash.trans hstep'.computeHash)

/-- Two nodes that start from one tip and come to tips with one hash at one height have accepted the
same headers in the same order, and their tips are the same. -/
theorem headers_of_tip (h : IsRun (Extends H) tip run) (h' : IsRun (Extends H) tip run')
    (hindex : ∀ header ∈ headers run ++ headers run', header.index ≠ 0)
    (hd : Distinguished H run run') (hhash : (final tip run).hash = (final tip run').hash)
    (hheight : (final tip run).height = (final tip run').height) :
    headers run = headers run' ∧ final tip run = final tip run' := by
  obtain ⟨hfirst, hsecond⟩ := List.forall_mem_append.1 hindex
  have hrank : ∀ t ∈ run ++ run', t.pre.height.toNat < t.post.height.toNat := by
    refine List.forall_mem_append.2 ⟨fun t ht => ?_, fun t ht => ?_⟩
    · have hup := (h.step_of_mem ht).height (hfirst _ (header_mem_headers ht))
      omega
    · have hup := (h'.step_of_mem ht).height (hsecond _ (header_mem_headers ht))
      omega
  have hsame : headers run = headers run' := by
    refine IsRun.map_call_eq_of_final (fun a => a.block.header)
      (fun a b => a.hash = b.hash ∧ a.height = b.height) (fun tip => tip.height.toNat) h h'
      (fun a b hab => congrArg UInt64.toNat hab.2) hrank (fun t ht t' ht' hpost => ?_)
      ⟨hhash, hheight⟩
    have hstep := h.step_of_mem ht
    have hstep' := h'.step_of_mem ht'
    have hheader := hd.header_eq ht ht' hstep hstep' hpost.1
    have hfollows := hstep.follows (hfirst _ (header_mem_headers ht))
    have hfollows' := hstep'.follows (hsecond _ (header_mem_headers ht'))
    refine ⟨hheader, ?_, UInt64.toNat_inj.1 ?_⟩
    · rw [← hfollows.previous, ← hfollows'.previous, hheader]
    · have hup := hfollows.height
      have hup' := hfollows'.height
      rw [hheader] at hup
      omega
  refine ⟨hsame, ?_⟩
  have hcomputed : final tip run = (headers run).foldl (ChainTip.sealedBy H) tip :=
    h.final_eq_foldl (f := fun a => a.block.header) fun _ _ _ hstep => hstep.sealedBy
  have hcomputed' : final tip run' = (headers run').foldl (ChainTip.sealedBy H) tip :=
    h'.final_eq_foldl (f := fun a => a.block.header) fun _ _ _ hstep => hstep.sealedBy
  rw [hcomputed, hcomputed', hsame]

end Runs

/-- An empty block with a hash. -/
def checkedBlock (index : UInt64) (timestamp : ℤ) (previousHash hash : String) : Block :=
  let header := BlockHeader.new timestamp index previousHash
    (computeMerkleRoot Sha3.checksum []) 1 false 0
  { Block.new header [] "kyv1m" 0 with hash := hash }

/-- Two empty blocks with their checksums for hashes, seen some time after they were made. -/
def twoBlocks (delay : ℤ) : List (Step ChainTip Arrival) :=
  let hash := "0166958788033507148179786220539329368411022772286348587936329776"
  let hash' := "0627117540621484594002539067121919724434772479740370357207511088"
  let tip : ChainTip := ⟨hash, 1, 1002, 1, 0, 1⟩
  [⟨ChainTip.genesis, ⟨checkedBlock 1 1002 zeroHash hash, [], KyveraDb.empty, 1002 + delay⟩, tip⟩,
    ⟨tip, ⟨checkedBlock 2 5015 hash hash', [], KyveraDb.empty, 5015 + delay⟩,
      ⟨hash', 2, 5015, 1, 0, 2⟩⟩]

theorem isRun_twoBlocks : IsRun (Extends Sha3.checksum) ChainTip.genesis (twoBlocks 0) :=
  ⟨rfl, extends_of_outcome (by decide +kernel) (by decide), rfl,
    extends_of_outcome (by decide +kernel) (by decide), trivial⟩

/-- Two nodes that have accepted two blocks, one of them a minute later. -/
theorem headers_of_tip_two_blocks :
    headers (twoBlocks 0) = headers (twoBlocks 60000) ∧
      final ChainTip.genesis (twoBlocks 0) = final ChainTip.genesis (twoBlocks 60000) := by
  obtain ⟨hstart, hfirst, hnext, hsecond, hend⟩ := isRun_twoBlocks
  have heased : ∀ t ∈ twoBlocks 0, Eases t.call { t.call with nowMs := t.call.nowMs + 60000 } :=
    fun t _ => ⟨rfl, rfl, by simp, fun tx _ account h => ⟨account, h, UInt64.le_refl _, rfl⟩⟩
  have accepted : IsRun (Extends Sha3.checksum) ChainTip.genesis (twoBlocks 60000) := by
    refine ⟨hstart, hfirst.of_eases (heased _ (by simp [twoBlocks])), hnext,
      hsecond.of_eases (heased _ (by simp [twoBlocks])), hend⟩
  have hnodup : (((headers (twoBlocks 0)).map BlockHeader.input).map
      Sha3.checksum.sha3256Hex).Nodup := by
    decide +kernel
  have hd : Distinguished Sha3.checksum (twoBlocks 0) (twoBlocks 60000) := by
    refine ⟨(Sha3.collisionFree_of_nodup hnodup).mono ?_, ?_⟩
    · rw [List.map_append]
      exact List.append_subset.2 ⟨List.Subset.refl _, List.Subset.refl _⟩
    · exact fun _ hmem _ hmem' => List.inj_on_of_nodup_map hnodup.of_map hmem hmem'
  exact headers_of_tip isRun_twoBlocks accepted (by decide) hd rfl rfl

end Kyvera
