import Kyvera.Chain.Hash
import Kyvera.Library.Bytes

/-!
# What a block hash commits to

The fields of a header are hashed as decimal numerals and hex texts, one after the other and without
a delimiter.  The text tells the fields apart when it is known where each ends.  But numerals have
no fixed length, so one text can be cut into the fields of different headers, and all of these
headers have one hash.
-/

namespace Kyvera

namespace BlockHeader

/-- The texts of the fields, in the order in which they are hashed. -/
def texts (h : BlockHeader) : List (List Char) :=
  [Text.digits h.index.toNat, Text.intDigits h.timestamp, h.previousHash.toList,
    h.merkleRoot.toList, Text.digits h.nonce.toNat, Text.digits h.difficulty.toNat,
    [if h.isEpochBlock then '1' else '0'], Text.digits h.epochIndex.toNat, h.stateRoot.toList]

/-- How long the texts are that have no fixed length: the five numerals and the state root, which
may be empty. -/
def cuts (h : BlockHeader) : List ℕ :=
  [(Text.digits h.index.toNat).length, (Text.intDigits h.timestamp).length,
    (Text.digits h.nonce.toNat).length, (Text.digits h.difficulty.toNat).length,
    (Text.digits h.epochIndex.toNat).length, h.stateRoot.toList.length]

/-- Two headers whose fields are one text, cut at different places. -/
def Recut (h h' : BlockHeader) : Prop := h.texts.flatten = h'.texts.flatten ∧ h.cuts ≠ h'.cuts

/-- Both hashes in a header have 64 characters. -/
structure Hashed (h : BlockHeader) : Prop where
  previousHash : h.previousHash.toList.length = 64
  merkleRoot : h.merkleRoot.toList.length = 64

variable {h h' : BlockHeader}

theorem input_eq (h : BlockHeader) : h.input = (String.ofList h.texts.flatten).toUTF8 := by
  have hflag : (if h.isEpochBlock then "1" else "0" : String).toList =
      [if h.isEpochBlock then '1' else '0'] := by
    cases h.isEpochBlock <;> rfl
  unfold input blockHeaderInput
  congr 1
  apply String.toList_inj.1
  rw [String.toList_ofList]
  simp only [String.toList_append, Text.toList_toString_uint64,
    Text.toList_toString_uint32, hflag, texts, List.flatten_cons,
    List.flatten_nil, List.append_nil, List.append_assoc]
  rfl

theorem input_eq_iff : h.input = h'.input ↔ h.texts.flatten = h'.texts.flatten := by
  rw [input_eq, input_eq]
  constructor
  · intro e
    exact String.ofList_injective (String.toByteArray_inj.1 e)
  · intro e
    rw [e]

theorem texts_injective (e : h.texts = h'.texts) : h = h' := by
  unfold texts at e
  simp only [List.cons.injEq, and_true] at e
  obtain ⟨hindex, htimestamp, hprevious, hmerkle, hnonce, hdifficulty, hflag, hepoch, hroot⟩ := e
  have hepochBlock : h.isEpochBlock = h'.isEpochBlock := by
    revert hflag
    cases h.isEpochBlock <;> cases h'.isEpochBlock <;> decide
  cases h
  cases h'
  rw [BlockHeader.mk.injEq]
  exact ⟨Text.digits_uint64_injective hindex, Text.intDigits_injective htimestamp,
    String.toList_inj.1 hprevious, String.toList_inj.1 hmerkle,
    Text.digits_uint64_injective hnonce, Text.digits_uint32_injective hdifficulty, hepochBlock,
    Text.digits_uint64_injective hepoch, String.toList_inj.1 hroot⟩

/-- Headers with 64-character hashes are cut alike when the texts of no fixed length are. -/
theorem Hashed.lengths_eq (hh : h.Hashed) (hh' : h'.Hashed) (hcuts : h.cuts = h'.cuts) :
    h.texts.map List.length = h'.texts.map List.length := by
  unfold cuts at hcuts
  unfold texts
  simp only [List.cons.injEq, and_true] at hcuts
  obtain ⟨hindex, htimestamp, hnonce, hdifficulty, hepoch, hroot⟩ := hcuts
  simp only [List.map_cons, List.map_nil, hindex, htimestamp, hnonce, hdifficulty, hepoch, hroot,
    hh.previousHash, hh'.previousHash, hh.merkleRoot, hh'.merkleRoot, List.length_singleton]

/-- The block identifier binds the header exactly when the two headers are not one text that is cut
at different places. -/
theorem input_binds_iff (hh : h.Hashed) (hh' : h'.Hashed) :
    (h.input = h'.input → h = h') ↔ ¬ Recut h h' := by
  rw [input_eq_iff]
  constructor
  · rintro hbinds ⟨hjoined, hcuts⟩
    exact hcuts (congrArg cuts (hbinds hjoined))
  · intro hcut hjoined
    have hcuts : h.cuts = h'.cuts := by
      by_contra hne
      exact hcut ⟨hjoined, hne⟩
    exact texts_injective (List.eq_iff_flatten_eq.2 ⟨hjoined, hh.lengths_eq hh' hcuts⟩)

/-- A mined header on 64 zeros. -/
def mined (nonce : UInt64) (difficulty : UInt32) : BlockHeader where
  index := 7
  timestamp := 1700000000000
  previousHash := String.ofList (List.replicate 64 '0')
  merkleRoot := String.ofList (List.replicate 64 '0')
  nonce := nonce
  difficulty := difficulty
  isEpochBlock := true
  epochIndex := 1
  stateRoot := ""

/-- Two nonces of one length are told apart. -/
theorem input_binds_same_length :
    ¬ Recut (mined 27 4) (mined 31 4) ∧
      ((mined 27 4).input = (mined 31 4).input → mined 27 4 = mined 31 4) := by
  have hcut : ¬ Recut (mined 27 4) (mined 31 4) := fun hcut => hcut.2 (by decide +kernel)
  exact ⟨hcut, (input_binds_iff ⟨by decide +kernel, by decide +kernel⟩
    ⟨by decide +kernel, by decide +kernel⟩).2 hcut⟩

/-- A nonce of 14 with a difficulty of 4 is hashed like a nonce of 1 with a difficulty of 44. -/
theorem input_not_binding :
    (mined 14 4).Hashed ∧ (mined 1 44).Hashed ∧
      (∀ c ∈ (mined 14 4).previousHash.toList, (Hex.value c).isSome) ∧
      (mined 14 4).input = (mined 1 44).input ∧ mined 14 4 ≠ mined 1 44 := by
  refine ⟨⟨by decide +kernel, by decide +kernel⟩, ⟨by decide +kernel, by decide +kernel⟩, ?_,
    input_eq_iff.2 (by decide +kernel), fun e => absurd (congrArg nonce e) (by decide)⟩
  intro c hc
  have hzero : c ∈ List.replicate 64 '0' := by
    rwa [mined, String.toList_ofList] at hc
  rw [List.eq_of_mem_replicate hzero]
  rfl

end BlockHeader

end Kyvera
