import Kyvera.Types.Block
import Kyvera.Library.Text

/-!
# Hashing

Everything that is hashed goes through one function from bytes to the hex text of a 32-byte
digest.  SHA3-256 itself is a parameter: a value of `Sha3` is any function with its output
format, and a statement about two computations that needs SHA3-256 not to collide asks for
`Sha3.CollisionFree` on the inputs these computations hash.
-/

namespace Kyvera

/-- A function in the place of SHA3-256: 64 lowercase hex characters for every input. -/
structure Sha3 where
  sha3256Hex : ByteArray → String
  length_hex : ∀ b, (sha3256Hex b).toList.length = 64
  isHex_hex : ∀ b, ∀ c ∈ (sha3256Hex b).toList, c ∈ "0123456789abcdef".toList

namespace Sha3

theorem utf8ByteSize_hex (H : Sha3) (b : ByteArray) : (H.sha3256Hex b).utf8ByteSize = 64 := by
  have hascii : ∀ c ∈ "0123456789abcdef".toList, c.utf8Size = 1 := by
    simp [Char.utf8Size]
  rw [Text.utf8ByteSize_of_forall fun c hc => hascii c (H.isHex_hex b c hc)]
  exact H.length_hex b

/-- No two distinct inputs of the list have the same hash. -/
def CollisionFree (H : Sha3) (inputs : List ByteArray) : Prop :=
  Set.InjOn H.sha3256Hex {b | b ∈ inputs}

theorem CollisionFree.eq {H : Sha3} {inputs : List ByteArray} (h : H.CollisionFree inputs)
    {a b : ByteArray} (ha : a ∈ inputs) (hb : b ∈ inputs)
    (e : H.sha3256Hex a = H.sha3256Hex b) : a = b :=
  h ha hb e

theorem CollisionFree.mono {H : Sha3} {inputs inputs' : List ByteArray}
    (h : H.CollisionFree inputs) (hs : inputs' ⊆ inputs) : H.CollisionFree inputs' :=
  Set.InjOn.mono (fun _ hb => hs hb) h

theorem collisionFree_of_forall_eq {H : Sha3} {inputs : List ByteArray} {b : ByteArray}
    (h : ∀ a ∈ inputs, a = b) : H.CollisionFree inputs :=
  fun a ha a' ha' _ => (h a ha).trans (h a' ha').symm

theorem collisionFree_of_nodup {H : Sha3} {inputs : List ByteArray}
    (h : (inputs.map H.sha3256Hex).Nodup) : H.CollisionFree inputs :=
  fun _ ha _ hb => List.inj_on_of_nodup_map h ha hb

/-- The function that answers every input with 64 zeros. -/
def zero : Sha3 where
  sha3256Hex := fun _ => String.ofList (List.replicate 64 '0')
  length_hex := fun _ => by rw [String.toList_ofList, List.length_replicate]
  isHex_hex := fun _ c hc => by
    rw [String.toList_ofList] at hc
    rw [List.eq_of_mem_replicate hc]
    decide

/-- The last 64 decimal digits of the bytes, read as one number. -/
def checksum : Sha3 where
  sha3256Hex := fun b =>
    String.ofList (Text.padded 64 (b.data.foldl (fun n c => n * 256 + c.toNat) 0 % 10 ^ 64))
  length_hex := fun b => by
    rw [String.toList_ofList]
    exact Text.length_padded (by decide) (Nat.mod_lt _ (by decide))
  isHex_hex := fun b c hc => by
    rw [String.toList_ofList] at hc
    exact Text.mem_hex_of_isDigit (Text.isDigit_of_mem_padded hc)

/-- The checksum as a fold over a list, which evaluates faster. -/
theorem checksum_sha3256Hex (b : ByteArray) :
    checksum.sha3256Hex b = String.ofList
      (Text.padded 64 (b.data.toList.foldl (fun n c => n * 256 + c.toNat) 0 % 10 ^ 64)) := by
  rw [Array.foldl_toList]
  rfl

end Sha3

/-- The bytes that a block hash commits to: the header fields in order, without delimiters. -/
def blockHeaderInput (index : UInt64) (timestamp : ℤ) (previousHash merkleRoot : String)
    (nonce : UInt64) (difficulty : UInt32) (isEpochBlock : Bool) (epochIndex : UInt64)
    (stateRoot : String) : ByteArray :=
  (toString index ++ toString timestamp ++ previousHash ++ merkleRoot ++ toString nonce ++
    toString difficulty ++ (if isEpochBlock then "1" else "0") ++ toString epochIndex ++
    stateRoot).toUTF8

/-- The canonical identifier of a block. -/
def hashBlockHeader (H : Sha3) (index : UInt64) (timestamp : ℤ)
    (previousHash merkleRoot : String) (nonce : UInt64) (difficulty : UInt32)
    (isEpochBlock : Bool) (epochIndex : UInt64) (stateRoot : String) : String :=
  H.sha3256Hex (blockHeaderInput index timestamp previousHash merkleRoot nonce difficulty
    isEpochBlock epochIndex stateRoot)

/-- The bytes that the hash of a header commits to. -/
def BlockHeader.input (header : BlockHeader) : ByteArray :=
  blockHeaderInput header.index header.timestamp header.previousHash header.merkleRoot
    header.nonce header.difficulty header.isEpochBlock header.epochIndex header.stateRoot

/-- The hash of a header. -/
def BlockHeader.computeHash (header : BlockHeader) (H : Sha3) : String :=
  hashBlockHeader H header.index header.timestamp header.previousHash header.merkleRoot
    header.nonce header.difficulty header.isEpochBlock header.epochIndex header.stateRoot

/-- Whether a hash begins with the required number of zeros. -/
def meetsDifficulty (hash : String) (difficulty : UInt32) : Bool :=
  let requiredZeros := difficulty.toNat
  if hash.utf8ByteSize < requiredZeros then false
  else (hash.toList.take requiredZeros).all (· == '0')

/-- Count the zeros that a hash begins with.  The count is cut to 32 bits. -/
def countLeadingZeros (hash : String) : UInt32 :=
  UInt32.ofNat (hash.toList.takeWhile (· == '0')).length

theorem le_utf8ByteSize_of_meetsDifficulty {hash : String} {difficulty : UInt32}
    (h : meetsDifficulty hash difficulty = true) : difficulty.toNat ≤ hash.utf8ByteSize := by
  by_contra hlt
  rw [meetsDifficulty, if_pos (Nat.lt_of_not_le hlt)] at h
  exact absurd h (by decide)

/-- A text meets a difficulty when the run of zeros that it begins with is at least as long.  A
text with more bytes than characters is no exception: its wide characters are not zeros. -/
theorem meetsDifficulty_iff {hash : String} {difficulty : UInt32} :
    meetsDifficulty hash difficulty = true ↔
      difficulty.toNat ≤ (hash.toList.takeWhile (· == '0')).length := by
  have hrun : (hash.toList.takeWhile (· == '0')).length ≤ hash.toList.length :=
    (List.takeWhile_sublist _).length_le
  have hbytes := Text.length_le_utf8ByteSize hash
  unfold meetsDifficulty
  dsimp only
  by_cases hle : difficulty.toNat ≤ hash.toList.length
  · rw [if_neg (by omega)]
    exact Text.all_take_iff hle
  · refine iff_of_false ?_ (by omega)
    split_ifs with hshort
    · exact not_false
    · intro hall
      rw [List.take_of_length_le (by omega), List.all_eq_true] at hall
      have hzero : ∀ c ∈ hash.toList, c.utf8Size = 1 := by
        intro c hc
        rw [eq_of_beq (hall c hc)]
        rfl
      have hsize := Text.utf8ByteSize_of_forall hzero
      omega

/-- The two notions of leading zeros agree on every text with fewer than 2^32 characters. -/
theorem meetsDifficulty_iff_le_countLeadingZeros {hash : String} {difficulty : UInt32}
    (hlength : hash.toList.length < 2 ^ 32) :
    meetsDifficulty hash difficulty = true ↔ difficulty ≤ countLeadingZeros hash := by
  have hrun : (hash.toList.takeWhile (· == '0')).length ≤ hash.toList.length :=
    (List.takeWhile_sublist _).length_le
  rw [meetsDifficulty_iff, UInt32.le_iff_toNat_le, countLeadingZeros,
    UInt32.toNat_ofNat_of_lt' (hrun.trans_lt hlength)]

end Kyvera
