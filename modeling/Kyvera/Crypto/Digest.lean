import Kyvera.Chain.Hash
import Kyvera.Library.Bytes

/-!
# Raw digests

Keys and signed messages are the 32 bytes of a digest, not their hex text.
-/

namespace Kyvera

namespace Sha3

variable (H : Sha3)

theorem exists_bytes (b : ByteArray) :
    ∃ bytes, Hex.decode (H.sha3256Hex b) = some bytes ∧ bytes.length = 32 ∧
      Hex.encode bytes = H.sha3256Hex b :=
  Hex.exists_decode (H.length_hex b) (H.isHex_hex b)

/-- The digest of some bytes, before it is written in hex. -/
def digest (b : ByteArray) : {bytes : List UInt8 // bytes.length = 32} :=
  ⟨(Hex.decode (H.sha3256Hex b)).getD [], by
    obtain ⟨bytes, hdecode, hlength, _⟩ := H.exists_bytes b
    rw [hdecode, Option.getD_some, hlength]⟩

theorem encode_digest (b : ByteArray) : Hex.encode (H.digest b) = H.sha3256Hex b := by
  obtain ⟨bytes, hdecode, _, hencode⟩ := H.exists_bytes b
  show Hex.encode ((Hex.decode (H.sha3256Hex b)).getD []) = _
  rw [hdecode, Option.getD_some, hencode]

variable {H}

theorem CollisionFree.digest_inj {inputs : List ByteArray} (h : H.CollisionFree inputs)
    {a b : ByteArray} (ha : a ∈ inputs) (hb : b ∈ inputs) (e : H.digest a = H.digest b) :
    a = b := by
  apply h.eq ha hb
  rw [← H.encode_digest a, ← H.encode_digest b, e]

end Sha3

end Kyvera
