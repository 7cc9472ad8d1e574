import Kyvera.Crypto.Binding

/-!
# Identities

An identity signs a payload together with a nonce.  The signed bytes are the payload, two integers
of eight bytes and a text, with nothing in between, so they are read off from their end: the text
has a fixed number of characters, and the integers a fixed number of bytes.
-/

namespace Kyvera

open Bytes

/-- The cryptographic identity of a wallet. -/
structure KyveraIdentity where
  signingKeypair : KyveraKeyPair
  deriving DecidableEq, Repr

namespace KyveraIdentity

/-- Sign a transaction payload with its nonce. -/
def signTransaction (identity : KyveraIdentity) (H : Sha3) (D : Dilithium3)
    (transactionBytes : List UInt8) (nonce : TransactionNonce) : Except String KyveraSignature :=
  let boundMessage := bindMessageToNonce H transactionBytes nonce
  identity.signingKeypair.sign D boundMessage

end KyveraIdentity

/-! ## Reading off what was signed -/

/-- The timestamp of a nonce is a 64-bit integer. -/
def TransactionNonce.InRange (nonce : TransactionNonce) : Prop :=
  -2 ^ 63 ≤ nonce.timestampMs ∧ nonce.timestampMs < 2 ^ 63

section

variable {H : Sha3} {D : Dilithium3} {identity : KyveraIdentity} {payload payload' : List UInt8}
  {nonce nonce' : TransactionNonce} {signature : KyveraSignature}

theorem timestampMs_inj (h : nonce.InRange) (h' : nonce'.InRange)
    (e : littleEndian 8 (Int64.ofInt nonce.timestampMs).toUInt64.toNat =
      littleEndian 8 (Int64.ofInt nonce'.timestampMs).toUInt64.toNat) :
    nonce.timestampMs = nonce'.timestampMs := by
  have hnat := littleEndian_inj (UInt64.toNat_lt _) (UInt64.toNat_lt _) e
  have hsame : Int64.ofInt nonce.timestampMs = Int64.ofInt nonce'.timestampMs :=
    congrArg Int64.ofUInt64 (UInt64.toNat_inj.1 hnat)
  rw [← Int64.toInt_ofInt_of_le h.1 h.2, hsame, Int64.toInt_ofInt_of_le h'.1 h'.2]

theorem bindingInput_inj (hlength : nonce.chainStateHash.toList.length =
      nonce'.chainStateHash.toList.length) (h : nonce.InRange) (h' : nonce'.InRange)
    (e : bindingInput payload nonce = bindingInput payload' nonce') :
    payload = payload' ∧ nonce = nonce' := by
  have hbytes := congrArg (fun b : ByteArray => b.data.toList) e
  dsimp only [bindingInput] at hbytes
  obtain ⟨htexts, hhash⟩ := append_utf8_inj hlength hbytes
  obtain ⟨hrest, htime⟩ := List.append_inj' htexts
    (by rw [length_littleEndian, length_littleEndian])
  obtain ⟨hpayload, haccount⟩ := List.append_inj' hrest
    (by rw [length_littleEndian, length_littleEndian])
  have hnat := littleEndian_inj (UInt64.toNat_lt _) (UInt64.toNat_lt _) haccount
  refine ⟨hpayload, ?_⟩
  cases nonce
  cases nonce'
  rw [TransactionNonce.mk.injEq]
  exact ⟨UInt64.toNat_inj.1 hnat, timestampMs_inj h h' htime, hhash⟩

/-- A signature of an identity is accepted for a payload and a nonce exactly if it was made for
this payload and this nonce. -/
theorem verify_signTransaction_iff (hD : D.Sound identity.signingKeypair)
    (hH : H.CollisionFree [bindingInput payload nonce, bindingInput payload' nonce'])
    (hlength : nonce.chainStateHash.length = 64) (hlength' : nonce'.chainStateHash.length = 64)
    (hrange : nonce.InRange) (hrange' : nonce'.InRange)
    (hsign : identity.signTransaction H D payload nonce = .ok signature) :
    verifyTransactionSignature H D payload' nonce' signature.toHex
        identity.signingKeypair.publicKeyHex = true ↔
      payload = payload' ∧ nonce.accountNonce = nonce'.accountNonce ∧
        nonce.timestampMs = nonce'.timestampMs ∧ nonce.chainStateHash = nonce'.chainStateHash := by
  rw [verifyTransactionSignature_iff hD hsign hH]
  constructor
  · intro e
    have hsame : nonce.chainStateHash.toList.length = nonce'.chainStateHash.toList.length := by
      rw [String.length_toList, String.length_toList, hlength, hlength']
    obtain ⟨rfl, rfl⟩ := bindingInput_inj hsame hrange hrange' e.symm
    exact ⟨rfl, rfl, rfl, rfl⟩
  · rintro ⟨rfl, haccount, htime, hhash⟩
    unfold bindingInput
    rw [haccount, htime, hhash]

end

/-- The identity with the key `7`. -/
def identitySeven : KyveraIdentity := ⟨⟨[7], [7]⟩⟩

/-- A chain state hash of 64 zeros. -/
def zeroStateHash : String := String.ofList (List.replicate 64 '0')

/-- A payload signed for one state of an account is accepted for it, and not for the next one. -/
theorem verify_signTransaction_next_nonce :
    let nonce : TransactionNonce := ⟨0, 1000, zeroStateHash⟩
    let next : TransactionNonce := ⟨1, 1000, zeroStateHash⟩
    ∃ signature, identitySeven.signTransaction Sha3.checksum .echoing [1, 2] nonce =
        .ok signature ∧
      verifyTransactionSignature Sha3.checksum .echoing [1, 2] nonce signature.toHex
        identitySeven.signingKeypair.publicKeyHex = true ∧
      ¬ verifyTransactionSignature Sha3.checksum .echoing [1, 2] next signature.toHex
        identitySeven.signingKeypair.publicKeyHex = true := by
  intro nonce next
  have hD := Dilithium3.sound_echoing identitySeven.signingKeypair
  have hlength : zeroStateHash.length = 64 := by decide +kernel
  have hrange : nonce.InRange := by
    unfold TransactionNonce.InRange
    decide
  have hsame : Sha3.checksum.CollisionFree
      [bindingInput [1, 2] nonce, bindingInput [1, 2] nonce] := by
    apply Sha3.collisionFree_of_forall_eq (b := bindingInput [1, 2] nonce)
    intro b hb
    rw [List.mem_pair] at hb
    rcases hb with rfl | rfl <;> rfl
  have hnext : Sha3.checksum.CollisionFree
      [bindingInput [1, 2] nonce, bindingInput [1, 2] next] := by
    apply Sha3.collisionFree_of_nodup
    rw [List.map_cons, List.map_singleton, Sha3.checksum_sha3256Hex, Sha3.checksum_sha3256Hex]
    decide +kernel
  refine ⟨_, rfl, ?_, ?_⟩
  · exact (verify_signTransaction_iff hD hsame hlength hlength hrange hrange rfl).2
      ⟨rfl, rfl, rfl, rfl⟩
  · intro h
    obtain ⟨-, haccount, -, -⟩ :=
      (verify_signTransaction_iff hD hnext hlength hlength hrange hrange rfl).1 h
    exact absurd haccount (by decide)

end Kyvera
