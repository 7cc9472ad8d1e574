import Kyvera.Crypto.Dilithium

/-!
# Signatures bound to a nonce

What a wallet signs is not the transaction but the digest of the transaction together with its
nonce fields, and a node rebuilds that digest from what was published.
-/

namespace Kyvera

open Bytes

/-- What ties a signature to one account state, one moment and one point in the history. -/
structure TransactionNonce where
  accountNonce : UInt64
  timestampMs : ℤ
  chainStateHash : String
  deriving DecidableEq, Repr

/-- A fresh nonce; `now` is the reading of the clock. -/
def TransactionNonce.new (now : ℤ) (accountNonce : UInt64) (chainStateHash : String) :
    TransactionNonce where
  accountNonce := accountNonce
  timestampMs := now
  chainStateHash := chainStateHash

/-- The bytes that are hashed for signing; a timestamp is 64 bits in two's complement. -/
def bindingInput (message : List UInt8) (nonce : TransactionNonce) : ByteArray :=
  ⟨(message ++ littleEndian 8 nonce.accountNonce.toNat ++
    littleEndian 8 (Int64.ofInt nonce.timestampMs).toUInt64.toNat ++
      utf8 nonce.chainStateHash).toArray⟩

/-- Bind a message to its nonce before signing. -/
def bindMessageToNonce (H : Sha3) (message : List UInt8) (nonce : TransactionNonce) :
    List UInt8 :=
  H.digest (bindingInput message nonce)

/-- Verify a transaction signature against its nonce. -/
def verifyTransactionSignature (H : Sha3) (D : Dilithium3) (transactionBytes : List UInt8)
    (nonce : TransactionNonce) (signatureHex publicKeyHex : String) : Bool :=
  let boundMessage := bindMessageToNonce H transactionBytes nonce
  match KyveraSignature.fromHex signatureHex with
  | none => false
  | some signature => signature.verify D boundMessage publicKeyHex

theorem timestamp_eq_of_bindingInput_eq {message : List UInt8} {accountNonce : UInt64}
    {chainStateHash : String} {t t' : Int64}
    (h : bindingInput message ⟨accountNonce, t.toInt, chainStateHash⟩ =
      bindingInput message ⟨accountNonce, t'.toInt, chainStateHash⟩) : t = t' := by
  have hbytes := congrArg (fun b : ByteArray => b.data.toList) h
  simp only [bindingInput, List.append_assoc] at hbytes
  have htimes := (List.append_inj (List.append_cancel_left (List.append_cancel_left hbytes))
    (by rw [length_littleEndian, length_littleEndian])).1
  have hnat := littleEndian_inj (UInt64.toNat_lt _) (UInt64.toNat_lt _) htimes
  rw [Int64.ofInt_toInt, Int64.ofInt_toInt] at hnat
  exact congrArg Int64.ofUInt64 (UInt64.toNat_inj.1 hnat)

section

variable {H : Sha3} {D : Dilithium3} {keypair : KyveraKeyPair} {message message' : List UInt8}
  {signed published : TransactionNonce} {signature : KyveraSignature}

/-- A node accepts a signature exactly when it hashes the bytes that the signer hashed. -/
theorem verifyTransactionSignature_iff (hD : D.Sound keypair)
    (hsign : keypair.sign D (bindMessageToNonce H message signed) = .ok signature)
    (hH : H.CollisionFree [bindingInput message signed, bindingInput message' published]) :
    verifyTransactionSignature H D message' published signature.toHex keypair.publicKeyHex = true ↔
      bindingInput message' published = bindingInput message signed := by
  rw [verifyTransactionSignature, KyveraSignature.fromHex_toHex]
  show signature.verify D (bindMessageToNonce H message' published) keypair.publicKeyHex = true ↔ _
  rw [KyveraSignature.verify_iff hD hsign]
  constructor
  · intro h
    exact hH.digest_inj (by simp) (by simp) (Subtype.ext h)
  · intro h
    rw [bindMessageToNonce, bindMessageToNonce, h]

end

end Kyvera
