import Kyvera.Crypto.Digest

/-!
# Dilithium key pairs

A key pair signs for its wallet, and its public key gives the wallet its address.  The signature
scheme is a parameter: a value of `Dilithium3` is any pair of a signing and a verifying function
on bytes, and `Dilithium3.Sound` is what the code relies on.
-/

namespace Kyvera

/-- Signing and verification in the place of Dilithium3.  Signing fails on bytes that are no
secret key; verification is false on bytes that are no public key or no signature. -/
structure Dilithium3 where
  detachedSign : (secretKey message : List UInt8) → Except String (List UInt8)
  verifyDetached : (publicKey message signature : List UInt8) → Bool

/-- A key pair that signs transactions. -/
structure KyveraKeyPair where
  publicKey : List UInt8
  secretKey : List UInt8
  deriving DecidableEq, Repr

/-- A detached signature. -/
structure KyveraSignature where
  signatureBytes : List UInt8
  deriving DecidableEq, Repr

/-- What the key pair signs, its public key verifies, and on no other message. -/
def Dilithium3.Sound (D : Dilithium3) (keypair : KyveraKeyPair) : Prop :=
  ∀ message signature, D.detachedSign keypair.secretKey message = .ok signature →
    ∀ message', D.verifyDetached keypair.publicKey message' signature = true ↔ message' = message

/-- The scheme in which the signature is the message itself. -/
def Dilithium3.echoing : Dilithium3 where
  detachedSign := fun _ message => .ok message
  verifyDetached := fun _ message signature => message == signature

theorem Dilithium3.sound_echoing (keypair : KyveraKeyPair) :
    Dilithium3.echoing.Sound keypair := by
  intro message signature h message'
  rw [← Except.ok.inj h]
  exact beq_iff_eq

namespace KyveraKeyPair

/-- The wallet address: the hash of the public key behind the prefix of the chain. -/
def address (keypair : KyveraKeyPair) (H : Sha3) : String :=
  "kyv1" ++ H.sha3256Hex ⟨keypair.publicKey.toArray⟩

/-- Sign a message. -/
def sign (keypair : KyveraKeyPair) (D : Dilithium3) (message : List UInt8) :
    Except String KyveraSignature :=
  match D.detachedSign keypair.secretKey message with
  | .error e => .error s!"Failed to load secret key: {e}"
  | .ok sig => .ok ⟨sig⟩

/-- The public key as it is published. -/
def publicKeyHex (keypair : KyveraKeyPair) : String := Hex.encode keypair.publicKey

theorem detachedSign_of_sign {keypair : KyveraKeyPair} {D : Dilithium3} {message : List UInt8}
    {signature : KyveraSignature} (h : keypair.sign D message = .ok signature) :
    D.detachedSign keypair.secretKey message = .ok signature.signatureBytes := by
  unfold sign at h
  cases hsig : D.detachedSign keypair.secretKey message with
  | error e =>
      rw [hsig] at h
      cases h
  | ok sig =>
      rw [hsig] at h
      cases h
      rfl

end KyveraKeyPair

namespace KyveraSignature

/-- Verify against a message and a public key in hex. -/
def verify (signature : KyveraSignature) (D : Dilithium3) (message : List UInt8)
    (publicKeyHex : String) : Bool :=
  match Hex.decode publicKeyHex with
  | none => false
  | some publicKey => D.verifyDetached publicKey message signature.signatureBytes

/-- The signature as it is published. -/
def toHex (signature : KyveraSignature) : String := Hex.encode signature.signatureBytes

/-- A signature from its published form. -/
def fromHex (hexStr : String) : Option KyveraSignature := (Hex.decode hexStr).map .mk

theorem fromHex_toHex (signature : KyveraSignature) :
    fromHex signature.toHex = some signature := by
  rw [fromHex, toHex, Hex.decode_encode, Option.map_some]

theorem verify_publicKeyHex (signature : KyveraSignature) (D : Dilithium3)
    (message : List UInt8) (keypair : KyveraKeyPair) :
    signature.verify D message keypair.publicKeyHex =
      D.verifyDetached keypair.publicKey message signature.signatureBytes := by
  rw [verify, KyveraKeyPair.publicKeyHex, Hex.decode_encode]

/-- A signature is accepted under the public key of its signer exactly on the signed message. -/
theorem verify_iff {signature : KyveraSignature} {D : Dilithium3} {keypair : KyveraKeyPair}
    {message : List UInt8} (hD : D.Sound keypair) (h : keypair.sign D message = .ok signature)
    (message' : List UInt8) :
    signature.verify D message' keypair.publicKeyHex = true ↔ message' = message := by
  rw [verify_publicKeyHex]
  exact hD message signature.signatureBytes (KyveraKeyPair.detachedSign_of_sign h) message'

end KyveraSignature

end Kyvera
