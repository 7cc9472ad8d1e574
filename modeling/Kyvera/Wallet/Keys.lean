import Kyvera.Crypto.Dilithium

/-!
# Wallets
-/

namespace Kyvera

/-- A key pair that encrypts node sessions. -/
structure KyberKeyPair where
  publicKey : List UInt8
  secretKey : List UInt8
  deriving DecidableEq, Repr

/-- A key pair that signs epoch blocks. -/
structure SphincsKeyPair where
  publicKey : List UInt8
  secretKey : List UInt8
  deriving DecidableEq, Repr

/-- A wallet: its three key pairs and the address derived from the first. -/
structure KyveraWallet where
  address : String
  signingKeypair : KyveraKeyPair
  networkKeypair : KyberKeyPair
  epochKeypair : SphincsKeyPair
  label : String
  createdAt : ℤ
  deriving DecidableEq, Repr

namespace KyveraWallet

/-- The signing public key as it is published. -/
def publicKeyHex (wallet : KyveraWallet) : String := Hex.encode wallet.signingKeypair.publicKey

/-- Whether the address is the one that the signing key gives now. -/
def verifyAddressIntegrity (wallet : KyveraWallet) (H : Sha3) : Bool :=
  wallet.signingKeypair.address H == wallet.address

theorem publicKeyHex_eq (wallet : KyveraWallet) :
    wallet.publicKeyHex = wallet.signingKeypair.publicKeyHex := rfl

theorem address_ne_empty {wallet : KyveraWallet} {H : Sha3}
    (h : wallet.verifyAddressIntegrity H = true) : wallet.address ≠ "" := by
  rw [← eq_of_beq h, KyveraKeyPair.address]
  intro e
  have hlength := congrArg String.length e
  rw [String.length_append] at hlength
  exact absurd (Nat.eq_zero_of_add_eq_zero_right hlength) (by decide)

end KyveraWallet

/-- The address of the key `7`, with the checksum in the place of SHA3. -/
def keySevenAddress : String :=
  "kyv10000000000000000000000000000000000000000000000000000000000000007"

/-- A wallet with one-byte keys. -/
def keySevenWallet : KyveraWallet where
  address := keySevenAddress
  signingKeypair := ⟨[7], [8]⟩
  networkKeypair := ⟨[9], [10]⟩
  epochKeypair := ⟨[11], [12]⟩
  label := "main"
  createdAt := 1000

end Kyvera
