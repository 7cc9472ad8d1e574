import Kyvera.Wallet.Keys
import Kyvera.Crypto.Binding
import Kyvera.Storage.StateTrie

/-!
# Building transactions

The wallet fills a transaction, signs its JSON together with a nonce, and publishes the result.
The clock is read twice: for the timestamp of the transaction, and again for the nonce that is
signed.  A node has only the first reading, so it can rebuild the signed bytes exactly when both
readings agree.
-/

namespace Kyvera

open Bytes

/-- The errors of the builder. -/
inductive BuilderError where
  | insufficientBalance (available required : UInt64)
  | signingFailed (e : String)
  | invalidAddress (a : String)
  | zeroAmount
  deriving DecidableEq, Repr

/-- Whether a text looks like an address: the prefix and 64 hex digits of either case. -/
def validateAddress (address : String) : Bool :=
  if ¬ "kyv1".toList.isPrefixOf address.toList then false
  else
    let hexPart := String.ofList (address.toList.drop 4)
    if hexPart.utf8ByteSize ≠ 64 then false
    else hexPart.toList.all fun c => (Hex.value c).isSome

theorem validateAddress_address (keypair : KyveraKeyPair) (H : Sha3) :
    validateAddress (keypair.address H) = true := by
  have htoList : (keypair.address H).toList =
      "kyv1".toList ++ (H.sha3256Hex ⟨keypair.publicKey.toArray⟩).toList := by
    rw [KyveraKeyPair.address, String.toList_append]
  have hprefix : "kyv1".toList.isPrefixOf (keypair.address H).toList = true := by
    rw [List.isPrefixOf_iff_prefix, htoList]
    exact List.prefix_append _ _
  have hrest : String.ofList ((keypair.address H).toList.drop 4) =
      H.sha3256Hex ⟨keypair.publicKey.toArray⟩ := by
    rw [htoList, List.drop_left' (by decide), String.ofList_toList]
  unfold validateAddress
  simp only [hrest]
  rw [if_neg (not_not.2 hprefix), if_neg (not_not.2 (H.utf8ByteSize_hex _)), List.all_eq_true]
  intro c hc
  obtain ⟨n, _, hvalue, _⟩ := Hex.exists_value (H.isHex_hex _ c hc)
  rw [hvalue]
  rfl

/-- The placeholder address of the staking contract. -/
def STAKING_CONTRACT : String :=
  "kyv1000000000000000000000000000000000000000000000000000000000000stake"

/-- The canonical hash of a signed transaction. -/
def computeTransactionHash (H : Sha3) (tx : Transaction) : String :=
  H.sha3256Hex (tx.sender ++ tx.receiver ++ toString tx.amount ++ toString tx.fee ++
    toString tx.nonce ++ tx.signature).toUTF8

section

variable (H : Sha3) (D : Dilithium3) (clock : ℕ → Int64) (wallet : KyveraWallet)

/-- Sign an unsigned transaction.  The clock was read once to fill it, and is read again here. -/
def signTransaction (tx : Transaction) (accountNonce : UInt64) (chainStateHash : String) :
    Except BuilderError Transaction :=
  let txPayload := utf8 (transactionJson tx)
  let nonce := TransactionNonce.new (clock 1).toInt accountNonce chainStateHash
  match wallet.signingKeypair.sign D (bindMessageToNonce H txPayload nonce) with
  | .error e => .error (.signingFailed e)
  | .ok signature =>
      let tx := { tx with signature := signature.toHex }
      .ok { tx with hash := computeTransactionHash H tx }

/-- Build and sign a transfer. -/
def buildTransfer (recipient : String) (amount fee accountNonce : UInt64)
    (chainStateHash : String) : Except BuilderError Transaction :=
  if amount = 0 then .error .zeroAmount
  else if ¬ validateAddress recipient then .error (.invalidAddress recipient)
  else
    signTransaction H D clock wallet
      (Transaction.new (clock 0).toInt wallet.address recipient amount fee accountNonce .transfer [])
      accountNonce chainStateHash

/-- Build and sign a stake lock. -/
def buildStakeLock (amount fee accountNonce : UInt64) (chainStateHash : String) :
    Except BuilderError Transaction :=
  if amount = 0 then .error .zeroAmount
  else
    signTransaction H D clock wallet
      (Transaction.new (clock 0).toInt wallet.address STAKING_CONTRACT amount fee accountNonce
        .stakeLock [])
      accountNonce chainStateHash

/-- Build and sign a stake unlock. -/
def buildStakeUnlock (amount fee accountNonce : UInt64) (chainStateHash : String) :
    Except BuilderError Transaction :=
  if amount = 0 then .error .zeroAmount
  else
    signTransaction H D clock wallet
      (Transaction.new (clock 0).toInt wallet.address STAKING_CONTRACT amount fee accountNonce
        .stakeUnlock [])
      accountNonce chainStateHash

end

/-- What a wallet can be asked to build. -/
inductive BuildRequest where
  | transfer (recipient : String)
  | stakeLock
  | stakeUnlock
  deriving DecidableEq, Repr

namespace BuildRequest

/-- Build and sign what is asked for. -/
def build (request : BuildRequest) (H : Sha3) (D : Dilithium3) (clock : ℕ → Int64)
    (wallet : KyveraWallet) (amount fee accountNonce : UInt64) (chainStateHash : String) :
    Except BuilderError Transaction :=
  match request with
  | .transfer recipient =>
      buildTransfer H D clock wallet recipient amount fee accountNonce chainStateHash
  | .stakeLock => buildStakeLock H D clock wallet amount fee accountNonce chainStateHash
  | .stakeUnlock => buildStakeUnlock H D clock wallet amount fee accountNonce chainStateHash

/-- Who receives the transaction. -/
def receiver : BuildRequest → String
  | .transfer recipient => recipient
  | .stakeLock | .stakeUnlock => STAKING_CONTRACT

/-- The type of the transaction. -/
def transactionType : BuildRequest → TransactionType
  | .transfer _ => .transfer
  | .stakeLock => .stakeLock
  | .stakeUnlock => .stakeUnlock

end BuildRequest

/-- A transaction as it was when it was signed. -/
def Transaction.unsigned (tx : Transaction) : Transaction := { tx with hash := "", signature := "" }

/-- The nonce that a node reads off a published transaction. -/
def Transaction.publishedNonce (tx : Transaction) (chainStateHash : String) : TransactionNonce where
  accountNonce := tx.nonce
  timestampMs := tx.timestamp
  chainStateHash := chainStateHash

theorem publishedNonce_unsigned (tx : Transaction) (chainStateHash : String) :
    tx.unsigned.publishedNonce chainStateHash = tx.publishedNonce chainStateHash := rfl

section

variable {H : Sha3} {D : Dilithium3} {clock : ℕ → Int64} {wallet : KyveraWallet}
  {amount fee accountNonce : UInt64} {chainStateHash : String} {tx : Transaction}

theorem signTransaction_of_build {request : BuildRequest}
    (h : request.build H D clock wallet amount fee accountNonce chainStateHash = .ok tx) :
    signTransaction H D clock wallet
      (Transaction.new (clock 0).toInt wallet.address request.receiver amount fee accountNonce
        request.transactionType []) accountNonce chainStateHash = .ok tx := by
  by_cases hamount : amount = 0
  · cases request <;>
      simp [BuildRequest.build, buildTransfer, buildStakeLock, buildStakeUnlock, hamount] at h
  · cases request with
    | transfer recipient =>
        rw [BuildRequest.build, buildTransfer, if_neg hamount] at h
        split_ifs at h
        exact h
    | stakeLock =>
        rwa [BuildRequest.build, buildStakeLock, if_neg hamount] at h
    | stakeUnlock =>
        rwa [BuildRequest.build, buildStakeUnlock, if_neg hamount] at h

/-- What a signed transaction keeps, and what its signature is over. -/
theorem sign_of_signTransaction {draft : Transaction} (hdraft : draft.unsigned = draft)
    (h : signTransaction H D clock wallet draft accountNonce chainStateHash = .ok tx) :
    ∃ signature, tx.unsigned = draft ∧ tx.signature = signature.toHex ∧
      wallet.signingKeypair.sign D (bindMessageToNonce H (utf8 (transactionJson tx.unsigned))
        (.new (clock 1).toInt accountNonce chainStateHash)) = .ok signature := by
  unfold signTransaction at h
  cases hsign : wallet.signingKeypair.sign D (bindMessageToNonce H
      (utf8 (transactionJson draft)) (.new (clock 1).toInt accountNonce chainStateHash)) with
  | error e =>
      simp only [hsign] at h
      cases h
  | ok signature =>
      simp only [hsign] at h
      obtain rfl := Except.ok.inj h
      refine ⟨signature, hdraft, rfl, ?_⟩
      show wallet.signingKeypair.sign D
        (bindMessageToNonce H (utf8 (transactionJson draft.unsigned)) _) = _
      rw [hdraft]
      exact hsign

/-- A built transaction verifies from its published fields exactly when both readings of the
clock fall in the same millisecond. -/
theorem build_verifies_iff {request : BuildRequest} (hD : D.Sound wallet.signingKeypair)
    (hbuild : request.build H D clock wallet amount fee accountNonce chainStateHash = .ok tx)
    (hH : H.CollisionFree
      [bindingInput (utf8 (transactionJson tx.unsigned))
        (.new (clock 1).toInt accountNonce chainStateHash),
      bindingInput (utf8 (transactionJson tx.unsigned)) (tx.publishedNonce chainStateHash)]) :
    verifyTransactionSignature H D (utf8 (transactionJson tx.unsigned))
      (tx.publishedNonce chainStateHash) tx.signature wallet.publicKeyHex = true ↔
        clock 0 = clock 1 := by
  obtain ⟨signature, hunsigned, hsignature, hsign⟩ :=
    sign_of_signTransaction rfl (signTransaction_of_build hbuild)
  have hnonce : tx.publishedNonce chainStateHash =
      .new (clock 0).toInt accountNonce chainStateHash := by
    rw [← publishedNonce_unsigned, hunsigned]
    rfl
  rw [hnonce] at hH
  rw [hnonce, hsignature, KyveraWallet.publicKeyHex_eq, verifyTransactionSignature_iff hD hsign hH]
  constructor
  · intro h
    exact timestamp_eq_of_bindingInput_eq h
  · intro h
    rw [h]

end

/-- The address of the key `9`, with the checksum in the place of SHA3. -/
def keyNineAddress : String :=
  "kyv10000000000000000000000000000000000000000000000000000000000000009"

/-- A transfer of 40 from the wallet with the key `7`, built while the clock stands still. -/
def stillTransfer : Transaction where
  hash := "0000000000000000000000000000000000000000000000000000000000000000"
  sender := keySevenAddress
  receiver := keyNineAddress
  amount := 40
  fee := 10
  nonce := 0
  signature := "0000000000000000000000000000000000000000000000000000000000000000"
  timestamp := 1000
  transactionType := .transfer
  data := []

theorem build_verifies_iff_still_clock :
    BuildRequest.build (.transfer keyNineAddress) Sha3.zero .echoing (fun _ => 1000)
        keySevenWallet 40 10 0 "root" = .ok stillTransfer ∧
      verifyTransactionSignature Sha3.zero .echoing
        (utf8 (transactionJson stillTransfer.unsigned)) (stillTransfer.publishedNonce "root")
        stillTransfer.signature keySevenWallet.publicKeyHex = true := by
  have hbuild : BuildRequest.build (.transfer keyNineAddress) Sha3.zero .echoing
      (fun _ => 1000) keySevenWallet 40 10 0 "root" = .ok stillTransfer := by decide +kernel
  refine ⟨hbuild, (build_verifies_iff (Dilithium3.sound_echoing _) hbuild ?_).2 rfl⟩
  apply Sha3.collisionFree_of_forall_eq
    (b := bindingInput (utf8 (transactionJson stillTransfer.unsigned)) (.new 1000 0 "root"))
  intro b hb
  rw [List.mem_pair] at hb
  rcases hb with rfl | rfl <;> rfl

/-- A transfer built while the clock turns from one millisecond to the next does not verify. -/
theorem buildTransfer_while_clock_turns :
    let clock : ℕ → Int64 := fun n => if n = 0 then 1000 else 1001
    (∀ n m, n ≤ m → clock n ≤ clock m) ∧
      Dilithium3.echoing.Sound keySevenWallet.signingKeypair ∧
      ∃ tx, buildTransfer Sha3.checksum .echoing clock keySevenWallet keyNineAddress 40 10 0
          "root" = .ok tx ∧
        Sha3.checksum.CollisionFree
          [bindingInput (utf8 (transactionJson tx.unsigned)) (.new 1001 0 "root"),
          bindingInput (utf8 (transactionJson tx.unsigned)) (tx.publishedNonce "root")] ∧
        verifyTransactionSignature Sha3.checksum .echoing (utf8 (transactionJson tx.unsigned))
          (tx.publishedNonce "root") tx.signature keySevenWallet.publicKeyHex = false := by
  intro clock
  have hsound : Dilithium3.echoing.Sound keySevenWallet.signingKeypair :=
    Dilithium3.sound_echoing _
  refine ⟨?_, hsound, ?_⟩
  · intro n m hnm
    show (if n = 0 then (1000 : Int64) else 1001) ≤ if m = 0 then 1000 else 1001
    split_ifs with hn hm hm
    · decide
    · decide
    · omega
    · decide
  · obtain ⟨tx, htx⟩ : ∃ tx, buildTransfer Sha3.checksum .echoing clock keySevenWallet
        keyNineAddress 40 10 0 "root" = .ok tx := by
      rw [buildTransfer, if_neg (by decide), if_neg (by decide +kernel)]
      exact ⟨_, rfl⟩
    have hbuild : BuildRequest.build (.transfer keyNineAddress) Sha3.checksum .echoing clock
        keySevenWallet 40 10 0 "root" = .ok tx := htx
    obtain ⟨signature, hunsigned, hsignature, hsign⟩ :=
      sign_of_signTransaction rfl (signTransaction_of_build hbuild)
    have hnonce : tx.publishedNonce "root" = .new 1000 0 "root" := by
      rw [← publishedNonce_unsigned, hunsigned]
      rfl
    have hH : Sha3.checksum.CollisionFree
        [bindingInput (utf8 (transactionJson tx.unsigned)) (.new 1001 0 "root"),
        bindingInput (utf8 (transactionJson tx.unsigned)) (tx.publishedNonce "root")] := by
      apply Sha3.collisionFree_of_nodup
      rw [hnonce, hunsigned, List.map_cons, List.map_singleton, Sha3.checksum_sha3256Hex,
        Sha3.checksum_sha3256Hex]
      decide +kernel
    refine ⟨tx, htx, hH, ?_⟩
    rw [Bool.eq_false_iff, hsignature, KyveraWallet.publicKeyHex_eq, ne_eq,
      verifyTransactionSignature_iff hsound hsign hH, hnonce]
    intro e
    have htime : (1000 : Int64) = 1001 := timestamp_eq_of_bindingInput_eq e
    exact absurd htime (by decide)

end Kyvera
