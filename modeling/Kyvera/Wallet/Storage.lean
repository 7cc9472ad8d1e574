import Kyvera.Wallet.Keys
import Kyvera.Library.Prog

/-!
# Wallet files

A wallet file is a magic text, a nonce and the wallet's JSON under AES-256-GCM.  There are two
writers and one reader, and each of them derives the key by itself: `saveWallet` mixes the address
of the wallet into it, `saveWalletV2` and the reader, which does not know the address yet, do not.
So the reader opens the files of `saveWalletV2` with their password, and those of `saveWallet`
only with the password that has the address behind it.

AES-256-GCM and the JSON encoder are parameters.
-/

namespace Kyvera

open Effect Std Bytes

/-- The errors of the storage layer. -/
inductive StorageError where
  | ioError (e : String)
  | decryptionFailed
  | invalidWalletFile
  | deserializationFailed (e : String)
  | serializationFailed (e : String)
  deriving DecidableEq, Repr

/-- The files by their paths. -/
abbrev FileSystem := ExtTreeMap String (List UInt8)

/-- A computation on the file system. -/
abbrev FileM := Prog FileSystem StorageError

/-- Magic bytes at the start of every wallet file. -/
def WALLET_MAGIC : List UInt8 := utf8 "KYVERAWALLET01"

/-- An AES-256-GCM nonce has 12 bytes. -/
def NONCE_SIZE : ℕ := 12

/-- The domain text in every key. -/
def ENCRYPTION_DOMAIN : String := "kyvera-wallet-encryption-v1"

/-- An encryption key. -/
abbrev Key := {bytes : List UInt8 // bytes.length = 32}

/-- A nonce. -/
abbrev Nonce := {bytes : List UInt8 // bytes.length = NONCE_SIZE}

/-- Encryption and decryption in the place of AES-256-GCM. -/
structure Aes256Gcm where
  encrypt : Key → Nonce → List UInt8 → Option (List UInt8)
  decrypt : Key → Nonce → List UInt8 → Option (List UInt8)

/-- Decryption undoes encryption under the same key and nonce and fails under another key. -/
structure Aes256Gcm.Authentic (A : Aes256Gcm) : Prop where
  decrypt_encrypt : ∀ {key nonce plaintext ciphertext},
    A.encrypt key nonce plaintext = some ciphertext →
      A.decrypt key nonce ciphertext = some plaintext
  decrypt_other : ∀ {key key' nonce plaintext ciphertext},
    A.encrypt key nonce plaintext = some ciphertext → key' ≠ key →
      A.decrypt key' nonce ciphertext = none

/-- An encoder and a decoder of wallets in the place of serde_json. -/
structure WalletJson where
  toString : KyveraWallet → Except String String
  fromStr : String → Except String KyveraWallet

/-- Decoding undoes encoding. -/
def WalletJson.RoundTrips (J : WalletJson) : Prop :=
  ∀ wallet json, J.toString wallet = .ok json → J.fromStr json = .ok wallet

/-! ## Files -/

/-- Read a file. -/
def readFile (path : String) : FileM (List UInt8) := do
  match (← Prog.get)[path]? with
  | none => .err (.ioError "No such file or directory (os error 2)")
  | some contents => return contents

/-- Write a file. -/
def writeFile (path : String) (contents : List UInt8) : FileM Unit :=
  Prog.set (fun files => files.insert path contents) (.ioError "write failed")

/-- Rename a file; a file that is already there is replaced. -/
def renameFile (source target : String) : FileM Unit := do
  match (← Prog.get)[source]? with
  | none => .err (.ioError "No such file or directory (os error 2)")
  | some contents =>
      Prog.set (fun files => (files.erase source).insert target contents) (.ioError "rename failed")

theorem run_renameFile {source target : String} {contents : List UInt8} {files : FileSystem}
    (h : files[source]? = some contents) :
    (renameFile source target).run files =
      (.ok (), (files.erase source).insert target contents) := by
  rw [renameFile, Prog.run_get_bind, h]
  rfl

/-! ## Saving -/

/-- The text that `saveWallet` derives its key from. -/
def encryptionKeyInput (password walletAddress : String) : ByteArray :=
  (password ++ walletAddress ++ ENCRYPTION_DOMAIN).toUTF8

/-- The text that `saveWalletV2` and `loadWallet` derive their key from. -/
def storageKeyInput (password : String) : ByteArray := (password ++ ENCRYPTION_DOMAIN).toUTF8

/-- The key of `saveWallet`. -/
def deriveEncryptionKey (H : Sha3) (password walletAddress : String) : Key :=
  H.digest (encryptionKeyInput password walletAddress)

/-- The key of `saveWalletV2`. -/
def deriveKeyForStorage (H : Sha3) (password : String) : Key :=
  H.digest (storageKeyInput password)

section

variable (H : Sha3) (A : Aes256Gcm) (J : WalletJson)

/-- Encrypt a wallet under a key and put it in its place: a temporary file first, then renamed. -/
def saveUnder (key : Key) (nonce : Nonce) (wallet : KyveraWallet) (path : String) :
    FileM Unit := do
  match J.toString wallet with
  | .error e => .err (.serializationFailed e)
  | .ok json => do
      let ciphertext ← Prog.okOr .decryptionFailed (A.encrypt key nonce (utf8 json))
      let fileContents := WALLET_MAGIC ++ nonce ++ ciphertext
      let tempPath := path ++ ".tmp"
      writeFile tempPath fileContents
      renameFile tempPath path

/-- Save a wallet; `nonce` is what the random generator gave. -/
def saveWallet (nonce : Nonce) (wallet : KyveraWallet) (path password : String) : FileM Unit :=
  saveUnder A J (deriveEncryptionKey H password wallet.address) nonce wallet path

/-- Save a wallet under a key without its address. -/
def saveWalletV2 (nonce : Nonce) (wallet : KyveraWallet) (path password : String) : FileM Unit :=
  saveUnder A J (deriveKeyForStorage H password) nonce wallet path

/-! ## Loading -/

/-- Decrypt and decode what a wallet file holds behind its nonce. -/
def openSealed (key : Key) (nonce : Nonce) (ciphertext : List UInt8) : FileM KyveraWallet := do
  let plaintext ← Prog.okOr .decryptionFailed (A.decrypt key nonce ciphertext)
  let json ← Prog.okOr .decryptionFailed (fromUtf8 plaintext)
  match J.fromStr json with
  | .error e => .err (.deserializationFailed e)
  | .ok wallet =>
      if wallet.verifyAddressIntegrity H then
        return wallet
      else
        .err (.deserializationFailed "Wallet address does not match public key after loading")

/-- Load a wallet. -/
def loadWallet (path password : String) : FileM KyveraWallet := do
  let fileContents ← readFile path
  if h : fileContents.length < WALLET_MAGIC.length + NONCE_SIZE then
    .err .invalidWalletFile
  else if fileContents.take WALLET_MAGIC.length ≠ WALLET_MAGIC then
    .err .invalidWalletFile
  else
    let nonce : Nonce := ⟨(fileContents.drop WALLET_MAGIC.length).take NONCE_SIZE, by
      rw [List.length_take, List.length_drop]
      omega⟩
    let ciphertext := fileContents.drop (WALLET_MAGIC.length + NONCE_SIZE)
    -- The reader derives its key inline, from the same text as `deriveKeyForStorage`.
    openSealed H A J (H.digest (storageKeyInput password)) nonce ciphertext

end

/-- Delete a wallet file. -/
def deleteWallet (path : String) : FileM Unit := do
  match (← Prog.get)[path]? with
  | none => .err (.ioError "No such file or directory (os error 2)")
  | some _ => Prog.set (fun files => files.erase path) (.ioError "remove failed")

/-! ## What a saved file opens with -/

section

variable {H : Sha3} {A : Aes256Gcm} {J : WalletJson} {key : Key} {nonce : Nonce}
  {wallet : KyveraWallet} {path password : String} {files files' : FileSystem}

theorem getElem?_of_saveUnder {u : Unit}
    (h : (saveUnder A J key nonce wallet path).run files = (.ok u, files')) :
    ∃ json ciphertext, J.toString wallet = .ok json ∧
      A.encrypt key nonce (utf8 json) = some ciphertext ∧
        files'[path]? = some (WALLET_MAGIC ++ nonce ++ ciphertext) := by
  unfold saveUnder at h
  cases hjson : J.toString wallet with
  | error e =>
      rw [hjson] at h
      cases h
  | ok json =>
      rw [hjson] at h
      obtain ⟨ciphertext, hencrypt, h⟩ := Prog.run_okOr_bind_eq_ok_iff.1 h
      refine ⟨json, ciphertext, rfl, hencrypt, ?_⟩
      change (renameFile (path ++ ".tmp") path).run (files.insert (path ++ ".tmp") _) = _ at h
      rw [run_renameFile ExtTreeMap.getElem?_insert_self] at h
      obtain ⟨_, rfl⟩ := Prod.mk.inj h
      exact ExtTreeMap.getElem?_insert_self

/-- The reader takes a well-formed file apart where the writer put it together. -/
theorem run_loadWallet_of_layout {ciphertext : List UInt8}
    (hfile : files[path]? = some (WALLET_MAGIC ++ nonce ++ ciphertext)) :
    (loadWallet H A J path password).run files =
      (openSealed H A J (deriveKeyForStorage H password) nonce ciphertext).run files := by
  have hmagic : WALLET_MAGIC.length + NONCE_SIZE =
      (WALLET_MAGIC ++ (nonce : List UInt8)).length := by
    rw [List.length_append, nonce.2]
  have hread : (readFile path).run files =
      (.ok (WALLET_MAGIC ++ nonce ++ ciphertext), files) := by
    rw [readFile, Prog.run_get_bind, hfile]
    rfl
  have hnonce : ((WALLET_MAGIC ++ nonce ++ ciphertext).drop WALLET_MAGIC.length).take NONCE_SIZE =
      nonce.1 := by
    rw [List.append_assoc, List.drop_left, List.take_left' nonce.2]
  rw [loadWallet, Prog.run_bind_of_ok hread, dif_neg, if_neg]
  · simp only [hnonce]
    rw [hmagic, List.drop_left]
    rfl
  · rw [not_not, List.append_assoc, List.take_left]
  · rw [hmagic, Nat.not_lt]
    exact (List.prefix_append _ ciphertext).length_le

/-- A saved file opens with exactly the passwords that give the reader the writer's key. -/
theorem run_loadWallet_of_saveUnder {u : Unit} (hA : A.Authentic) (hJ : J.RoundTrips)
    (hw : wallet.verifyAddressIntegrity H = true)
    (h : (saveUnder A J key nonce wallet path).run files = (.ok u, files')) (password : String) :
    (loadWallet H A J path password).run files' =
      if deriveKeyForStorage H password = key then (.ok wallet, files')
      else (.err .decryptionFailed, files') := by
  obtain ⟨json, ciphertext, hjson, hencrypt, hfile⟩ := getElem?_of_saveUnder h
  rw [run_loadWallet_of_layout hfile, openSealed]
  split_ifs with hkey
  · rw [hkey, hA.decrypt_encrypt hencrypt, Prog.okOr_some, Prog.done_bind, fromUtf8_utf8,
      Prog.okOr_some, Prog.done_bind, hJ wallet json hjson]
    show (if _ then _ else _ : FileM KyveraWallet).run files' = _
    rw [if_pos hw]
    rfl
  · rw [hA.decrypt_other hencrypt hkey]
    rfl

end

/-! ## The two writers -/

/-- The public functions that write a wallet file. -/
inductive WalletWriter where
  | saveWallet
  | saveWalletV2
  deriving DecidableEq, Repr

namespace WalletWriter

/-- Write a wallet file. -/
def save (writer : WalletWriter) (H : Sha3) (A : Aes256Gcm) (J : WalletJson) (nonce : Nonce)
    (wallet : KyveraWallet) (path password : String) : FileM Unit :=
  match writer with
  | .saveWallet => Kyvera.saveWallet H A J nonce wallet path password
  | .saveWalletV2 => Kyvera.saveWalletV2 H A J nonce wallet path password

/-- The text the writer derives its key from. -/
def keyInput (writer : WalletWriter) (password walletAddress : String) : ByteArray :=
  match writer with
  | .saveWallet => encryptionKeyInput password walletAddress
  | .saveWalletV2 => storageKeyInput password

theorem save_eq (writer : WalletWriter) (H : Sha3) (A : Aes256Gcm) (J : WalletJson)
    (nonce : Nonce) (wallet : KyveraWallet) (path password : String) :
    writer.save H A J nonce wallet path password =
      saveUnder A J (H.digest (writer.keyInput password wallet.address)) nonce wallet path := by
  cases writer <;> rfl

end WalletWriter

theorem storageKeyInput_injective : Function.Injective storageKeyInput := by
  intro password other h
  have htext := congrArg String.toList (String.toByteArray_inj.1 h)
  rw [String.toList_append, String.toList_append] at htext
  exact String.toList_injective (List.append_cancel_right htext)

/-- The text that `saveWallet` hashes is the one that the reader hashes for another password. -/
theorem encryptionKeyInput_eq (password walletAddress : String) :
    encryptionKeyInput password walletAddress = storageKeyInput (password ++ walletAddress) := rfl

theorem encryptionKeyInput_ne {walletAddress : String} (h : walletAddress ≠ "")
    (password : String) : encryptionKeyInput password walletAddress ≠ storageKeyInput password := by
  rw [encryptionKeyInput_eq]
  intro e
  exact h (String.append_eq_left_iff.1 (storageKeyInput_injective e))

section

variable {H : Sha3} {A : Aes256Gcm} {J : WalletJson} {nonce : Nonce} {wallet : KyveraWallet}
  {path password other : String} {files files' : FileSystem}

/-- A file of `saveWallet` opens with the password that has the address of the wallet behind it. -/
theorem loadWallet_of_saveWallet {u : Unit} (hA : A.Authentic) (hJ : J.RoundTrips)
    (hw : wallet.verifyAddressIntegrity H = true)
    (h : (saveWallet H A J nonce wallet path password).run files = (.ok u, files')) :
    (loadWallet H A J path (password ++ wallet.address)).run files' = (.ok wallet, files') :=
  (run_loadWallet_of_saveUnder hA hJ hw h _).trans (if_pos rfl)

/-- A wallet file opens with its password, and with no other one, exactly if `saveWalletV2`
wrote it. -/
theorem loadWallet_iff_saveWalletV2 {writer : WalletWriter} {u : Unit} (hA : A.Authentic)
    (hJ : J.RoundTrips) (hw : wallet.verifyAddressIntegrity H = true)
    (hsave : (writer.save H A J nonce wallet path password).run files = (.ok u, files'))
    (hH : H.CollisionFree [writer.keyInput password wallet.address, storageKeyInput password,
      storageKeyInput other]) :
    ((loadWallet H A J path password).run files' = (.ok wallet, files') ∧
      (other ≠ password →
        (loadWallet H A J path other).run files' = (.err .decryptionFailed, files'))) ↔
      writer = .saveWalletV2 := by
  rw [WalletWriter.save_eq] at hsave
  rw [run_loadWallet_of_saveUnder hA hJ hw hsave, run_loadWallet_of_saveUnder hA hJ hw hsave]
  cases writer with
  | saveWallet =>
      have hkey : deriveKeyForStorage H password ≠
          H.digest (encryptionKeyInput password wallet.address) := by
        intro e
        exact encryptionKeyInput_ne (KyveraWallet.address_ne_empty hw) password
          (hH.digest_inj (by simp [WalletWriter.keyInput]) (by simp) e.symm)
      rw [show WalletWriter.keyInput .saveWallet password wallet.address =
        encryptionKeyInput password wallet.address from rfl, if_neg hkey]
      constructor
      · rintro ⟨h, _⟩
        cases h
      · intro h
        cases h
  | saveWalletV2 =>
      constructor
      · intro _
        rfl
      · intro _
        refine ⟨if_pos rfl, ?_⟩
        intro hother
        apply if_neg
        intro e
        exact hother (storageKeyInput_injective (hH.digest_inj (by simp) (by simp) e))

end

/-- The cipher that writes the key and the nonce in front of the plaintext. -/
def Aes256Gcm.prefixing : Aes256Gcm where
  encrypt := fun key nonce plaintext => some (key ++ (nonce ++ plaintext))
  decrypt := fun key nonce ciphertext =>
    if ciphertext.take 32 = key ∧ (ciphertext.drop 32).take NONCE_SIZE = nonce then
      some ((ciphertext.drop 32).drop NONCE_SIZE)
    else none

theorem Aes256Gcm.authentic_prefixing : Aes256Gcm.prefixing.Authentic where
  decrypt_encrypt := by
    intro key nonce plaintext ciphertext h
    obtain rfl := Option.some.inj h
    show (if _ then _ else _) = _
    rw [List.take_left' key.2, List.drop_left' key.2, List.take_left' nonce.2,
      List.drop_left' nonce.2, if_pos ⟨rfl, rfl⟩]
  decrypt_other := by
    intro key key' nonce plaintext ciphertext h hkey
    obtain rfl := Option.some.inj h
    apply if_neg
    rintro ⟨htake, _⟩
    rw [List.take_left' key.2] at htake
    exact hkey (Subtype.ext htake.symm)

/-- The JSON text of `keySevenWallet`. -/
def keySevenJson : String :=
  "\x7b\"address\":\"" ++ keySevenAddress ++
    "\",\"signing_keypair\":\x7b\"public_key\":[7],\"secret_key\":[8]\x7d" ++
    ",\"network_keypair\":\x7b\"public_key\":[9],\"secret_key\":[10]\x7d" ++
    ",\"epoch_keypair\":\x7b\"public_key\":[11],\"secret_key\":[12]\x7d" ++
    ",\"label\":\"main\",\"created_at\":1000\x7d"

/-- The encoder that knows one wallet. -/
def WalletJson.single (known : KyveraWallet) (text : String) : WalletJson where
  toString := fun wallet => if wallet = known then .ok text else .error "unknown wallet"
  fromStr := fun json =>
    if json = text then .ok known else .error "expected value at line 1 column 1"

theorem WalletJson.roundTrips_single (known : KyveraWallet) (text : String) :
    (WalletJson.single known text).RoundTrips := by
  intro wallet json h
  by_cases hwallet : wallet = known
  · have htext : (WalletJson.single known text).toString wallet = .ok text := if_pos hwallet
    rw [← Except.ok.inj (htext.symm.trans h), hwallet]
    exact if_pos rfl
  · have herror : (WalletJson.single known text).toString wallet = .error "unknown wallet" :=
      if_neg hwallet
    rw [herror] at h
    cases h

/-- The encoder on the wallet with the key `7`. -/
def WalletJson.keySeven : WalletJson := .single keySevenWallet keySevenJson

/-- A nonce. -/
def zeroNonce : Nonce := ⟨List.replicate NONCE_SIZE 0, List.length_replicate⟩

theorem loadWallet_iff_saveWalletV2_keySeven :
    let saved := ((saveWalletV2 Sha3.checksum .prefixing .keySeven zeroNonce keySevenWallet
      "main.wallet" "horse").run (∅ : FileSystem)).2
    (loadWallet Sha3.checksum .prefixing .keySeven "main.wallet" "horse").run saved =
        (.ok keySevenWallet, saved) ∧
      ("battery" ≠ "horse" →
        (loadWallet Sha3.checksum .prefixing .keySeven "main.wallet" "battery").run saved =
          (.err .decryptionFailed, saved)) := by
  intro saved
  have hsave : (WalletWriter.saveWalletV2.save Sha3.checksum .prefixing .keySeven zeroNonce
      keySevenWallet "main.wallet" "horse").run (∅ : FileSystem) = (.ok (), saved) :=
    Prog.run_eq_of_outcome (by decide +kernel)
  have hpasswords : Sha3.checksum.CollisionFree [storageKeyInput "horse",
      storageKeyInput "battery"] :=
    Sha3.collisionFree_of_nodup (by decide +kernel)
  refine (loadWallet_iff_saveWalletV2 Aes256Gcm.authentic_prefixing
    (WalletJson.roundTrips_single _ _) (by decide +kernel) hsave ?_).2 rfl
  exact hpasswords.mono (by simp [WalletWriter.keyInput])

/-- A file of `saveWallet` does not open with its own password. -/
theorem loadWallet_after_saveWallet :
    let saved := (saveWallet Sha3.checksum .prefixing .keySeven zeroNonce keySevenWallet
      "main.wallet" "horse").run (∅ : FileSystem)
    Aes256Gcm.prefixing.Authentic ∧ WalletJson.keySeven.RoundTrips ∧
      keySevenWallet.verifyAddressIntegrity Sha3.checksum = true ∧
      Sha3.checksum.CollisionFree [encryptionKeyInput "horse" keySevenAddress,
        storageKeyInput "horse"] ∧
      saved.1 = .ok () ∧
      ((loadWallet Sha3.checksum .prefixing .keySeven "main.wallet" "horse").run saved.2).1 =
        .err .decryptionFailed :=
  ⟨Aes256Gcm.authentic_prefixing, (WalletJson.roundTrips_single _ _), by decide +kernel,
    Sha3.collisionFree_of_nodup (by decide +kernel), by decide +kernel, by decide +kernel⟩

end Kyvera
