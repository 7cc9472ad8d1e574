import Kyvera.Consensus.Executable
import Kyvera.Mempool.Executability
import Kyvera.Wallet.TransactionBuilder

/-!
# From the wallet to the ledger

The wallet, the pool, the rules of consensus and the ledger each check a transaction in a way of
their own.  What the wallet builds for an account that can pay for it, with the nonce of the account,
passes all of them: the pool takes it, a block with it is accepted, and its application moves what
it says.
-/

namespace Kyvera

open Effect Effect.Prog

variable {H : Sha3} {D : Dilithium3} {clock : ℕ → Int64} {wallet : KyveraWallet}
  {amount fee accountNonce : UInt64} {chainStateHash : String} {tx : Transaction}
  {request : BuildRequest} {pool : Mempool} {db : KyveraDb}

/-- The pool and the accounts are ready for a transaction: there is room for it, it is the only one
of its sender and no other has its hash, its sender can be charged, and no balance overflows. -/
structure Mempool.ReadyFor (pool : Mempool) (db : KyveraDb) (tx : Transaction) : Prop where
  room : pool.len < MAX_MEMPOOL_SIZE
  fresh : tx.hash ∉ pool.transactions
  first : pool.hasOtherPending tx.sender = false
  charge : tx.Chargeable (db.account tx.sender)
  settles : ¬ db.Overflows tx

/-! ## What is built -/

theorem isEmpty_eq_false_of_ne {s : String} (h : s ≠ "") : s.isEmpty = false := by
  rw [Bool.eq_false_iff]
  exact fun hempty => h (String.isEmpty_iff.1 hempty)

theorem isEmpty_sha3256Hex (H : Sha3) (b : ByteArray) : (H.sha3256Hex b).isEmpty = false := by
  refine isEmpty_eq_false_of_ne fun hempty => ?_
  have hlength := H.length_hex b
  rw [hempty] at hlength
  exact absurd hlength (by decide)

theorem isEmpty_toHex {signature : KyveraSignature} (h : signature.signatureBytes ≠ []) :
    signature.toHex.isEmpty = false := by
  refine isEmpty_eq_false_of_ne fun hempty => ?_
  have hdecode := Hex.decode_encode signature.signatureBytes
  rw [show Hex.encode signature.signatureBytes = "" from hempty] at hdecode
  exact h (Option.some.inj hdecode).symm

theorem isEmpty_of_validateAddress {address : String} (h : validateAddress address = true) :
    address.isEmpty = false := by
  refine isEmpty_eq_false_of_ne fun hempty => ?_
  rw [hempty] at h
  exact absurd h (by decide)

theorem hash_of_signTransaction {draft : Transaction}
    (h : signTransaction H D clock wallet draft accountNonce chainStateHash = .ok tx) :
    tx.hash.isEmpty = false := by
  unfold signTransaction at h
  dsimp only at h
  split at h
  · cases h
  · obtain rfl := Except.ok.inj h
    exact isEmpty_sha3256Hex H _

theorem receiver_of_build
    (h : request.build H D clock wallet amount fee accountNonce chainStateHash = .ok tx) :
    request.receiver.isEmpty = false := by
  cases request with
  | transfer recipient =>
      by_cases hvalid : validateAddress recipient = true
      · exact isEmpty_of_validateAddress hvalid
      · rw [BuildRequest.build, buildTransfer, if_pos hvalid] at h
        split_ifs at h
  | stakeLock => rfl
  | stakeUnlock => rfl

/-- What a wallet builds is well formed for the pool, and sent from its address. -/
theorem structured_of_build
    (hsigns : ∀ message, D.detachedSign wallet.signingKeypair.secretKey message ≠ .ok [])
    (hw : wallet.verifyAddressIntegrity H = true)
    (h : request.build H D clock wallet amount fee accountNonce chainStateHash = .ok tx) :
    validateStructure tx = .ok () ∧ tx.sender = wallet.address := by
  have hsigned := signTransaction_of_build h
  obtain ⟨signature, hunsigned, hsignature, hsign⟩ := sign_of_signTransaction rfl hsigned
  have hsender : tx.sender = wallet.address := congrArg Transaction.sender hunsigned
  have hreceiver : tx.receiver = request.receiver := congrArg Transaction.receiver hunsigned
  have hbytes : signature.signatureBytes ≠ [] := by
    intro hnil
    have hdetached := KyveraKeyPair.detachedSign_of_sign hsign
    rw [hnil] at hdetached
    exact hsigns _ hdetached
  have haddress : wallet.address.isEmpty = false := by
    rw [← eq_of_beq hw]
    exact isEmpty_of_validateAddress (validateAddress_address _ _)
  refine ⟨?_, hsender⟩
  unfold validateStructure
  rw [hash_of_signTransaction hsigned, hsignature, isEmpty_toHex hbytes, hsender, haddress, hreceiver,
    receiver_of_build h]
  rfl

/-! ## What becomes of it -/

theorem Transaction.Chargeable.requiredBalance_le {a : Account} (h : tx.Chargeable a) :
    requiredBalance tx ≤ a.balance := by
  have hcost : (tx.cost : ℤ) ≤ a.balance.toNat := (Transaction.covered_iff.1 h.covered).1
  rw [UInt64.le_iff_toNat_le, toNat_requiredBalance h.covered.cost_lt]
  exact Int.ofNat_le.1 hcost

theorem Mempool.ReadyFor.admissible (h : pool.ReadyFor db tx)
    (hstructured : validateStructure tx = .ok ()) : pool.Admissible tx db where
  structured := hstructured
  hash := h.fresh
  senderKey := by
    intro hmem
    have hother : pool.hasOtherPending tx.sender = true :=
      decide_eq_true ⟨tx.senderKey, hmem, rfl⟩
    rw [h.first] at hother
    cases hother
  balance := h.charge.requiredBalance_le
  nonce := .inr h.charge.nonce.symm

/-- A transaction whose sender can be charged passes the rules of consensus by itself. -/
theorem Transaction.Chargeable.transactionsOk (h : tx.Chargeable (db.account tx.sender)) :
    TransactionsOk db.accounts [tx] := by
  refine ⟨fun tx' htx' account hstored => ?_, ?_⟩
  · obtain rfl := List.mem_singleton.1 (mem_paidTransactions_iff.1 htx').1
    rw [show db.account tx'.sender = account from AccountTree.account_of_getElem? hstored] at h
    exact ⟨h.requiredBalance_le, h.nonce⟩
  · exact ((List.nodup_singleton tx).filter _).map_on fun a ha b hb _ => by
      rw [List.mem_singleton.1 (List.mem_filter.1 ha).1, List.mem_singleton.1 (List.mem_filter.1 hb).1]

/-- What a wallet builds settles: where the pool and the accounts are ready for it, the pool takes
it, the rules pass a block of it, and applying it moves in the ledger exactly what it says. -/
theorem built_settles (calls : List Mempool.Call) (hwf : db.WellFormed)
    (hsigns : ∀ message, D.detachedSign wallet.signingKeypair.secretKey message ≠ .ok [])
    (hw : wallet.verifyAddressIntegrity H = true)
    (hbuild : request.build H D clock wallet amount fee accountNonce chainStateHash = .ok tx)
    (hready : (Mempool.reached calls).ReadyFor db tx) :
    tx.sender = wallet.address ∧
    (Mempool.reached calls).addTransaction tx db = (.ok (), (Mempool.reached calls).insert tx) ∧
    (checkTransactions [tx]).run db = (.ok (), db) ∧
    ∃ db', (applyTransaction tx).run db = (.ok (), db') ∧ db'.ledger = db.ledger + tx.change := by
  obtain ⟨hstructured, hsender⟩ := structured_of_build hsigns hw hbuild
  have happlicable : db.Applicable tx := applicable_of_not_overflows hready.settles hready.charge
  refine ⟨hsender, ?_, ?_, db.applied tx, ?_, KyveraDb.ledger_applied hwf happlicable⟩
  · exact Mempool.addTransaction_of_admissible (hready.admissible hstructured) hready.room
  · exact (guards_checkTransactions _ _ ()).2 ⟨hready.charge.transactionsOk, rfl⟩
  · exact run_applyTransaction_eq_ok_iff.2 ⟨happlicable, rfl⟩

/-- With the constant hash function, the wallet with the key `7` sends 40, with a fee of 10, out of a
balance of 100. -/
theorem built_settles_transfer :
    let wallet : KyveraWallet :=
      { keySevenWallet with address := keySevenWallet.signingKeypair.address Sha3.zero }
    let db := KyveraDb.withAccounts [{ Account.new wallet.address with balance := 100 }]
    let D : Dilithium3 := ⟨fun _ _ => .ok [7], fun _ _ _ => true⟩
    ∃ tx, buildTransfer Sha3.zero D (fun _ => 1000) wallet keyNineAddress 40 10 0 "root" = .ok tx ∧
      tx.sender = wallet.address ∧
      (Mempool.reached []).addTransaction tx db = (.ok (), (Mempool.reached []).insert tx) ∧
      (checkTransactions [tx]).run db = (.ok (), db) ∧
      ∃ db', (applyTransaction tx).run db = (.ok (), db') ∧ db'.ledger = db.ledger + tx.change := by
  intro wallet db D
  let tx : Transaction := { stillTransfer with sender := wallet.address, signature := "07" }
  have hbuild : BuildRequest.build (.transfer keyNineAddress) Sha3.zero D (fun _ => 1000)
      wallet 40 10 0 "root" = .ok tx := by
    decide +kernel
  have hok : ((applyTransaction tx).run db).1 = .ok () := by decide +kernel
  have happlicable := (run_applyTransaction_eq_ok_iff.1 (run_eq_of_outcome hok)).1
  have hready : (Mempool.reached []).ReadyFor db tx :=
    { room := by decide +kernel
      fresh := by decide +kernel
      first := by decide +kernel
      charge := happlicable.charge
      settles := fun hover => hover.2.elim (fun h => h happlicable.deliver) fun h => h happlicable.tithe }
  refine ⟨tx, hbuild, built_settles [] ?_ (fun _ h => ?_) (by decide +kernel) hbuild hready⟩
  · exact KyveraDb.wellFormed_withAccounts _
  · cases h

end Kyvera
