import Kyvera.Storage.Db
import Kyvera.Types.Json
import Kyvera.Library.Journal

/-!
# The transaction store

Transactions are stored by their hash.  A second index, in the same tree, maps the sender and the
nonce of a transaction to its hash, so that the history of a sender is one scan over the keys that
start with its address.
-/

namespace Kyvera

open Effect Effect.Prog Std

/-- Key prefix of the sender index. -/
def SENDER_PREFIX : String := "sender:"

/-- The key of a transaction in the sender index, with the nonce padded to 20 digits. -/
def senderIndexKey (sender : String) (nonce : UInt64) : String :=
  SENDER_PREFIX ++ sender ++ ":" ++ pad20 nonce

/-- The bytes stored for an entry, as a text. -/
def TxEntry.text : TxEntry → String
  | .transaction tx => transactionJson tx
  | .hash h => h

/-- Write an entry of the transaction tree. -/
def KyveraDb.setTransaction (key : String) (value : TxEntry) : DbM Unit :=
  Prog.set (fun db => { db with transactions := db.transactions.insert key value }) "Write failed"

/-- Save a transaction by its hash, and its hash in the sender index. -/
def saveTransaction (tx : Transaction) : DbM Unit :=
  if tx.hash.isEmpty then .err "Cannot save transaction with empty hash"
  else do
    KyveraDb.setTransaction tx.hash (.transaction tx)
    KyveraDb.setTransaction (senderIndexKey tx.sender tx.nonce) (.hash tx.hash)

/-- Save all transactions of a block. -/
def saveBlockTransactions (transactions : List Transaction) : DbM Unit :=
  transactions.forM saveTransaction

/-- Load a transaction by its hash; `parse` reads a text that was not written for a transaction. -/
def getTransaction (parse : String → Except String Transaction) (hash : String) :
    DbM (Option Transaction) := do
  let db ← Prog.get
  match db.transactions[hash]? with
  | none => return none
  | some (.transaction tx) => return some tx
  | some (.hash h) =>
      match parse h with
      | .ok tx => return some tx
      | .error e => .err s!"Failed to deserialize transaction: {e}"

/-- All transaction hashes under the address of a sender, in the order of their keys. -/
def getTransactionsBySender (address : String) : DbM (List String) := do
  let db ← Prog.get
  return (scanPrefix db.transactions (SENDER_PREFIX ++ address)).map fun e => e.2.text

/-- The transactions of the last `limit` hashes under the address of a sender, newest first. -/
def getRecentTransactionsBySender (parse : String → Except String Transaction) (address : String)
    (limit : ℕ) : DbM (List Transaction) := do
  let hashes ← getTransactionsBySender address
  let found ← (hashes.reverse.take limit).mapM (getTransaction parse)
  return found.filterMap id

/-! ## Keys -/

theorem toList_senderIndexKey (sender : String) (nonce : UInt64) :
    (senderIndexKey sender nonce).toList =
      SENDER_PREFIX.toList ++ (sender.toList ++ ':' :: (pad20 nonce).toList) := by
  rw [senderIndexKey, String.toList_append, String.toList_append, String.toList_append]
  simp only [List.append_assoc]
  rfl

theorem senderIndexKey_inj {sender sender' : String} {nonce nonce' : UInt64}
    (h : senderIndexKey sender nonce = senderIndexKey sender' nonce') :
    sender = sender' ∧ nonce = nonce' := by
  have e := congrArg String.toList h
  rw [toList_senderIndexKey, toList_senderIndexKey] at e
  obtain ⟨hsender, hnonce⟩ := List.append_inj' (List.append_cancel_left e) (by
    rw [List.length_cons, List.length_cons, length_pad20, length_pad20])
  have hpad := String.toList_inj.1 (List.cons.inj hnonce).2
  exact ⟨String.toList_inj.1 hsender, pad20_injective hpad⟩

theorem compare_senderIndexKey (sender : String) {nonce nonce' : UInt64} (h : nonce < nonce') :
    compare (senderIndexKey sender nonce) (senderIndexKey sender nonce') = .lt := by
  refine compareOfLessAndEq_eq_lt.2 (String.lt_iff.2 ?_)
  rw [toList_senderIndexKey, toList_senderIndexKey]
  apply List.append_left_lt
  apply List.append_left_lt
  refine List.cons_lt_cons_iff.2 (.inr ⟨rfl, ?_⟩)
  rw [pad20, pad20, String.toList_ofList, String.toList_ofList]
  exact Text.padded_lt (by decide) (UInt64.lt_iff_toNat_lt.1 h)
    ((U64.toNat_lt_size nonce').trans (by decide))

/-- A scan under an address finds the keys that go on with it behind the prefix. -/
theorem isPrefixOf_senderIndexKey_iff {address sender : String} {nonce : UInt64} :
    (SENDER_PREFIX ++ address).toList.isPrefixOf (senderIndexKey sender nonce).toList = true ↔
      address.toList <+: sender.toList ++ ':' :: (pad20 nonce).toList := by
  rw [List.isPrefixOf_iff_prefix, String.toList_append, toList_senderIndexKey,
    List.prefix_append_right_inj]

/-- The hash does not start like a key of the sender index. -/
def Transaction.OffIndex (tx : Transaction) : Prop :=
  SENDER_PREFIX.toList.isPrefixOf tx.hash.toList = false

/-- A hash of 64 hex digits. -/
def Transaction.HexHash (tx : Transaction) : Prop :=
  tx.hash.toList.length = 64 ∧ ∀ c ∈ tx.hash.toList, c ∈ "0123456789abcdefABCDEF".toList

section Hashes

variable {tx : Transaction}

theorem Transaction.OffIndex.not_isPrefixOf (h : tx.OffIndex) (rest : String) :
    (SENDER_PREFIX ++ rest).toList.isPrefixOf tx.hash.toList = false := by
  rw [Bool.eq_false_iff]
  intro hstart
  have hprefix : SENDER_PREFIX.toList.isPrefixOf tx.hash.toList = true := by
    rw [List.isPrefixOf_iff_prefix, String.toList_append] at hstart
    exact List.isPrefixOf_iff_prefix.2 ((List.prefix_append _ _).trans hstart)
  exact absurd hprefix (by rw [h]; exact Bool.false_ne_true)

theorem Transaction.OffIndex.ne_senderIndexKey (h : tx.OffIndex) (sender : String)
    (nonce : UInt64) : tx.hash ≠ senderIndexKey sender nonce := by
  intro e
  have hstart : (SENDER_PREFIX ++ sender).toList.isPrefixOf tx.hash.toList = true := by
    rw [e, isPrefixOf_senderIndexKey_iff]
    exact List.prefix_append _ _
  rw [h.not_isPrefixOf] at hstart
  cases hstart

theorem Transaction.hexHash_replicate {c : Char}
    (htext : tx.hash = String.ofList (List.replicate 64 c))
    (hc : c ∈ "0123456789abcdefABCDEF".toList) : tx.HexHash := by
  rw [Transaction.HexHash, htext, String.toList_ofList]
  refine ⟨List.length_replicate, fun d hd => ?_⟩
  rwa [List.eq_of_mem_replicate hd]

theorem Transaction.HexHash.isEmpty_eq_false (h : tx.HexHash) : tx.hash.isEmpty = false := by
  rw [Bool.eq_false_iff]
  intro hempty
  have hlength := h.1
  rw [String.isEmpty_iff.1 hempty] at hlength
  cases hlength

theorem Transaction.HexHash.offIndex (h : tx.HexHash) : tx.OffIndex := by
  rw [Transaction.OffIndex, Bool.eq_false_iff]
  intro hstart
  have hprefix := List.isPrefixOf_iff_prefix.1 hstart
  have hmem : 's' ∈ tx.hash.toList := hprefix.subset (by decide)
  exact absurd (h.2 _ hmem) (by decide)

end Hashes

end Kyvera
