import Kyvera.Wallet.TransactionBuilder

/-!
# What a transaction hash commits to

The hash of a transaction is taken over its two addresses, its three numbers and its signature, in a
row.  The addresses have a fixed length and can be told apart.  The numbers have no fixed length and
run into each other and into the signature, and the type and the data are not hashed at all.
-/

namespace Kyvera

namespace Transaction

/-- The text that the hash of a transaction is taken over. -/
def hashedText (tx : Transaction) : String :=
  tx.sender ++ tx.receiver ++ toString tx.amount ++ toString tx.fee ++ toString tx.nonce ++
    tx.signature

theorem computeTransactionHash_eq (H : Sha3) (tx : Transaction) :
    computeTransactionHash H tx = H.sha3256Hex tx.hashedText.toUTF8 := rfl

/-- The texts behind the addresses. -/
def tail (tx : Transaction) : List (List Char) :=
  [Text.digits tx.amount.toNat, Text.digits tx.fee.toNat, Text.digits tx.nonce.toNat,
    tx.signature.toList]

/-- How long the texts behind the addresses are. -/
def cuts (tx : Transaction) : List ℕ := tx.tail.map List.length

/-- Two transactions with the same contents, whatever their hashes and timestamps. -/
structure Agree (t t' : Transaction) : Prop where
  sender : t.sender = t'.sender
  receiver : t.receiver = t'.receiver
  amount : t.amount = t'.amount
  fee : t.fee = t'.fee
  nonce : t.nonce = t'.nonce
  signature : t.signature = t'.signature
  transactionType : t.transactionType = t'.transactionType
  data : t.data = t'.data

/-- Two transactions between the same addresses whose numbers and signature are one text: it is cut
at different places, or the type or the data is another one. -/
structure Confusable (t t' : Transaction) : Prop where
  sender : t.sender = t'.sender
  receiver : t.receiver = t'.receiver
  tail : t.tail.flatten = t'.tail.flatten
  differs : t.cuts ≠ t'.cuts ∨ t.transactionType ≠ t'.transactionType ∨ t.data ≠ t'.data

/-- Both addresses have 68 characters. -/
structure Addressed (tx : Transaction) : Prop where
  sender : tx.sender.toList.length = 68
  receiver : tx.receiver.toList.length = 68

variable {t t' : Transaction}

theorem toList_hashedText (tx : Transaction) :
    tx.hashedText.toList = tx.sender.toList ++ (tx.receiver.toList ++ tx.tail.flatten) := by
  unfold hashedText tail
  simp only [String.toList_append, Text.toList_toString_uint64, List.flatten_cons,
    List.flatten_nil, List.append_nil, List.append_assoc]

/-- Addresses of a fixed length are read off the hashed text. -/
theorem Addressed.hashedText_eq_iff (h : t.Addressed) (h' : t'.Addressed) :
    t.hashedText.toUTF8 = t'.hashedText.toUTF8 ↔
      t.sender = t'.sender ∧ t.receiver = t'.receiver ∧ t.tail.flatten = t'.tail.flatten := by
  constructor
  · intro e
    have etext := congrArg String.toList (String.toByteArray_inj.1 e)
    rw [toList_hashedText, toList_hashedText] at etext
    obtain ⟨hsender, erest⟩ := List.append_inj etext (h.sender.trans h'.sender.symm)
    obtain ⟨hreceiver, htail⟩ := List.append_inj erest (h.receiver.trans h'.receiver.symm)
    exact ⟨String.toList_inj.1 hsender, String.toList_inj.1 hreceiver, htail⟩
  · rintro ⟨hsender, hreceiver, htail⟩
    have etext : t.hashedText = t'.hashedText := by
      apply String.toList_inj.1
      rw [toList_hashedText, toList_hashedText, hsender, hreceiver, htail]
    rw [etext]

theorem tail_injective (e : t.tail = t'.tail) :
    t.amount = t'.amount ∧ t.fee = t'.fee ∧ t.nonce = t'.nonce ∧ t.signature = t'.signature := by
  unfold tail at e
  simp only [List.cons.injEq, and_true] at e
  obtain ⟨hamount, hfee, hnonce, hsignature⟩ := e
  exact ⟨Text.digits_uint64_injective hamount, Text.digits_uint64_injective hfee,
    Text.digits_uint64_injective hnonce, String.toList_inj.1 hsignature⟩

theorem Agree.tail_eq (h : Agree t t') : t.tail = t'.tail := by
  unfold tail
  rw [h.amount, h.fee, h.nonce, h.signature]

/-- The transaction identifier binds the transaction exactly when the two transactions cannot be
confused. -/
theorem hashedText_binds_iff (h : t.Addressed) (h' : t'.Addressed) :
    (t.hashedText.toUTF8 = t'.hashedText.toUTF8 → Agree t t') ↔ ¬ Confusable t t' := by
  rw [h.hashedText_eq_iff h']
  constructor
  · rintro hbinds ⟨hsender, hreceiver, htail, hdiffers⟩
    have hagree := hbinds ⟨hsender, hreceiver, htail⟩
    rcases hdiffers with hcuts | htype | hdata
    · exact hcuts (congrArg (List.map List.length) hagree.tail_eq)
    · exact htype hagree.transactionType
    · exact hdata hagree.data
  · rintro hclear ⟨hsender, hreceiver, htail⟩
    have hsame : ¬ (t.cuts ≠ t'.cuts ∨ t.transactionType ≠ t'.transactionType ∨ t.data ≠ t'.data) :=
      fun hdiffers => hclear ⟨hsender, hreceiver, htail, hdiffers⟩
    simp only [ne_eq, not_or, not_not] at hsame
    obtain ⟨hcuts, htype, hdata⟩ := hsame
    obtain ⟨hamount, hfee, hnonce, hsignature⟩ :=
      tail_injective (List.eq_iff_flatten_eq.2 ⟨htail, hcuts⟩)
    exact ⟨hsender, hreceiver, hamount, hfee, hnonce, hsignature, htype, hdata⟩

/-- A signed transaction between two well-formed addresses. -/
def signed (amount fee : UInt64) (transactionType : TransactionType) : Transaction where
  hash := ""
  sender := String.ofList ("kyv1".toList ++ List.replicate 64 'a')
  receiver := String.ofList ("kyv1".toList ++ List.replicate 64 'b')
  amount := amount
  fee := fee
  nonce := 0
  signature := "c0ffee"
  timestamp := 1700000000000
  transactionType := transactionType
  data := []

/-- Two amounts of one length are told apart. -/
theorem hashedText_binds_same_length :
    ¬ Confusable (signed 12 3 .transfer) (signed 21 3 .transfer) ∧
      ((signed 12 3 .transfer).hashedText.toUTF8 = (signed 21 3 .transfer).hashedText.toUTF8 →
        Agree (signed 12 3 .transfer) (signed 21 3 .transfer)) := by
  have hclear : ¬ Confusable (signed 12 3 .transfer) (signed 21 3 .transfer) :=
    fun hconfusable => absurd hconfusable.tail (by decide +kernel)
  exact ⟨hclear, (hashedText_binds_iff ⟨by decide +kernel, by decide +kernel⟩
    ⟨by decide +kernel, by decide +kernel⟩).2 hclear⟩

/-- A transfer of 12 with a fee of 3 is hashed like a stake lock of 1 with a fee of 23. -/
theorem hashedText_not_binding :
    let t := signed 12 3 .transfer
    let t' := signed 1 23 .stakeLock
    (validateAddress t.sender ∧ validateAddress t.receiver ∧ t.Addressed ∧
      t.signature.toList.all fun c => (Hex.value c).isSome) ∧
      (validateAddress t'.sender ∧ validateAddress t'.receiver ∧ t'.Addressed ∧
        t'.signature.toList.all fun c => (Hex.value c).isSome) ∧
      t.hashedText.toUTF8 = t'.hashedText.toUTF8 ∧ t.amount ≠ t'.amount ∧ t.fee ≠ t'.fee ∧
      t.transactionType ≠ t'.transactionType := by
  intro t t'
  have h : t.Addressed := ⟨by decide +kernel, by decide +kernel⟩
  have h' : t'.Addressed := ⟨by decide +kernel, by decide +kernel⟩
  refine ⟨⟨by decide +kernel, by decide +kernel, h, by decide +kernel⟩,
    ⟨by decide +kernel, by decide +kernel, h', by decide +kernel⟩,
    (h.hashedText_eq_iff h').2 ⟨rfl, rfl, by decide +kernel⟩, by decide, by decide, by decide⟩

end Transaction

end Kyvera
