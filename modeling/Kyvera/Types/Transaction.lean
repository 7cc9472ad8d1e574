import Mathlib

/-!
# Transactions
-/

namespace Kyvera

/-- The kinds of transactions. -/
inductive TransactionType where
  | transfer
  | stakeLock
  | stakeUnlock
  | contractDeploy
  | contractCall
  deriving DecidableEq, Repr

/-- A transaction.  `hash` and `signature` are empty until the wallet signs it. -/
structure Transaction where
  hash : String
  sender : String
  receiver : String
  amount : UInt64
  fee : UInt64
  nonce : UInt64
  signature : String
  timestamp : ℤ
  transactionType : TransactionType
  data : List UInt8
  deriving DecidableEq, Repr

/-- An unsigned transaction; `now` is the reading of the clock. -/
def Transaction.new (now : ℤ) (sender receiver : String) (amount fee nonce : UInt64)
    (transactionType : TransactionType) (data : List UInt8) : Transaction where
  hash := ""
  sender := sender
  receiver := receiver
  amount := amount
  fee := fee
  nonce := nonce
  signature := ""
  timestamp := now
  transactionType := transactionType
  data := data

/-- The sender and the nonce of a transaction, its key among the pending nonces. -/
def Transaction.senderKey (tx : Transaction) : String × UInt64 := (tx.sender, tx.nonce)

end Kyvera
