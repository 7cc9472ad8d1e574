import Kyvera.Types.Account
import Kyvera.Types.Transaction
import Kyvera.Types.Block
import Kyvera.Chain.BlockProducer
import Kyvera.Library.Prog
import Kyvera.Library.Text
import Kyvera.Library.TreeSum

/-!
# The database

The node keeps one ordered tree for each kind of data.  A tree maps keys, in byte order, to the
values that were serialized under them; reading a value back returns the value written.  The
metadata tree holds several kinds of values, told apart by the constructors of `MetaEntry`:
decoding a value as another kind than it was written is a decoding error.
-/

namespace Kyvera

open Effect Std

/-- The accounts a block is about to modify, with their state before it. -/
structure StateSnapshot where
  blockHeight : UInt64
  stateRoot : String
  modifiedAccounts : List (String × Option Account)
  deriving DecidableEq, Repr

/-- A withdrawal of stake that waits for its unlock epoch. -/
structure PendingUnstake where
  address : String
  amount : UInt64
  requestEpoch : UInt64
  unlockEpoch : UInt64
  deriving DecidableEq, Repr

/-- A value of the metadata tree. -/
inductive MetaEntry where
  | text (s : String)
  | tip (t : ChainTip)
  | snapshot (s : StateSnapshot)
  | pendingUnstake (p : PendingUnstake)
  deriving DecidableEq, Repr

/-- A value of the transaction tree: a transaction, or the hash stored for its sender. -/
inductive TxEntry where
  | transaction (tx : Transaction)
  | hash (h : String)
  deriving DecidableEq, Repr

/-- The account state: one account under each address. -/
abbrev AccountTree := ExtTreeMap String Account

/-- The database handle. -/
structure KyveraDb where
  blocksByHash : ExtTreeMap String Block
  blocksByHeight : ExtTreeMap UInt64 String
  accounts : AccountTree
  transactions : ExtTreeMap String TxEntry
  metadata : ExtTreeMap String MetaEntry

/-- Programs over the database; errors are texts. -/
abbrev DbM := Prog KyveraDb String

namespace KyveraDb

/-- A fresh database. -/
def empty : KyveraDb where
  blocksByHash := ∅
  blocksByHeight := ∅
  accounts := ∅
  transactions := ∅
  metadata := ∅

/-- Store a metadata value by string key. -/
def setMetadata (key : String) (value : MetaEntry) : DbM Unit :=
  Prog.set (fun db => { db with metadata := db.metadata.insert key value }) "Write failed"

/-- Read a metadata value by string key. -/
def getMetadata (key : String) : DbM (Option MetaEntry) := do
  let db ← Prog.get
  return db.metadata[key]?

@[simp] theorem run_setMetadata (key : String) (value : MetaEntry) (db : KyveraDb) :
    (setMetadata key value).run db =
      (.ok (), { db with metadata := db.metadata.insert key value }) := rfl

@[simp] theorem run_getMetadata (key : String) (db : KyveraDb) :
    (getMetadata key).run db = (.ok db.metadata[key]?, db) := rfl

end KyveraDb

/-- The entries of a tree whose key starts with `pre`, in key order. -/
def scanPrefix {β : Type} (t : ExtTreeMap String β) (pre : String) : List (String × β) :=
  t.toList.filter fun e => pre.toList.isPrefixOf e.1.toList

/-- A number in decimal, padded with zeros on the left to 20 digits. -/
def pad20 (n : UInt64) : String := String.ofList (Text.padded 20 n.toNat)

theorem length_pad20 (n : UInt64) : (pad20 n).toList.length = 20 := by
  rw [pad20, String.toList_ofList]
  exact Text.length_padded (by decide) ((U64.toNat_lt_size n).trans (by decide))

theorem pad20_injective {n m : UInt64} (h : pad20 n = pad20 m) : n = m := by
  have e := congrArg String.toList h
  rw [pad20, pad20, String.toList_ofList, String.toList_ofList] at e
  exact UInt64.toNat_inj.1 (Text.padded_injective e)

end Kyvera
