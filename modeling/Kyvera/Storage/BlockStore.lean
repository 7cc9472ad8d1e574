import Kyvera.Storage.Db
import Kyvera.Library.Refusals

/-!
# The block store

Blocks are stored by their hash, with a second index from heights to hashes.  The chain tip is
kept in the metadata, so that a node resumes from where it left off.
-/

namespace Kyvera

open Effect Std

/-- Key of the chain tip in the metadata. -/
def CHAIN_TIP_KEY : String := "chain_tip"

/-- Write a block to both indexes, the one by hash first. -/
def saveBlock (block : Block) : DbM Unit := do
  Prog.set (fun db => { db with blocksByHash := db.blocksByHash.insert block.hash block })
    "Write failed"
  Prog.set
    (fun db => { db with blocksByHeight := db.blocksByHeight.insert block.header.index block.hash })
    "Write failed"

/-- Load a block by its hash. -/
def getBlockByHash (hash : String) : DbM (Option Block) := do
  let db ← Prog.get
  return db.blocksByHash[hash]?

/-- Load a block by its height: its hash first, and then the block by its hash. -/
def getBlockByHeight (height : UInt64) : DbM (Option Block) := do
  let db ← Prog.get
  match db.blocksByHeight[height]? with
  | none => return none
  | some hash => getBlockByHash hash

/-- Save the current chain tip. -/
def saveChainTip (tip : ChainTip) : DbM Unit := KyveraDb.setMetadata CHAIN_TIP_KEY (.tip tip)

/-- Load the chain tip; a fresh node has none. -/
def loadChainTip : DbM (Option ChainTip) := do
  match ← KyveraDb.getMetadata CHAIN_TIP_KEY with
  | none => return none
  | some (.tip tip) => return some tip
  | some _ => .err "Failed to deserialize chain tip"

@[simp] theorem run_getBlockByHash (hash : String) (db : KyveraDb) :
    (getBlockByHash hash).run db = (.ok db.blocksByHash[hash]?, db) := rfl

@[simp] theorem run_getBlockByHeight (height : UInt64) (db : KyveraDb) :
    (getBlockByHeight height).run db =
      (.ok (db.blocksByHeight[height]?.bind fun hash => db.blocksByHash[hash]?), db) := by
  unfold getBlockByHeight
  rw [Prog.run_get_bind]
  cases db.blocksByHeight[height]? <;> rfl

theorem readOnly_loadChainTip (db : KyveraDb) : loadChainTip.ReadOnly db := by
  apply Prog.ReadOnly.everyWrite_bind (p := KyveraDb.getMetadata CHAIN_TIP_KEY) trivial
  intro found _
  rcases found with _ | (_ | _ | _ | _) <;> trivial

theorem run_loadChainTip_of_tip {db : KyveraDb} {tip : ChainTip}
    (h : db.metadata[CHAIN_TIP_KEY]? = some (.tip tip)) :
    loadChainTip.run db = (.ok (some tip), db) := by
  rw [loadChainTip, Prog.run_bind_of_ok (KyveraDb.run_getMetadata CHAIN_TIP_KEY db), h]
  rfl

end Kyvera
