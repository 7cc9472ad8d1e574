import Kyvera.Mempool.Pool
import Kyvera.Library.Errors

/-!
# The texts of rejections

A rejection names the hashes and addresses that it is about by their first bytes.  It takes them
from the block, the transaction or the tip as they are, so a hash or an address that is too short,
or that has a character across the cut, is a panic where the rejection is shown.  Which of them can
be cut in time depends on what has been checked before.
-/

namespace Kyvera

open Effect Effect.Prog Text

/-! ## Texts -/

/-- Every hash and every address in the violation can be cut. -/
def RuleViolation.Cuttable : RuleViolation → Prop
  | .invalidPreviousHash expected got => CutsAt 8 expected ∧ CutsAt 8 got
  | .insufficientProofOfWork _ hash => CutsAt 16 hash
  | .duplicateTransaction hash => CutsAt 16 hash
  | .insufficientBalance address _ _ => CutsAt 12 address
  | _ => True

/-- Every hash in the error can be cut. -/
def BlockError.Cuttable : BlockError → Prop
  | .invalidPreviousHash expected got => CutsAt 8 expected ∧ CutsAt 8 got
  | _ => True

/-- The address in the error can be cut. -/
def MempoolError.Cuttable : MempoolError → Prop
  | .duplicateNonce address _ => CutsAt 12 address
  | .insufficientBalance address _ _ => CutsAt 12 address
  | _ => True

section Texts

variable {α β γ : Type}

theorem isSome_bind_pure_iff {o : Option α} {f : α → γ} :
    (do let a ← o; return f a).isSome ↔ o.isSome := by
  cases o <;> simp

theorem isSome_bind_bind_pure_iff {o : Option α} {o' : Option β} {f : α → β → γ} :
    (do let a ← o; let b ← o'; return f a b).isSome ↔ o.isSome ∧ o'.isSome := by
  cases o <;> cases o' <;> simp

/-- A violation is shown exactly if its hashes and addresses can be cut. -/
theorem RuleViolation.isSome_display_iff (v : RuleViolation) : v.display.isSome ↔ v.Cuttable := by
  cases v with
  | invalidPreviousHash expected got =>
      exact isSome_bind_bind_pure_iff.trans (and_congr isSome_cut_iff isSome_cut_iff)
  | insufficientProofOfWork required hash => exact isSome_bind_pure_iff.trans isSome_cut_iff
  | duplicateTransaction hash => exact isSome_bind_pure_iff.trans isSome_cut_iff
  | insufficientBalance address required available =>
      exact isSome_bind_pure_iff.trans isSome_cut_iff
  | _ => exact iff_of_true rfl trivial

theorem BlockError.isSome_display_iff (e : BlockError) : e.display.isSome ↔ e.Cuttable := by
  cases e with
  | invalidPreviousHash expected got =>
      exact isSome_bind_bind_pure_iff.trans (and_congr isSome_takeBytes_iff isSome_takeBytes_iff)
  | _ => exact iff_of_true rfl trivial

theorem MempoolError.isSome_display_iff (e : MempoolError) : e.display.isSome ↔ e.Cuttable := by
  cases e with
  | duplicateNonce address nonce => exact isSome_bind_pure_iff.trans isSome_cut_iff
  | insufficientBalance address required available =>
      exact isSome_bind_pure_iff.trans isSome_cut_iff
  | _ => exact iff_of_true rfl trivial

end Texts

/-! ## The rules -/

section Rules

variable {H : Sha3} {nowMs : ℤ} {block : Block} {txs : List Transaction} {tip : ChainTip}
  {db : KyveraDb}

theorem errsIn_checkHeight : ErrsIn RuleViolation.Cuttable (checkHeight block tip) db :=
  errsIn_orPanic_bind_iff.2 fun _ _ => errsIn_reject trivial

theorem errsIn_checkPreviousHash_iff :
    ErrsIn RuleViolation.Cuttable (checkPreviousHash block tip) db ↔
      (block.header.previousHash ≠ tip.hash →
        CutsAt 8 tip.hash ∧ CutsAt 8 block.header.previousHash) :=
  errsIn_reject_iff

theorem cutsAt_zeroHash : CutsAt 8 zeroHash := by
  have hzeros : zeroHash.toList = List.replicate 64 '0' := String.toList_ofList
  apply cutsAt_of_forall
  · intro c hc
    rw [hzeros] at hc
    rw [List.eq_of_mem_replicate hc]
    decide
  · rw [hzeros, List.length_replicate]
    decide

theorem errsIn_checkPreviousHashGenesis_iff :
    ErrsIn RuleViolation.Cuttable (checkPreviousHashGenesis block) db ↔
      (block.header.previousHash ≠ zeroHash → CutsAt 8 block.header.previousHash) :=
  errsIn_reject_iff.trans (imp_congr_right fun _ => and_iff_right cutsAt_zeroHash)

theorem errsIn_checkBlockSize : ErrsIn RuleViolation.Cuttable (checkBlockSize block txs) db := by
  unfold checkBlockSize
  split_ifs
  exacts [errsIn_err_iff.2 trivial, errsIn_done (), errsIn_err_iff.2 trivial, errsIn_done ()]

theorem errsIn_checkTimestamp :
    ErrsIn RuleViolation.Cuttable (checkTimestamp nowMs block tip) db := by
  unfold checkTimestamp
  refine errsIn_ite_err trivial ?_
  refine errsIn_ite_err trivial ?_
  by_cases hpos : tip.timestamp > 0
  · rw [if_pos hpos]
    exact errsIn_reject trivial
  · rw [if_neg hpos]
    exact errsIn_done ()

theorem errsIn_checkProofOfWork_iff :
    ErrsIn RuleViolation.Cuttable (checkProofOfWork block) db ↔
      (meetsDifficulty block.hash block.header.difficulty = false → CutsAt 16 block.hash) := by
  refine errsIn_reject_iff.trans ?_
  rw [Bool.not_eq_true']
  rfl

theorem errsIn_checkBlockHash : ErrsIn RuleViolation.Cuttable (checkBlockHash H block) db :=
  errsIn_reject trivial

theorem errsIn_checkMerkleRoot : ErrsIn RuleViolation.Cuttable (checkMerkleRoot H block txs) db :=
  errsIn_reject trivial

theorem errsIn_checkNoCoinbase : ErrsIn RuleViolation.Cuttable (checkNoCoinbase txs) db := by
  induction txs with
  | nil => exact errsIn_done ()
  | cons tx rest ih => exact errsIn_ite_err trivial ih

theorem errsIn_checkCoinbase : ErrsIn RuleViolation.Cuttable (checkCoinbase H block txs) db := by
  unfold checkCoinbase
  rcases txs with _ | ⟨tx, rest⟩
  · exact errsIn_err_iff.2 trivial
  · refine errsIn_ite_err trivial ?_
    exact errsIn_reject trivial

theorem errsIn_checkEpochSpecific :
    ErrsIn RuleViolation.Cuttable (checkEpochSpecific H block txs tip) db := by
  unfold checkEpochSpecific
  split_ifs
  · refine guards_checkEpochIndex.errsIn_bind_iff.2 ⟨?_, fun _ => ?_⟩
    · exact errsIn_orPanic_bind_iff.2 fun _ _ => errsIn_reject trivial
    · refine guards_checkBlockReward.errsIn_bind_iff.2 ⟨?_, fun _ => errsIn_checkCoinbase⟩
      exact errsIn_reject trivial
  · exact errsIn_checkNoCoinbase

theorem errsIn_checkSender_iff {tx : Transaction} :
    ErrsIn RuleViolation.Cuttable (checkSender tx) db ↔
      ∀ account, db.accounts[tx.sender]? = some account → account.balance < requiredBalance tx →
        CutsAt 12 tx.sender := by
  have hload : ((getAccount tx.sender).mapErr fun _ =>
      RuleViolation.insufficientBalance tx.sender 0 0).run db =
        (.ok db.accounts[tx.sender]?, db) := rfl
  unfold ErrsIn checkSender
  rw [run_bind_of_ok hload]
  rcases db.accounts[tx.sender]? with _ | account
  · exact iff_of_true (errsIn_done ()) fun account h => by cases h
  · refine Iff.trans (b := account.balance < requiredBalance tx → CutsAt 12 tx.sender) ?_ ?_
    · refine errsIn_ite_err_iff.trans ?_
      exact and_iff_left fun _ => errsIn_reject trivial
    · simp

/-! ### The loop over the transactions -/

/-- The hashes of the transactions that are not from the coinbase sentinel. -/
def paidHashes (txs : List Transaction) : Finset String :=
  ((paidTransactions txs).map Transaction.hash).toFinset

/-- The hash of a transaction can be cut if it is among those seen, and otherwise its sender can be
cut if the account cannot pay. -/
def TransactionCuttable (t : AccountTree) (seen : Finset String) (tx : Transaction) : Prop :=
  (tx.hash ∈ seen → CutsAt 16 tx.hash) ∧
  (tx.hash ∉ seen → ∀ account, t[tx.sender]? = some account →
    account.balance < requiredBalance tx → CutsAt 12 tx.sender)

theorem paidHashes_cons_of_coinbase {tx : Transaction} (h : tx.sender = COINBASE_SENDER) :
    paidHashes (tx :: txs) = paidHashes txs := by
  rw [paidHashes, paidTransactions, List.filter_cons_of_neg (by simpa using h)]
  rfl

theorem paidHashes_cons {tx : Transaction} (h : tx.sender ≠ COINBASE_SENDER) :
    paidHashes (tx :: txs) = insert tx.hash (paidHashes txs) := by
  rw [paidHashes, paidTransactions, List.filter_cons_of_pos (by simpa using h), List.map_cons,
    List.toFinset_cons]
  rfl

/-- The transactions in front have passed the loop. -/
def LoopPasses (db : KyveraDb) (seen : Finset String) (front : List Transaction) : Prop :=
  (checkTransactionsLoop seen front).run db = (.ok (), db)

theorem loopPasses_cons_of_coinbase_iff {seen : Finset String} {tx : Transaction}
    (h : tx.sender = COINBASE_SENDER) :
    LoopPasses db seen (tx :: txs) ↔ LoopPasses db seen txs := by
  rw [LoopPasses, checkTransactionsLoop, if_pos h]
  rfl

theorem loopPasses_cons_iff {seen : Finset String} {tx : Transaction}
    (h : tx.sender ≠ COINBASE_SENDER) :
    LoopPasses db seen (tx :: txs) ↔
      tx.hash ∉ seen ∧ SenderOk db.accounts tx ∧ LoopPasses db (insert tx.hash seen) txs := by
  rw [LoopPasses, checkTransactionsLoop, if_neg h, run_ite_err_eq_ok_iff,
    guards_checkSender.run_bind_eq_ok_iff]
  rfl

/-- The loop ends with a violation that can be shown if the first transaction that it rejects can
be named, whichever it is. -/
theorem errsIn_checkTransactionsLoop_iff {seen : Finset String} :
    ErrsIn RuleViolation.Cuttable (checkTransactionsLoop seen txs) db ↔
      ∀ front tx rest, txs = front ++ tx :: rest → tx.sender ≠ COINBASE_SENDER →
        LoopPasses db seen front →
        TransactionCuttable db.accounts (seen ∪ paidHashes front) tx := by
  induction txs generalizing seen with
  | nil =>
      refine iff_of_true (errsIn_done ()) fun front tx rest h => ?_
      exact absurd h.symm (List.append_ne_nil_of_right_ne_nil _ (List.cons_ne_nil _ _))
  | cons first txs ih =>
      by_cases hs : first.sender = COINBASE_SENDER
      · rw [checkTransactionsLoop, if_pos hs, ih]
        constructor
        · intro h front tx rest hsplit hne hpass
          rcases front with _ | ⟨b, front⟩
          · cases hsplit
            exact absurd hs hne
          · cases hsplit
            rw [paidHashes_cons_of_coinbase hs]
            exact h front tx rest rfl hne ((loopPasses_cons_of_coinbase_iff hs).1 hpass)
        · rintro h front tx rest rfl hne hpass
          rw [← paidHashes_cons_of_coinbase hs]
          exact h (first :: front) tx rest rfl hne ((loopPasses_cons_of_coinbase_iff hs).2 hpass)
      · have hunion : ∀ front, insert first.hash seen ∪ paidHashes front =
            seen ∪ paidHashes (first :: front) := by
          intro front
          rw [paidHashes_cons hs, Finset.insert_union, Finset.union_insert]
        rw [checkTransactionsLoop, if_neg hs, errsIn_ite_err_iff,
          guards_checkSender.errsIn_bind_iff, errsIn_checkSender_iff, ih]
        constructor
        · rintro ⟨hrepeated, hfresh⟩ front tx rest hsplit hne hpass
          rcases front with _ | ⟨b, front⟩
          · cases hsplit
            have hnone : seen ∪ paidHashes [] = seen := Finset.union_empty seen
            rw [hnone]
            exact ⟨hrepeated, fun hnew => (hfresh hnew).1⟩
          · cases hsplit
            obtain ⟨hnew, hsender, hpass⟩ := (loopPasses_cons_iff hs).1 hpass
            rw [← hunion]
            exact (hfresh hnew).2 hsender front tx rest rfl hne hpass
        · intro h
          have hfirst := h [] first txs rfl hs rfl
          have hnone : seen ∪ paidHashes [] = seen := Finset.union_empty seen
          rw [hnone] at hfirst
          refine ⟨hfirst.1, fun hnew => ⟨hfirst.2 hnew, ?_⟩⟩
          rintro hsender front tx rest rfl hne hpass
          rw [hunion]
          exact h (first :: front) tx rest rfl hne
            ((loopPasses_cons_iff hs).2 ⟨hnew, hsender, hpass⟩)

/-- Whichever transaction of a block is the first to be rejected can be named. -/
def TransactionsCuttable (t : AccountTree) (txs : List Transaction) : Prop :=
  ∀ front tx rest, txs = front ++ tx :: rest → tx.sender ≠ COINBASE_SENDER →
    TransactionsOk t front → TransactionCuttable t (paidHashes front) tx

theorem errsIn_checkTransactions_iff :
    ErrsIn RuleViolation.Cuttable (checkTransactions txs) db ↔
      TransactionsCuttable db.accounts txs := by
  refine errsIn_checkTransactionsLoop_iff.trans ?_
  have hpasses : ∀ front, LoopPasses db ∅ front ↔ TransactionsOk db.accounts front :=
    fun front => (guards_checkTransactions db db ()).trans (and_iff_left rfl)
  simp only [hpasses, Finset.empty_union]
  rfl

/-! ### Whole blocks -/

/-- The checks in front of the proof of work pass. -/
structure Placed (nowMs : ℤ) (block : Block) (txs : List Transaction) (tip : ChainTip) : Prop where
  height : block.header.index.toNat = tip.height.toNat + 1
  previous : block.header.previousHash = tip.hash
  size : SizeOk block txs
  timestamp : TimestampOk nowMs block tip

/-- Whatever is cut to show why a block is rejected can be cut. -/
structure BlockCuttable (H : Sha3) (nowMs : ℤ) (block : Block) (txs : List Transaction)
    (tip : ChainTip) (t : AccountTree) : Prop where
  genesis : block.header.index = 0 → block.header.previousHash ≠ zeroHash →
    CutsAt 8 block.header.previousHash
  genesisWork : block.header.index = 0 → block.header.previousHash = zeroHash →
    meetsDifficulty block.hash block.header.difficulty = false → CutsAt 16 block.hash
  previous : block.header.index ≠ 0 → block.header.index.toNat = tip.height.toNat + 1 →
    block.header.previousHash ≠ tip.hash →
      CutsAt 8 tip.hash ∧ CutsAt 8 block.header.previousHash
  work : block.header.index ≠ 0 → Placed nowMs block txs tip →
    meetsDifficulty block.hash block.header.difficulty = false → CutsAt 16 block.hash
  transactions : block.header.index ≠ 0 → Placed nowMs block txs tip → Sealed H block txs →
    (block.header.isEpochBlock = true → EpochOk H block txs tip) →
    (block.header.isEpochBlock ≠ true → ∀ tx ∈ txs, tx.sender ≠ COINBASE_SENDER) →
    TransactionsCuttable t txs

theorem errsIn_validateBlockRules_iff :
    ErrsIn RuleViolation.Cuttable (validateBlockRules H nowMs block txs tip) db ↔
      BlockCuttable H nowMs block txs tip db.accounts := by
  unfold validateBlockRules
  by_cases h0 : block.header.index = 0
  · rw [if_pos h0, guards_checkPreviousHashGenesis.errsIn_bind_iff,
      guards_checkProofOfWork.errsIn_bind_iff, guards_checkBlockHash.errsIn_bind_iff,
      errsIn_checkPreviousHashGenesis_iff, errsIn_checkProofOfWork_iff]
    constructor
    · rintro ⟨hprevious, hrest⟩
      exact ⟨fun _ => hprevious, fun _ hzero => (hrest hzero).1, fun h => absurd h0 h,
        fun h => absurd h0 h, fun h => absurd h0 h⟩
    · intro h
      refine ⟨h.genesis h0, fun hzero => ⟨h.genesisWork h0 hzero, fun _ => ?_⟩⟩
      exact ⟨errsIn_checkBlockHash, fun _ => errsIn_checkMerkleRoot⟩
  · rw [if_neg h0, guards_checkHeight.errsIn_bind_iff, guards_checkPreviousHash.errsIn_bind_iff,
      guards_checkBlockSize.errsIn_bind_iff, guards_checkTimestamp.errsIn_bind_iff,
      guards_checkProofOfWork.errsIn_bind_iff, guards_checkBlockHash.errsIn_bind_iff,
      guards_checkMerkleRoot.errsIn_bind_iff, guards_checkEpochSpecific.errsIn_bind_iff,
      errsIn_checkPreviousHash_iff, errsIn_checkProofOfWork_iff, errsIn_checkTransactions_iff]
    constructor
    · rintro ⟨-, hrest⟩
      refine ⟨fun h => absurd h h0, fun h => absurd h h0, fun _ hheight => (hrest hheight).1, ?_, ?_⟩
      · intro _ hplaced
        have hsize := (hrest hplaced.height).2 hplaced.previous
        exact ((hsize.2 hplaced.size).2 hplaced.timestamp).1
      · intro _ hplaced hsealed hepoch hmicro
        have hsize := (hrest hplaced.height).2 hplaced.previous
        have hwork := ((hsize.2 hplaced.size).2 hplaced.timestamp).2 hsealed.work
        exact ((hwork.2 hsealed.hash).2 hsealed.merkle).2 ⟨hepoch, hmicro⟩
    · intro h
      refine ⟨errsIn_checkHeight, fun hheight => ⟨h.previous h0 hheight, fun hprevious => ?_⟩⟩
      refine ⟨errsIn_checkBlockSize, fun hsize => ⟨errsIn_checkTimestamp, fun htime => ?_⟩⟩
      have hplaced : Placed nowMs block txs tip := ⟨hheight, hprevious, hsize, htime⟩
      refine ⟨h.work h0 hplaced, fun hwork => ⟨errsIn_checkBlockHash, fun hhash => ?_⟩⟩
      refine ⟨errsIn_checkMerkleRoot, fun hmerkle => ⟨errsIn_checkEpochSpecific, ?_⟩⟩
      rintro ⟨hepoch, hmicro⟩
      exact h.transactions h0 hplaced ⟨hwork, hhash, hmerkle⟩ hepoch hmicro

theorem errsIn_validateBlock_iff {σ : Type} {s : σ} :
    ErrsIn BlockError.Cuttable (validateBlock H nowMs block tip txs) s ↔
      (block.header.index.toNat = tip.height.toNat + 1 → block.header.previousHash ≠ tip.hash →
        CutsAt 8 tip.hash ∧ CutsAt 8 block.header.previousHash) := by
  have hindex : ∀ expected, U64.checkedAdd tip.height 1 = some expected ↔
      expected.toNat = tip.height.toNat + 1 := fun _ => U64.checkedAdd_eq_some_iff
  unfold validateBlock
  rw [errsIn_orPanic_bind_iff]
  constructor
  · intro h hheight hne
    have hrest := (errsIn_ite_err_iff.1 (h _ ((hindex _).2 hheight))).2 (not_not.2 rfl)
    exact (errsIn_ite_err_iff.1 hrest).1 hne
  · intro h expected hexpected
    refine errsIn_ite_err_iff.2 ⟨fun _ => trivial, fun hsame => ?_⟩
    rw [not_not] at hsame
    have hheight := (hindex _).1 hexpected
    rw [← hsame] at hheight
    -- Behind the previous hash, no error carries a text from outside.
    refine errsIn_ite_err_iff.2 ⟨h hheight, fun _ => ?_⟩
    refine errsIn_ite_err trivial ?_
    refine errsIn_ite_err trivial ?_
    refine errsIn_ite_err trivial ?_
    refine errsIn_ite_err trivial ?_
    exact errsIn_reject trivial

end Rules

/-! ## The mempool -/

section Pool

variable {pool : Mempool} {tx : Transaction} {db : KyveraDb}

/-- The structural checks find fault with nothing that they would have to cut. -/
theorem cuttable_of_validateStructure {e : MempoolError} (h : validateStructure tx = .error e) :
    e.Cuttable := by
  unfold validateStructure at h
  split_ifs at h <;> cases h <;> trivial

theorem cuttable_of_evictFor {fee : UInt64} {e : MempoolError} {pool' : Mempool}
    (h : pool.evictFor fee = (.error e, pool')) : e.Cuttable := by
  unfold Mempool.evictFor at h
  rcases hmin : pool.feeIndex.min? with _ | lowest
  · rw [hmin] at h
    cases h
  · rw [hmin] at h
    dsimp only at h
    split_ifs at h with hfee
    · cases h
      trivial
    · cases h

/-- A rejected transaction can be named if its sender can be cut whenever the nonce is taken or the
account cannot pay. -/
theorem addTransaction_cuttable_iff :
    (∀ e, (pool.addTransaction tx db).1 = .error e → e.Cuttable) ↔
      (validateStructure tx = .ok () → tx.hash ∉ pool.transactions →
        tx.senderKey ∈ pool.pendingNonces ∨
          (db.account tx.sender).balance < requiredBalance tx → CutsAt 12 tx.sender) := by
  unfold Mempool.addTransaction
  rcases hstructure : validateStructure tx with e | u
  · refine iff_of_true ?_ fun h => by cases h
    rintro _ h
    cases h
    exact cuttable_of_validateStructure hstructure
  · dsimp only
    by_cases hhash : tx.hash ∈ pool.transactions
    · rw [if_pos hhash]
      refine iff_of_true ?_ fun _ h => absurd hhash h
      rintro _ h
      cases h
      trivial
    by_cases hnonce : tx.senderKey ∈ pool.pendingNonces
    · rw [if_neg hhash, if_pos hnonce]
      constructor
      · intro h _ _ _
        exact h _ rfl
      · rintro h _ he
        cases he
        exact h rfl hhash (Or.inl hnonce)
    by_cases hbalance : (db.account tx.sender).balance < requiredBalance tx
    · rw [if_neg hhash, if_neg hnonce, if_pos hbalance]
      constructor
      · intro h _ _ _
        exact h _ rfl
      · rintro h _ he
        cases he
        exact h rfl hhash (Or.inr hbalance)
    rw [if_neg hhash, if_neg hnonce, if_neg hbalance]
    refine iff_of_true ?_ fun _ _ h => absurd h (not_or.2 ⟨hnonce, hbalance⟩)
    intro e he
    by_cases hother : !pool.hasOtherPending tx.sender ∧ tx.nonce ≠ (db.account tx.sender).nonce
    · rw [if_pos hother] at he
      cases he
      trivial
    rw [if_neg hother] at he
    by_cases hfull : pool.len ≥ MAX_MEMPOOL_SIZE
    · rw [if_pos hfull] at he
      rcases hevict : pool.evictFor tx.fee with ⟨e' | u, pool'⟩
      · rw [hevict] at he
        cases he
        exact cuttable_of_evictFor hevict
      · rw [hevict] at he
        cases he
    · rw [if_neg hfull] at he
      cases he

end Pool

/-! ## Showing what was rejected -/

/-- The blocks, transactions, tips and databases whose rejections can be shown are those in which
every hash and every address that is named can be cut. -/
theorem rejections_shown_iff (H : Sha3) (nowMs : ℤ) (block : Block) (txs : List Transaction)
    (tip : ChainTip) (db : KyveraDb) (pool : Mempool) (tx : Transaction) :
    ((∀ (v : RuleViolation) (db' : KyveraDb),
        (validateBlockRules H nowMs block txs tip).run db = (.err v, db') → v.display.isSome) ↔
      BlockCuttable H nowMs block txs tip db.accounts) ∧
    ((∀ (e : BlockError) (db' : KyveraDb),
        (validateBlock H nowMs block tip txs).run db = (.err e, db') → e.display.isSome) ↔
      (block.header.index.toNat = tip.height.toNat + 1 → block.header.previousHash ≠ tip.hash →
        CutsAt 8 tip.hash ∧ CutsAt 8 block.header.previousHash)) ∧
    ((∀ e : MempoolError, (pool.addTransaction tx db).1 = .error e → e.display.isSome) ↔
      (validateStructure tx = .ok () → tx.hash ∉ pool.transactions →
        tx.senderKey ∈ pool.pendingNonces ∨
          (db.account tx.sender).balance < requiredBalance tx → CutsAt 12 tx.sender)) := by
  simp only [RuleViolation.isSome_display_iff, BlockError.isSome_display_iff,
    MempoolError.isSome_display_iff]
  exact ⟨errsIn_validateBlockRules_iff, errsIn_validateBlock_iff, addTransaction_cuttable_iff⟩

/-- A first block with an empty previous hash. -/
def orphanBlock : Block :=
  Block.new (BlockHeader.new 0 1 "" "" 1 false 0) [] "" 0

/-- A transaction from a sender with a short address. -/
def shortSenderTransaction : Transaction where
  hash := "h"
  sender := "kyv1"
  receiver := "kyv1"
  amount := 1
  fee := 1
  nonce := 0
  signature := "s"
  timestamp := 0
  transactionType := .transfer
  data := []

/-- A block with an empty previous hash, and a transaction from a short address, are rejected, but
the rejections cannot be shown. -/
theorem rejections_not_shown :
    ((validateBlockRules Sha3.zero 0 orphanBlock [] ChainTip.genesis).run KyveraDb.empty).1 =
        .err (.invalidPreviousHash zeroHash "") ∧
      (RuleViolation.invalidPreviousHash zeroHash "").display = none ∧
      ((validateBlock Sha3.zero 0 orphanBlock ChainTip.genesis []).run KyveraDb.empty).1 =
        .err (.invalidPreviousHash zeroHash "") ∧
      (BlockError.invalidPreviousHash zeroHash "").display = none ∧
      (Mempool.new.addTransaction shortSenderTransaction KyveraDb.empty).1 =
        .error (.insufficientBalance "kyv1" 2 0) ∧
      (MempoolError.insufficientBalance "kyv1" 2 0).display = none := by
  decide +kernel

end Kyvera
