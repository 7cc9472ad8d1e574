import Kyvera.Consensus.Accepted
import Kyvera.Consensus.Linked

/-!
# Catching up

A node checks a block against its own clock and its own accounts.  A block that was accepted once is
accepted at any later time, and with any accounts in which its senders have the nonces they had and
no less to spend.  So a node that comes late takes every block that another node took, and is at the
same tip after each of them.
-/

namespace Kyvera

open Effect Trace

/-- The same block arrives no earlier, at accounts in which its senders have the nonces they had and
no less to spend. -/
structure Eases (a a' : Arrival) : Prop where
  block : a'.block = a.block
  transactions : a'.transactions = a.transactions
  clock : a.nowMs ≤ a'.nowMs
  senders : ∀ tx ∈ paidTransactions a.transactions, ∀ account',
    a'.db.accounts[tx.sender]? = some account' →
      ∃ account, a.db.accounts[tx.sender]? = some account ∧
        account.balance ≤ account'.balance ∧ account.nonce = account'.nonce

section Eases

variable {H : Sha3} {tip tip' : ChainTip} {a a' : Arrival}

theorem TimestampOk.later {nowMs nowMs' : ℤ} {block : Block} (h : TimestampOk nowMs block tip)
    (hlater : nowMs ≤ nowMs') : TimestampOk nowMs' block tip :=
  ⟨h.1.trans (Int.add_le_add_right hlater _), h.2⟩

theorem Eases.transactionsOk (he : Eases a a')
    (h : TransactionsOk a.db.accounts a.transactions) :
    TransactionsOk a'.db.accounts a.transactions := by
  refine ⟨fun tx htx account' hstored' => ?_, h.hashes⟩
  obtain ⟨account, hstored, hbalance, hnonce⟩ := he.senders tx htx account' hstored'
  obtain ⟨hpays, hturn⟩ := h.senders tx htx account hstored
  exact ⟨UInt64.le_trans hpays hbalance, hnonce ▸ hturn⟩

/-- What was accepted is accepted with less in its way. -/
theorem Extends.of_eases (h : Extends H tip a tip') (he : Eases a a') : Extends H tip a' tip' := by
  have htransactions := he.transactionsOk
  obtain ⟨block, txs, db, nowMs⟩ := a
  obtain ⟨block', txs', db', nowMs'⟩ := a'
  obtain rfl : block' = block := he.block
  obtain rfl : txs' = txs := he.transactions
  obtain ⟨hrules, hadvance⟩ := h
  obtain ⟨⟨hsealed, hgenesis, hfollows⟩, -⟩ := (guards_validateBlockRules _ _ _).1 hrules
  refine ⟨(guards_validateBlockRules _ _ ()).2 ⟨⟨hsealed, hgenesis, fun h0 => ?_⟩, rfl⟩, hadvance⟩
  exact { hfollows h0 with
    timestamp := (hfollows h0).timestamp.later he.clock
    transactions := htransactions (hfollows h0).transactions }

end Eases

end Kyvera
