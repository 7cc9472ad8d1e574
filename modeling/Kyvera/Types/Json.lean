import Kyvera.Types.Account
import Kyvera.Types.Transaction

/-!
# JSON texts

The texts that serde_json writes for accounts and transactions: the fields in the order of their
declaration, without blanks.
-/

namespace Kyvera

/-- One character of a JSON string, escaped as serde_json does. -/
def escapeChar (c : Char) : List Char :=
  if c = '"' then ['\\', '"']
  else if c = '\\' then ['\\', '\\']
  else if c = '\x08' then ['\\', 'b']
  else if c = '\x0c' then ['\\', 'f']
  else if c = '\n' then ['\\', 'n']
  else if c = '\r' then ['\\', 'r']
  else if c = '\t' then ['\\', 't']
  else if c.toNat < 32 then
    ['\\', 'u', '0', '0', Nat.digitChar (c.toNat / 16), Nat.digitChar (c.toNat % 16)]
  else [c]

/-- A JSON string literal. -/
def jsonString (s : String) : String :=
  "\"" ++ String.ofList (s.toList.flatMap escapeChar) ++ "\""

/-- A validator tier, or null. -/
def jsonTier : Option ValidatorTier → String
  | none => "null"
  | some .igniter => jsonString "Igniter"
  | some .kinetic => jsonString "Kinetic"
  | some .nexus => jsonString "Nexus"

/-- The JSON text of an account: the fields in declaration order, without blanks. -/
def accountJson (account : Account) : String :=
  "\x7b\"address\":" ++ jsonString account.address ++
    ",\"balance\":" ++ toString account.balance ++
    ",\"staked_balance\":" ++ toString account.stakedBalance ++
    ",\"nonce\":" ++ toString account.nonce ++
    ",\"validator_tier\":" ++ jsonTier account.validatorTier ++
    ",\"is_contract\":" ++ toString account.isContract ++
    ",\"last_reward_epoch\":" ++ toString account.lastRewardEpoch ++ "\x7d"

/-- A transaction type as serde_json writes it. -/
def jsonTransactionType : TransactionType → String
  | .transfer => jsonString "Transfer"
  | .stakeLock => jsonString "StakeLock"
  | .stakeUnlock => jsonString "StakeUnlock"
  | .contractDeploy => jsonString "ContractDeploy"
  | .contractCall => jsonString "ContractCall"

/-- The JSON text of a transaction: the fields in declaration order, without blanks. -/
def transactionJson (tx : Transaction) : String :=
  "\x7b\"hash\":" ++ jsonString tx.hash ++
    ",\"sender\":" ++ jsonString tx.sender ++
    ",\"receiver\":" ++ jsonString tx.receiver ++
    ",\"amount\":" ++ toString tx.amount ++
    ",\"fee\":" ++ toString tx.fee ++
    ",\"nonce\":" ++ toString tx.nonce ++
    ",\"signature\":" ++ jsonString tx.signature ++
    ",\"timestamp\":" ++ toString tx.timestamp ++
    ",\"transaction_type\":" ++ jsonTransactionType tx.transactionType ++
    ",\"data\":[" ++ String.intercalate "," (tx.data.map toString) ++ "]\x7d"

end Kyvera
