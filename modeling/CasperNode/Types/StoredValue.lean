import CasperNode.Types.CLValue
import CasperNode.Library.OrdMap

/-!
# Stored values

`casper_types::StoredValue` is what the global state holds under a key.  The execution
engine's transforms look inside three of its variants: a `CLValue` (wrapping additions),
and an `Account` or a `Contract` (whose named keys `Transform::AddKeys` extends).  Those
carry the fields the modelled functions read.  The other variants are compared only for
equality (a trie write of an equal value is a no-op), so each carries its `bytesrepr`
encoding, which determines the value.
-/

namespace CasperNode

/-- `NamedKeys`, a `BTreeMap<String, Key>`. -/
abbrev NamedKeys := OrdMap String Key

/-- `casper_types::account::Account`, with the fields the modelled functions use. -/
structure Account where
  accountHash : Bytes32
  namedKeys : NamedKeys
  mainPurse : URef
deriving DecidableEq

/-- `casper_types::contracts::Contract`, with the fields the modelled functions use. -/
structure Contract where
  contractPackageHash : Bytes32
  contractWasmHash : Bytes32
  namedKeys : NamedKeys
deriving DecidableEq

/-- `Account::named_keys_append`. -/
def Account.namedKeysAppend (a : Account) (keys : NamedKeys) : Account :=
  { a with namedKeys := a.namedKeys.append keys }

/-- `Contract::named_keys_append`. -/
def Contract.namedKeysAppend (c : Contract) (keys : NamedKeys) : Contract :=
  { c with namedKeys := c.namedKeys.append keys }

/-- `casper_types::StoredValue`. -/
inductive StoredValue where
  | clValue (v : CLValue)
  | account (a : Account)
  | contractWasm (bytes : List UInt8)
  | contract (c : Contract)
  | contractPackage (bytes : List UInt8)
  | transfer (bytes : List UInt8)
  | deployInfo (bytes : List UInt8)
  | eraInfo (bytes : List UInt8)
  | bid (bytes : List UInt8)
  | withdraw (bytes : List UInt8)
  | unbonding (bytes : List UInt8)
deriving DecidableEq

/-- `StoredValue::type_name`, as the type-mismatch errors quote it. -/
def StoredValue.typeName : StoredValue → String
  | .clValue v => v.clType.debugName
  | .account _ => "Account"
  | .contractWasm _ => "ContractWasm"
  | .contract _ => "Contract"
  | .contractPackage _ => "ContractPackage"
  | .transfer _ => "Transfer"
  | .deployInfo _ => "DeployInfo"
  | .eraInfo _ => "EraInfo"
  | .bid _ => "Bid"
  | .withdraw _ => "Withdraw"
  | .unbonding _ => "Unbonding"

end CasperNode
