import CasperNode.Types.Bytesrepr

/-!
# Keys of the global state

`casper_types::Key` indexes every entry of the global state.  It is a tagged union of
fifteen variants; its `bytesrepr` encoding is the tag byte followed by a payload whose
length the tag alone determines (32 bytes for hashes and addresses, 33 for a `URef`, 8 for
an era or a block height).  That property is what the trie store needs of its keys.

A `URef` carries `AccessRights`, a set of three permission bits.  `Key::normalize`
forgets them, and the tracking copy indexes its cache and journal by normalized keys.
-/

namespace CasperNode

open LittleEndian

/-- `AccessRights`: the bit set `READ | WRITE | ADD`.  `AccessRights::from_bits` rejects a
byte with any other bit, so the invariant is part of the type. -/
structure AccessRights where
  bits : UInt8
  valid : bits.toNat < 8
deriving DecidableEq

/-- `AccessRights::NONE`. -/
def AccessRights.none : AccessRights := ⟨0, by decide⟩

/-- `AccessRights::from_bits`. -/
def AccessRights.fromBits (b : UInt8) : Option AccessRights :=
  if h : b.toNat < 8 then some ⟨b, h⟩ else none

/-- `URef`: an address and the access rights the holder has to it. -/
structure URef where
  addr : Bytes32
  accessRights : AccessRights
deriving DecidableEq

/-- `URef::remove_access_rights`. -/
def URef.removeAccessRights (u : URef) : URef := { u with accessRights := AccessRights.none }

/-- `casper_types::Key`.  The 32-byte newtypes (`AccountHash`, `HashAddr`, `URefAddr`,
`TransferAddr`, `DeployHash`, `DictionaryAddr`) are all `Bytes32`; `EraId` is its `u64`. -/
inductive Key where
  | account (accountHash : Bytes32)
  | hash (addr : Bytes32)
  | uref (uref : URef)
  | transfer (addr : Bytes32)
  | deployInfo (deployHash : Bytes32)
  | eraInfo (eraId : UInt64)
  | balance (addr : Bytes32)
  | bid (accountHash : Bytes32)
  | withdraw (accountHash : Bytes32)
  | dictionary (addr : Bytes32)
  | systemContractRegistry
  | unbond (accountHash : Bytes32)
  | chainspecRegistry
  | blockEffectsRootHash (blockHeight : UInt64)
  | deployApprovalsRootHash (blockHeight : UInt64)
deriving DecidableEq

/-- `Key::tag`, the discriminant of `KeyTag`. -/
def Key.tag : Key → UInt8
  | .account _ => 0
  | .hash _ => 1
  | .uref _ => 2
  | .transfer _ => 3
  | .deployInfo _ => 4
  | .eraInfo _ => 5
  | .balance _ => 6
  | .bid _ => 7
  | .withdraw _ => 8
  | .dictionary _ => 9
  | .systemContractRegistry => 10
  | .unbond _ => 11
  | .chainspecRegistry => 12
  | .blockEffectsRootHash _ => 13
  | .deployApprovalsRootHash _ => 14

/-- `Key::normalize`: a `URef` key loses its access rights, every other key is unchanged. -/
def Key.normalize : Key → Key
  | .uref u => .uref u.removeAccessRights
  | k => k

@[simp] theorem Key.normalize_normalize (k : Key) : k.normalize.normalize = k.normalize := by
  cases k <;> rfl

/-! ## The byte encoding -/

/-- `ToBytes for URef`: the address, then the access-rights byte. -/
def URef.toBytes (u : URef) : List UInt8 := bytes32ToBytes u.addr ++ [u.accessRights.bits]

/-- `FromBytes for URef`. -/
def URef.fromBytes (bytes : List UInt8) : Decoded URef :=
  match bytes32FromBytes bytes with
  | .error e => .error e
  | .ok (addr, rem) =>
    match u8FromBytes rem with
    | .error e => .error e
    | .ok (b, rem) =>
      match AccessRights.fromBits b with
      | some rights => .ok (⟨addr, rights⟩, rem)
      | none => .error .formatting

/-- `ToBytes for Key`: the tag byte, then the payload. -/
def Key.toBytes (k : Key) : List UInt8 :=
  k.tag :: match k with
    | .account h | .hash h | .transfer h | .deployInfo h | .balance h | .bid h | .withdraw h
    | .dictionary h | .unbond h => bytes32ToBytes h
    | .uref u => u.toBytes
    | .eraInfo e | .blockEffectsRootHash e | .deployApprovalsRootHash e => u64ToBytes e
    | .systemContractRegistry => List.replicate 32 0
    | .chainspecRegistry => List.replicate 32 1

/-- Decode a 32-byte payload into the key variant `mk`. -/
def keyFromBytes32 (mk : Bytes32 → Key) (bytes : List UInt8) : Decoded Key :=
  (bytes32FromBytes bytes).map fun p => (mk p.1, p.2)

/-- Decode a `u64` payload into the key variant `mk`. -/
def keyFromU64 (mk : UInt64 → Key) (bytes : List UInt8) : Decoded Key :=
  (u64FromBytes bytes).map fun p => (mk p.1, p.2)

/-- `FromBytes for Key`.  The registry keys read and discard their 32-byte payload. -/
def Key.fromBytes (bytes : List UInt8) : Decoded Key :=
  match u8FromBytes bytes with
  | .error e => .error e
  | .ok (tag, rem) =>
    match tag.toNat with
    | 0 => keyFromBytes32 .account rem
    | 1 => keyFromBytes32 .hash rem
    | 2 => (URef.fromBytes rem).map fun p => (.uref p.1, p.2)
    | 3 => keyFromBytes32 .transfer rem
    | 4 => keyFromBytes32 .deployInfo rem
    | 5 => keyFromU64 .eraInfo rem
    | 6 => keyFromBytes32 .balance rem
    | 7 => keyFromBytes32 .bid rem
    | 8 => keyFromBytes32 .withdraw rem
    | 9 => keyFromBytes32 .dictionary rem
    | 10 => keyFromBytes32 (fun _ => .systemContractRegistry) rem
    | 11 => keyFromBytes32 .unbond rem
    | 12 => keyFromBytes32 (fun _ => .chainspecRegistry) rem
    | 13 => keyFromU64 .blockEffectsRootHash rem
    | 14 => keyFromU64 .deployApprovalsRootHash rem
    | _ => .error .formatting

end CasperNode
