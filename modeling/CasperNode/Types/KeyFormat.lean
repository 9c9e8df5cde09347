import CasperNode.Types.Key
import CasperNode.Library.Text

/-!
# Formatted keys

`Key::to_formatted_string` writes a key as a prefix naming its variant followed by its payload:
the bytes of a hash or address in lowercase hexadecimal, an era or a block height in decimal,
and for a `URef` its address and its access rights as three octal digits after a `-`.  That is
the form keys take in JSON and in the RPC.  `Key::from_formatted_str` tries the fifteen
prefixes in a fixed order, and three of them through the parsers of `AccountHash`,
`TransferAddr` and `URef`, which hand over to the next test only when they report a wrong
prefix.  Hexadecimal is read by `checksummed_hex::decode`, which checks the case of a mixed-case
text against a BLAKE2b hash of the bytes; the hash is a parameter `blake2b`, and a text in one
case is not checked.

Every key reads back from its formatted string (`fromFormattedStr_toFormattedString`): of two
prefixes neither extends the other, except `deploy-` and `deploy-approvals-root-hash-`, and the
longer is tried first and cannot match a deploy hash in hexadecimal; lowercase hexadecimal
passes the checksum.  So two keys never share a formatted string.  The prefixes are written out
as the lists of characters they are read as.
-/

namespace CasperNode

open Text

/-! ## Checksummed hexadecimal -/

/-- `<[u8; 32]>::try_from(&[u8])`: `none`, a `TryFromSliceError`, unless there are 32 bytes. -/
def bytes32TryFrom (bytes : List UInt8) : Option Bytes32 :=
  if h : bytes.length = 32 then some ⟨⟨bytes⟩, h⟩ else none

theorem bytes32TryFrom_bytes32ToBytes (a : Bytes32) : bytes32TryFrom (bytes32ToBytes a) = some a := by
  have hlen : (bytes32ToBytes a).length = 32 := by simp [bytes32ToBytes]
  rw [bytes32TryFrom, dif_pos hlen]
  simp [bytes32ToBytes, Vector.toList]

namespace ChecksummedHex

variable (blake2b : List UInt8 → List UInt8)

/-- `SMALL_BYTES_COUNT`. -/
def smallBytesCount : Nat := 75

/-- `HEX_CHARS`, "0123456789abcdefABCDEF". -/
def hexChars : List Char :=
  ['0', '1', '2', '3', '4', '5', '6', '7', '8', '9', 'a', 'b', 'c', 'd', 'e', 'f', 'A', 'B', 'C',
    'D', 'E', 'F']

/-- `bytes_to_nibbles`. -/
def bytesToNibbles (input : List UInt8) : List Nat :=
  input.flatMap fun byte => [4, 0].map fun offset => (byte.toNat >>> offset) &&& 0x0f

/-- Bit `k` of `bytes_to_bits_cycle`: the bytes repeated forever, each from its lowest bit;
`none` when there are no bytes. -/
def bitsCycle (bytes : List UInt8) (k : Nat) : Option Bool :=
  if bytes = [] then none
  else some ((bytes.getD (k / 8 % bytes.length) 0).toNat >>> (k % 8) &&& 1 = 1)

/-- The map of `encode_iter` from the `k`-th hash bit on: a nibble of ten or more takes the next
bit and is upper case when it is set or missing. -/
def encodeIterLoop (hashBits : Nat → Option Bool) (k : Nat) : List Nat → List Char
  | [] => []
  | nibble :: rest =>
    if nibble ≥ 10 then
      let nibble := if (hashBits k).getD true then nibble + 6 else nibble
      hexChars.getD nibble '0' :: encodeIterLoop hashBits (k + 1) rest
    else hexChars.getD nibble '0' :: encodeIterLoop hashBits k rest

/-- `encode_iter`. -/
def encodeIter (input : List UInt8) : List Char :=
  encodeIterLoop (bitsCycle (blake2b input)) 0 (bytesToNibbles input)

/-- A letter `a-f`. -/
def isLowerHex (c : Char) : Bool := decide ('a' ≤ c ∧ c ≤ 'f')

/-- A letter `A-F`. -/
def isUpperHex (c : Char) : Bool := decide ('A' ≤ c ∧ c ≤ 'F')

/-- `string_is_same_case`: all letters `a-f` and `A-F` in one case, or none at all. -/
def stringIsSameCase (s : List Char) : Bool :=
  match s.filter fun c => isLowerHex c || isUpperHex c with
  | [] => true
  | first :: chars => chars.all fun c => isUpperHex c == isUpperHex first

/-- The checksum comparison of `decode`, as far as both texts go. -/
def checkCase (index : Nat) : List Char → List Char → Except DecodeError Unit
  | expected :: es, actual :: as =>
    if expected = actual then checkCase (index + 1) es as
    else .error (.invalidByte index expected)
  | _, _ => .ok ()

/-- `checksummed_hex::decode`. -/
def decode (input : List Char) : Except DecodeError (List UInt8) := do
  let bytes ← Text.decode input
  if bytes.length > smallBytesCount || stringIsSameCase input then return bytes
  checkCase 0 (encodeIter blake2b bytes) input
  return bytes

theorem isUpperHex_digitChar : ∀ n < 16, isUpperHex (Nat.digitChar n) = false := by
  decide

theorem stringIsSameCase_of_forall {s : List Char} (h : ∀ c ∈ s, isUpperHex c = false) :
    stringIsSameCase s = true := by
  unfold stringIsSameCase
  split
  · rfl
  next first chars hfilter =>
    have hlower : ∀ c ∈ first :: chars, isUpperHex c = false := by
      intro c hc
      rw [← hfilter] at hc
      exact h c (List.mem_filter.mp hc).1
    refine List.all_eq_true.mpr fun c hc => ?_
    rw [hlower c (List.mem_cons_of_mem first hc), hlower first List.mem_cons_self]
    rfl

theorem stringIsSameCase_encodeLower (bytes : List UInt8) :
    stringIsSameCase (encodeLower bytes) = true := by
  apply stringIsSameCase_of_forall
  intro c hc
  obtain ⟨n, hn, rfl⟩ := mem_encodeLower hc
  exact isUpperHex_digitChar n hn

theorem decode_encodeLower (bytes : List UInt8) :
    ChecksummedHex.decode blake2b (encodeLower bytes) = .ok bytes := by
  simp [ChecksummedHex.decode, Text.decode_encodeLower, stringIsSameCase_encodeLower]

end ChecksummedHex

/-! ## The formats -/

/-- `ACCOUNT_HASH_FORMATTED_STRING_PREFIX`, "account-hash-". -/
def accountHashFormattedStringPrefix : List Char :=
  ['a', 'c', 'c', 'o', 'u', 'n', 't', '-', 'h', 'a', 's', 'h', '-']
/-- `HASH_PREFIX`, "hash-". -/
def hashPrefix : List Char := ['h', 'a', 's', 'h', '-']
/-- `UREF_FORMATTED_STRING_PREFIX`, "uref-". -/
def urefFormattedStringPrefix : List Char := ['u', 'r', 'e', 'f', '-']
/-- `TRANSFER_ADDR_FORMATTED_STRING_PREFIX`, "transfer-". -/
def transferAddrFormattedStringPrefix : List Char := ['t', 'r', 'a', 'n', 's', 'f', 'e', 'r', '-']
/-- `DEPLOY_INFO_PREFIX`, "deploy-". -/
def deployInfoPrefix : List Char := ['d', 'e', 'p', 'l', 'o', 'y', '-']
/-- `ERA_INFO_PREFIX`, "era-". -/
def eraInfoPrefix : List Char := ['e', 'r', 'a', '-']
/-- `BALANCE_PREFIX`, "balance-". -/
def balancePrefix : List Char := ['b', 'a', 'l', 'a', 'n', 'c', 'e', '-']
/-- `BID_PREFIX`, "bid-". -/
def bidPrefix : List Char := ['b', 'i', 'd', '-']
/-- `WITHDRAW_PREFIX`, "withdraw-". -/
def withdrawPrefix : List Char := ['w', 'i', 't', 'h', 'd', 'r', 'a', 'w', '-']
/-- `DICTIONARY_PREFIX`, "dictionary-". -/
def dictionaryPrefix : List Char := ['d', 'i', 'c', 't', 'i', 'o', 'n', 'a', 'r', 'y', '-']
/-- `UNBOND_PREFIX`, "unbond-". -/
def unbondPrefix : List Char := ['u', 'n', 'b', 'o', 'n', 'd', '-']
/-- `SYSTEM_CONTRACT_REGISTRY_PREFIX`, "system-contract-registry-". -/
def systemContractRegistryPrefix : List Char :=
  ['s', 'y', 's', 't', 'e', 'm', '-', 'c', 'o', 'n', 't', 'r', 'a', 'c', 't', '-', 'r', 'e', 'g',
    'i', 's', 't', 'r', 'y', '-']
/-- `CHAINSPEC_REGISTRY_PREFIX`, "chainspec-registry-". -/
def chainspecRegistryPrefix : List Char :=
  ['c', 'h', 'a', 'i', 'n', 's', 'p', 'e', 'c', '-', 'r', 'e', 'g', 'i', 's', 't', 'r', 'y', '-']
/-- `BLOCK_EFFECTS_ROOT_HASH_PREFIX`, "block-effects-root-hash-". -/
def blockEffectsRootHashPrefix : List Char :=
  ['b', 'l', 'o', 'c', 'k', '-', 'e', 'f', 'f', 'e', 'c', 't', 's', '-', 'r', 'o', 'o', 't', '-',
    'h', 'a', 's', 'h', '-']
/-- `DEPLOY_APPROVALS_ROOT_HASH_REGISTRY_PREFIX`, "deploy-approvals-root-hash-". -/
def deployApprovalsRootHashRegistryPrefix : List Char :=
  ['d', 'e', 'p', 'l', 'o', 'y', '-', 'a', 'p', 'p', 'r', 'o', 'v', 'a', 'l', 's', '-', 'r', 'o',
    'o', 't', '-', 'h', 'a', 's', 'h', '-']

/-- `SYSTEM_CONTRACT_REGISTRY_KEY_BYTES`. -/
def systemContractRegistryKeyBytes : List UInt8 := List.replicate 32 0
/-- `CHAINSPEC_REGISTRY_KEY_BYTES`. -/
def chainspecRegistryKeyBytes : List UInt8 := List.replicate 32 1

/-- What the `String` of a `Key::FromStrError` variant reports: the `to_string` of the error it
was made from, or a fixed message. -/
inductive ParseFailure where
  | hex (error : DecodeError)
  | length
  | int (kind : IntErrorKind)
  | message (text : String)
deriving DecidableEq

section Parsers

variable (blake2b : List UInt8 → List UInt8)

/-- Checksummed hexadecimal read as 32 bytes, each failure reported its own way. -/
def decodeBytes32 {ε : Type} (hex : DecodeError → ε) (length : ε) (text : List Char) :
    Except ε Bytes32 :=
  match ChecksummedHex.decode blake2b text with
  | .error error => .error (hex error)
  | .ok bytes =>
    match bytes32TryFrom bytes with
    | none => .error length
    | some bytes32 => .ok bytes32

/-- The parsers of `AccountHash` and `TransferAddr`: a prefix, then 32 bytes of checksummed
hexadecimal. -/
def fromFormattedStr32 {ε : Type} (pfx : List Char) (invalidPrefix : ε) (hex : DecodeError → ε)
    (length : ε) (input : List Char) : Except ε Bytes32 :=
  match input.dropPrefix? pfx with
  | none => .error invalidPrefix
  | some remainder => decodeBytes32 blake2b hex length remainder

/-- `account::FromStrError`. -/
inductive AccountHash.FromStrError where
  | invalidPrefix
  | hex (error : DecodeError)
  | hash
deriving DecidableEq

/-- `AccountHash::to_formatted_string`. -/
def AccountHash.toFormattedString (accountHash : Bytes32) : List Char :=
  accountHashFormattedStringPrefix ++ encodeLower (bytes32ToBytes accountHash)

/-- `AccountHash::from_formatted_str`. -/
def AccountHash.fromFormattedStr (input : List Char) : Except AccountHash.FromStrError Bytes32 :=
  fromFormattedStr32 blake2b accountHashFormattedStringPrefix .invalidPrefix .hex .hash input

/-- `transfer::FromStrError`. -/
inductive TransferAddr.FromStrError where
  | invalidPrefix
  | hex (error : DecodeError)
  | length
deriving DecidableEq

/-- `TransferAddr::to_formatted_string`. -/
def TransferAddr.toFormattedString (transferAddr : Bytes32) : List Char :=
  transferAddrFormattedStringPrefix ++ encodeLower (bytes32ToBytes transferAddr)

/-- `TransferAddr::from_formatted_str`. -/
def TransferAddr.fromFormattedStr (input : List Char) :
    Except TransferAddr.FromStrError Bytes32 :=
  fromFormattedStr32 blake2b transferAddrFormattedStringPrefix .invalidPrefix .hex .length input

/-- `uref::FromStrError`. -/
inductive URef.FromStrError where
  | invalidPrefix
  | missingSuffix
  | invalidAccessRights
  | hex (error : DecodeError)
  | int (kind : IntErrorKind)
  | address
deriving DecidableEq

/-- `URef::to_formatted_string`: the access rights as at least three octal digits. -/
def URef.toFormattedString (uref : URef) : List Char :=
  urefFormattedStringPrefix ++ (encodeLower (bytes32ToBytes uref.addr) ++
    '-' :: (Nat.toDigits 8 uref.accessRights.bits.toNat).leftpad 3 '0')

/-- `URef::from_formatted_str`. -/
def URef.fromFormattedStr (input : List Char) : Except URef.FromStrError URef :=
  match input.dropPrefix? urefFormattedStringPrefix with
  | none => .error .invalidPrefix
  | some remainder =>
    match splitOnce '-' remainder with
    | [addrText, accessRightsText] =>
      match decodeBytes32 blake2b .hex .address addrText with
      | .error error => .error error
      | .ok addr =>
        match fromStrRadix 8 256 accessRightsText with
        | .error kind => .error (.int kind)
        | .ok accessRightsValue =>
          match AccessRights.fromBits (UInt8.ofNat accessRightsValue) with
          | none => .error .invalidAccessRights
          | some accessRights => .ok ⟨addr, accessRights⟩
    | _ => .error .missingSuffix

/-- `u64::from_str`, also `EraId::from_str`. -/
def u64FromStr (s : List Char) : Except IntErrorKind UInt64 :=
  (fromStrRadix 10 (2 ^ 64) s).map UInt64.ofNat

/-- `key::FromStrError`. -/
inductive Key.FromStrError where
  | account (error : AccountHash.FromStrError)
  | hash (failure : ParseFailure)
  | uref (error : URef.FromStrError)
  | transfer (error : TransferAddr.FromStrError)
  | deployInfo (failure : ParseFailure)
  | eraInfo (failure : ParseFailure)
  | balance (failure : ParseFailure)
  | bid (failure : ParseFailure)
  | withdraw (failure : ParseFailure)
  | dictionary (failure : ParseFailure)
  | systemContractRegistry (failure : ParseFailure)
  | unbond (failure : ParseFailure)
  | chainspecRegistry (failure : ParseFailure)
  | blockEffectsRootHash (failure : ParseFailure)
  | deployApprovalsRootHash (failure : ParseFailure)
  | unknownPrefix
deriving DecidableEq

/-- `Key::to_formatted_string`. -/
def Key.toFormattedString : Key → List Char
  | .account accountHash => AccountHash.toFormattedString accountHash
  | .hash addr => hashPrefix ++ encodeLower (bytes32ToBytes addr)
  | .uref u => u.toFormattedString
  | .transfer transferAddr => TransferAddr.toFormattedString transferAddr
  | .deployInfo addr => deployInfoPrefix ++ encodeLower (bytes32ToBytes addr)
  | .eraInfo eraId => eraInfoPrefix ++ Nat.toDigits 10 eraId.toNat
  | .balance urefAddr => balancePrefix ++ encodeLower (bytes32ToBytes urefAddr)
  | .bid accountHash => bidPrefix ++ encodeLower (bytes32ToBytes accountHash)
  | .withdraw accountHash => withdrawPrefix ++ encodeLower (bytes32ToBytes accountHash)
  | .dictionary dictionaryAddr => dictionaryPrefix ++ encodeLower (bytes32ToBytes dictionaryAddr)
  | .unbond accountHash => unbondPrefix ++ encodeLower (bytes32ToBytes accountHash)
  | .systemContractRegistry =>
    systemContractRegistryPrefix ++ encodeLower systemContractRegistryKeyBytes
  | .chainspecRegistry => chainspecRegistryPrefix ++ encodeLower chainspecRegistryKeyBytes
  | .blockEffectsRootHash blockHeight =>
    blockEffectsRootHashPrefix ++ Nat.toDigits 10 blockHeight.toNat
  | .deployApprovalsRootHash blockHeight =>
    deployApprovalsRootHashRegistryPrefix ++ Nat.toDigits 10 blockHeight.toNat

/-- A parser that `from_formatted_str` tries: a wrong prefix hands over to the next test, any
other error is returned. -/
def Key.tryParser {ε α : Type} [DecidableEq ε] (invalidPrefix : ε) (wrap : ε → Key.FromStrError)
    (mk : α → Key) : Except ε α → Option (Except Key.FromStrError Key)
  | .ok a => some (.ok (mk a))
  | .error error => if error = invalidPrefix then none else some (.error (wrap error))

/-- A branch of `from_formatted_str` that reads 32 bytes of checksummed hexadecimal after `pfx`;
a payload of another length is reported as `lengthFailure`. -/
def Key.hexBranch (pfx : List Char) (wrap : ParseFailure → Key.FromStrError)
    (lengthFailure : ParseFailure) (mk : Bytes32 → Key) (input : List Char) :
    Option (Except Key.FromStrError Key) :=
  (input.dropPrefix? pfx).map fun hex =>
    (decodeBytes32 blake2b (fun error => wrap (.hex error)) (wrap lengthFailure) hex).map mk

/-- A branch of `from_formatted_str` that reads a `u64` after `pfx`. -/
def Key.u64Branch (pfx : List Char) (wrap : ParseFailure → Key.FromStrError)
    (mk : UInt64 → Key) (input : List Char) : Option (Except Key.FromStrError Key) :=
  (input.dropPrefix? pfx).map fun text =>
    ((u64FromStr text).mapError fun kind => wrap (.int kind)).map mk

/-- `Key::from_formatted_str`: the prefixes are tried in the source's order, the first that
matches decides. -/
def Key.fromFormattedStr (input : List Char) : Except Key.FromStrError Key :=
  (Key.tryParser AccountHash.FromStrError.invalidPrefix .account .account
      (AccountHash.fromFormattedStr blake2b input) <|>
    Key.hexBranch blake2b hashPrefix .hash .length .hash input <|>
    Key.u64Branch deployApprovalsRootHashRegistryPrefix .deployApprovalsRootHash
      .deployApprovalsRootHash input <|>
    Key.hexBranch blake2b deployInfoPrefix .deployInfo .length .deployInfo input <|>
    Key.tryParser TransferAddr.FromStrError.invalidPrefix .transfer .transfer
      (TransferAddr.fromFormattedStr blake2b input) <|>
    Key.tryParser URef.FromStrError.invalidPrefix .uref .uref
      (URef.fromFormattedStr blake2b input) <|>
    Key.u64Branch eraInfoPrefix .eraInfo .eraInfo input <|>
    Key.hexBranch blake2b balancePrefix .balance .length .balance input <|>
    Key.hexBranch blake2b bidPrefix .bid .length .bid input <|>
    Key.hexBranch blake2b withdrawPrefix .withdraw .length .withdraw input <|>
    Key.hexBranch blake2b unbondPrefix .unbond .length .unbond input <|>
    Key.hexBranch blake2b dictionaryPrefix .dictionary .length .dictionary input <|>
    Key.hexBranch blake2b systemContractRegistryPrefix .systemContractRegistry
      (.message "Failed to deserialize system registry key")
      (fun _ => .systemContractRegistry) input <|>
    Key.hexBranch blake2b chainspecRegistryPrefix .chainspecRegistry
      (.message "Failed to deserialize chainspec registry key")
      (fun _ => .chainspecRegistry) input <|>
    Key.u64Branch blockEffectsRootHashPrefix .blockEffectsRootHash .blockEffectsRootHash
      input).getD (.error .unknownPrefix)

/-! ## Every key reads back -/

theorem decodeBytes32_encodeLower {ε : Type} (hex : DecodeError → ε) (length : ε) (a : Bytes32) :
    decodeBytes32 blake2b hex length (encodeLower (bytes32ToBytes a)) = .ok a := by
  simp only [decodeBytes32, ChecksummedHex.decode_encodeLower, bytes32TryFrom_bytes32ToBytes]

theorem u64FromStr_toDigits (n : UInt64) : u64FromStr (Nat.toDigits 10 n.toNat) = .ok n := by
  rw [u64FromStr, fromStrRadix_toDigits (by decide) (by decide) n.toNat_lt]
  simp [Except.map]

theorem fromFormattedStr32_encodeLower {ε : Type} (pfx : List Char) (invalidPrefix : ε)
    (hex : DecodeError → ε) (length : ε) (a : Bytes32) :
    fromFormattedStr32 blake2b pfx invalidPrefix hex length
      (pfx ++ encodeLower (bytes32ToBytes a)) = .ok a := by
  rw [fromFormattedStr32, dropPrefix?_append_self]
  exact decodeBytes32_encodeLower blake2b hex length a

theorem fromFormattedStr32_append_of_not {ε : Type} {pfx word : List Char} (h₁ : ¬pfx <+: word)
    (h₂ : ¬word <+: pfx) (invalidPrefix : ε) (hex : DecodeError → ε) (length : ε)
    (rest : List Char) :
    fromFormattedStr32 blake2b pfx invalidPrefix hex length (word ++ rest) = .error invalidPrefix := by
  rw [fromFormattedStr32, dropPrefix?_append_of_not h₁ h₂]

theorem AccessRights.fromBits_bits (accessRights : AccessRights) :
    AccessRights.fromBits accessRights.bits = some accessRights := by
  simp [AccessRights.fromBits, accessRights.valid]

theorem URef.fromFormattedStr_toFormattedString (uref : URef) :
    URef.fromFormattedStr blake2b uref.toFormattedString = .ok uref := by
  obtain ⟨addr, accessRights⟩ := uref
  have hsep : '-' ∉ encodeLower (bytes32ToBytes addr) := by
    intro hmem
    obtain ⟨n, hn, hdash⟩ := mem_encodeLower hmem
    have hne : ∀ n < 16, Nat.digitChar n ≠ '-' := by decide
    exact hne n hn hdash.symm
  have hbits : accessRights.bits.toNat < 256 := by
    have := accessRights.valid
    omega
  have hrights : fromStrRadix 8 256 ((Nat.toDigits 8 accessRights.bits.toNat).leftpad 3 '0') =
      .ok accessRights.bits.toNat :=
    fromStrRadix_leftpad_toDigits (by decide) (by decide) hbits 3
  rw [URef.toFormattedString, URef.fromFormattedStr, dropPrefix?_append_self]
  simp only [splitOnce_append hsep, decodeBytes32_encodeLower, hrights, UInt8.ofNat_toNat,
    AccessRights.fromBits_bits]

theorem URef.fromFormattedStr_append_of_not {word : List Char}
    (h₁ : ¬urefFormattedStringPrefix <+: word) (h₂ : ¬word <+: urefFormattedStringPrefix)
    (rest : List Char) : URef.fromFormattedStr blake2b (word ++ rest) = .error .invalidPrefix := by
  rw [URef.fromFormattedStr, dropPrefix?_append_of_not h₁ h₂]

theorem Key.tryParser_ok {ε α : Type} [DecidableEq ε] (invalidPrefix : ε)
    (wrap : ε → Key.FromStrError) (mk : α → Key) (a : α) :
    Key.tryParser invalidPrefix wrap mk (.ok a) = some (.ok (mk a)) := rfl

theorem Key.tryParser_invalidPrefix {ε α : Type} [DecidableEq ε] (invalidPrefix : ε)
    (wrap : ε → Key.FromStrError) (mk : α → Key) :
    Key.tryParser invalidPrefix wrap mk (.error invalidPrefix) = none := by
  simp [Key.tryParser]

theorem Key.hexBranch_encodeLower (pfx : List Char) (wrap : ParseFailure → Key.FromStrError)
    (lengthFailure : ParseFailure) (mk : Bytes32 → Key) (a : Bytes32) :
    Key.hexBranch blake2b pfx wrap lengthFailure mk (pfx ++ encodeLower (bytes32ToBytes a)) =
      some (.ok (mk a)) := by
  rw [Key.hexBranch, dropPrefix?_append_self, Option.map_some, decodeBytes32_encodeLower]
  rfl

theorem Key.hexBranch_append_of_not {pfx word : List Char} (h₁ : ¬pfx <+: word)
    (h₂ : ¬word <+: pfx) (wrap : ParseFailure → Key.FromStrError) (lengthFailure : ParseFailure)
    (mk : Bytes32 → Key) (rest : List Char) :
    Key.hexBranch blake2b pfx wrap lengthFailure mk (word ++ rest) = none := by
  rw [Key.hexBranch, dropPrefix?_append_of_not h₁ h₂, Option.map_none]

theorem Key.u64Branch_toDigits (pfx : List Char) (wrap : ParseFailure → Key.FromStrError)
    (mk : UInt64 → Key) (n : UInt64) :
    Key.u64Branch pfx wrap mk (pfx ++ Nat.toDigits 10 n.toNat) = some (.ok (mk n)) := by
  rw [Key.u64Branch, dropPrefix?_append_self, Option.map_some, u64FromStr_toDigits]
  rfl

theorem Key.u64Branch_append_of_not {pfx word : List Char} (h₁ : ¬pfx <+: word)
    (h₂ : ¬word <+: pfx) (wrap : ParseFailure → Key.FromStrError) (mk : UInt64 → Key)
    (rest : List Char) : Key.u64Branch pfx wrap mk (word ++ rest) = none := by
  rw [Key.u64Branch, dropPrefix?_append_of_not h₁ h₂, Option.map_none]

/-- `deploy-` is a prefix of `deploy-approvals-root-hash-`, tried before it; a deploy hash in
lowercase hexadecimal has no `r` where the longer prefix has one. -/
theorem Key.u64Branch_deployInfo (wrap : ParseFailure → Key.FromStrError) (mk : UInt64 → Key)
    (bytes : List UInt8) :
    Key.u64Branch deployApprovalsRootHashRegistryPrefix wrap mk
      (deployInfoPrefix ++ encodeLower bytes) = none := by
  have hnot : ¬deployApprovalsRootHashRegistryPrefix <+: deployInfoPrefix ++ encodeLower bytes := by
    intro hpfx
    have hr : 'r' ∈ deployInfoPrefix ++ encodeLower bytes :=
      hpfx.subset (by decide : 'r' ∈ deployApprovalsRootHashRegistryPrefix)
    rcases List.mem_append.mp hr with hinfo | hhex
    · exact absurd hinfo (by decide)
    · obtain ⟨n, hn, hdigit⟩ := mem_encodeLower hhex
      have hne : ∀ n < 16, Nat.digitChar n ≠ 'r' := by decide
      exact hne n hn hdigit.symm
  rw [Key.u64Branch, dropPrefix?_eq_none hnot, Option.map_none]

theorem systemContractRegistryKeyBytes_eq :
    systemContractRegistryKeyBytes = bytes32ToBytes (Vector.replicate 32 0) := by
  simp [systemContractRegistryKeyBytes, bytes32ToBytes]

theorem chainspecRegistryKeyBytes_eq :
    chainspecRegistryKeyBytes = bytes32ToBytes (Vector.replicate 32 1) := by
  simp [chainspecRegistryKeyBytes, bytes32ToBytes]

/-- Every key reads back from its formatted string.  In the case of each variant the branches
before its own are rejected on their prefix, the `AccountHash`, `TransferAddr` and `URef`
parsers with `InvalidPrefix`. -/
theorem fromFormattedStr_toFormattedString (k : Key) :
    Key.fromFormattedStr blake2b k.toFormattedString = .ok k := by
  have hown : ∀ uref : URef, URef.fromFormattedStr blake2b (urefFormattedStringPrefix ++
      (encodeLower (bytes32ToBytes uref.addr) ++
        '-' :: (Nat.toDigits 8 uref.accessRights.bits.toNat).leftpad 3 '0')) = .ok uref :=
    URef.fromFormattedStr_toFormattedString blake2b
  cases k <;>
    simp (disch := decide) only [Key.fromFormattedStr, Key.toFormattedString,
      AccountHash.toFormattedString, TransferAddr.toFormattedString, URef.toFormattedString,
      AccountHash.fromFormattedStr, TransferAddr.fromFormattedStr, hown,
      fromFormattedStr32_append_of_not, fromFormattedStr32_encodeLower,
      URef.fromFormattedStr_append_of_not, Key.tryParser_invalidPrefix, Key.tryParser_ok,
      Key.hexBranch_append_of_not, Key.hexBranch_encodeLower, Key.u64Branch_append_of_not,
      Key.u64Branch_toDigits, Key.u64Branch_deployInfo, systemContractRegistryKeyBytes_eq,
      chainspecRegistryKeyBytes_eq, Option.orElse_eq_orElse, Option.orElse_none, Option.orElse_some,
      Option.getD_some]

/-- Two keys never share a formatted string. -/
theorem Key.toFormattedString_injective : Function.Injective Key.toFormattedString := by
  intro k₁ k₂ hfmt
  have hread := fromFormattedStr_toFormattedString (fun _ => []) k₁
  rw [hfmt, fromFormattedStr_toFormattedString] at hread
  exact (Except.ok.inj hread).symm

/-- `Key::from_formatted_str` inverts `Key::to_formatted_string` for every key and any hash
function behind the checksum, and so two keys never share a formatted string. -/
theorem formattedString_roundtrip :
    (∀ k : Key, Key.fromFormattedStr blake2b k.toFormattedString = .ok k) ∧
      Function.Injective Key.toFormattedString :=
  ⟨fromFormattedStr_toFormattedString blake2b, Key.toFormattedString_injective⟩

end Parsers

end CasperNode
