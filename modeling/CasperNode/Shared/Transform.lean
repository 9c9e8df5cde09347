import CasperNode.Types.StoredValue
import CasperNode.Types.KeyFormat

/-!
# Transforms

`execution_engine::shared::transform::Transform` is what execution records against a key:
a read (`Identity`), a write, a wrapping addition of one of five integral widths, an
extension of named keys, or a failure.  `Transform::apply` runs one transform on a stored
value; `impl Add for Transform` combines two transforms on one key into one, and the
execution effects of a deploy are the journal folded per key with this `+`.

The five addition variants differ only in the width of their operand, so they share one
parameter, `AddWidth`, and one addition (`wrappingAddition`, the source's generic
`wrapping_addition::<Y>`).  The combination of two additions is not uniform in the source:
`AddInt32` and `AddUInt64` on the left are matched case by case, while `AddUInt128`,
`AddUInt256` and `AddUInt512` go through the generic `wrapped_transform_addition`.  Both are
kept as the source writes them, and `Transform.add` reproduces their casts exactly.

A combination of an addition with `AddKeys`, or of additions of two widths the generic function
cannot cast between, is a `Failure` whose type mismatch quotes the second transform as
`format!("{:?}", ..)` writes it (`Transform.debug`): `derive(Debug)` of the variant around the
operand's own `Debug` text.
-/

namespace CasperNode

open Text

/-- `transform::Error`. -/
inductive TransformError where
  | serialization (e : BytesreprError)
  | typeMismatch (expected found : String)
deriving DecidableEq

/-- `From<CLValueError> for transform::Error`. -/
def TransformError.ofCLValueError : CLValueError → TransformError
  | .serialization e => .serialization e
  | .type expected found => .typeMismatch expected.debugName found.debugName

/-- The operand widths of the addition transforms. -/
inductive AddWidth where
  | i32 | u64 | u128 | u256 | u512
deriving DecidableEq, Repr

/-- The integral type of an operand width. -/
def AddWidth.num : AddWidth → NumType
  | .i32 => .i32 | .u64 => .u64 | .u128 => .u128 | .u256 => .u256 | .u512 => .u512

/-- `any::type_name` of an operand type, quoted by `wrapping_addition`'s mismatch error. -/
def AddWidth.typeName : AddWidth → String
  | .i32 => "i32" | .u64 => "u64" | .u128 => "casper_types::uint::macro_code::U128"
  | .u256 => "casper_types::uint::macro_code::U256"
  | .u512 => "casper_types::uint::macro_code::U512"

/-- `execution_engine::shared::transform::Transform`. -/
inductive Transform where
  | identity
  | write (v : StoredValue)
  | addInt32 (x : BitVec 32)
  | addUInt64 (x : BitVec 64)
  | addUInt128 (x : BitVec 128)
  | addUInt256 (x : BitVec 256)
  | addUInt512 (x : BitVec 512)
  | addKeys (keys : NamedKeys)
  | failure (e : TransformError)
deriving DecidableEq

/-- The addition transform of a width. -/
def Transform.addOf : (w : AddWidth) → w.num.Val → Transform
  | .i32, x => .addInt32 x
  | .u64, x => .addUInt64 x
  | .u128, x => .addUInt128 x
  | .u256, x => .addUInt256 x
  | .u512, x => .addUInt512 x

/-- `TryFrom<Transform>` for the operand type of a width: the operand of that width's
addition transform. -/
def Transform.tryFrom : (w : AddWidth) → Transform → Option w.num.Val
  | .i32, .addInt32 x => some x
  | .u64, .addUInt64 x => some x
  | .u128, .addUInt128 x => some x
  | .u256, .addUInt256 x => some x
  | .u512, .addUInt512 x => some x
  | _, _ => none

/-! ## `Debug` texts -/

/-- `char::escape_debug` as `Debug for str` applies it to each character: `\0`, `\t`, `\r`,
`\n`, `\\` and `\"` for those characters, `\u{..}` in lower-case hexadecimal for the other
ASCII control characters, and any other character as it is.  The source also escapes the
non-ASCII characters that its Unicode tables call unprintable or grapheme-extending; those
tables are not modelled. -/
def escapeDebug (c : Char) : String :=
  if c = '\x00' then "\\0"
  else if c = '\t' then "\\t"
  else if c = '\r' then "\\r"
  else if c = '\n' then "\\n"
  else if c = '\\' then "\\\\"
  else if c = '"' then "\\\""
  else if c.toNat < 32 ∨ c.toNat = 127 then
    "\\u\x7b" ++ String.ofList (Nat.toDigits 16 c.toNat) ++ "\x7d"
  else String.singleton c

/-- `Debug for str`: the string quoted, each character escaped. -/
def debugStr (s : String) : String :=
  "\"" ++ String.join (s.toList.map escapeDebug) ++ "\""

/-- `base16::encode_lower` of a 32-byte array, as a string. -/
def hexOf (a : Bytes32) : String := String.ofList (encodeLower (bytes32ToBytes a))

/-- `Display for AccessRights`: the name of the set of bits. -/
def AccessRights.display (accessRights : AccessRights) : String :=
  match accessRights.bits.toNat with
  | 0 => "NONE" | 1 => "READ" | 2 => "WRITE" | 4 => "ADD" | 5 => "READ_ADD" | 3 => "READ_WRITE"
  | 6 => "ADD_WRITE" | 7 => "READ_ADD_WRITE" | _ => "UNKNOWN"

/-- `Display for URef`. -/
def URef.display (uref : URef) : String :=
  "URef(" ++ hexOf uref.addr ++ ", " ++ uref.accessRights.display ++ ")"

/-- `Display for Key`, which is also its `Debug`; an account hash and a transfer address show
as their hexadecimal, an era as `era n`. -/
def Key.display : Key → String
  | .account accountHash => "Key::Account(" ++ hexOf accountHash ++ ")"
  | .hash addr => "Key::Hash(" ++ hexOf addr ++ ")"
  | .uref u => "Key::" ++ u.display
  | .transfer transferAddr => "Key::Transfer(" ++ hexOf transferAddr ++ ")"
  | .deployInfo addr => "Key::DeployInfo(" ++ hexOf addr ++ ")"
  | .eraInfo eraId => "Key::EraInfo(era " ++ toString eraId.toNat ++ ")"
  | .balance urefAddr => "Key::Balance(" ++ hexOf urefAddr ++ ")"
  | .bid accountHash => "Key::Bid(" ++ hexOf accountHash ++ ")"
  | .withdraw accountHash => "Key::Withdraw(" ++ hexOf accountHash ++ ")"
  | .unbond accountHash => "Key::Unbond(" ++ hexOf accountHash ++ ")"
  | .dictionary addr => "Key::Dictionary(" ++ hexOf addr ++ ")"
  | .systemContractRegistry =>
    "Key::SystemContractRegistry(" ++ String.ofList (encodeLower systemContractRegistryKeyBytes) ++
      ")"
  | .chainspecRegistry =>
    "Key::ChainspecRegistry(" ++ String.ofList (encodeLower chainspecRegistryKeyBytes) ++ ")"
  | .blockEffectsRootHash blockHeight =>
    "Key::BlockEffectsRootHash(" ++ toString blockHeight.toNat ++ ")"
  | .deployApprovalsRootHash blockHeight =>
    "Key::DeployApprovalsRootHash(" ++ toString blockHeight.toNat ++ ")"

/-- `Debug for BTreeMap<String, Key>`: the entries in key order, `"name": key`, between braces. -/
def NamedKeys.debug (keys : NamedKeys) : String :=
  "\x7b" ++ ", ".intercalate (keys.entries.map fun e => debugStr e.1 ++ ": " ++ e.2.display) ++
    "\x7d"

/-- `Debug for bytesrepr::Error`, the variant's name. -/
def BytesreprError.debug : BytesreprError → String
  | .earlyEndOfStream => "EarlyEndOfStream" | .formatting => "Formatting"
  | .leftOverBytes => "LeftOverBytes" | .outOfMemory => "OutOfMemory"
  | .notRepresentable => "NotRepresentable" | .exceededRecursionDepth => "ExceededRecursionDepth"

/-- `Debug for transform::Error`, around the `derive(Debug)` of `StoredValueTypeMismatch`, whose
type is named `TypeMismatch`. -/
def TransformError.debug : TransformError → String
  | .serialization e => "Serialization(" ++ e.debug ++ ")"
  | .typeMismatch expected found =>
    "TypeMismatch(TypeMismatch \x7b expected: " ++ debugStr expected ++ ", found: " ++
      debugStr found ++ " \x7d)"

/-- `derive(Debug)` of `Transform`: the variant around its operand's `Debug` text, a signed or
unsigned decimal for the additions (the `uint` types print as `Display` does).  A stored value
keeps only its bytes for most variants, so the text of a write is not modelled (`Write(..)`);
`+` never quotes a write, an identity or a failure, which it matches before its mismatch
branches. -/
def Transform.debug : Transform → String
  | .identity => "Identity"
  | .write _ => "Write(..)"
  | .addInt32 x => "AddInt32(" ++ toString x.toInt ++ ")"
  | .addUInt64 x => "AddUInt64(" ++ toString x.toNat ++ ")"
  | .addUInt128 x => "AddUInt128(" ++ toString x.toNat ++ ")"
  | .addUInt256 x => "AddUInt256(" ++ toString x.toNat ++ ")"
  | .addUInt512 x => "AddUInt512(" ++ toString x.toNat ++ ")"
  | .addKeys keys => "AddKeys(" ++ keys.debug ++ ")"
  | .failure e => "Failure(" ++ e.debug ++ ")"

/-! ## Applying a transform -/

/-- `CLValue::try_from(StoredValue)`: a contract package is converted with `from_t`, which
gives a `CLValue` of type `Any`. -/
def StoredValue.toCLValue : StoredValue → Except TransformError CLValue
  | .clValue v => .ok v
  | .contractPackage bytes => .ok ⟨.any, bytes⟩
  | other => .error (.typeMismatch "CLValue" other.typeName)

/-- The integral type a `CLType` names, if any. -/
def CLType.numType? : CLType → Option NumType
  | .i32 => some .i32 | .i64 => some .i64 | .u8 => some .u8 | .u32 => some .u32
  | .u64 => some .u64 | .u128 => some .u128 | .u256 => some .u256 | .u512 => some .u512
  | _ => none

/-- `do_wrapping_addition::<X, Y>`: decode the stored `X`, add the operand cast to `X`. -/
def doWrappingAddition (x : NumType) (w : AddWidth) (v : CLValue) (toAdd : w.num.Val) :
    Except TransformError StoredValue :=
  match v.intoNum x with
  | .error e => .error (.ofCLValueError e)
  | .ok cur => .ok (.clValue (.fromNum x (NumType.wrappingAdd cur (NumType.cast w.num x toAdd))))

/-- `wrapping_addition::<Y>`: the stored value must be a `CLValue` of an integral type. -/
def wrappingAddition (w : AddWidth) (sv : StoredValue) (toAdd : w.num.Val) :
    Except TransformError StoredValue :=
  match sv.toCLValue with
  | .error e => .error e
  | .ok v =>
    match v.clType.numType? with
    | some x => doWrappingAddition x w v toAdd
    | none =>
      .error (.typeMismatch ("integral type compatible with " ++ w.typeName) v.clType.debugName)

/-- `Transform::apply`. -/
def Transform.apply : Transform → StoredValue → Except TransformError StoredValue
  | .identity, sv => .ok sv
  | .write v, _ => .ok v
  | .addInt32 x, sv => wrappingAddition .i32 sv x
  | .addUInt64 x, sv => wrappingAddition .u64 sv x
  | .addUInt128 x, sv => wrappingAddition .u128 sv x
  | .addUInt256 x, sv => wrappingAddition .u256 sv x
  | .addUInt512 x, sv => wrappingAddition .u512 sv x
  | .addKeys keys, sv =>
    match sv with
    | .contract c => .ok (.contract (c.namedKeysAppend keys))
    | .account a => .ok (.account (a.namedKeysAppend keys))
    | other => .error (.typeMismatch "Contract or Account" other.typeName)
  | .failure e, _ => .error e

/-- On a stored integral value, an addition adds its operand cast to the stored type. -/
theorem wrappingAddition_fromNum (w : AddWidth) (t : NumType) (x : t.Val) (y : w.num.Val) :
    wrappingAddition w (.clValue (.fromNum t x)) y =
      .ok (.clValue (.fromNum t (x + NumType.cast w.num t y))) := by
  have ht : (CLValue.fromNum t x).clType.numType? = some t := by cases t <;> rfl
  simp only [wrappingAddition, StoredValue.toCLValue, ht, doWrappingAddition,
    CLValue.intoNum_fromNum, NumType.wrappingAdd]

/-! ## Combining transforms -/

/-- `wrapped_transform_addition::<T>`: combine an addition of width `w` with a second
transform.  An `AddInt32` operand is sign-extended and an `AddUInt64` one zero-extended to
`w`; any other operand must have width `w` exactly. -/
def wrappedTransformAddition (w : AddWidth) (i : w.num.Val) (b : Transform) (expected : String) :
    Transform :=
  match b with
  | .addInt32 j => .addOf w (NumType.wrappingAdd i (NumType.cast .i32 w.num j))
  | .addUInt64 j => .addOf w (NumType.wrappingAdd i (NumType.cast .u64 w.num j))
  | b =>
    match b.tryFrom w with
    | some j => .addOf w (NumType.wrappingAdd i j)
    | none => .failure (.typeMismatch expected b.debug)

/-- `impl Add for Transform`. -/
def Transform.add : Transform → Transform → Transform
  | a, .identity => a
  | .identity, b => b
  | .failure e, _ => .failure e
  | _, .failure e => .failure e
  | _, .write v => .write v
  | .write v, b =>
    -- the second transform changes the value being written
    match b.apply v with
    | .error e => .failure e
    | .ok nv => .write nv
  | .addInt32 i, b =>
    match b with
    | .addInt32 j => .addInt32 (NumType.wrappingAdd i j)
    | .addUInt64 j => .addUInt64 (NumType.wrappingAdd j (NumType.cast .i32 .u64 i))
    | .addUInt128 j => .addUInt128 (NumType.wrappingAdd j (NumType.cast .i32 .u128 i))
    | .addUInt256 j => .addUInt256 (NumType.wrappingAdd j (NumType.cast .i32 .u256 i))
    | .addUInt512 j => .addUInt512 (NumType.wrappingAdd j (NumType.cast .i32 .u512 i))
    | other => .failure (.typeMismatch "AddInt32" other.debug)
  | .addUInt64 i, b =>
    match b with
    | .addInt32 j => .addInt32 (NumType.wrappingAdd j (NumType.cast .u64 .i32 i))
    | .addUInt64 j => .addUInt64 (NumType.wrappingAdd i j)
    | .addUInt128 j => .addUInt128 (NumType.wrappingAdd j (NumType.cast .u64 .u128 i))
    | .addUInt256 j => .addUInt256 (NumType.wrappingAdd j (NumType.cast .u64 .u256 i))
    | .addUInt512 j => .addUInt512 (NumType.wrappingAdd j (NumType.cast .u64 .u512 i))
    | other => .failure (.typeMismatch "AddUInt64" other.debug)
  | .addUInt128 i, b => wrappedTransformAddition .u128 i b "U128"
  | .addUInt256 i, b => wrappedTransformAddition .u256 i b "U256"
  | .addUInt512 i, b => wrappedTransformAddition .u512 i b "U512"
  | .addKeys ks1, b =>
    match b with
    | .addKeys ks2 => .addKeys (ks1.append ks2)
    | other => .failure (.typeMismatch "AddKeys" other.debug)

instance : Add Transform := ⟨Transform.add⟩

/-- `impl Default for Transform`. -/
instance : Inhabited Transform := ⟨.identity⟩

@[simp] theorem Transform.add_identity (a : Transform) : a + .identity = a := by
  cases a <;> rfl

@[simp] theorem Transform.identity_add (b : Transform) : .identity + b = b := by
  cases b <;> rfl

@[simp] theorem Transform.apply_identity (sv : StoredValue) : Transform.identity.apply sv = .ok sv :=
  rfl

@[simp] theorem Transform.apply_write (v sv : StoredValue) : (Transform.write v).apply sv = .ok v :=
  rfl

/-! ## Combining is not applying in sequence

The two additions of a combined transform are added at the operand width of the result, while
in sequence each is cast to the stored type on its own.  On a stored type wider than 64 bits the
two differ: `AddInt32(-1) + AddUInt64(0)` is `AddUInt64(u64::MAX)`, which zero-extends, where
`-1` on its own sign-extends. -/

theorem transform_add_not_sequential (t : NumType) (ht : 64 < t.width) (x : t.Val) :
    ((Transform.addInt32 (-1)).apply (.clValue (.fromNum t x))).bind (Transform.addUInt64 0).apply =
      .ok (.clValue (.fromNum t (x - 1))) ∧
    (Transform.addInt32 (-1) + Transform.addUInt64 0).apply (.clValue (.fromNum t x)) =
      .ok (.clValue (.fromNum t (x + BitVec.ofNat t.width (2 ^ 64 - 1)))) ∧
    (Transform.addInt32 (-1) + Transform.addUInt64 0).apply (.clValue (.fromNum t x)) ≠
      ((Transform.addInt32 (-1)).apply (.clValue (.fromNum t x))).bind (Transform.addUInt64 0).apply := by
  have hseq : ((Transform.addInt32 (-1)).apply (.clValue (.fromNum t x))).bind
      (Transform.addUInt64 0).apply = .ok (.clValue (.fromNum t (x - 1))) := by
    have h1 : (Transform.addInt32 (-1)).apply (.clValue (.fromNum t x)) =
        .ok (.clValue (.fromNum t (x + NumType.cast .i32 t (-1)))) :=
      wrappingAddition_fromNum .i32 t x (-1)
    have h2 : (Transform.addUInt64 0).apply (.clValue (.fromNum t (x - 1))) =
        .ok (.clValue (.fromNum t (x - 1 + NumType.cast .u64 t 0))) :=
      wrappingAddition_fromNum .u64 t (x - 1) 0
    rw [h1, NumType.cast_i32_neg_one t (by omega), ← BitVec.sub_eq_add_neg, Except.bind, h2,
      NumType.cast_u64_zero, add_zero]
  have hcomb : (Transform.addInt32 (-1) + Transform.addUInt64 0).apply (.clValue (.fromNum t x)) =
      .ok (.clValue (.fromNum t (x + BitVec.ofNat t.width (2 ^ 64 - 1)))) := by
    have hsum : Transform.addInt32 (-1) + Transform.addUInt64 0 = .addUInt64 (-1) := by decide
    have hwide : NumType.cast .u64 t (-1) = BitVec.ofNat t.width (2 ^ 64 - 1) := by
      apply BitVec.eq_of_toNat_eq
      rw [NumType.cast_u64, BitVec.toNat_setWidth, BitVec.toNat_ofNat]
      simp only [BitVec.ofNat_eq_ofNat, BitVec.neg_one_eq_allOnes, BitVec.toNat_allOnes]
      rfl
    rw [hsum, ← hwide]
    exact wrappingAddition_fromNum .u64 t x (-1)
  refine ⟨hseq, hcomb, ?_⟩
  rw [hseq, hcomb]
  intro h
  -- equal results would make `u64::MAX` equal to `-1` at a width above 64
  have hx := CLValue.fromNum_injective t (StoredValue.clValue.inj (Except.ok.inj h))
  have hval := congrArg BitVec.toNat (add_left_cancel (hx.trans (BitVec.sub_eq_add_neg x 1)))
  have hlt : 2 ^ 64 < 2 ^ t.width := Nat.pow_lt_pow_right (by decide) ht
  simp only [BitVec.toNat_ofNat, BitVec.ofNat_eq_ofNat, BitVec.neg_one_eq_allOnes,
    BitVec.toNat_allOnes, Nat.mod_eq_of_lt (show 2 ^ 64 - 1 < 2 ^ t.width by omega)] at hval
  omega

theorem transform_add_not_sequential_u512 :
    64 < NumType.u512.width ∧
    (Transform.addInt32 (-1) + Transform.addUInt64 0).apply (.clValue (.fromNum .u512 5)) ≠
      ((Transform.addInt32 (-1)).apply (.clValue (.fromNum .u512 5))).bind
        (Transform.addUInt64 0).apply :=
  ⟨by decide, (transform_add_not_sequential .u512 (by decide) 5).2.2⟩

end CasperNode
