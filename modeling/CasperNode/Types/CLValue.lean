import CasperNode.Types.Key

/-!
# `CLType`, `CLValue` and the integral types

A `CLValue` is a `CLType` together with the `bytesrepr` bytes of a value of that type;
`CLValue::into_t` checks the type and decodes, `CLValue::from_t` encodes.  The transforms
of the execution engine only ever look inside `CLValue`s of the eight integral types and
of the named-key type `(String, Key)`, so those are the decoders modelled here.

The integral types are one enumeration, `NumType`, whose values are bit vectors of the
type's width.  A bit vector does not record signedness; what differs between `i32` and
`u32` is how a value is widened (`NumType.cast`, the `as` conversions and the
`AsPrimitive` impls of `casper_types::uint`): a signed source is sign-extended, an unsigned
one zero-extended, and a narrower target keeps the low bits.  Wrapping addition is bit-vector
addition.

The fixed-width types are stored as their little-endian bytes.  `U128`, `U256` and `U512`
are stored as a length byte followed by the little-endian bytes with the high zero bytes
removed; the decoder accepts any length up to the width, so it also accepts non-minimal
encodings.
-/

namespace CasperNode

open LittleEndian

/-- `casper_types::CLType`. -/
inductive CLType where
  | bool | i32 | i64 | u8 | u32 | u64 | u128 | u256 | u512 | unit | string | key | uref
  | publicKey
  | option (t : CLType)
  | list (t : CLType)
  | byteArray (n : UInt32)
  | result (ok err : CLType)
  | map (key value : CLType)
  | tuple1 (t1 : CLType)
  | tuple2 (t1 t2 : CLType)
  | tuple3 (t1 t2 t3 : CLType)
  | any
deriving DecidableEq, Repr

/-- The derived `Debug` rendering of a `CLType`, which type-mismatch errors quote. -/
def CLType.debugName : CLType → String
  | .bool => "Bool" | .i32 => "I32" | .i64 => "I64" | .u8 => "U8" | .u32 => "U32"
  | .u64 => "U64" | .u128 => "U128" | .u256 => "U256" | .u512 => "U512" | .unit => "Unit"
  | .string => "String" | .key => "Key" | .uref => "URef" | .publicKey => "PublicKey"
  | .option t => "Option(" ++ t.debugName ++ ")"
  | .list t => "List(" ++ t.debugName ++ ")"
  | .byteArray n => "ByteArray(" ++ toString n ++ ")"
  | .result ok err => "Result \x7b ok: " ++ ok.debugName ++ ", err: " ++ err.debugName ++ " \x7d"
  | .map k v => "Map \x7b key: " ++ k.debugName ++ ", value: " ++ v.debugName ++ " \x7d"
  | .tuple1 t1 => "Tuple1([" ++ t1.debugName ++ "])"
  | .tuple2 t1 t2 => "Tuple2([" ++ t1.debugName ++ ", " ++ t2.debugName ++ "])"
  | .tuple3 t1 t2 t3 =>
    "Tuple3([" ++ t1.debugName ++ ", " ++ t2.debugName ++ ", " ++ t3.debugName ++ "])"
  | .any => "Any"

/-- `casper_types::named_key_type`, the type `(String, Key)`. -/
def namedKeyType : CLType := .tuple2 .string .key

/-- `casper_types::CLValue`. -/
structure CLValue where
  clType : CLType
  bytes : List UInt8
deriving DecidableEq

/-- `CLValueError`: a type mismatch (expected, found) or a decoding error. -/
inductive CLValueError where
  | serialization (e : BytesreprError)
  | type (expected found : CLType)
deriving DecidableEq

/-! ## The integral types -/

/-- The integral types `wrapping_addition` accepts. -/
inductive NumType where
  | i32 | i64 | u8 | u32 | u64 | u128 | u256 | u512
deriving DecidableEq, Repr

namespace NumType

/-- The width in bits. -/
def width : NumType → Nat
  | .i32 => 32 | .i64 => 64 | .u8 => 8 | .u32 => 32 | .u64 => 64
  | .u128 => 128 | .u256 => 256 | .u512 => 512

/-- Whether the type is signed. -/
def signed : NumType → Bool
  | .i32 | .i64 => true
  | _ => false

/-- Whether the type is one of the big integers with a length-prefixed encoding. -/
def isBig : NumType → Bool
  | .u128 | .u256 | .u512 => true
  | _ => false

/-- `CLTyped::cl_type`. -/
def clType : NumType → CLType
  | .i32 => .i32 | .i64 => .i64 | .u8 => .u8 | .u32 => .u32 | .u64 => .u64
  | .u128 => .u128 | .u256 => .u256 | .u512 => .u512

/-- The value of an integral type. -/
abbrev Val (t : NumType) := BitVec t.width

/-- `as` and `AsPrimitive::as_` from `src` to `dst`. -/
def cast (src dst : NumType) (x : src.Val) : dst.Val :=
  if src.signed then x.signExtend dst.width else x.setWidth dst.width

/-- `WrappingAdd::wrapping_add`. -/
def wrappingAdd {w : Nat} (x y : BitVec w) : BitVec w := x + y

/-- The number of bytes of the fixed-width encoding, or the maximal payload length of a big
integer. -/
def byteWidth (t : NumType) : Nat := t.width / 8

/-- Drop the high zero bytes of a little-endian string, as `to_bytes` of a big integer does
with `skip_while(|b| *b == 0)` on the reversed buffer. -/
def trimHighZeros (bs : List UInt8) : List UInt8 := (bs.reverse.dropWhile (· == 0)).reverse

/-- `ToBytes` of an integral value. -/
def toBytes (t : NumType) (x : t.Val) : List UInt8 :=
  if t.isBig then
    let payload := trimHighZeros (leBytes t.byteWidth x.toNat)
    UInt8.ofNat payload.length :: payload
  else leBytes t.byteWidth x.toNat

/-- `FromBytes` of an integral value. -/
def fromBytes (t : NumType) (bytes : List UInt8) : Decoded t.Val :=
  if t.isBig then
    match u8FromBytes bytes with
    | .error e => .error e
    | .ok (n, rem) =>
      if t.byteWidth < n.toNat then .error .formatting
      else
        match safeSplitAt rem n.toNat with
        | .error e => .error e
        | .ok (payload, rem) => .ok (BitVec.ofNat t.width (leValue payload), rem)
  else
    match safeSplitAt bytes t.byteWidth with
    | .error e => .error e
    | .ok (payload, rem) => .ok (BitVec.ofNat t.width (leValue payload), rem)

theorem width_eq (t : NumType) : t.width = 8 * t.byteWidth := by
  cases t <;> rfl

theorem byteWidth_le (t : NumType) : t.byteWidth ≤ 64 := by
  cases t <;> decide

/-- The trimmed payload followed by the zeros it dropped is the whole string. -/
theorem trimHighZeros_append (bs : List UInt8) :
    ∃ k, bs = trimHighZeros bs ++ List.replicate k 0 := by
  refine ⟨(bs.reverse.takeWhile (· == 0)).length, ?_⟩
  have hzero : ∀ b ∈ bs.reverse.takeWhile (· == 0), b = 0 := by
    intro b hb
    simpa using List.all_eq_true.mp List.all_takeWhile b hb
  have hrep : (bs.reverse.takeWhile (· == 0)).reverse =
      List.replicate (bs.reverse.takeWhile (· == 0)).length 0 := by
    rw [← List.length_reverse, List.eq_replicate_iff]
    exact ⟨rfl, fun b hb => hzero b (List.mem_reverse.mp hb)⟩
  calc bs = ((bs.reverse.takeWhile (· == 0)) ++ bs.reverse.dropWhile (· == 0)).reverse := by
        rw [List.takeWhile_append_dropWhile, List.reverse_reverse]
    _ = trimHighZeros bs ++ List.replicate (bs.reverse.takeWhile (· == 0)).length 0 := by
        rw [List.reverse_append, hrep, trimHighZeros]

theorem leValue_trimHighZeros (bs : List UInt8) : leValue (trimHighZeros bs) = leValue bs := by
  obtain ⟨k, hk⟩ := trimHighZeros_append bs
  conv => rhs; rw [hk]
  rw [leValue_append_zeros]

theorem length_trimHighZeros_le (bs : List UInt8) : (trimHighZeros bs).length ≤ bs.length := by
  obtain ⟨k, hk⟩ := trimHighZeros_append bs
  have := congrArg List.length hk
  simp at this
  omega

/-- The little-endian bytes of a value read back as the value: the byte width is exactly the
bit width, so nothing is lost. -/
theorem ofNat_leValue_leBytes (t : NumType) (x : t.Val) :
    BitVec.ofNat t.width (leValue (leBytes t.byteWidth x.toNat)) = x := by
  have hpow : (256 : Nat) ^ t.byteWidth = 2 ^ t.width := by
    rw [width_eq, pow_mul]; rfl
  rw [leValue_leBytes, hpow, Nat.mod_eq_of_lt x.isLt, BitVec.ofNat_toNat, BitVec.setWidth_eq]

/-- The integral codecs round-trip, whatever follows the encoding. -/
theorem fromBytes_toBytes (t : NumType) (x : t.Val) (rest : List UInt8) :
    t.fromBytes (t.toBytes x ++ rest) = .ok (x, rest) := by
  cases hbig : t.isBig
  case false =>
    simp only [fromBytes, toBytes, hbig, Bool.false_eq_true, if_false]
    rw [safeSplitAt_append (length_leBytes _ _)]
    simp only [ofNat_leValue_leBytes]
  case true =>
    -- the length byte holds the payload's length, which is at most the byte width
    have hlen : (trimHighZeros (leBytes t.byteWidth x.toNat)).length ≤ t.byteWidth := by
      simpa using length_trimHighZeros_le (leBytes t.byteWidth x.toNat)
    have hbyte : (UInt8.ofNat (trimHighZeros (leBytes t.byteWidth x.toNat)).length).toNat =
        (trimHighZeros (leBytes t.byteWidth x.toNat)).length := by
      have := byteWidth_le t
      exact UInt8.toNat_ofNat_of_lt' (by simp [UInt8.size]; omega)
    simp only [fromBytes, toBytes, hbig, if_true, List.cons_append, u8FromBytes, hbyte]
    rw [if_neg (by omega), safeSplitAt_append rfl]
    simp only [leValue_trimHighZeros, ofNat_leValue_leBytes]

theorem cast_u64 (t : NumType) (x : NumType.u64.Val) :
    NumType.cast .u64 t x = x.setWidth t.width := rfl

/-- Widening `-1` from `i32` sign-extends it to `-1` of the wider type. -/
theorem cast_i32_neg_one (t : NumType) (h : 32 ≤ t.width) : NumType.cast .i32 t (-1) = -1 := by
  show (-1 : BitVec 32).signExtend t.width = -1
  apply BitVec.eq_of_toInt_eq
  rw [BitVec.toInt_signExtend_of_le h]
  simp only [BitVec.ofNat_eq_ofNat, BitVec.neg_one_eq_allOnes]
  rw [BitVec.toInt_allOnes, BitVec.toInt_allOnes, if_pos (by decide), if_pos (by omega)]

theorem cast_u64_zero (t : NumType) : NumType.cast .u64 t 0 = 0 := by
  show (0 : BitVec 64).setWidth t.width = 0
  simp

end NumType

/-! ## `into_t` and `from_t` -/

/-- `CLValue::into_t` for the type `expected` decoded by `fromBytes`. -/
def CLValue.intoT {α : Type} (expected : CLType) (fromBytes : List UInt8 → Decoded α)
    (v : CLValue) : Except CLValueError α :=
  if v.clType = expected then
    match deserializeFromSlice fromBytes v.bytes with
    | .ok a => .ok a
    | .error e => .error (.serialization e)
  else .error (.type expected v.clType)

/-- `into_t` at an integral type. -/
def CLValue.intoNum (t : NumType) (v : CLValue) : Except CLValueError t.Val :=
  v.intoT t.clType t.fromBytes

/-- `CLValue::from_t` at an integral type. -/
def CLValue.fromNum (t : NumType) (x : t.Val) : CLValue := ⟨t.clType, t.toBytes x⟩

theorem CLValue.intoNum_fromNum (t : NumType) (x : t.Val) :
    (CLValue.fromNum t x).intoNum t = .ok x := by
  have h := NumType.fromBytes_toBytes t x []
  rw [List.append_nil] at h
  simp [CLValue.intoNum, CLValue.intoT, CLValue.fromNum, deserializeFromSlice_ok h]

theorem CLValue.fromNum_injective (t : NumType) : Function.Injective (CLValue.fromNum t) := by
  intro x y h
  have hx := CLValue.intoNum_fromNum t x
  rw [h, CLValue.intoNum_fromNum] at hx
  exact (Except.ok.inj hx).symm

/-- `FromBytes for (String, Key)`. -/
def namedKeyFromBytes (bytes : List UInt8) : Decoded (String × Key) :=
  match stringFromBytes bytes with
  | .error e => .error e
  | .ok (name, rem) => (Key.fromBytes rem).map fun p => ((name, p.1), p.2)

/-- `into_t::<(String, Key)>`. -/
def CLValue.intoNamedKey (v : CLValue) : Except CLValueError (String × Key) :=
  v.intoT namedKeyType namedKeyFromBytes

end CasperNode
