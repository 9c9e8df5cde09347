import CasperNode.Types.CLValue

/-!
# The byte format of `CLType` and `CLValue`

`CLType::append_bytes` writes a type as its tag followed by the types it is built from;
`depth_limited_from_bytes` reads one back and refuses to descend more than
`CL_TYPE_RECURSION_DEPTH` levels.  Writing has no such limit.  A `CLValue` is its bytes behind a
`u32` length prefix, followed by its type.

A type reads back from its own bytes exactly when the budget left covers its nesting depth
(`depthLimitedFromBytes_appendBytes`); a deeper one fails with `ExceededRecursionDepth`
(`depthLimitedFromBytes_deep`).  So a `CLValue` round-trips when its type is at most
`CL_TYPE_RECURSION_DEPTH` deep, and a value of a deeper type serializes but does not
deserialize.

`parse_cl_tuple_types` is unrolled: its loop runs exactly 1, 2 or 3 times, so the `unwrap`s
that take the tuple's types out of its `VecDeque` cannot fail.  The `OutOfMemory` that
`try_vec_with_capacity` may return is not modelled.
-/

namespace CasperNode

/-- `CL_TYPE_RECURSION_DEPTH`. -/
def clTypeRecursionDepth : Nat := 50

/-- `bytesrepr::U32_SERIALIZED_LENGTH`. -/
def u32SerializedLength : Nat := 4

theorem u32FromBytes_u32ToBytes (x : UInt32) (rest : List UInt8) :
    u32FromBytes (u32ToBytes x ++ rest) = .ok (x, rest) := by
  have hvalue : UInt32.ofNat (LittleEndian.leValue (u32ToBytes x)) = x := by
    rw [u32ToBytes, LittleEndian.leValue_leBytes, Nat.mod_eq_of_lt (by simpa using x.toNat_lt)]
    exact UInt32.ofNat_toNat
  simp [u32FromBytes, safeSplitAt_append (by simp [u32ToBytes] : (u32ToBytes x).length = 4),
    hvalue]

namespace CLType

/-- `CLType::append_bytes`: what it appends to the stream. -/
def appendBytes : CLType → List UInt8
  | .bool => [0]
  | .i32 => [1]
  | .i64 => [2]
  | .u8 => [3]
  | .u32 => [4]
  | .u64 => [5]
  | .u128 => [6]
  | .u256 => [7]
  | .u512 => [8]
  | .unit => [9]
  | .string => [10]
  | .key => [11]
  | .uref => [12]
  | .publicKey => [22]
  | .option t => 13 :: t.appendBytes
  | .list t => 14 :: t.appendBytes
  | .byteArray len => 15 :: u32ToBytes len
  | .result ok err => 16 :: (ok.appendBytes ++ err.appendBytes)
  | .map keyType valueType => 17 :: (keyType.appendBytes ++ valueType.appendBytes)
  | .tuple1 t1 => 18 :: t1.appendBytes
  | .tuple2 t1 t2 => 19 :: (t1.appendBytes ++ t2.appendBytes)
  | .tuple3 t1 t2 t3 => 20 :: (t1.appendBytes ++ t2.appendBytes ++ t3.appendBytes)
  | .any => [21]

/-- `CLType::serialized_length`. -/
def serializedLength : CLType → Nat
  | .option t | .list t | .tuple1 t => 1 + t.serializedLength
  | .byteArray _ => 1 + u32SerializedLength
  | .result t1 t2 | .map t1 t2 | .tuple2 t1 t2 => 1 + (t1.serializedLength + t2.serializedLength)
  | .tuple3 t1 t2 t3 => 1 + (t1.serializedLength + t2.serializedLength + t3.serializedLength)
  | _ => 1

/-- The nesting depth of a type: the number of levels `depth_limited_from_bytes` descends to
read it. -/
def depth : CLType → Nat
  | .option t | .list t | .tuple1 t => t.depth + 1
  | .result t1 t2 | .map t1 t2 | .tuple2 t1 t2 => max t1.depth t2.depth + 1
  | .tuple3 t1 t2 t3 => max t1.depth (max t2.depth t3.depth) + 1
  | _ => 1

/-- `depth_limited_from_bytes`: `depth` levels are already open. -/
def depthLimitedFromBytes (depth : Nat) (bytes : List UInt8) : Decoded CLType :=
  if _hdepth : clTypeRecursionDepth ≤ depth then .error .exceededRecursionDepth
  else
    let depth := depth + 1
    match u8FromBytes bytes with
    | .error e => .error e
    | .ok (tag, remainder) =>
      match tag.toNat with
      | 0 => .ok (.bool, remainder)
      | 1 => .ok (.i32, remainder)
      | 2 => .ok (.i64, remainder)
      | 3 => .ok (.u8, remainder)
      | 4 => .ok (.u32, remainder)
      | 5 => .ok (.u64, remainder)
      | 6 => .ok (.u128, remainder)
      | 7 => .ok (.u256, remainder)
      | 8 => .ok (.u512, remainder)
      | 9 => .ok (.unit, remainder)
      | 10 => .ok (.string, remainder)
      | 11 => .ok (.key, remainder)
      | 12 => .ok (.uref, remainder)
      | 22 => .ok (.publicKey, remainder)
      | 13 =>
        match depthLimitedFromBytes depth remainder with
        | .error e => .error e
        | .ok (innerType, remainder) => .ok (.option innerType, remainder)
      | 14 =>
        match depthLimitedFromBytes depth remainder with
        | .error e => .error e
        | .ok (innerType, remainder) => .ok (.list innerType, remainder)
      | 15 =>
        match u32FromBytes remainder with
        | .error e => .error e
        | .ok (len, remainder) => .ok (.byteArray len, remainder)
      | 16 =>
        match depthLimitedFromBytes depth remainder with
        | .error e => .error e
        | .ok (okType, remainder) =>
          match depthLimitedFromBytes depth remainder with
          | .error e => .error e
          | .ok (errType, remainder) => .ok (.result okType errType, remainder)
      | 17 =>
        match depthLimitedFromBytes depth remainder with
        | .error e => .error e
        | .ok (keyType, remainder) =>
          match depthLimitedFromBytes depth remainder with
          | .error e => .error e
          | .ok (valueType, remainder) => .ok (.map keyType valueType, remainder)
      | 18 =>
        match depthLimitedFromBytes depth remainder with
        | .error e => .error e
        | .ok (t1, remainder) => .ok (.tuple1 t1, remainder)
      | 19 =>
        match depthLimitedFromBytes depth remainder with
        | .error e => .error e
        | .ok (t1, remainder) =>
          match depthLimitedFromBytes depth remainder with
          | .error e => .error e
          | .ok (t2, remainder) => .ok (.tuple2 t1 t2, remainder)
      | 20 =>
        match depthLimitedFromBytes depth remainder with
        | .error e => .error e
        | .ok (t1, remainder) =>
          match depthLimitedFromBytes depth remainder with
          | .error e => .error e
          | .ok (t2, remainder) =>
            match depthLimitedFromBytes depth remainder with
            | .error e => .error e
            | .ok (t3, remainder) => .ok (.tuple3 t1 t2 t3, remainder)
      | 21 => .ok (.any, remainder)
      | _ => .error .formatting
termination_by clTypeRecursionDepth - depth

/-- `FromBytes for CLType`. -/
def fromBytes (bytes : List UInt8) : Decoded CLType := depthLimitedFromBytes 0 bytes

theorem one_le_depth (t : CLType) : 1 ≤ t.depth := by
  cases t <;> simp [depth]

theorem length_appendBytes (t : CLType) : t.appendBytes.length = t.serializedLength := by
  induction t with
  | option t ih | list t ih | tuple1 t ih => simp [appendBytes, serializedLength, ih]; omega
  | byteArray len => simp [appendBytes, serializedLength, u32ToBytes, u32SerializedLength]
  | result t1 t2 ih1 ih2 | map t1 t2 ih1 ih2 | tuple2 t1 t2 ih1 ih2 =>
    simp [appendBytes, serializedLength, ih1, ih2]; omega
  | tuple3 t1 t2 t3 ih1 ih2 ih3 => simp [appendBytes, serializedLength, ih1, ih2, ih3]; omega
  | _ => rfl

theorem depthLimitedFromBytes_of_le {depth : Nat} (bytes : List UInt8)
    (h : clTypeRecursionDepth ≤ depth) :
    depthLimitedFromBytes depth bytes = .error .exceededRecursionDepth := by
  rw [depthLimitedFromBytes, dif_pos h]

theorem lt_of_depth_le {t : CLType} {depth : Nat} (h : depth + t.depth ≤ clTypeRecursionDepth) :
    ¬ clTypeRecursionDepth ≤ depth := by
  have := one_le_depth t
  omega

/-- A type reads back from its own bytes when the levels already open leave room for its
nesting depth. -/
theorem depthLimitedFromBytes_appendBytes (t : CLType) (depth : Nat) (rest : List UInt8)
    (h : depth + t.depth ≤ clTypeRecursionDepth) :
    depthLimitedFromBytes depth (t.appendBytes ++ rest) = .ok (t, rest) := by
  induction t generalizing depth rest with
  | option t ih | list t ih | tuple1 t ih =>
    have hin := ih (depth + 1) rest (by simp [CLType.depth] at h; omega)
    rw [depthLimitedFromBytes, dif_neg (lt_of_depth_le h)]
    simp [appendBytes, u8FromBytes, hin]
  | byteArray len =>
    rw [depthLimitedFromBytes, dif_neg (lt_of_depth_le h)]
    simp [appendBytes, u8FromBytes, u32FromBytes_u32ToBytes]
  | result t1 t2 ih1 ih2 | map t1 t2 ih1 ih2 | tuple2 t1 t2 ih1 ih2 =>
    rw [depthLimitedFromBytes, dif_neg (lt_of_depth_le h)]
    simp only [CLType.depth] at h
    have h1 := ih1 (depth + 1) (t2.appendBytes ++ rest) (by omega)
    have h2 := ih2 (depth + 1) rest (by omega)
    simp [appendBytes, u8FromBytes, h1, h2]
  | tuple3 t1 t2 t3 ih1 ih2 ih3 =>
    rw [depthLimitedFromBytes, dif_neg (lt_of_depth_le h)]
    simp only [CLType.depth] at h
    have h1 := ih1 (depth + 1) (t2.appendBytes ++ (t3.appendBytes ++ rest)) (by omega)
    have h2 := ih2 (depth + 1) (t3.appendBytes ++ rest) (by omega)
    have h3 := ih3 (depth + 1) rest (by omega)
    simp [appendBytes, u8FromBytes, h1, h2, h3]
  | _ =>
    rw [depthLimitedFromBytes, dif_neg (lt_of_depth_le h)]
    simp [appendBytes, u8FromBytes]

/-- A type nested deeper than the levels left fails with `ExceededRecursionDepth`, although it
was written without complaint: the decoder reaches the limit on its deepest branch, after
reading every shallower type before it. -/
theorem depthLimitedFromBytes_deep (t : CLType) (depth : Nat) (rest : List UInt8)
    (h : clTypeRecursionDepth < depth + t.depth) :
    depthLimitedFromBytes depth (t.appendBytes ++ rest) = .error .exceededRecursionDepth := by
  induction t generalizing depth rest with
  | option t ih | list t ih | tuple1 t ih =>
    by_cases hopen : clTypeRecursionDepth ≤ depth
    · exact depthLimitedFromBytes_of_le _ hopen
    have hin := ih (depth + 1) rest (by simp [CLType.depth] at h; omega)
    rw [depthLimitedFromBytes, dif_neg hopen]
    simp [appendBytes, u8FromBytes, hin]
  | result t1 t2 ih1 ih2 | map t1 t2 ih1 ih2 | tuple2 t1 t2 ih1 ih2 =>
    by_cases hopen : clTypeRecursionDepth ≤ depth
    · exact depthLimitedFromBytes_of_le _ hopen
    rw [depthLimitedFromBytes, dif_neg hopen]
    simp only [CLType.depth] at h
    -- either the first type is too deep, or it reads back and the second one is
    by_cases h1 : clTypeRecursionDepth < depth + 1 + t1.depth
    · simp [appendBytes, u8FromBytes, ih1 (depth + 1) (t2.appendBytes ++ rest) h1]
    · have hok := depthLimitedFromBytes_appendBytes t1 (depth + 1) (t2.appendBytes ++ rest)
        (by omega)
      simp [appendBytes, u8FromBytes, hok, ih2 (depth + 1) rest (by omega)]
  | tuple3 t1 t2 t3 ih1 ih2 ih3 =>
    by_cases hopen : clTypeRecursionDepth ≤ depth
    · exact depthLimitedFromBytes_of_le _ hopen
    rw [depthLimitedFromBytes, dif_neg hopen]
    simp only [CLType.depth] at h
    by_cases h1 : clTypeRecursionDepth < depth + 1 + t1.depth
    · simp [appendBytes, u8FromBytes,
        ih1 (depth + 1) (t2.appendBytes ++ (t3.appendBytes ++ rest)) h1]
    have hok1 := depthLimitedFromBytes_appendBytes t1 (depth + 1)
      (t2.appendBytes ++ (t3.appendBytes ++ rest)) (by omega)
    by_cases h2 : clTypeRecursionDepth < depth + 1 + t2.depth
    · simp [appendBytes, u8FromBytes, hok1, ih2 (depth + 1) (t3.appendBytes ++ rest) h2]
    have hok2 := depthLimitedFromBytes_appendBytes t2 (depth + 1) (t3.appendBytes ++ rest)
      (by omega)
    simp [appendBytes, u8FromBytes, hok1, hok2, ih3 (depth + 1) rest (by omega)]
  | _ =>
    -- a type with no inner type has depth one, so no level was left
    exact depthLimitedFromBytes_of_le _ (by simp [CLType.depth] at h; omega)

end CLType

/-! ## Length-prefixed bytes and `CLValue` -/

/-- `u8_slice_to_bytes`: the bytes behind their length as a `u32`; a longer slice is not
representable. -/
def u8SliceToBytes (bytes : List UInt8) : Except BytesreprError (List UInt8) :=
  if bytes.length < 2 ^ 32 then .ok (u32ToBytes (UInt32.ofNat bytes.length) ++ bytes)
  else .error .notRepresentable

/-- `write_u8_slice`. -/
def writeU8Slice (bytes writer : List UInt8) : Except BytesreprError (List UInt8) :=
  if bytes.length < 2 ^ 32 then .ok (writer ++ u32ToBytes (UInt32.ofNat bytes.length) ++ bytes)
  else .error .notRepresentable

/-- `u8_slice_serialized_length`. -/
def u8SliceSerializedLength (bytes : List UInt8) : Nat := u32SerializedLength + bytes.length

/-- `FromBytes for Bytes`. -/
def bytesFromBytes (bytes : List UInt8) : Decoded (List UInt8) :=
  match u32FromBytes bytes with
  | .error e => .error e
  | .ok (size, remainder) => safeSplitAt remainder size.toNat

theorem u8SliceToBytes_of_lt {bytes : List UInt8} (h : bytes.length < 2 ^ 32) :
    u8SliceToBytes bytes = .ok (u32ToBytes (UInt32.ofNat bytes.length) ++ bytes) := by
  rw [u8SliceToBytes, if_pos h]

theorem bytesFromBytes_append {bytes : List UInt8} (h : bytes.length < 2 ^ 32)
    (rest : List UInt8) :
    bytesFromBytes (u32ToBytes (UInt32.ofNat bytes.length) ++ bytes ++ rest) = .ok (bytes, rest) := by
  have hsize : (UInt32.ofNat bytes.length).toNat = bytes.length := by
    rw [UInt32.toNat_ofNat']
    exact Nat.mod_eq_of_lt h
  simp [bytesFromBytes, u32FromBytes_u32ToBytes, hsize, safeSplitAt_append]

namespace CLValue

/-- `ToBytes::to_bytes for CLValue`, through `into_bytes`. -/
def toBytes (v : CLValue) : Except BytesreprError (List UInt8) :=
  match u8SliceToBytes v.bytes with
  | .error e => .error e
  | .ok result => .ok (result ++ v.clType.appendBytes)

/-- `ToBytes::serialized_length for CLValue`. -/
def serializedLength (v : CLValue) : Nat :=
  u8SliceSerializedLength v.bytes + v.clType.serializedLength

/-- `ToBytes::write_bytes for CLValue`: the writer with the encoding appended. -/
def writeBytes (v : CLValue) (writer : List UInt8) : Except BytesreprError (List UInt8) :=
  match writeU8Slice v.bytes writer with
  | .error e => .error e
  | .ok writer => .ok (writer ++ v.clType.appendBytes)

/-- `FromBytes for CLValue`. -/
def fromBytes (bytes : List UInt8) : Decoded CLValue :=
  match bytesFromBytes bytes with
  | .error e => .error e
  | .ok (bytes, remainder) =>
    match CLType.fromBytes remainder with
    | .error e => .error e
    | .ok (clType, remainder) => .ok (⟨clType, bytes⟩, remainder)

/-- The encoding of a value whose bytes have a `u32` length: the length, the bytes, the type. -/
theorem toBytes_of_lt {v : CLValue} (h : v.bytes.length < 2 ^ 32) :
    v.toBytes = .ok (u32ToBytes (UInt32.ofNat v.bytes.length) ++ v.bytes ++ v.clType.appendBytes) := by
  simp [toBytes, u8SliceToBytes_of_lt h]

/-- Reading an encoding back: the bytes come back whole, and then the type is read. -/
theorem fromBytes_toBytes_append {v : CLValue} (h : v.bytes.length < 2 ^ 32) (rest : List UInt8) :
    fromBytes (u32ToBytes (UInt32.ofNat v.bytes.length) ++ v.bytes ++ v.clType.appendBytes ++ rest) =
      match CLType.fromBytes (v.clType.appendBytes ++ rest) with
      | .error e => .error e
      | .ok (clType, remainder) => .ok (⟨clType, v.bytes⟩, remainder) := by
  rw [fromBytes, List.append_assoc _ v.clType.appendBytes, bytesFromBytes_append h]

end CLValue

/-- A value whose type is nested deeper than `CL_TYPE_RECURSION_DEPTH` serializes, and its
bytes do not deserialize. -/
theorem clValue_deep_type_not_roundtrip (v : CLValue) (hlen : v.bytes.length < 2 ^ 32)
    (hdeep : clTypeRecursionDepth < v.clType.depth) (rest : List UInt8) :
    ∃ b, v.toBytes = .ok b ∧ CLValue.fromBytes (b ++ rest) = .error .exceededRecursionDepth := by
  refine ⟨_, CLValue.toBytes_of_lt hlen, ?_⟩
  have hfail : CLType.fromBytes (v.clType.appendBytes ++ rest) = .error .exceededRecursionDepth :=
    CLType.depthLimitedFromBytes_deep v.clType 0 rest (by omega)
  rw [CLValue.fromBytes_toBytes_append hlen, hfail]

theorem clValue_deep_type_not_roundtrip_option :
    ([] : List UInt8).length < 2 ^ 32 ∧ clTypeRecursionDepth < (CLType.option^[50] .bool).depth ∧
      ∃ b, (⟨CLType.option^[50] .bool, []⟩ : CLValue).toBytes = .ok b ∧
        CLValue.fromBytes (b ++ []) = .error .exceededRecursionDepth :=
  ⟨by decide, by decide, clValue_deep_type_not_roundtrip _ (by decide) (by decide) []⟩

/-- Below the limit the whole encoding round-trips: the value and the rest come back, the
serialized length is the length of the bytes and `write_bytes` appends the same bytes. -/
theorem clValue_roundtrip (v : CLValue) (hlen : v.bytes.length < 2 ^ 32)
    (hdepth : v.clType.depth ≤ clTypeRecursionDepth) (rest writer : List UInt8) :
    ∃ b, v.toBytes = .ok b ∧ CLValue.fromBytes (b ++ rest) = .ok (v, rest) ∧
      v.serializedLength = b.length ∧ v.writeBytes writer = .ok (writer ++ b) := by
  refine ⟨_, CLValue.toBytes_of_lt hlen, ?_, ?_, ?_⟩
  · have hok : CLType.fromBytes (v.clType.appendBytes ++ rest) = .ok (v.clType, rest) :=
      CLType.depthLimitedFromBytes_appendBytes v.clType 0 rest (by omega)
    rw [CLValue.fromBytes_toBytes_append hlen, hok]
  · simp [CLValue.serializedLength, u8SliceSerializedLength, u32SerializedLength, u32ToBytes,
      CLType.length_appendBytes]
    omega
  · rw [CLValue.writeBytes, writeU8Slice, if_pos hlen]
    simp

theorem clValue_roundtrip_bool :
    ([1] : List UInt8).length < 2 ^ 32 ∧ CLType.bool.depth ≤ clTypeRecursionDepth ∧
      ∃ b, (⟨.bool, [1]⟩ : CLValue).toBytes = .ok b ∧
        CLValue.fromBytes (b ++ []) = .ok (⟨.bool, [1]⟩, []) ∧
        (⟨.bool, [1]⟩ : CLValue).serializedLength = b.length ∧
        (⟨.bool, [1]⟩ : CLValue).writeBytes [] = .ok ([] ++ b) :=
  ⟨by decide, by decide, clValue_roundtrip ⟨.bool, [1]⟩ (by decide) (by decide) [] []⟩

end CasperNode
