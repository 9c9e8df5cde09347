import CasperNode.Library.LittleEndian

/-!
# The `bytesrepr` byte format: primitives

`casper_types::bytesrepr` serializes every value of the data model into a byte string.
This module models its error type, the two helpers every decoder goes through
(`safe_split_at` and `deserialize_from_slice`), and the codecs of the fixed-width
primitives: `u8`, `u32`, `u64`, the byte arrays `[u8; N]` and `String`.

A decoder is a function from the input to the decoded value and the unconsumed
remainder, or an error, exactly as `FromBytes::from_bytes`.  Encoders that cannot fail on
the values modelled here return the bytes directly.
-/

namespace CasperNode

open LittleEndian

/-- `bytesrepr::Error`. -/
inductive BytesreprError where
  | earlyEndOfStream
  | formatting
  | leftOverBytes
  | outOfMemory
  | notRepresentable
  | exceededRecursionDepth
deriving DecidableEq, Repr

/-- The result of `FromBytes::from_bytes`: a value and the remaining input. -/
abbrev Decoded (α : Type) := Except BytesreprError (α × List UInt8)

/-- `bytesrepr::safe_split_at`. -/
def safeSplitAt (bytes : List UInt8) (n : Nat) : Decoded (List UInt8) :=
  if bytes.length < n then .error .earlyEndOfStream else .ok (bytes.take n, bytes.drop n)

/-- `bytesrepr::deserialize_from_slice`: decode and insist that all input is consumed. -/
def deserializeFromSlice {α : Type} (fromBytes : List UInt8 → Decoded α) (bytes : List UInt8) :
    Except BytesreprError α :=
  match fromBytes bytes with
  | .error e => .error e
  | .ok (a, rem) => if rem.isEmpty then .ok a else .error .leftOverBytes

theorem safeSplitAt_append {pre rest : List UInt8} {n : Nat} (h : pre.length = n) :
    safeSplitAt (pre ++ rest) n = .ok (pre, rest) := by
  subst h
  simp [safeSplitAt]

theorem deserializeFromSlice_ok {α : Type} {fromBytes : List UInt8 → Decoded α}
    {bytes : List UInt8} {a : α} (h : fromBytes bytes = .ok (a, [])) :
    deserializeFromSlice fromBytes bytes = .ok a := by
  simp [deserializeFromSlice, h]

/-! ## Fixed-width unsigned integers and byte arrays -/

/-- `FromBytes for u8`. -/
def u8FromBytes : List UInt8 → Decoded UInt8
  | [] => .error .earlyEndOfStream
  | b :: rem => .ok (b, rem)

/-- `ToBytes for u32`: four little-endian bytes. -/
def u32ToBytes (x : UInt32) : List UInt8 := leBytes 4 x.toNat

/-- `FromBytes for u32`. -/
def u32FromBytes (bytes : List UInt8) : Decoded UInt32 :=
  match safeSplitAt bytes 4 with
  | .error e => .error e
  | .ok (b, rem) => .ok (UInt32.ofNat (leValue b), rem)

/-- `ToBytes for u64`: eight little-endian bytes. -/
def u64ToBytes (x : UInt64) : List UInt8 := leBytes 8 x.toNat

/-- `FromBytes for u64`. -/
def u64FromBytes (bytes : List UInt8) : Decoded UInt64 :=
  match safeSplitAt bytes 8 with
  | .error e => .error e
  | .ok (b, rem) => .ok (UInt64.ofNat (leValue b), rem)

@[simp] theorem length_u64ToBytes (x : UInt64) : (u64ToBytes x).length = 8 := by
  simp [u64ToBytes]

/-- Distinct `u64`s have distinct encodings: the bytes read back as the value. -/
theorem u64ToBytes_injective : Function.Injective u64ToBytes := by
  intro x y h
  have hx : leValue (u64ToBytes x) = x.toNat := by
    rw [u64ToBytes, leValue_leBytes]
    exact Nat.mod_eq_of_lt x.toNat_lt
  have hy : leValue (u64ToBytes y) = y.toNat := by
    rw [u64ToBytes, leValue_leBytes]
    exact Nat.mod_eq_of_lt y.toNat_lt
  exact UInt64.toNat_inj.mp (hx.symm.trans (h ▸ hy))

/-- A 32-byte array `[u8; 32]`, the payload of hashes and addresses. -/
abbrev Bytes32 := Vector UInt8 32

/-- `ToBytes for [u8; 32]`: the bytes themselves, with no length prefix. -/
def bytes32ToBytes (a : Bytes32) : List UInt8 := a.toList

/-- `FromBytes for [u8; 32]`. -/
def bytes32FromBytes (bytes : List UInt8) : Decoded Bytes32 :=
  match safeSplitAt bytes 32 with
  | .error e => .error e
  | .ok (b, rem) =>
    if h : b.length = 32 then .ok (⟨b.toArray, by simpa using h⟩, rem) else .error .earlyEndOfStream

/-! ## Strings -/

/-- `ToBytes for String`: the UTF-8 bytes behind a `u32` length prefix. -/
def stringToBytes (s : String) : List UInt8 :=
  u32ToBytes (UInt32.ofNat s.toUTF8.size) ++ s.toUTF8.toList

/-- `FromBytes for String`: invalid UTF-8 is a formatting error. -/
def stringFromBytes (bytes : List UInt8) : Decoded String :=
  match u32FromBytes bytes with
  | .error e => .error e
  | .ok (size, rem) =>
    match safeSplitAt rem size.toNat with
    | .error e => .error e
    | .ok (strBytes, rem) =>
      match String.fromUTF8? strBytes.toByteArray with
      | some s => .ok (s, rem)
      | none => .error .formatting

end CasperNode
