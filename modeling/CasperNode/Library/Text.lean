import Mathlib

/-!
# Text forms of bytes and numbers

The text that Rust's standard library and the `base16` crate write and read.  A byte is two
lowercase hexadecimal digits, high half first (`encodeLower`), and `base16::decode` reads pairs of
digits of either case, rejecting an odd length (`decode`).  An unsigned integer is written in
digits (`Nat.toDigits`, padded with zeros by `List.leftpad` for a width), and `from_str_radix`
reads an optional `+` and digits, failing on a non-digit or on a value out of range
(`fromStrRadix`).  Text is a list of characters.

Each reader reads back what the writer wrote (`decode_encodeLower`, `fromStrRadix_toDigits`,
`fromStrRadix_leftpad_toDigits`).  A text that starts with one word is stripped of a word that is
not a prefix of it, nor has it as a prefix, by no `strip_prefix` (`dropPrefix?_append_of_not`).
-/

namespace Text

/-! ## Digits -/

/-- The value of a character as a digit in any radix: `0-9`, then `a-z` or `A-Z` from ten. -/
def digitValue? (c : Char) : Option Nat :=
  if c.isDigit then some (c.toNat - '0'.toNat)
  else if c.isLower then some (c.toNat - 'a'.toNat + 10)
  else if c.isUpper then some (c.toNat - 'A'.toNat + 10)
  else none

/-- `char::to_digit`. -/
def toDigit (c : Char) (radix : Nat) : Option Nat := (digitValue? c).filter (· < radix)

/-- `IntErrorKind`: why a text is not an integer of a type. -/
inductive IntErrorKind where
  | empty
  | invalidDigit
  | posOverflow
deriving DecidableEq, Repr

/-- The digit loop of `from_str_radix` for an unsigned type whose values are below `bound`. -/
def parseDigits (radix bound : Nat) (result : Nat) : List Char → Except IntErrorKind Nat
  | [] => .ok result
  | c :: rest =>
    match toDigit c radix with
    | none => .error .invalidDigit
    | some x =>
      if result * radix + x < bound then parseDigits radix bound (result * radix + x) rest
      else .error .posOverflow

/-- `from_str_radix` of an unsigned type whose values are below `bound`: a lone sign is an
invalid digit, and a `+` is skipped. -/
def fromStrRadix (radix bound : Nat) : List Char → Except IntErrorKind Nat
  | [] => .error .empty
  | ['+'] | ['-'] => .error .invalidDigit
  | '+' :: digits => parseDigits radix bound 0 digits
  | digits => parseDigits radix bound 0 digits

/-! ## Bytes in hexadecimal -/

/-- `base16::encode_lower`, which the `base16` crate documents as "Encode bytes as base16, using
lower case characters for nibbles between 10 and 15 (a through f)": each byte as two digits,
high half first. -/
def encodeLower (bytes : List UInt8) : List Char :=
  bytes.flatMap fun byte => [Nat.digitChar (byte.toNat / 16), Nat.digitChar (byte.toNat % 16)]

/-- `base16::DecodeError`: `InvalidByte { index, byte }`, "An invalid byte was found in the
input (bytes must be `[0-9a-fA-F]`)", and `InvalidLength { length }`, "The length of the input
not a multiple of two". -/
inductive DecodeError where
  | invalidByte (index : Nat) (byte : Char)
  | invalidLength (length : Nat)
deriving DecidableEq, Repr

/-- The pairs of digits of `base16::decode`, from position `index` on; a lone last digit is left
to the length check. -/
def decodePairs (index : Nat) : List Char → Except DecodeError (List UInt8)
  | hi :: lo :: rest =>
    match toDigit hi 16, toDigit lo 16 with
    | some h, some l => (decodePairs (index + 2) rest).map (UInt8.ofNat (h * 16 + l) :: ·)
    | none, _ => .error (.invalidByte index hi)
    | some _, none => .error (.invalidByte (index + 1) lo)
  | _ => .ok []

/-- `base16::decode`, which the crate documents as decoding digits of either case and failing
on an odd length or on a character that is not a digit; its code checks the length first.  On
ASCII text, as here, a character is a byte and its index a byte index. -/
def decode (input : List Char) : Except DecodeError (List UInt8) :=
  if input.length % 2 = 1 then .error (.invalidLength input.length) else decodePairs 0 input

/-- `str::splitn(2, sep)`: the text before the first `sep` and the text after it, or the whole
text when `sep` does not occur. -/
def splitOnce (sep : Char) (s : List Char) : List (List Char) :=
  match s.span (· ≠ sep) with
  | (before, _ :: after) => [before, after]
  | (before, []) => [before]

/-! ## Digits read back -/

theorem digitValue?_digitChar : ∀ n < 16, digitValue? (Nat.digitChar n) = some n := by
  decide

theorem toDigit_digitChar {n radix : Nat} (hn : n < 16) (hradix : n < radix) :
    toDigit (Nat.digitChar n) radix = some n := by
  rw [toDigit, digitValue?_digitChar n hn]
  simp [hradix]

/-- The loop reads text in two parts one after the other. -/
theorem parseDigits_append (radix bound result : Nat) (cs ds : List Char) :
    parseDigits radix bound result (cs ++ ds) =
      (parseDigits radix bound result cs).bind fun value => parseDigits radix bound value ds := by
  induction cs generalizing result with
  | nil => rfl
  | cons c rest ih =>
    simp only [List.cons_append, parseDigits]
    split
    · rfl
    · split
      · exact ih _
      · rfl

/-- Zeros in front keep the value zero. -/
theorem parseDigits_replicate_zero {radix bound : Nat} (hradix : 0 < radix) (hbound : 0 < bound)
    (k : Nat) : parseDigits radix bound 0 (List.replicate k '0') = .ok 0 := by
  induction k with
  | zero => rfl
  | succ k ih =>
    have hzero : toDigit '0' radix = some 0 := toDigit_digitChar (n := 0) (by omega) hradix
    rw [List.replicate_succ, parseDigits, hzero]
    simp only [Nat.zero_mul, Nat.add_zero, if_pos hbound]
    exact ih

/-- The digits of `n` in a radix up to ten read back as `n` when `n` is in range. -/
theorem parseDigits_toDigits {radix bound : Nat} (h1 : 1 < radix) (h10 : radix ≤ 10) :
    ∀ n, n < bound → parseDigits radix bound 0 (Nat.toDigits radix n) = .ok n := by
  intro n
  induction n using Nat.base_induction radix h1 with
  | single m hm =>
    intro hbound
    rw [Nat.toDigits_of_lt_base hm, parseDigits, toDigit_digitChar (by omega) hm]
    simp only [Nat.zero_mul, Nat.zero_add, if_pos hbound]
    rfl
  | digit m k hk hm ih =>
    -- the digits of `radix * m + k` are those of `m` and then the digit of `k`
    intro hbound
    have hm' : m < bound := Nat.lt_of_le_of_lt (Nat.le_mul_of_pos_left m (by omega))
      (Nat.lt_of_le_of_lt (Nat.le_add_right _ k) hbound)
    rw [← Nat.toDigits_append_toDigits h1 hm hk, parseDigits_append, ih hm',
      Nat.toDigits_of_lt_base hk]
    simp only [Except.bind, parseDigits, toDigit_digitChar (by omega) hk]
    rw [Nat.mul_comm m radix, if_pos hbound]

theorem fromStrRadix_of_isDigit {radix bound : Nat} {c : Char} (hc : c.isDigit = true)
    (cs : List Char) : fromStrRadix radix bound (c :: cs) = parseDigits radix bound 0 (c :: cs) := by
  have hplus : c ≠ '+' := by
    rintro rfl
    exact absurd hc (by decide)
  have hminus : c ≠ '-' := by
    rintro rfl
    exact absurd hc (by decide)
  unfold fromStrRadix
  split <;> simp_all

/-- `from_str_radix` reads back the digits of a value in range. -/
theorem fromStrRadix_toDigits {radix bound : Nat} (h1 : 1 < radix) (h10 : radix ≤ 10) {n : Nat}
    (hn : n < bound) : fromStrRadix radix bound (Nat.toDigits radix n) = .ok n := by
  obtain ⟨c, cs, hcs⟩ := List.exists_cons_of_ne_nil (Nat.toDigits_ne_nil (b := radix) (n := n))
  have hc : c.isDigit = true :=
    Nat.isDigit_of_mem_toDigits (by omega) h10 (hcs ▸ List.mem_cons_self)
  rw [hcs, fromStrRadix_of_isDigit hc, ← hcs, parseDigits_toDigits h1 h10 n hn]

/-- `from_str_radix` reads back the digits of a value in range padded with zeros. -/
theorem fromStrRadix_leftpad_toDigits {radix bound : Nat} (h1 : 1 < radix) (h10 : radix ≤ 10)
    {n : Nat} (hn : n < bound) (width : Nat) :
    fromStrRadix radix bound ((Nat.toDigits radix n).leftpad width '0') = .ok n := by
  cases hpad : width - (Nat.toDigits radix n).length with
  | zero =>
    rw [List.leftpad, hpad, List.replicate_zero, List.nil_append, fromStrRadix_toDigits h1 h10 hn]
  | succ k =>
    rw [List.leftpad, hpad, List.replicate_succ, List.cons_append,
      fromStrRadix_of_isDigit (by decide), ← List.cons_append, ← List.replicate_succ,
      parseDigits_append, parseDigits_replicate_zero (by omega) (by omega)]
    exact parseDigits_toDigits h1 h10 n hn

/-! ## Bytes read back -/

theorem div_sixteen_lt (byte : UInt8) : byte.toNat / 16 < 16 := by
  have := byte.toNat_lt
  omega

/-- Two digits of a byte read back as the byte. -/
theorem ofNat_digits (byte : UInt8) : UInt8.ofNat (byte.toNat / 16 * 16 + byte.toNat % 16) = byte := by
  have hsplit : byte.toNat / 16 * 16 + byte.toNat % 16 = byte.toNat := by omega
  rw [hsplit]
  exact UInt8.ofNat_toNat

theorem length_encodeLower (bytes : List UInt8) : (encodeLower bytes).length = 2 * bytes.length := by
  induction bytes with
  | nil => rfl
  | cons byte rest ih =>
    rw [encodeLower, List.flatMap_cons, List.length_append, ← encodeLower, ih]
    simp only [List.length_cons, List.length_nil]
    omega

theorem decodePairs_encodeLower (index : Nat) (bytes : List UInt8) :
    decodePairs index (encodeLower bytes) = .ok bytes := by
  induction bytes generalizing index with
  | nil => rfl
  | cons byte rest ih =>
    have hhi : toDigit (Nat.digitChar (byte.toNat / 16)) 16 = some (byte.toNat / 16) :=
      toDigit_digitChar (div_sixteen_lt byte) (div_sixteen_lt byte)
    have hlo : toDigit (Nat.digitChar (byte.toNat % 16)) 16 = some (byte.toNat % 16) :=
      toDigit_digitChar (Nat.mod_lt byte.toNat (by omega)) (Nat.mod_lt byte.toNat (by omega))
    rw [encodeLower, List.flatMap_cons, ← encodeLower, List.cons_append, List.cons_append,
      List.nil_append, decodePairs, hhi, hlo]
    simp only [ih, Except.map, ofNat_digits]

/-- `base16::decode` reads back what `encode_lower` wrote. -/
theorem decode_encodeLower (bytes : List UInt8) : decode (encodeLower bytes) = .ok bytes := by
  rw [decode, length_encodeLower, if_neg (by omega), decodePairs_encodeLower]

/-- Every character `encode_lower` writes is a digit or a lowercase letter below `g`. -/
theorem mem_encodeLower {bytes : List UInt8} {c : Char} (hc : c ∈ encodeLower bytes) :
    ∃ n < 16, c = Nat.digitChar n := by
  obtain ⟨byte, -, hbyte⟩ := List.mem_flatMap.mp hc
  rcases List.mem_cons.mp hbyte with rfl | hlow
  · exact ⟨_, div_sixteen_lt byte, rfl⟩
  · rw [List.mem_singleton.mp hlow]
    exact ⟨_, Nat.mod_lt byte.toNat (by omega), rfl⟩

/-! ## Prefixes and separators -/

theorem dropPrefix?_append_self (pfx rest : List Char) : (pfx ++ rest).dropPrefix? pfx = some rest :=
  List.dropPrefix?_append_of_beq rest (beq_self_eq_true pfx)

theorem dropPrefix?_eq_none {pfx l : List Char} (h : ¬pfx <+: l) : l.dropPrefix? pfx = none := by
  rcases hdrop : l.dropPrefix? pfx with _ | rest
  · rfl
  · obtain ⟨p', rfl, hp'⟩ := List.dropPrefix?_eq_some_iff.mp hdrop
    exact absurd (beq_iff_eq.mp hp' ▸ List.prefix_append p' rest) h

/-- A text that starts with one word is not stripped of a word that neither is a prefix of that
word nor has it as a prefix. -/
theorem dropPrefix?_append_of_not {pfx word : List Char} (h₁ : ¬pfx <+: word)
    (h₂ : ¬word <+: pfx) (rest : List Char) : (word ++ rest).dropPrefix? pfx = none := by
  apply dropPrefix?_eq_none
  intro hpfx
  rcases List.prefix_or_prefix_of_prefix hpfx (List.prefix_append word rest) with h | h
  · exact h₁ h
  · exact h₂ h

theorem splitOnce_append {sep : Char} {before : List Char} (hbefore : sep ∉ before)
    (after : List Char) : splitOnce sep (before ++ sep :: after) = [before, after] := by
  have hspan : (before ++ sep :: after).span (· ≠ sep) = (before, sep :: after) := by
    rw [List.span_eq_takeWhile_dropWhile, List.takeWhile_append_of_pos, List.dropWhile_append_of_pos]
    · simp
    · intro c hc
      have hne : c ≠ sep := fun h => hbefore (h ▸ hc)
      simpa using hne
    · intro c hc
      have hne : c ≠ sep := fun h => hbefore (h ▸ hc)
      simpa using hne
  rw [splitOnce, hspan]

end Text
