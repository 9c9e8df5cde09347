import Mathlib

/-!
# Bit counts of unsigned words

The methods of a `w`-bit unsigned integer that count bits: `trailing_zeros`, which is the bit
width for zero, `leading_zeros`, and `checked_next_power_of_two`, which the standard library
computes as all ones shifted right by the leading zeros of `x - 1`, plus one, and which is
`none` when that sum overflows.  Values are natural numbers below `2 ^ w`.

The trailing zeros of a nonzero value are its two-adic valuation
(`trailingZeros_of_ne_zero`), and the next power of two above `x > 1` is
`2 ^ (log2 (x - 1) + 1)` (`oneLessThanNextPowerOfTwo_eq`): enough to compute a base-two
logarithm from them.
-/

namespace WordBits

/-- The number of times two divides `x`, halving at most `fuel` times. -/
def twoCount : Nat → Nat → Nat
  | 0, _ => 0
  | fuel + 1, x => if x % 2 = 0 then twoCount fuel (x / 2) + 1 else 0

/-- `trailing_zeros`: the bit width for zero.  A nonzero value has fewer trailing zeros than
its value, so halving it that many times is enough. -/
def trailingZeros (w x : Nat) : Nat := if x = 0 then w else twoCount x x

/-- `leading_zeros` of a value below `2 ^ w`. -/
def leadingZeros (w x : Nat) : Nat := if x = 0 then w else w - 1 - Nat.log2 x

/-- `one_less_than_next_power_of_two`: all ones shifted right by the leading zeros of `x - 1`. -/
def oneLessThanNextPowerOfTwo (w x : Nat) : Nat :=
  if x ≤ 1 then 0 else (2 ^ w - 1) >>> leadingZeros w (x - 1)

/-- `checked_next_power_of_two`: `none` when the next power of two does not fit. -/
def checkedNextPowerOfTwo (w x : Nat) : Option Nat :=
  if oneLessThanNextPowerOfTwo w x + 1 < 2 ^ w then some (oneLessThanNextPowerOfTwo w x + 1)
  else none

/-- `saturating_add`. -/
def saturatingAdd (w x y : Nat) : Nat := min (x + y) (2 ^ w - 1)

/-- `saturating_mul`. -/
def saturatingMul (w x y : Nat) : Nat := min (x * y) (2 ^ w - 1)

/-! ## Trailing zeros -/

theorem twoCount_eq_padicValNat (fuel : Nat) {x : Nat} (hx : x ≠ 0)
    (hfuel : padicValNat 2 x ≤ fuel) : twoCount fuel x = padicValNat 2 x := by
  induction fuel generalizing x with
  | zero => simp only [twoCount]; omega
  | succ fuel ih =>
    rw [twoCount]
    by_cases heven : x % 2 = 0
    · -- halving removes one factor of two
      have hdvd : 2 ∣ x := Nat.dvd_of_mod_eq_zero heven
      have hpos : padicValNat 2 x ≠ 0 := (dvd_iff_padicValNat_ne_zero hx).mp hdvd
      rw [if_pos heven, ih (by omega) (by rw [padicValNat.div hdvd]; omega), padicValNat.div hdvd]
      omega
    · rw [if_neg heven, padicValNat.eq_zero_of_not_dvd (fun h => heven (Nat.mod_eq_zero_of_dvd h))]

theorem padicValNat_two_lt {x : Nat} (hx : x ≠ 0) : padicValNat 2 x < x :=
  calc padicValNat 2 x < 2 ^ padicValNat 2 x := Nat.lt_two_pow_self
    _ ≤ x := Nat.le_of_dvd (Nat.pos_of_ne_zero hx) pow_padicValNat_dvd

theorem trailingZeros_of_ne_zero (w : Nat) {x : Nat} (hx : x ≠ 0) :
    trailingZeros w x = padicValNat 2 x := by
  rw [trailingZeros, if_neg hx, twoCount_eq_padicValNat x hx (padicValNat_two_lt hx).le]

@[simp] theorem trailingZeros_zero (w : Nat) : trailingZeros w 0 = w := rfl

@[simp] theorem trailingZeros_two_pow (w k : Nat) : trailingZeros w (2 ^ k) = k := by
  rw [trailingZeros_of_ne_zero w (by positivity), padicValNat.prime_pow]

/-! ## The next power of two -/

theorem two_pow_sub_one_shiftRight (a b : Nat) : (2 ^ (a + b) - 1) >>> b = 2 ^ a - 1 := by
  have ha := Nat.one_le_two_pow (n := a)
  have hb := Nat.one_le_two_pow (n := b)
  rw [Nat.shiftRight_eq_div_pow, pow_add]
  apply Nat.div_eq_of_lt_le
  · -- `(2 ^ a - 1) * 2 ^ b = 2 ^ a * 2 ^ b - 2 ^ b`
    rw [Nat.sub_mul, one_mul]
    omega
  · rw [Nat.sub_add_cancel ha]
    have := Nat.mul_le_mul ha hb
    omega

/-- Above one, the next power of two is the one above the bits of `x - 1`. -/
theorem oneLessThanNextPowerOfTwo_eq {w x : Nat} (h1 : 1 < x) (hx : x ≤ 2 ^ w) :
    oneLessThanNextPowerOfTwo w x = 2 ^ (Nat.log2 (x - 1) + 1) - 1 := by
  have hne : x - 1 ≠ 0 := by omega
  have hlt : Nat.log2 (x - 1) < w := (Nat.log2_lt hne).mpr (by omega)
  obtain ⟨c, rfl⟩ := Nat.exists_eq_add_of_lt hlt
  rw [oneLessThanNextPowerOfTwo, if_neg (by omega), leadingZeros, if_neg hne,
    show Nat.log2 (x - 1) + c + 1 - 1 - Nat.log2 (x - 1) = c by omega,
    show Nat.log2 (x - 1) + c + 1 = (Nat.log2 (x - 1) + 1) + c by omega,
    two_pow_sub_one_shiftRight]

theorem checkedNextPowerOfTwo_one {w : Nat} (hw : 0 < w) : checkedNextPowerOfTwo w 1 = some 1 := by
  have := Nat.one_lt_two_pow hw.ne'
  simp [checkedNextPowerOfTwo, oneLessThanNextPowerOfTwo, this]

/-- The next power of two of a value in `(1, 2 ^ (w - 1)]` fits in the word. -/
theorem checkedNextPowerOfTwo_of_le {w x : Nat} (h1 : 1 < x) (hx : x ≤ 2 ^ (w - 1)) :
    checkedNextPowerOfTwo w x = some (2 ^ (Nat.log2 (x - 1) + 1)) := by
  have hw : 0 < w := by
    by_contra hw
    rw [show w = 0 by omega] at hx
    omega
  have hle : x ≤ 2 ^ w := hx.trans (Nat.pow_le_pow_right (by omega) (by omega))
  -- `x - 1 < 2 ^ (w - 1)`, so its bits stop below `w - 1`
  have hlog : Nat.log2 (x - 1) + 1 ≤ w - 1 := (Nat.log2_lt (by omega)).mpr (by omega)
  have hpow : 2 ^ (Nat.log2 (x - 1) + 1) < 2 ^ w := Nat.pow_lt_pow_right (by omega) (by omega)
  have hone := Nat.one_le_two_pow (n := Nat.log2 (x - 1) + 1)
  rw [checkedNextPowerOfTwo, oneLessThanNextPowerOfTwo_eq h1 hle, Nat.sub_add_cancel hone,
    if_pos hpow]

/-- The next power of two of a value above `2 ^ (w - 1)` does not fit. -/
theorem checkedNextPowerOfTwo_of_gt {w x : Nat} (hw : 0 < w) (hgt : 2 ^ (w - 1) < x)
    (hx : x ≤ 2 ^ w) : checkedNextPowerOfTwo w x = none := by
  have h1 : 1 < x := lt_of_le_of_lt Nat.one_le_two_pow hgt
  -- `x - 1 ≥ 2 ^ (w - 1)`, so its top bit is `w - 1`
  have hlog : w - 1 ≤ Nat.log2 (x - 1) := (Nat.le_log2 (by omega)).mpr (by omega)
  have hlt : Nat.log2 (x - 1) < w := (Nat.log2_lt (by omega)).mpr (by omega)
  have hone := Nat.one_le_two_pow (n := Nat.log2 (x - 1) + 1)
  rw [checkedNextPowerOfTwo, oneLessThanNextPowerOfTwo_eq h1 hx, Nat.sub_add_cancel hone,
    show Nat.log2 (x - 1) + 1 = w by omega, if_neg (lt_irrefl _)]

end WordBits
