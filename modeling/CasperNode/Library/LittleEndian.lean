import Mathlib

/-!
# Little-endian byte strings

Fixed-width integers are stored least significant byte first.  `leBytes w n` is the
`w`-byte string of `n` (bits above `8 * w` are dropped) and `leValue bs` reads a byte
string back.  The two are inverse on values below `256 ^ w`, and `leValue` of a string
with high zero bytes removed is unchanged, which is what a minimal-length encoding of a
big integer relies on.

Nothing here is specific to one serialization format.
-/

namespace LittleEndian

/-- The `w` little-endian bytes of `n`. -/
def leBytes : Nat → Nat → List UInt8
  | 0, _ => []
  | w + 1, n => UInt8.ofNat n :: leBytes w (n / 256)

/-- The natural number whose little-endian bytes are `bs`. -/
def leValue : List UInt8 → Nat
  | [] => 0
  | b :: bs => b.toNat + 256 * leValue bs

@[simp] theorem leBytes_zero (n : Nat) : leBytes 0 n = [] := rfl

@[simp] theorem leBytes_succ (w n : Nat) :
    leBytes (w + 1) n = UInt8.ofNat n :: leBytes w (n / 256) := rfl

@[simp] theorem leValue_nil : leValue [] = 0 := rfl

@[simp] theorem leValue_cons (b : UInt8) (bs : List UInt8) :
    leValue (b :: bs) = b.toNat + 256 * leValue bs := rfl

@[simp] theorem length_leBytes (w n : Nat) : (leBytes w n).length = w := by
  induction w generalizing n with
  | zero => rfl
  | succ w ih => simp [ih]

theorem leValue_leBytes (w n : Nat) : leValue (leBytes w n) = n % 256 ^ w := by
  induction w generalizing n with
  | zero => simp [Nat.mod_one]
  | succ w ih =>
    have hbyte : (UInt8.ofNat n).toNat = n % 256 := by simp
    rw [leBytes_succ, leValue_cons, ih, hbyte, pow_succ', Nat.mod_mul]

theorem leValue_lt (bs : List UInt8) : leValue bs < 256 ^ bs.length := by
  induction bs with
  | nil => simp
  | cons b bs ih =>
    have hb : b.toNat < 256 := b.toNat_lt
    rw [leValue_cons, List.length_cons, pow_succ]
    omega

theorem leBytes_leValue (bs : List UInt8) : leBytes bs.length (leValue bs) = bs := by
  induction bs with
  | nil => rfl
  | cons b bs ih =>
    have hb : b.toNat < 256 := b.toNat_lt
    have hdiv : (b.toNat + 256 * leValue bs) / 256 = leValue bs := by omega
    rw [List.length_cons, leBytes_succ, leValue_cons, hdiv, ih]
    congr 1
    apply UInt8.toNat_inj.mp
    have hbyte : (UInt8.ofNat (b.toNat + 256 * leValue bs)).toNat =
        (b.toNat + 256 * leValue bs) % 256 := by simp
    rw [hbyte]
    omega

/-- Appending zero bytes at the most significant end does not change the value. -/
theorem leValue_append_zeros (bs : List UInt8) (k : Nat) :
    leValue (bs ++ List.replicate k 0) = leValue bs := by
  induction bs with
  | nil =>
    induction k with
    | zero => rfl
    | succ k ih =>
      simp only [List.nil_append, leValue_nil] at ih
      simp [List.replicate_succ, ih]
  | cons b bs ih => simp [ih]

end LittleEndian
