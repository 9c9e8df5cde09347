import Mathlib

/-!
# Ratios of `u64` words

`num_rational`'s `Ratio<u64>` keeps the numerator and the denominator it is given
(`Ratio::new_raw`, which its deserializer uses); `Ratio::new` reduces them by their greatest
common divisor and panics on a zero denominator.  Adding an integer and dividing by one follow
the formulas the crate states beside them, `a/b + c = (a + b c) / b` and
`(a/b) / c = (a/g) / (b (c/g))` with `g = gcd(a, c)`, and each result is made with
`Ratio::new`.  The sums and products are `u64` operations, which wrap in a release build.  A
panic is `none`.

Where nothing wraps, both operations are exact on the value of the fraction (`addInt_val`,
`divInt_val`), and a reduced denominator is at most the one computed (`new_val`).  Integer code
compares a weight with a fraction of another cross-multiplied (`mul_numer_lt_mul_denom_iff`).
-/

/-- `Ratio<u64>`: a numerator and a denominator as stored. -/
structure RatioU64 where
  numer : UInt64
  denom : UInt64
deriving DecidableEq, Repr

namespace RatioU64

/-- `Ratio::new`: the fraction reduced by the greatest common divisor of its two parts.  A zero
denominator panics. -/
def new (numer denom : UInt64) : Option RatioU64 :=
  if denom = 0 then none
  else
    let g := UInt64.ofNat (Nat.gcd numer.toNat denom.toNat)
    some ⟨numer / g, denom / g⟩

/-- `Ratio<u64> + u64`: `(a + b c) / b`, reduced. -/
def addInt (r : RatioU64) (c : UInt64) : Option RatioU64 :=
  new (r.numer + r.denom * c) r.denom

/-- `Ratio<u64> / u64`: `(a / g) / (b (c / g))` with `g` the gcd of `a` and `c`, reduced.  The
divisions by `g` panic when it is zero. -/
def divInt (r : RatioU64) (c : UInt64) : Option RatioU64 :=
  let g := UInt64.ofNat (Nat.gcd r.numer.toNat c.toNat)
  if g = 0 then none else new (r.numer / g) (r.denom * (c / g))

/-- The value of a fraction. -/
def val (r : RatioU64) : ℚ := r.numer.toNat / r.denom.toNat

/-! ## Words -/

theorem toNat_gcd (a b : UInt64) :
    (UInt64.ofNat (Nat.gcd a.toNat b.toNat)).toNat = Nat.gcd a.toNat b.toNat := by
  rw [UInt64.toNat_ofNat']
  apply Nat.mod_eq_of_lt
  rcases Nat.eq_zero_or_pos b.toNat with hb | hb
  · rw [hb, Nat.gcd_zero_right]
    exact a.toNat_lt
  · exact lt_of_le_of_lt (Nat.gcd_le_right _ hb) b.toNat_lt

theorem toNat_ne_zero {a : UInt64} : a ≠ 0 ↔ a.toNat ≠ 0 := by
  rw [Ne, Ne, ← UInt64.toNat_inj, UInt64.toNat_zero]

/-- A sum of words that fits is the sum of their values. -/
theorem toNat_add_of_lt {a b : UInt64} (h : a.toNat + b.toNat < 2 ^ 64) :
    (a + b).toNat = a.toNat + b.toNat := by
  rw [UInt64.toNat_add, Nat.mod_eq_of_lt h]

/-- A product of words that fits is the product of their values. -/
theorem toNat_mul_of_lt {a b : UInt64} (h : a.toNat * b.toNat < 2 ^ 64) :
    (a * b).toNat = a.toNat * b.toNat := by
  rw [UInt64.toNat_mul, Nat.mod_eq_of_lt h]

/-! ## `Ratio::new` -/

/-- What `Ratio::new` builds from a nonzero denominator: both parts divided by their gcd. -/
theorem new_spec {n d : UInt64} {r : RatioU64} (h : new n d = some r) :
    0 < d.toNat ∧ r.numer.toNat = n.toNat / Nat.gcd n.toNat d.toNat ∧
      r.denom.toNat = d.toNat / Nat.gcd n.toNat d.toNat := by
  unfold new at h
  split_ifs at h with hd
  obtain rfl := Option.some.inj h
  have hd' : 0 < d.toNat := Nat.pos_of_ne_zero (toNat_ne_zero.mp hd)
  exact ⟨hd', by simp only [UInt64.toNat_div, toNat_gcd],
    by simp only [UInt64.toNat_div, toNat_gcd]⟩

theorem new_isSome {n d : UInt64} (hd : 0 < d.toNat) : ∃ r, new n d = some r := by
  have hd' : d ≠ 0 := toNat_ne_zero.mpr (by omega)
  simp [new, hd']

/-- The reduced fraction has the value of the one given, a positive denominator, and one no
larger. -/
theorem new_val {n d : UInt64} {r : RatioU64} (h : new n d = some r) :
    0 < r.denom.toNat ∧ r.denom.toNat ≤ d.toNat ∧ r.val = (n.toNat : ℚ) / d.toNat := by
  obtain ⟨hd, hn, hdr⟩ := new_spec h
  set g := Nat.gcd n.toNat d.toNat with hg
  have hgpos : 0 < g := Nat.gcd_pos_of_pos_right _ hd
  have hdg : d.toNat / g * g = d.toNat := Nat.div_mul_cancel (Nat.gcd_dvd_right _ _)
  have hng : n.toNat / g * g = n.toNat := Nat.div_mul_cancel (Nat.gcd_dvd_left _ _)
  have hdr_pos : 0 < d.toNat / g := Nat.div_pos (Nat.gcd_le_right _ hd) hgpos
  refine ⟨hdr ▸ hdr_pos, hdr ▸ Nat.div_le_self _ _, ?_⟩
  -- both parts were divided by the same `g`
  have hgq : (g : ℚ) ≠ 0 := by exact_mod_cast hgpos.ne'
  rw [val, hn, hdr, ← hng, ← hdg, Nat.cast_mul, Nat.cast_mul, mul_div_mul_right _ _ hgq,
    Nat.mul_div_cancel _ hgpos, Nat.mul_div_cancel _ hgpos]

/-- A weight is compared with a fraction of another cross-multiplied. -/
theorem mul_numer_lt_mul_denom_iff {q : RatioU64} (hq : 0 < q.denom.toNat) (a b : Nat) :
    b * q.numer.toNat < a * q.denom.toNat ↔ q.val * b < a := by
  have hden : (0 : ℚ) < q.denom.toNat := by exact_mod_cast hq
  rw [val, div_mul_eq_mul_div, div_lt_iff₀ hden, mul_comm (q.numer.toNat : ℚ)]
  norm_cast

/-! ## Integer operations -/

/-- Adding an integer without a wrap adds it to the value. -/
theorem addInt_val {r : RatioU64} {c : UInt64} (hd : 0 < r.denom.toNat)
    (hfit : r.numer.toNat + r.denom.toNat * c.toNat < 2 ^ 64) :
    ∃ q, r.addInt c = some q ∧ 0 < q.denom.toNat ∧ q.denom.toNat ≤ r.denom.toNat ∧
      q.val = r.val + c.toNat := by
  have hmul : (r.denom * c).toNat = r.denom.toNat * c.toNat :=
    toNat_mul_of_lt (lt_of_le_of_lt (Nat.le_add_left _ _) hfit)
  have hsum : (r.numer + r.denom * c).toNat = r.numer.toNat + r.denom.toNat * c.toNat := by
    rw [toNat_add_of_lt (by rw [hmul]; exact hfit), hmul]
  obtain ⟨q, hq⟩ := new_isSome (n := r.numer + r.denom * c) hd
  obtain ⟨hqd, hqle, hqv⟩ := new_val hq
  refine ⟨q, hq, hqd, hqle, ?_⟩
  have hdq : (r.denom.toNat : ℚ) ≠ 0 := by exact_mod_cast hd.ne'
  rw [hqv, hsum, val, Nat.cast_add, Nat.cast_mul, add_div, mul_div_cancel_left₀ _ hdq]

/-- A division that does not panic leaves a positive denominator. -/
theorem divInt_denom_pos {r q : RatioU64} {c : UInt64} (h : r.divInt c = some q) :
    0 < q.denom.toNat := by
  simp only [divInt] at h
  split at h
  · cases h
  · exact (new_val h).1

/-- Dividing by a nonzero integer without a wrap divides the value by it. -/
theorem divInt_val {r : RatioU64} {c : UInt64} (hd : 0 < r.denom.toNat) (hc : 0 < c.toNat)
    (hfit : r.denom.toNat * c.toNat < 2 ^ 64) :
    ∃ q, r.divInt c = some q ∧ 0 < q.denom.toNat ∧ q.val = r.val / c.toNat := by
  set g := Nat.gcd r.numer.toNat c.toNat with hg
  have hgpos : 0 < g := Nat.gcd_pos_of_pos_right _ hc
  have hgt : (UInt64.ofNat g).toNat = g := toNat_gcd _ _
  have hg0 : UInt64.ofNat g ≠ 0 := toNat_ne_zero.mpr (by omega)
  have hcg : c.toNat / g * g = c.toNat := Nat.div_mul_cancel (Nat.gcd_dvd_right _ _)
  have hng : r.numer.toNat / g * g = r.numer.toNat := Nat.div_mul_cancel (Nat.gcd_dvd_left _ _)
  -- the denominator is multiplied by at most `c`, so it does not wrap
  have hden : (r.denom * (c / UInt64.ofNat g)).toNat = r.denom.toNat * (c.toNat / g) := by
    rw [toNat_mul_of_lt] <;> rw [UInt64.toNat_div, hgt]
    exact lt_of_le_of_lt (Nat.mul_le_mul_left _ (Nat.div_le_self _ _)) hfit
  have hden_pos : 0 < (r.denom * (c / UInt64.ofNat g)).toNat := by
    rw [hden]
    exact Nat.mul_pos hd (Nat.div_pos (Nat.gcd_le_right _ hc) hgpos)
  obtain ⟨q, hq⟩ := new_isSome (n := r.numer / UInt64.ofNat g) hden_pos
  obtain ⟨hqd, -, hqv⟩ := new_val hq
  refine ⟨q, ?_, hqd, ?_⟩
  · rw [divInt, ← hg, if_neg hg0]
    exact hq
  -- the numerator and `c` lose the same `g`
  have hgq : (g : ℚ) ≠ 0 := by exact_mod_cast hgpos.ne'
  rw [hqv, hden, UInt64.toNat_div, hgt, val, div_div, Nat.cast_mul]
  conv_rhs => rw [← hng, ← hcg]
  rw [Nat.cast_mul, Nat.cast_mul, ← mul_assoc, mul_div_mul_right _ _ hgq]

end RatioU64
