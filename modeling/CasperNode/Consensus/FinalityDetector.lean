import Mathlib

/-!
# The quorum of a summit

`FinalityDetector::quorum_for_lvl` gives the weight a level-`lvl` summit needs for the block it
finalizes to have the configured fault tolerance `ftt`.  Its comment derives the exact value
`⌈((2^lvl - 1) total + 2^lvl ftt) / (2^(lvl+1) - 2)⌉` (`exactQuorum`); the source computes it
in `u128` and converts the quotient with `as u64`.  The weights come from
`HighwayProtocol::new_boxed`, which scales the era's stakes down so that their sum fits a `u64`
(`scaleStakes`), and takes `ftt` as a fraction of that sum (`fttOf`).

For the levels `1..=63` that `next_finalized` asks for, no `u128` intermediate wraps
(`quorumForLvl_toNat`), so the result is the exact quorum modulo `2^64`.  It is exact when
`ftt` is at most half the total (`quorumForLvl_exact`), and wraps to a small quorum when the
exact one reaches `2^64` (`quorumForLvl_wraps`), which a fault tolerance above one half allows
for totals near `u64::MAX`.
-/

namespace CasperNode

/-- `u64::MAX`. -/
def u64Max : Nat := 2 ^ 64 - 1

/-- `FinalityDetector`, with the one field `quorum_for_lvl` reads. -/
structure FinalityDetector where
  ftt : UInt64

/-- `FinalityDetector::quorum_for_lvl`, in `u128` arithmetic. -/
def FinalityDetector.quorumForLvl (self : FinalityDetector) (lvl : Nat) (totalW : UInt64) :
    UInt64 :=
  let powLvl := (1 : BitVec 128) <<< min lvl 63
  let numerator := (powLvl - 1) * totalW.toBitVec.setWidth 128 +
    powLvl * self.ftt.toBitVec.setWidth 128
  let denominator := 2 * powLvl - 2
  UInt64.ofBitVec (((numerator + denominator - 1) / denominator).setWidth 64)

/-- The fault tolerance threshold of `HighwayProtocol::new_boxed`: the total weight times the
configured fraction `numer / denom`, computed in `u128` and converted with `as u64`. -/
def fttOf (totalWeight numer denom : UInt64) : UInt64 :=
  UInt64.ofNat (totalWeight.toNat * numer.toNat / denom.toNat)

/-- The quorum the comment of `quorum_for_lvl` derives, as an exact natural number. -/
def exactQuorum (lvl total ftt : Nat) : Nat :=
  ((2 ^ lvl - 1) * total + 2 ^ lvl * ftt) ⌈/⌉ (2 ^ (lvl + 1) - 2)

section Quorum

variable {lvl : Nat}

theorem toNat_powLvl (h63 : lvl ≤ 63) : ((1 : BitVec 128) <<< min lvl 63).toNat = 2 ^ lvl := by
  have hlt : 2 ^ lvl < 2 ^ 128 := Nat.pow_lt_pow_right (by decide) (by omega)
  have hone : (1 : BitVec 128).toNat = 1 := rfl
  rw [BitVec.toNat_shiftLeft, Nat.min_eq_left h63, Nat.shiftLeft_eq, hone, one_mul]
  exact Nat.mod_eq_of_lt hlt

theorem toNat_widen (x : UInt64) : (x.toBitVec.setWidth 128).toNat = x.toNat := by
  rw [BitVec.toNat_setWidth, UInt64.toNat_toBitVec]
  exact Nat.mod_eq_of_lt (lt_trans x.toNat_lt (by decide))

theorem numerator_le (h63 : lvl ≤ 63) {total ftt : Nat} (hT : total < 2 ^ 64)
    (hF : ftt < 2 ^ 64) : (2 ^ lvl - 1) * total + 2 ^ lvl * ftt ≤ 2 ^ 64 * (2 ^ 64 - 1) := by
  have hP63 : 2 ^ lvl ≤ 2 ^ 63 := Nat.pow_le_pow_right (by decide) h63
  have hA : (2 ^ lvl - 1) * total ≤ 2 ^ 63 * (2 ^ 64 - 1) := Nat.mul_le_mul (by omega) (by omega)
  have hB : 2 ^ lvl * ftt ≤ 2 ^ 63 * (2 ^ 64 - 1) := Nat.mul_le_mul hP63 (by omega)
  omega

/-- The `u128` numerator of `quorum_for_lvl` does not wrap. -/
theorem toNat_numerator (h63 : lvl ≤ 63) (totalW ftt : UInt64) :
    (((1 : BitVec 128) <<< min lvl 63 - 1) * totalW.toBitVec.setWidth 128 +
      (1 : BitVec 128) <<< min lvl 63 * ftt.toBitVec.setWidth 128).toNat =
      (2 ^ lvl - 1) * totalW.toNat + 2 ^ lvl * ftt.toNat := by
  have hpow := toNat_powLvl h63
  have hone : (1 : BitVec 128).toNat = 1 := rfl
  have hP : 1 ≤ 2 ^ lvl := Nat.one_le_two_pow
  have hN := numerator_le h63 totalW.toNat_lt ftt.toNat_lt
  have hpm1 : ((1 : BitVec 128) <<< min lvl 63 - 1).toNat = 2 ^ lvl - 1 := by
    rw [BitVec.toNat_sub_of_le (by rw [BitVec.le_def, hpow, hone]; omega), hpow, hone]
  have hA : (((1 : BitVec 128) <<< min lvl 63 - 1) * totalW.toBitVec.setWidth 128).toNat =
      (2 ^ lvl - 1) * totalW.toNat := by
    rw [BitVec.toNat_mul_of_lt (by rw [hpm1, toNat_widen]; omega), hpm1, toNat_widen]
  have hB : ((1 : BitVec 128) <<< min lvl 63 * ftt.toBitVec.setWidth 128).toNat =
      2 ^ lvl * ftt.toNat := by
    rw [BitVec.toNat_mul_of_lt (by rw [hpow, toNat_widen]; omega), hpow, toNat_widen]
  rw [BitVec.toNat_add_of_lt (by rw [hA, hB]; omega), hA, hB]

/-- The `u128` denominator of `quorum_for_lvl` is `2^(lvl+1) - 2`. -/
theorem toNat_denominator (h63 : lvl ≤ 63) :
    (2 * (1 : BitVec 128) <<< min lvl 63 - 2).toNat = 2 ^ (lvl + 1) - 2 := by
  have hpow := toNat_powLvl h63
  have htwo : (2 : BitVec 128).toNat = 2 := rfl
  have hP63 : 2 ^ lvl ≤ 2 ^ 63 := Nat.pow_le_pow_right (by decide) h63
  have hP : 1 ≤ 2 ^ lvl := Nat.one_le_two_pow
  have hdbl : (2 * (1 : BitVec 128) <<< min lvl 63).toNat = 2 * 2 ^ lvl := by
    rw [BitVec.toNat_mul_of_lt (by rw [htwo, hpow]; omega), htwo, hpow]
  rw [BitVec.toNat_sub_of_le (by rw [BitVec.le_def, hdbl, htwo]; omega), hdbl, htwo, pow_succ,
    Nat.mul_comm]

/-- For levels `1..=63` the `u128` intermediates are exact, so the result is the exact quorum
reduced modulo `2^64` by the final `as u64`. -/
theorem quorumForLvl_toNat (d : FinalityDetector) (h1 : 1 ≤ lvl) (h63 : lvl ≤ 63)
    (totalW : UInt64) :
    (d.quorumForLvl lvl totalW).toNat = exactQuorum lvl totalW.toNat d.ftt.toNat % 2 ^ 64 := by
  have hnum := toNat_numerator h63 totalW d.ftt
  have hden := toNat_denominator h63
  have hN := numerator_le h63 totalW.toNat_lt d.ftt.toNat_lt
  have hD : 2 ≤ 2 ^ (lvl + 1) - 2 ∧ 2 ^ (lvl + 1) - 2 ≤ 2 ^ 64 - 2 := by
    have : 2 ^ 2 ≤ 2 ^ (lvl + 1) := Nat.pow_le_pow_right (by decide) (by omega)
    have : 2 ^ (lvl + 1) ≤ 2 ^ 64 := Nat.pow_le_pow_right (by decide) (by omega)
    omega
  have hone : (1 : BitVec 128).toNat = 1 := rfl
  have hadd := BitVec.toNat_add_of_lt (x := ((1 : BitVec 128) <<< min lvl 63 - 1) *
      totalW.toBitVec.setWidth 128 + (1 : BitVec 128) <<< min lvl 63 * d.ftt.toBitVec.setWidth 128)
    (y := 2 * (1 : BitVec 128) <<< min lvl 63 - 2) (by rw [hnum, hden]; omega)
  rw [hnum, hden] at hadd
  simp only [FinalityDetector.quorumForLvl, UInt64.toNat_ofBitVec, BitVec.toNat_setWidth,
    BitVec.toNat_udiv, BitVec.toNat_sub_of_le (show 1 ≤ _ by rw [BitVec.le_def, hadd, hone]; omega),
    hadd, hone, hden]
  rfl

/-- The exact quorum stays below `2^65`: it is at most about half the total plus `ftt`. -/
theorem exactQuorum_lt (h1 : 1 ≤ lvl) {total ftt : Nat} (hT : total < 2 ^ 64) (hF : ftt < 2 ^ 64) :
    exactQuorum lvl total ftt < 2 ^ 65 := by
  have hP2 : 2 ≤ 2 ^ lvl := Nat.le_self_pow (by omega) 2
  have hA : (2 ^ lvl - 1) * total ≤ (2 ^ lvl - 1) * (2 ^ 64 - 1) := Nat.mul_le_mul_left _ (by omega)
  have hB : 2 ^ lvl * ftt ≤ 2 ^ lvl * (2 ^ 64 - 1) := Nat.mul_le_mul_left _ (by omega)
  rw [exactQuorum, Nat.ceilDiv_eq_add_pred_div, pow_succ, Nat.div_lt_iff_lt_mul (by omega)]
  omega

/-- At or above `2^64` the exact quorum wraps: `quorum_for_lvl` returns it minus `2^64`. -/
theorem quorumForLvl_wraps (d : FinalityDetector) (h1 : 1 ≤ lvl) (h63 : lvl ≤ 63)
    (totalW : UInt64) (hQ : 2 ^ 64 ≤ exactQuorum lvl totalW.toNat d.ftt.toNat) :
    (d.quorumForLvl lvl totalW).toNat = exactQuorum lvl totalW.toNat d.ftt.toNat - 2 ^ 64 := by
  have hlt := exactQuorum_lt h1 totalW.toNat_lt d.ftt.toNat_lt
  rw [quorumForLvl_toNat d h1 h63, Nat.mod_eq_sub_mod hQ, Nat.mod_eq_of_lt (by omega)]

theorem quorumForLvl_wraps_single_validator :
    1 ≤ 1 ∧ 1 ≤ 63 ∧
    2 ^ 64 ≤ exactQuorum 1 (18446744073709551615 : UInt64).toNat
      (fttOf 18446744073709551615 99 100).toNat ∧
    ((⟨fttOf 18446744073709551615 99 100⟩ : FinalityDetector).quorumForLvl 1
      18446744073709551615).toNat =
      exactQuorum 1 (18446744073709551615 : UInt64).toNat
        (fttOf 18446744073709551615 99 100).toNat - 2 ^ 64 :=
  ⟨by decide, by decide, by decide,
    quorumForLvl_wraps ⟨fttOf 18446744073709551615 99 100⟩ (by decide) (by decide) _ (by decide)⟩

/-- With a fault tolerance of at most half the total the exact quorum is at most the total. -/
theorem exactQuorum_le_total (h1 : 1 ≤ lvl) {total ftt : Nat} (hF : 2 * ftt ≤ total) :
    exactQuorum lvl total ftt ≤ total := by
  have hP2 : 2 ≤ 2 ^ lvl := Nat.le_self_pow (by omega) 2
  have hPF : 2 ^ lvl * ftt ≤ (2 ^ lvl - 1) * total := by
    obtain ⟨p, hp⟩ : ∃ p, 2 ^ lvl = p + 2 := ⟨2 ^ lvl - 2, by omega⟩
    rw [hp, show p + 2 - 1 = p + 1 by omega]
    nlinarith
  have hD : 2 ^ lvl * 2 - 2 = 2 * (2 ^ lvl - 1) := by omega
  have hmul : (total + 1) * (2 * (2 ^ lvl - 1)) = 2 * ((2 ^ lvl - 1) * total) + 2 * (2 ^ lvl - 1) := by
    ring
  rw [exactQuorum, Nat.ceilDiv_eq_add_pred_div, pow_succ, hD, ← Nat.lt_succ_iff,
    Nat.div_lt_iff_lt_mul (by omega), hmul]
  omega

/-- `quorum_for_lvl` is exact when the fault tolerance is at most half the total weight. -/
theorem quorumForLvl_exact (d : FinalityDetector) (h1 : 1 ≤ lvl) (h63 : lvl ≤ 63)
    (totalW : UInt64) (hF : 2 * d.ftt.toNat ≤ totalW.toNat) :
    (d.quorumForLvl lvl totalW).toNat = exactQuorum lvl totalW.toNat d.ftt.toNat := by
  have hle := exactQuorum_le_total h1 hF
  rw [quorumForLvl_toNat d h1 h63, Nat.mod_eq_of_lt (lt_of_le_of_lt hle totalW.toNat_lt)]

theorem quorumForLvl_exact_third :
    1 ≤ 3 ∧ 3 ≤ 63 ∧ 2 * (fttOf 300 1 3).toNat ≤ (300 : UInt64).toNat ∧
    ((⟨fttOf 300 1 3⟩ : FinalityDetector).quorumForLvl 3 300).toNat =
      exactQuorum 3 (300 : UInt64).toNat (fttOf 300 1 3).toNat :=
  ⟨by decide, by decide, by decide,
    quorumForLvl_exact ⟨fttOf 300 1 3⟩ (by decide) (by decide) 300 (by decide)⟩

end Quorum

/-! ## The weights of an era -/

/-- The weights `HighwayProtocol::new_boxed` gives the validators of an era: each stake divided
by the scaling factor `⌈sum / u64::MAX⌉` and converted with `AsPrimitive::<u64>`, which keeps
the low 64 bits.  The `U512` stakes are natural numbers here. -/
def scaleStakes (stakes : List Nat) : List UInt64 :=
  let scalingFactor := (stakes.sum + u64Max - 1) / u64Max
  stakes.map fun stake => UInt64.ofNat (stake / scalingFactor)

/-- `Weight::checked_add`. -/
def checkedAdd (sum w : UInt64) : Option UInt64 :=
  if sum.toNat + w.toNat < 2 ^ 64 then some (sum + w) else none

/-- The total weight of `Validators::from_iter`, a `checked_add` fold; `none` is its panic
"total weight must be < 2^64". -/
def totalWeight (weights : List UInt64) : Option UInt64 :=
  weights.foldlM checkedAdd 0

section Weights

/-- The fold adds the weights up as long as the sum stays below `2^64`. -/
theorem foldlM_checkedAdd (ws : List UInt64) (acc : UInt64)
    (h : acc.toNat + (ws.map UInt64.toNat).sum < 2 ^ 64) :
    ∃ w, ws.foldlM checkedAdd acc = some w ∧ w.toNat = acc.toNat + (ws.map UInt64.toNat).sum := by
  induction ws generalizing acc with
  | nil => exact ⟨acc, rfl, by simp⟩
  | cons w ws ih =>
    simp only [List.map_cons, List.sum_cons] at h
    have hstep : checkedAdd acc w = some (acc + w) := if_pos (by omega)
    have hval : (acc + w).toNat = acc.toNat + w.toNat := by
      rw [UInt64.toNat_add]
      exact Nat.mod_eq_of_lt (by omega)
    obtain ⟨v, hv, hvn⟩ := ih (acc + w) (by omega)
    refine ⟨v, ?_, ?_⟩
    · rw [List.foldlM_cons, hstep]
      exact hv
    · rw [hvn, hval, List.map_cons, List.sum_cons]
      omega

theorem sum_map_div_le (l : List Nat) (f : Nat) : (l.map (· / f)).sum ≤ l.sum / f := by
  induction l with
  | nil => simp
  | cons a l ih =>
    simp only [List.map_cons, List.sum_cons]
    exact le_trans (Nat.add_le_add_left ih _) Nat.div_add_div_le_add_div

/-- Dividing by the scaling factor brings the sum of the stakes down to `u64::MAX`. -/
theorem sum_div_scalingFactor_le (S : Nat) : S / ((S + u64Max - 1) / u64Max) ≤ u64Max := by
  apply Nat.div_le_of_le_mul
  have hceil : S ≤ u64Max * (S ⌈/⌉ u64Max) := le_smul_ceilDiv (show 0 < u64Max by decide)
  rw [Nat.ceilDiv_eq_add_pred_div] at hceil
  rwa [Nat.mul_comm] at hceil

/-- Every weight of `new_boxed` is its stake's exact quotient by the scaling factor, and their
total never overflows `Validators::from_iter`'s `checked_add`: it is at most `u64::MAX`. -/
theorem totalWeight_scaleStakes (stakes : List Nat) :
    (scaleStakes stakes).map UInt64.toNat =
      stakes.map (· / ((stakes.sum + u64Max - 1) / u64Max)) ∧
    ∃ w, totalWeight (scaleStakes stakes) = some w ∧ w.toNat ≤ u64Max := by
  have hsum := sum_map_div_le stakes ((stakes.sum + u64Max - 1) / u64Max)
  have htot := sum_div_scalingFactor_le stakes.sum
  have hmax : u64Max < 2 ^ 64 := by decide
  have hexact : (scaleStakes stakes).map UInt64.toNat =
      stakes.map (· / ((stakes.sum + u64Max - 1) / u64Max)) := by
    rw [scaleStakes, List.map_map]
    apply List.map_congr_left
    intro stake hmem
    have hle : stake / ((stakes.sum + u64Max - 1) / u64Max) ≤ u64Max :=
      le_trans (Nat.div_le_div_right (List.le_sum_of_mem hmem)) htot
    rw [Function.comp_apply, UInt64.toNat_ofNat']
    exact Nat.mod_eq_of_lt (lt_of_le_of_lt hle hmax)
  refine ⟨hexact, ?_⟩
  obtain ⟨w, hw, hwn⟩ := foldlM_checkedAdd (scaleStakes stakes) 0
    (by rw [hexact, UInt64.toNat_zero, Nat.zero_add]; omega)
  refine ⟨w, hw, ?_⟩
  rw [hwn, hexact, UInt64.toNat_zero, Nat.zero_add]
  omega

end Weights

end CasperNode
