import CasperNode.System.Auction
import CasperNode.Library.Quorum
import CasperNode.Library.Ratio

/-!
# Finality signatures: sufficient weight and minimal sets

A block is final for a joining node once validators of enough weight have signed it.
`check_sufficient_block_signatures` accepts a set of signatures when every signer is a
validator of the era, when the signers' weight exceeds the quorum fraction `(f + 1) / 2` of the
validators' total weight, `f` being the fault tolerance fraction, and when the signers' weight
less the lightest of them does not (the set is minimal, against spam).
`get_minimal_set_of_block_signatures` keeps the heaviest signers until their weight exceeds the
quorum.

Weights are `U512`, natural numbers here, and `uint`'s operators `+`, `*` and `-` on them panic
on overflow; a panic is `none`.  The fault tolerance fraction is a `Ratio<u64>` (`RatioU64`),
and `quorum_fraction` computes `(f + 1) / 2` with its `u64` operations, which wrap in a release
build.  Signatures are not verified by these functions, and the block hash and era of a
`BlockSignatures` are not read: a set of signatures is its map from public key to signature.

When `(f + 1) / 2` is computed without a wrap (`QuorumFractionExact`), two sets the check accepts
share signers of weight above `f` times the total
(`checkSufficientBlockSignatures_quorums_intersect`): the quorum is the least fraction for which
the sets' weights, counted together, exceed the total by more than `f` of it.  The minimal set
is found exactly when the signers' weight exceeds the quorum, and the check accepts it, as long
as the total weight times the quorum's denominator fits a `U512`
(`getMinimalSetOfBlockSignatures_spec`).  Beyond that the products overflow: a signer whose
weight times the denominator leaves `U512` makes `get_minimal_set_of_block_signatures` panic,
however much weight signed (`getMinimalSetOfBlockSignatures_panics`).
-/

namespace CasperNode

/-! ## `U512` operators -/

/-- `U512`'s `*`, which panics on overflow. -/
def u512Mul (a b : Nat) : Option Nat := if a * b < u512Limit then some (a * b) else none

/-- `U512`'s `-`, which panics below zero. -/
def u512Sub (a b : Nat) : Option Nat := if b ≤ a then some (a - b) else none

/-- `Iterator::sum` of `U512`s: a fold of `+` from zero, which panics on overflow. -/
def u512Sum (l : List Nat) : Option Nat := l.foldlM u512CheckedAdd 0

theorem u512Mul_eq_some {a b c : Nat} : u512Mul a b = some c ↔ a * b < u512Limit ∧ a * b = c := by
  unfold u512Mul
  split_ifs with h
  · simp [h]
  · simp [h]

theorem u512Mul_of_lt {a b : Nat} (h : a * b < u512Limit) : u512Mul a b = some (a * b) := by
  simp [u512Mul, h]

theorem u512Mul_of_le {a b : Nat} (h : u512Limit ≤ a * b) : u512Mul a b = none := by
  simp [u512Mul, Nat.not_lt.mpr h]

theorem u512Sub_of_le {a b : Nat} (h : b ≤ a) : u512Sub a b = some (a - b) := by
  simp [u512Sub, h]

/-- Partial sums stay below the whole sum, so a fold of `+` panics only when the sum does not
fit. -/
theorem foldlM_u512CheckedAdd (l : List Nat) {acc : Nat} (hacc : acc < u512Limit) :
    l.foldlM u512CheckedAdd acc =
      if acc + l.sum < u512Limit then some (acc + l.sum) else none := by
  induction l generalizing acc with
  | nil => simp [hacc]
  | cons x rest ih =>
    rw [List.foldlM_cons]
    by_cases hx : acc + x < u512Limit
    · rw [u512CheckedAdd, if_pos hx, Option.bind_eq_bind, Option.bind_some, ih hx, List.sum_cons,
        Nat.add_assoc]
    · have hsum : ¬acc + (x :: rest).sum < u512Limit := by
        rw [List.sum_cons]
        omega
      rw [u512CheckedAdd, if_neg hx, if_neg hsum, Option.bind_eq_bind, Option.bind_none]

theorem u512Sum_eq (l : List Nat) :
    u512Sum l = if l.sum < u512Limit then some l.sum else none := by
  rw [u512Sum, foldlM_u512CheckedAdd l (Nat.zero_lt_of_lt one_lt_u512Limit), Nat.zero_add]

namespace LinearChain

variable {K S : Type} [LinearOrder K]

/-! ## The model -/

/-- `BlockSignatures`, with the field the checks read: the signature of each signer, by public
key. -/
structure BlockSignatures (K S : Type) [LinearOrder K] where
  proofs : OrdMap K S
deriving DecidableEq

/-- `BlockSignatureError`, each variant with the data it reports. -/
inductive BlockSignatureError (K S : Type) [LinearOrder K] where
  | bogusValidator (trustedValidatorWeights : OrdMap K Nat)
      (blockSignatures : BlockSignatures K S) (bogusValidatorPublicKey : K)
  | insufficientWeightForFinality (trustedValidatorWeights : OrdMap K Nat)
      (blockSignatures : Option (BlockSignatures K S)) (signatureWeight : Option Nat)
      (totalValidatorWeight : Nat) (faultToleranceFraction : RatioU64)
  | tooManySignatures (trustedValidatorWeights : OrdMap K Nat)
      (blockSignatures : BlockSignatures K S) (signatureWeight weightMinusMinimum : Nat)
      (totalValidatorWeight : Nat) (faultToleranceFraction : RatioU64)
deriving DecidableEq

/-- `validate_block_signatures`: the first signer, in key order, that is not a validator. -/
def validateBlockSignatures (signatures : BlockSignatures K S) (validatorWeights : OrdMap K Nat) :
    Except (BlockSignatureError K S) Unit :=
  match signatures.proofs.keys.find? fun publicKey => (validatorWeights.find? publicKey).isNone with
  | some publicKey => .error (.bogusValidator validatorWeights signatures publicKey)
  | none => .ok ()

/-- `quorum_fraction`: `(f + 1) / 2` in `Ratio<u64>` arithmetic, meant as the lowest weight
fraction such that any two sets of validators above it share more than the fault tolerance
fraction. -/
def quorumFraction (faultToleranceFraction : RatioU64) : Option RatioU64 := do
  let sum ← faultToleranceFraction.addInt 1
  sum.divInt 2

/-- The loop of `check_sufficient_block_signatures_with_quorum_formula` over the signers, in key
order: their weight and the least of their weights, or the first signer that is not a
validator. -/
def signatureWeights (trustedValidatorWeights : OrdMap K Nat) :
    List K → Nat → Option Nat → Option (Except K (Nat × Option Nat))
  | [], signatureWeight, minimumWeight => some (.ok (signatureWeight, minimumWeight))
  | publicKey :: rest, signatureWeight, minimumWeight =>
    match trustedValidatorWeights.find? publicKey with
    | none => some (.error publicKey)
    | some validatorWeight => do
      let minimumWeight :=
        if minimumWeight.all (validatorWeight < ·) then some validatorWeight else minimumWeight
      let signatureWeight ← u512CheckedAdd signatureWeight validatorWeight
      signatureWeights trustedValidatorWeights rest signatureWeight minimumWeight

/-- `check_sufficient_block_signatures_with_quorum_formula`. -/
def checkSufficientBlockSignaturesWithQuorumFormula (trustedValidatorWeights : OrdMap K Nat)
    (faultToleranceFraction : RatioU64) (maybeBlockSignatures : Option (BlockSignatures K S))
    (quorumFormula : RatioU64 → Option RatioU64) :
    Option (Except (BlockSignatureError K S) Unit) := do
  let totalWeight ← u512Sum (trustedValidatorWeights.entries.map Prod.snd)
  match maybeBlockSignatures with
  | none =>
    -- no signatures provided
    pure (.error (.insufficientWeightForFinality trustedValidatorWeights none none totalWeight
      faultToleranceFraction))
  | some blockSignatures =>
    match ← signatureWeights trustedValidatorWeights blockSignatures.proofs.keys 0 none with
    | .error publicKey =>
      pure (.error (.bogusValidator trustedValidatorWeights blockSignatures publicKey))
    | .ok (signatureWeight, minimumWeight) =>
      let weightMinusMinimum ← u512Sub signatureWeight (minimumWeight.getD 0)
      let quorumFraction ← quorumFormula faultToleranceFraction
      let lhs ← u512Mul signatureWeight quorumFraction.denom.toNat
      let rhs ← u512Mul totalWeight quorumFraction.numer.toNat
      if lhs ≤ rhs then
        pure (.error (.insufficientWeightForFinality trustedValidatorWeights
          (some blockSignatures) (some signatureWeight) totalWeight faultToleranceFraction))
      else
        -- the weight less the smallest signature's must not exceed the quorum (anti-spam)
        let lhs ← u512Mul weightMinusMinimum quorumFraction.denom.toNat
        let rhs ← u512Mul totalWeight quorumFraction.numer.toNat
        if rhs < lhs then
          pure (.error (.tooManySignatures trustedValidatorWeights blockSignatures signatureWeight
            weightMinusMinimum totalWeight faultToleranceFraction))
        else pure (.ok ())

/-- `check_sufficient_block_signatures`: the check with `quorum_fraction`. -/
def checkSufficientBlockSignatures (trustedValidatorWeights : OrdMap K Nat)
    (faultToleranceFraction : RatioU64) (blockSignatures : Option (BlockSignatures K S)) :
    Option (Except (BlockSignatureError K S) Unit) :=
  checkSufficientBlockSignaturesWithQuorumFormula trustedValidatorWeights faultToleranceFraction
    blockSignatures quorumFraction

/-- The `filter_map` of `get_minimal_set_of_block_signatures`: each signer that is a validator,
with its weight, in key order. -/
def signerWeights (trustedValidatorWeights : OrdMap K Nat) (blockSignatures : BlockSignatures K S) :
    List (K × Nat) :=
  blockSignatures.proofs.keys.filterMap fun publicKey =>
    (trustedValidatorWeights.find? publicKey).map (publicKey, ·)

/-- The `take_while` of `get_minimal_set_of_block_signatures`: signers are taken while the
weight accumulated, times the quorum's denominator, is at most the total weight times its
numerator.  The keys taken and the weight accumulated. -/
def takeSignatures (denom numer totalWeight : Nat) :
    List (K × Nat) → Nat → Option (List K × Nat)
  | [], accumulatedWeight => some ([], accumulatedWeight)
  | (publicKey, weight) :: rest, accumulatedWeight => do
    let lhs ← u512Mul accumulatedWeight denom
    let rhs ← u512Mul totalWeight numer
    if lhs ≤ rhs then
      let accumulatedWeight ← u512CheckedAdd accumulatedWeight weight
      let r ← takeSignatures denom numer totalWeight rest accumulatedWeight
      pure (publicKey :: r.1, r.2)
    else pure ([], accumulatedWeight)

/-- `get_minimal_set_of_block_signatures`: `some none` is the source's `None`, when the signers
do not weigh enough.  `sort_unstable_by` leaves the order of equal weights open; a stable sort
by decreasing weight stands for it. -/
def getMinimalSetOfBlockSignatures (trustedValidatorWeights : OrdMap K Nat)
    (faultToleranceFraction : RatioU64) (blockSignatures : BlockSignatures K S) :
    Option (Option (BlockSignatures K S)) := do
  let totalWeight ← u512Sum (trustedValidatorWeights.entries.map Prod.snd)
  let lowerBound ← quorumFraction faultToleranceFraction
  -- sort descending by weight
  let sigWeights := (signerWeights trustedValidatorWeights blockSignatures).mergeSort
    fun a b => b.2 ≤ a.2
  let r ← takeSignatures lowerBound.denom.toNat lowerBound.numer.toNat totalWeight sigWeights 0
  let lhs ← u512Mul r.2 lowerBound.denom.toNat
  let rhs ← u512Mul totalWeight lowerBound.numer.toNat
  if rhs < lhs then
    pure (some ⟨blockSignatures.proofs.retain (· ∈ r.1)⟩)
  else pure none

/-! ## Weights of sets of signers -/

/-- The weight of a public key: its validator's weight, zero for a key that is not one. -/
def weightOf (trustedValidatorWeights : OrdMap K Nat) (publicKey : K) : Nat :=
  (trustedValidatorWeights.find? publicKey).getD 0

/-- The weight of a set of public keys. -/
def weight (trustedValidatorWeights : OrdMap K Nat) (publicKeys : Finset K) : Nat :=
  ∑ k ∈ publicKeys, weightOf trustedValidatorWeights k

/-- The signers of a set of signatures. -/
def signers (blockSignatures : BlockSignatures K S) : Finset K :=
  blockSignatures.proofs.keys.toFinset

/-- The validators' total weight, which both functions sum. -/
def totalValidatorWeight (trustedValidatorWeights : OrdMap K Nat) : Nat :=
  (trustedValidatorWeights.entries.map Prod.snd).sum

section Weights

variable {W : OrdMap K Nat}

theorem weightOf_of_mem {k : K} {w : Nat} (h : (k, w) ∈ W.entries) : weightOf W k = w := by
  simp [weightOf, OrdMap.find?_of_mem h]

theorem mem_keys_of_weightOf_ne_zero {k : K} (h : weightOf W k ≠ 0) : k ∈ W.keys := by
  rw [OrdMap.mem_keys_iff]
  cases hk : W.find? k with
  | none => simp [weightOf, hk] at h
  | some w => exact ⟨w, rfl⟩

/-- The total is the weight of all the validators. -/
theorem totalValidatorWeight_eq_weight : totalValidatorWeight W = weight W W.keys.toFinset := by
  rw [weight, List.sum_toFinset _ W.keys_nodup, totalValidatorWeight, OrdMap.keys, List.map_map]
  congr 1
  exact List.map_congr_left fun e he => (weightOf_of_mem he).symm

/-- No set of public keys weighs more than all the validators. -/
theorem weight_le_totalValidatorWeight (s : Finset K) : weight W s ≤ totalValidatorWeight W := by
  rw [totalValidatorWeight_eq_weight]
  exact Finset.sum_le_sum_of_ne_zero fun k _ hk =>
    List.mem_toFinset.mpr (mem_keys_of_weightOf_ne_zero hk)

/-- Summed in key order, the signers weigh the weight of their set. -/
theorem sum_keys_eq_weight (b : BlockSignatures K S) :
    (b.proofs.keys.map (weightOf W)).sum = weight W (signers b) := by
  rw [weight, signers, List.sum_toFinset _ b.proofs.keys_nodup]

end Weights

/-! ## The quorum fraction -/

/-- The fault tolerance fractions for which `quorum_fraction` computes `(f + 1) / 2` without a
wrap: a nonzero denominator, a numerator and a denominator that add up within `u64`, and a
denominator whose double fits it. -/
structure QuorumFractionExact (f : RatioU64) : Prop where
  denom_pos : 0 < f.denom.toNat
  add_lt : f.numer.toNat + f.denom.toNat < 2 ^ 64
  double_lt : 2 * f.denom.toNat < 2 ^ 64

/-- A quorum fraction that does not panic has a positive denominator. -/
theorem denom_pos_of_quorumFraction {f q : RatioU64} (hq : quorumFraction f = some q) :
    0 < q.denom.toNat := by
  obtain ⟨sum, -, hq⟩ := Option.bind_eq_some_iff.mp hq
  exact RatioU64.divInt_denom_pos hq

/-- Without a wrap, the quorum fraction is `(f + 1) / 2`. -/
theorem quorumFraction_exact {f : RatioU64} (hf : QuorumFractionExact f) :
    ∃ q, quorumFraction f = some q ∧ q.val = (f.val + 1) / 2 := by
  obtain ⟨sum, hsum, hsd, hsle, hsv⟩ :=
    RatioU64.addInt_val (c := 1) hf.denom_pos (by simpa using hf.add_lt)
  obtain ⟨q, hq, -, hqv⟩ :=
    RatioU64.divInt_val (c := 2) hsd (by decide) (by have := hf.double_lt; simp; omega)
  refine ⟨q, by simp [quorumFraction, hsum, hq], ?_⟩
  rw [hqv, hsv]
  simp

/-- Below a fault tolerance of one the quorum is below one: its numerator is below its
denominator. -/
theorem numer_lt_denom_of_quorumFraction {f q : RatioU64} (hexact : QuorumFractionExact f)
    (hf : f.val < 1) (hq : quorumFraction f = some q) : q.numer.toNat < q.denom.toNat := by
  obtain ⟨q', hq', hv⟩ := quorumFraction_exact hexact
  obtain rfl : q = q' := Option.some.inj (hq.symm.trans hq')
  have hlt : q.val * 1 < 1 := by
    rw [hv]
    linarith
  simpa using (RatioU64.mul_numer_lt_mul_denom_iff (denom_pos_of_quorumFraction hq) 1 1).mpr
    (by exact_mod_cast hlt)

/-! ## The check -/

/-- What the loop over the signers returns when it gets through them: every signer is a
validator, the weight is theirs added to the one carried in, and the least weight is one of
theirs or the one carried in, set once there is one. -/
theorem signatureWeights_eq_ok {W : OrdMap K Nat} {ks : List K} {sw : Nat} {mw : Option Nat}
    {r : Nat × Option Nat} (h : signatureWeights W ks sw mw = some (.ok r)) :
    (∀ k ∈ ks, k ∈ W.keys) ∧ r.1 = sw + (ks.map (weightOf W)).sum ∧
      (∀ m ∈ r.2, m ∈ mw.toList ++ ks.map (weightOf W)) ∧ (mw.isSome ∨ ks ≠ [] → r.2.isSome) := by
  induction ks generalizing sw mw with
  | nil =>
    simp only [signatureWeights, Option.some.injEq, Except.ok.injEq] at h
    subst h
    simp
  | cons k rest ih =>
    simp only [signatureWeights] at h
    cases hk : W.find? k with
    | none => simp [hk] at h
    | some w =>
      simp only [hk] at h
      obtain ⟨sw', hsw', h⟩ := Option.bind_eq_some_iff.mp h
      obtain ⟨-, rfl⟩ := u512CheckedAdd_eq_some.mp hsw'
      obtain ⟨hall, hsum, hmem, hsome⟩ := ih h
      have hw : weightOf W k = w := by simp [weightOf, hk]
      -- after a validator the least weight is set, to its weight or to the one carried in
      have hset : (if mw.all (w < ·) then some w else mw).isSome ∧
          (if mw.all (w < ·) then some w else mw).toList ⊆ mw.toList ++ [w] := by
        split
        · simp
        · next hlt =>
          cases mw with
          | none => simp at hlt
          | some m => simp
      refine ⟨?_, by simp [hsum, hw, Nat.add_assoc], ?_, fun _ => hsome (.inl hset.1)⟩
      · intro k' hk'
        rcases List.mem_cons.mp hk' with rfl | hk'
        · exact OrdMap.mem_keys_iff.mpr ⟨w, hk⟩
        · exact hall k' hk'
      · intro m hm
        rcases List.mem_append.mp (hmem m hm) with hm' | hm'
        · have := hset.2 hm'
          simp only [List.map_cons, hw, List.mem_append, List.mem_cons] at this ⊢
          tauto
        · simp [hm']

/-- The loop gets through signers that are all validators when their weight fits. -/
theorem signatureWeights_isSome {W : OrdMap K Nat} {ks : List K} (hks : ∀ k ∈ ks, k ∈ W.keys)
    {sw : Nat} (hsum : sw + (ks.map (weightOf W)).sum < u512Limit) (mw : Option Nat) :
    ∃ r, signatureWeights W ks sw mw = some (.ok r) := by
  induction ks generalizing sw mw with
  | nil => exact ⟨_, rfl⟩
  | cons k rest ih =>
    obtain ⟨w, hk⟩ := OrdMap.mem_keys_iff.mp (hks k List.mem_cons_self)
    have hw : weightOf W k = w := by simp [weightOf, hk]
    have hfit : sw + w < u512Limit := by
      simp only [List.map_cons, List.sum_cons, hw] at hsum
      omega
    simp only [signatureWeights, hk, u512CheckedAdd, if_pos hfit, Option.bind_eq_bind,
      Option.bind_some]
    exact ih (fun k' hk' => hks k' (List.mem_cons_of_mem _ hk'))
      (by simp only [List.map_cons, List.sum_cons, hw] at hsum; omega) _

theorem eq_totalValidatorWeight_of_u512Sum {W : OrdMap K Nat} {T : Nat}
    (h : u512Sum (W.entries.map Prod.snd) = some T) :
    T = totalValidatorWeight W ∧ totalValidatorWeight W < u512Limit := by
  rw [u512Sum_eq] at h
  split at h
  · next hlt =>
    cases h
    exact ⟨rfl, hlt⟩
  · cases h

theorem u512Sum_weights_of_lt {W : OrdMap K Nat} (h : totalValidatorWeight W < u512Limit) :
    u512Sum (W.entries.map Prod.snd) = some (totalValidatorWeight W) := by
  rw [u512Sum_eq, if_pos (show (W.entries.map Prod.snd).sum < u512Limit from h)]
  rfl

/-- An accepted set of signatures is signed by validators only, weighing more than the quorum
fraction the check computed. -/
theorem checkSufficientBlockSignatures_ok {W : OrdMap K Nat} {f : RatioU64}
    {b : BlockSignatures K S} (h : checkSufficientBlockSignatures W f (some b) = some (.ok ())) :
    ∃ q, quorumFraction f = some q ∧ signers b ⊆ W.keys.toFinset ∧
      q.val * totalValidatorWeight W < weight W (signers b) := by
  unfold checkSufficientBlockSignatures checkSufficientBlockSignaturesWithQuorumFormula at h
  obtain ⟨T, hT, h⟩ := Option.bind_eq_some_iff.mp h
  obtain ⟨res, hres, h⟩ := Option.bind_eq_some_iff.mp h
  rcases res with k | ⟨sw, mw⟩
  · simp at h
  · obtain ⟨hall, hsw, -⟩ := signatureWeights_eq_ok hres
    obtain ⟨wmm, -, h⟩ := Option.bind_eq_some_iff.mp h
    obtain ⟨q, hq, h⟩ := Option.bind_eq_some_iff.mp h
    obtain ⟨lhs, hlhs, h⟩ := Option.bind_eq_some_iff.mp h
    obtain ⟨rhs, hrhs, h⟩ := Option.bind_eq_some_iff.mp h
    obtain ⟨-, rfl⟩ := u512Mul_eq_some.mp hlhs
    obtain ⟨-, rfl⟩ := u512Mul_eq_some.mp hrhs
    obtain ⟨hT', -⟩ := eq_totalValidatorWeight_of_u512Sum hT
    split at h
    · simp at h
    · next hgt =>
      refine ⟨q, hq, fun k hk => List.mem_toFinset.mpr (hall k (List.mem_toFinset.mp hk)), ?_⟩
      rw [← RatioU64.mul_numer_lt_mul_denom_iff (denom_pos_of_quorumFraction hq), ← hT',
        ← sum_keys_eq_weight, ← Nat.zero_add (List.sum _), ← hsw]
      exact Nat.lt_of_not_le hgt

/-- **Quorums of finality signatures intersect** when the quorum fraction is computed without a
wrap: two sets of signatures that the check accepts share signers weighing more than the fault
tolerance fraction of the total. -/
theorem checkSufficientBlockSignatures_quorums_intersect (W : OrdMap K Nat) {f : RatioU64}
    (hexact : QuorumFractionExact f) (b₁ b₂ : BlockSignatures K S)
    (h₁ : checkSufficientBlockSignatures W f (some b₁) = some (.ok ()))
    (h₂ : checkSufficientBlockSignatures W f (some b₂) = some (.ok ())) :
    f.val * totalValidatorWeight W < weight W (signers b₁ ∩ signers b₂) := by
  obtain ⟨q, hq, hsub₁, hq₁⟩ := checkSufficientBlockSignatures_ok h₁
  obtain ⟨q₂, hq₂', hsub₂, hq₂⟩ := checkSufficientBlockSignatures_ok h₂
  obtain rfl : q = q₂ := Option.some.inj (hq.symm.trans hq₂')
  -- the quorum is `(f + 1) / 2`, so twice it less one is `f`
  obtain ⟨q', hq', hv⟩ := quorumFraction_exact hexact
  obtain rfl : q = q' := Option.some.inj (hq.symm.trans hq')
  have htwice : 2 * q.val - 1 = f.val := by
    rw [hv]
    ring
  rw [totalValidatorWeight_eq_weight] at hq₁ hq₂ ⊢
  have hinter := Quorum.weight_inter_gt (weightOf W) hsub₁ hsub₂ hq₁ hq₂
  rwa [htwice] at hinter

/-- Four validators, the first as heavy as two of the others. -/
def fourValidators : OrdMap Nat Nat := OrdMap.ofList [(1, 2), (2, 1), (3, 1), (4, 1)]

/-- A fault tolerance of one third, kept unreduced as `2/6`, as `Ratio::new_raw` may keep it. -/
def oneThird : RatioU64 := ⟨2, 6⟩

/-- Signatures of validators one, two and three. -/
def signedByOneTwoThree : BlockSignatures Nat Unit := ⟨OrdMap.ofList [(1, ()), (2, ()), (3, ())]⟩

/-- Signatures of validators one, two and four. -/
def signedByOneTwoFour : BlockSignatures Nat Unit := ⟨OrdMap.ofList [(1, ()), (2, ()), (4, ())]⟩

theorem checkSufficientBlockSignatures_quorums_intersect_fourValidators :
    QuorumFractionExact oneThird ∧
      checkSufficientBlockSignatures fourValidators oneThird (some signedByOneTwoThree) =
        some (.ok ()) ∧
      checkSufficientBlockSignatures fourValidators oneThird (some signedByOneTwoFour) =
        some (.ok ()) ∧
      oneThird.val * totalValidatorWeight fourValidators <
        weight fourValidators (signers signedByOneTwoThree ∩ signers signedByOneTwoFour) := by
  have hexact : QuorumFractionExact oneThird := ⟨by decide, by decide, by decide⟩
  have h₁ : checkSufficientBlockSignatures fourValidators oneThird (some signedByOneTwoThree) =
      some (.ok ()) := by decide +kernel
  have h₂ : checkSufficientBlockSignatures fourValidators oneThird (some signedByOneTwoFour) =
      some (.ok ()) := by decide +kernel
  exact ⟨hexact, h₁, h₂, checkSufficientBlockSignatures_quorums_intersect fourValidators hexact
    signedByOneTwoThree signedByOneTwoFour h₁ h₂⟩

/-! ## The minimal set -/

/-- The signers `get_minimal_set_of_block_signatures` takes when nothing overflows: heaviest
first, while the weight taken is at most the quorum; with the weight taken. -/
def greedySigners (W : OrdMap K Nat) (q : RatioU64) (b : BlockSignatures K S) :
    List (K × Nat) × Nat :=
  Quorum.takeUpTo Prod.snd q.denom.toNat (totalValidatorWeight W * q.numer.toNat)
    ((signerWeights W b).mergeSort fun a b => b.2 ≤ a.2) 0

section SignerWeights

variable {W : OrdMap K Nat} {b : BlockSignatures K S}

theorem mem_signerWeights {e : K × Nat} :
    e ∈ signerWeights W b ↔ e.1 ∈ b.proofs.keys ∧ W.find? e.1 = some e.2 := by
  obtain ⟨k, w⟩ := e
  simp only [signerWeights, List.mem_filterMap, Option.map_eq_some_iff, Prod.mk.injEq]
  constructor
  · rintro ⟨k', hk', w', hw', rfl, rfl⟩
    exact ⟨hk', hw'⟩
  · rintro ⟨hk, hw⟩
    exact ⟨k, hk, w, hw, rfl, rfl⟩

theorem map_fst_filterMap_find? (ks : List K) :
    (ks.filterMap fun k => (W.find? k).map (k, ·)).map Prod.fst =
      ks.filter fun k => (W.find? k).isSome := by
  induction ks with
  | nil => rfl
  | cons k rest ih => cases hk : W.find? k <;> simp [hk, ih]

theorem sum_filterMap_find? (ks : List K) :
    ((ks.filterMap fun k => (W.find? k).map (k, ·)).map Prod.snd).sum =
      (ks.map (weightOf W)).sum := by
  induction ks with
  | nil => rfl
  | cons k rest ih => cases hk : W.find? k <;> simp [hk, ih, weightOf]

/-- Each signer appears once. -/
theorem nodup_map_fst_signerWeights : ((signerWeights W b).map Prod.fst).Nodup := by
  rw [signerWeights, map_fst_filterMap_find?]
  exact b.proofs.keys_nodup.filter _

/-- The signers that are validators weigh what all the signers weigh. -/
theorem sum_signerWeights : ((signerWeights W b).map Prod.snd).sum = weight W (signers b) := by
  rw [signerWeights, sum_filterMap_find?, sum_keys_eq_weight]

theorem sorted_mergeSort_signerWeights :
    ((signerWeights W b).mergeSort fun a b => b.2 ≤ a.2).Pairwise fun a b => b.2 ≤ a.2 :=
  (List.pairwise_mergeSort (fun _ _ _ hab hbc => by simp at hab hbc ⊢; omega)
    (fun _ _ => by simp; omega) _).imp (by simp)

end SignerWeights

/-! ### The greedy choice -/

section Greedy

variable {W : OrdMap K Nat} {q : RatioU64} {b : BlockSignatures K S}

/-- The signers taken are signers, with their weights. -/
theorem mem_signerWeights_of_mem_greedySigners {e : K × Nat} (he : e ∈ (greedySigners W q b).1) :
    e ∈ signerWeights W b :=
  (List.mergeSort_perm _ _).mem_iff.mp ((Quorum.takeUpTo_isPrefix _ _ _ _ _).subset he)

theorem nodup_map_fst_greedySigners : ((greedySigners W q b).1.map Prod.fst).Nodup :=
  (((Quorum.takeUpTo_isPrefix _ _ _ _ _).sublist.map Prod.fst).nodup
    (((List.mergeSort_perm _ _).map Prod.fst).nodup_iff.mpr nodup_map_fst_signerWeights))

/-- The weight taken is that of the signers taken. -/
theorem greedySigners_snd :
    (greedySigners W q b).2 = ((greedySigners W q b).1.map Prod.snd).sum := by
  rw [greedySigners, Quorum.takeUpTo_snd, Nat.zero_add]

/-- No more is taken than the signers weigh. -/
theorem greedySigners_snd_le : (greedySigners W q b).2 ≤ weight W (signers b) := by
  have hle := Quorum.takeUpTo_snd_le Prod.snd q.denom.toNat
    (totalValidatorWeight W * q.numer.toNat)
    ((signerWeights W b).mergeSort fun a b => b.2 ≤ a.2) 0
  rwa [((List.mergeSort_perm _ _).map Prod.snd).sum_eq, sum_signerWeights, Nat.zero_add] at hle

/-- What is taken exceeds the quorum exactly when the signers do. -/
theorem greedySigners_exceeds_iff (hq : 0 < q.denom.toNat) :
    totalValidatorWeight W * q.numer.toNat <
        (greedySigners W q b).2 * q.denom.toNat ↔
      q.val * totalValidatorWeight W < weight W (signers b) := by
  rw [greedySigners, Quorum.takeUpTo_exceeds_iff, Nat.zero_add,
    ((List.mergeSort_perm _ _).map Prod.snd).sum_eq, sum_signerWeights,
    RatioU64.mul_numer_lt_mul_denom_iff hq]

/-- The heaviest signer is taken first, so what is taken weighs at least any one signer. -/
theorem weightOf_le_greedySigners {k : K} (hk : k ∈ b.proofs.keys) :
    weightOf W k ≤ (greedySigners W q b).2 := by
  cases hw : W.find? k with
  | none => simp [weightOf, hw]
  | some w =>
    have hmem : (k, w) ∈ (signerWeights W b).mergeSort fun a b => b.2 ≤ a.2 :=
      (List.mergeSort_perm _ _).mem_iff.mpr (mem_signerWeights.mpr ⟨hk, hw⟩)
    have hsorted := sorted_mergeSort_signerWeights (W := W) (b := b)
    obtain ⟨e, rest, hsplit⟩ := List.exists_cons_of_ne_nil (List.ne_nil_of_mem hmem)
    rw [hsplit] at hsorted hmem
    have hwe : w ≤ e.2 := by
      rcases List.mem_cons.mp hmem with h | h
      · rw [← h]
      · exact (List.pairwise_cons.mp hsorted).1 _ h
    have hhead : 0 + e.2 ≤ (Quorum.takeUpTo Prod.snd q.denom.toNat
        (totalValidatorWeight W * q.numer.toNat) (e :: rest) 0).2 :=
      Quorum.add_head_le_takeUpTo_snd Prod.snd _ _ (by simp)
    rw [greedySigners, hsplit]
    simp only [weightOf, hw, Option.getD_some]
    omega

/-- Over the quorum, the signers taken end with their lightest, without which they are not
over it. -/
theorem greedySigners_minimal
    (hgt : totalValidatorWeight W * q.numer.toNat <
      (greedySigners W q b).2 * q.denom.toNat) :
    ∃ pre e, (greedySigners W q b).1 = pre ++ [e] ∧
      (pre.map Prod.snd).sum * q.denom.toNat ≤
        totalValidatorWeight W * q.numer.toNat ∧
      ∀ x ∈ (greedySigners W q b).1, e.2 ≤ x.2 := by
  obtain ⟨pre, e, htake, hpre, hmin⟩ :=
    Quorum.takeUpTo_minimal Prod.snd _ _ sorted_mergeSort_signerWeights (by simp) hgt
  exact ⟨pre, e, htake, by simpa using hpre, hmin⟩

end Greedy

/-! ### The panicking run and the greedy choice -/

omit [LinearOrder K] in
/-- A run of the `take_while` that does not panic is the greedy choice. -/
theorem takeSignatures_eq_some {d n T : Nat} {l : List (K × Nat)} {acc : Nat} {r : List K × Nat}
    (h : takeSignatures d n T l acc = some r) :
    r = ((Quorum.takeUpTo Prod.snd d (T * n) l acc).1.map Prod.fst,
      (Quorum.takeUpTo Prod.snd d (T * n) l acc).2) := by
  induction l generalizing acc r with
  | nil =>
    simp only [takeSignatures, Option.some.injEq] at h
    simp [← h]
  | cons e rest ih =>
    obtain ⟨k, w⟩ := e
    simp only [takeSignatures] at h
    obtain ⟨lhs, hlhs, h⟩ := Option.bind_eq_some_iff.mp h
    obtain ⟨rhs, hrhs, h⟩ := Option.bind_eq_some_iff.mp h
    obtain ⟨-, rfl⟩ := u512Mul_eq_some.mp hlhs
    obtain ⟨-, rfl⟩ := u512Mul_eq_some.mp hrhs
    split at h
    · next hle =>
      obtain ⟨acc', hacc', h⟩ := Option.bind_eq_some_iff.mp h
      obtain ⟨-, rfl⟩ := u512CheckedAdd_eq_some.mp hacc'
      obtain ⟨r', hr', h⟩ := Option.bind_eq_some_iff.mp h
      rw [Quorum.takeUpTo_cons_of_le Prod.snd d (T * n) hle, ← Option.some.inj h, ih hr']
      rfl
    · next hgt =>
      rw [Quorum.takeUpTo_of_gt Prod.snd d (T * n) (Nat.lt_of_not_le hgt), ← Option.some.inj h]
      rfl

omit [LinearOrder K] in
/-- Below the bounds the `take_while` does not panic. -/
theorem takeSignatures_isSome {d n T : Nat} (hd : 0 < d) (hT : T * n < u512Limit)
    (l : List (K × Nat)) {acc : Nat} (hl : (acc + (l.map Prod.snd).sum) * d < u512Limit) :
    ∃ r, takeSignatures d n T l acc = some r := by
  induction l generalizing acc with
  | nil => exact ⟨_, rfl⟩
  | cons e rest ih =>
    obtain ⟨k, w⟩ := e
    simp only [List.map_cons, List.sum_cons] at hl
    have hacc : acc * d < u512Limit := lt_of_le_of_lt (Nat.mul_le_mul_right d (by omega)) hl
    have hfit : acc + w < u512Limit :=
      lt_of_le_of_lt (Nat.le_mul_of_pos_right _ hd)
        (lt_of_le_of_lt (Nat.mul_le_mul_right d (by omega)) hl)
    have hl' : (acc + w + (rest.map Prod.snd).sum) * d < u512Limit := by
      rwa [Nat.add_assoc]
    simp only [takeSignatures, u512Mul_of_lt hacc, u512Mul_of_lt hT, Option.bind_eq_bind,
      Option.bind_some]
    split
    · obtain ⟨r, hr⟩ := ih hl'
      simp [u512CheckedAdd, hfit, hr]
    · exact ⟨_, rfl⟩

/-! ### What `get_minimal_set_of_block_signatures` returns -/

section Minimal

variable {W : OrdMap K Nat} {f : RatioU64} {b : BlockSignatures K S}

/-- Without a panic, the quorum fraction was computed, nothing overflowed, and the function
returns the signatures of the greedy choice if it exceeds the quorum. -/
theorem getMinimalSetOfBlockSignatures_eq_some {res : Option (BlockSignatures K S)}
    (h : getMinimalSetOfBlockSignatures W f b = some res) :
    ∃ q, quorumFraction f = some q ∧ totalValidatorWeight W < u512Limit ∧
      totalValidatorWeight W * q.numer.toNat < u512Limit ∧
      (greedySigners W q b).2 * q.denom.toNat < u512Limit ∧
      res = if totalValidatorWeight W * q.numer.toNat <
          (greedySigners W q b).2 * q.denom.toNat then
        some ⟨b.proofs.retain (· ∈ (greedySigners W q b).1.map Prod.fst)⟩ else none := by
  unfold getMinimalSetOfBlockSignatures at h
  obtain ⟨T, hT, h⟩ := Option.bind_eq_some_iff.mp h
  obtain ⟨rfl, hTlt⟩ := eq_totalValidatorWeight_of_u512Sum hT
  obtain ⟨q, hq, h⟩ := Option.bind_eq_some_iff.mp h
  obtain ⟨r, hr, h⟩ := Option.bind_eq_some_iff.mp h
  obtain rfl := takeSignatures_eq_some hr
  obtain ⟨lhs, hlhs, h⟩ := Option.bind_eq_some_iff.mp h
  obtain ⟨rhs, hrhs, h⟩ := Option.bind_eq_some_iff.mp h
  obtain ⟨hlhs', rfl⟩ := u512Mul_eq_some.mp hlhs
  obtain ⟨hrhs', rfl⟩ := u512Mul_eq_some.mp hrhs
  refine ⟨q, hq, hTlt, hrhs', hlhs', ?_⟩
  split at h
  · next hgt =>
    have hgt' : totalValidatorWeight W * q.numer.toNat <
        (greedySigners W q b).2 * q.denom.toNat := hgt
    rw [if_pos hgt']
    exact (Option.some.inj h).symm
  · next hle =>
    have hle' : ¬totalValidatorWeight W * q.numer.toNat <
        (greedySigners W q b).2 * q.denom.toNat := hle
    rw [if_neg hle']
    exact (Option.some.inj h).symm

/-- The check accepts the signatures of the greedy choice when it exceeds the quorum and its
products fit: they weigh more than the quorum and, less their lightest signer, no more. -/
theorem checkSufficientBlockSignatures_greedySigners {q : RatioU64}
    (hq : quorumFraction f = some q) (hT : totalValidatorWeight W < u512Limit)
    (hn : totalValidatorWeight W * q.numer.toNat < u512Limit)
    (hd : (greedySigners W q b).2 * q.denom.toNat < u512Limit)
    (hgt : totalValidatorWeight W * q.numer.toNat <
      (greedySigners W q b).2 * q.denom.toNat) :
    checkSufficientBlockSignatures W f
      (some ⟨b.proofs.retain (· ∈ (greedySigners W q b).1.map Prod.fst)⟩) = some (.ok ()) := by
  have hden := denom_pos_of_quorumFraction hq
  have htaken : ∀ e ∈ (greedySigners W q b).1, e.1 ∈ b.proofs.keys ∧ W.find? e.1 = some e.2 :=
    fun e he => mem_signerWeights.mp (mem_signerWeights_of_mem_greedySigners he)
  -- the signers kept are those taken, in key order
  have hperm : (b.proofs.retain (· ∈ (greedySigners W q b).1.map Prod.fst)).keys.Perm
      ((greedySigners W q b).1.map Prod.fst) := by
    rw [List.perm_ext_iff_of_nodup (OrdMap.keys_nodup _) nodup_map_fst_greedySigners]
    intro k
    simp only [OrdMap.keys_retain, List.mem_filter, decide_eq_true_eq, and_iff_right_iff_imp]
    intro hk
    obtain ⟨e, he, rfl⟩ := List.mem_map.mp hk
    exact (htaken e he).1
  have hsum : ((b.proofs.retain (· ∈ (greedySigners W q b).1.map Prod.fst)).keys.map
      (weightOf W)).sum = (greedySigners W q b).2 := by
    rw [(hperm.map _).sum_eq, List.map_map, greedySigners_snd]
    congr 1
    exact List.map_congr_left fun e he => by simp [weightOf, (htaken e he).2]
  have hall : ∀ k ∈ (b.proofs.retain (· ∈ (greedySigners W q b).1.map Prod.fst)).keys,
      k ∈ W.keys := fun k hk => by
    obtain ⟨e, he, rfl⟩ := List.mem_map.mp (hperm.mem_iff.mp hk)
    exact OrdMap.mem_keys_iff.mpr ⟨e.2, (htaken e he).2⟩
  obtain ⟨r, hr⟩ := signatureWeights_isSome hall
    (by rw [Nat.zero_add, hsum]; exact lt_of_le_of_lt (Nat.le_mul_of_pos_right _ hden) hd) none
  obtain ⟨-, hr1, hrmem, hrsome⟩ := signatureWeights_eq_ok hr
  rw [Nat.zero_add, hsum] at hr1
  -- something was taken, so the least weight is set, to the weight of a signer taken
  obtain ⟨pre, e, htake, hpre, hmin⟩ := greedySigners_minimal hgt
  have hne : (b.proofs.retain (· ∈ (greedySigners W q b).1.map Prod.fst)).keys ≠ [] :=
    fun hnil => by simpa [hnil, htake] using hperm.length_eq
  obtain ⟨m, hm⟩ := Option.isSome_iff_exists.mp (hrsome (.inr hne))
  have hmk : m ∈ (b.proofs.retain (· ∈ (greedySigners W q b).1.map Prod.fst)).keys.map
      (weightOf W) := by
    simpa using hrmem m hm
  have hem : e.2 ≤ m := by
    obtain ⟨k, hk, rfl⟩ := List.mem_map.mp hmk
    obtain ⟨e', he', rfl⟩ := List.mem_map.mp (hperm.mem_iff.mp hk)
    simpa [weightOf, (htaken e' he').2] using hmin e' he'
  have hmle : m ≤ (greedySigners W q b).2 := hsum ▸ List.le_sum_of_mem hmk
  have hsplit : (greedySigners W q b).2 = (pre.map Prod.snd).sum + e.2 := by
    rw [greedySigners_snd, htake]
    simp
  -- less its lightest signer the set is not over the quorum
  have hrest : ((greedySigners W q b).2 - m) * q.denom.toNat ≤
      totalValidatorWeight W * q.numer.toNat :=
    le_trans (Nat.mul_le_mul_right _ (by omega)) hpre
  have hrest' : ((greedySigners W q b).2 - m) * q.denom.toNat < u512Limit :=
    lt_of_le_of_lt (Nat.mul_le_mul_right _ (Nat.sub_le _ _)) hd
  obtain ⟨r1, r2⟩ := r
  simp only at hr1 hm
  subst hr1 hm
  simp only [checkSufficientBlockSignatures, checkSufficientBlockSignaturesWithQuorumFormula,
    u512Sum_weights_of_lt hT, Option.bind_eq_bind, Option.bind_some, hr, Option.getD_some,
    u512Sub_of_le hmle, hq, u512Mul_of_lt hd, u512Mul_of_lt hn, if_neg (Nat.not_le.mpr hgt),
    u512Mul_of_lt hrest', if_neg (Nat.not_lt.mpr hrest)]
  rfl

/-- A minimal set is returned only when the signers weigh more than the quorum the function
computed; it is a subset of the signatures, and the check accepts it. -/
theorem getMinimalSetOfBlockSignatures_eq_some_some {b' : BlockSignatures K S}
    (h : getMinimalSetOfBlockSignatures W f b = some (some b')) :
    ∃ q, quorumFraction f = some q ∧ q.val * totalValidatorWeight W < weight W (signers b) ∧
      b'.proofs.entries.Sublist b.proofs.entries ∧
      checkSufficientBlockSignatures W f (some b') = some (.ok ()) := by
  obtain ⟨q, hq, hT, hn, hd, hres⟩ := getMinimalSetOfBlockSignatures_eq_some h
  split at hres
  · next hgt =>
    cases hres
    exact ⟨q, hq, (greedySigners_exceeds_iff (denom_pos_of_quorumFraction hq)).mp hgt,
      List.filter_sublist, checkSufficientBlockSignatures_greedySigners hq hT hn hd hgt⟩
  · cases hres

/-- `None` is returned only when the signers weigh no more than the quorum. -/
theorem weight_le_of_getMinimalSetOfBlockSignatures_eq_some_none
    (h : getMinimalSetOfBlockSignatures W f b = some none) :
    ∃ q, quorumFraction f = some q ∧ weight W (signers b) ≤ q.val * totalValidatorWeight W := by
  obtain ⟨q, hq, -, -, -, hres⟩ := getMinimalSetOfBlockSignatures_eq_some h
  refine ⟨q, hq, ?_⟩
  split at hres
  · cases hres
  · next hle =>
    exact not_lt.mp (mt (greedySigners_exceeds_iff (denom_pos_of_quorumFraction hq)).mpr hle)

/-- With a quorum below one, and the total weight times the quorum's denominator within `U512`,
the function does not panic. -/
theorem getMinimalSetOfBlockSignatures_isSome {q : RatioU64} (hq : quorumFraction f = some q)
    (hnum : q.numer.toNat < q.denom.toNat)
    (hT : totalValidatorWeight W * q.denom.toNat < u512Limit) :
    ∃ res, getMinimalSetOfBlockSignatures W f b = some res := by
  have hden := denom_pos_of_quorumFraction hq
  have hTlt : totalValidatorWeight W < u512Limit :=
    lt_of_le_of_lt (Nat.le_mul_of_pos_right _ hden) hT
  have hn : totalValidatorWeight W * q.numer.toNat < u512Limit :=
    lt_of_le_of_lt (Nat.mul_le_mul_left _ hnum.le) hT
  -- the signers weigh at most the total, and so does what is taken
  have hsigners : weight W (signers b) * q.denom.toNat < u512Limit :=
    lt_of_le_of_lt (Nat.mul_le_mul_right _ (weight_le_totalValidatorWeight _)) hT
  have hd : (greedySigners W q b).2 * q.denom.toNat < u512Limit :=
    lt_of_le_of_lt (Nat.mul_le_mul_right _ greedySigners_snd_le) hsigners
  have hsorted : (0 + (((signerWeights W b).mergeSort fun a b => b.2 ≤ a.2).map Prod.snd).sum) *
      q.denom.toNat < u512Limit := by
    rwa [Nat.zero_add, ((List.mergeSort_perm _ _).map Prod.snd).sum_eq, sum_signerWeights]
  obtain ⟨r, hr⟩ := takeSignatures_isSome hden hn _ hsorted
  obtain rfl := takeSignatures_eq_some hr
  simp only [greedySigners] at hd
  unfold getMinimalSetOfBlockSignatures
  simp only [u512Sum_weights_of_lt hTlt, Option.bind_eq_bind, Option.bind_some, hq, hr,
    u512Mul_of_lt hd, u512Mul_of_lt hn]
  split <;> exact ⟨_, rfl⟩

end Minimal

/-! ### The claim on minimal sets -/

/-- **Minimal sets, without overflow**: for a fault tolerance below one whose quorum fraction is
computed without a wrap, and with the total weight times the quorum's denominator within
`U512`, the function returns a set exactly when the signers that are validators weigh more than
`(f + 1) / 2` of the total; that set is a subset of the signatures, and the check accepts it. -/
theorem getMinimalSetOfBlockSignatures_spec (W : OrdMap K Nat) {f : RatioU64}
    (hexact : QuorumFractionExact f) (hf : f.val < 1) (b : BlockSignatures K S) {q : RatioU64}
    (hq : quorumFraction f = some q)
    (hT : totalValidatorWeight W * q.denom.toNat < u512Limit) :
    ((∃ b', getMinimalSetOfBlockSignatures W f b = some (some b')) ↔
        (f.val + 1) / 2 * totalValidatorWeight W < weight W (signers b)) ∧
      ∀ b', getMinimalSetOfBlockSignatures W f b = some (some b') →
        b'.proofs.entries.Sublist b.proofs.entries ∧
          checkSufficientBlockSignatures W f (some b') = some (.ok ()) := by
  obtain ⟨q', hq', hv⟩ := quorumFraction_exact hexact
  obtain rfl : q = q' := Option.some.inj (hq.symm.trans hq')
  rw [← hv]
  refine ⟨⟨fun ⟨b', hb'⟩ => ?_, fun hgt => ?_⟩, fun b' hb' => ?_⟩
  · obtain ⟨q₁, hq₁, hgt, -⟩ := getMinimalSetOfBlockSignatures_eq_some_some hb'
    obtain rfl : q = q₁ := Option.some.inj (hq.symm.trans hq₁)
    exact hgt
  · -- the function does not panic here, and it returns `None` only below the quorum
    obtain ⟨res, hres⟩ := getMinimalSetOfBlockSignatures_isSome (b := b) hq
      (numer_lt_denom_of_quorumFraction hexact hf hq) hT
    cases res with
    | none =>
      obtain ⟨q₁, hq₁, hle⟩ := weight_le_of_getMinimalSetOfBlockSignatures_eq_some_none hres
      obtain rfl : q = q₁ := Option.some.inj (hq.symm.trans hq₁)
      exact absurd hgt (not_lt.mpr hle)
    | some b' => exact ⟨b', hres⟩
  · obtain ⟨-, -, -, hsub, hok⟩ := getMinimalSetOfBlockSignatures_eq_some_some hb'
    exact ⟨hsub, hok⟩

theorem getMinimalSetOfBlockSignatures_spec_fourValidators :
    QuorumFractionExact oneThird ∧ oneThird.val < 1 ∧ quorumFraction oneThird = some ⟨2, 3⟩ ∧
      totalValidatorWeight fourValidators * (⟨2, 3⟩ : RatioU64).denom.toNat < u512Limit ∧
      ((∃ b', getMinimalSetOfBlockSignatures fourValidators oneThird signedByOneTwoThree =
          some (some b')) ↔
        (oneThird.val + 1) / 2 * totalValidatorWeight fourValidators <
          weight fourValidators (signers signedByOneTwoThree)) ∧
      ∀ b', getMinimalSetOfBlockSignatures fourValidators oneThird signedByOneTwoThree =
          some (some b') →
        b'.proofs.entries.Sublist signedByOneTwoThree.proofs.entries ∧
          checkSufficientBlockSignatures fourValidators oneThird (some b') = some (.ok ()) := by
  have hexact : QuorumFractionExact oneThird := ⟨by decide, by decide, by decide⟩
  -- `2/6 + 1` is `8/6`, reduced to `4/3`, and halving it divides the numerator
  have hq : quorumFraction oneThird = some ⟨2, 3⟩ := by decide
  have hf : oneThird.val < 1 := by
    norm_num [RatioU64.val, oneThird, UInt64.toNat_ofNat]
  have hT : totalValidatorWeight fourValidators * (⟨2, 3⟩ : RatioU64).denom.toNat < u512Limit := by
    decide +kernel
  exact ⟨hexact, hf, hq, hT,
    getMinimalSetOfBlockSignatures_spec fourValidators hexact hf signedByOneTwoThree hq hT⟩

/-- **A heavy signer makes `get_minimal_set_of_block_signatures` panic**: the heaviest signer is
taken first, and the weight accumulated is then multiplied by the quorum's denominator, in the
`take_while` or in the final comparison.  A signer whose weight times the denominator of the
quorum fraction leaves `U512` makes that product overflow, whatever the signers weigh. -/
theorem getMinimalSetOfBlockSignatures_panics (W : OrdMap K Nat) (f : RatioU64)
    (b : BlockSignatures K S) {q : RatioU64} (hq : quorumFraction f = some q)
    (h : ∃ k ∈ b.proofs.keys, u512Limit ≤ weightOf W k * q.denom.toNat) :
    getMinimalSetOfBlockSignatures W f b = none := by
  obtain ⟨k, hk, hheavy⟩ := h
  cases hres : getMinimalSetOfBlockSignatures W f b with
  | none => rfl
  | some res =>
    obtain ⟨q', hq', -, -, hfit, -⟩ := getMinimalSetOfBlockSignatures_eq_some hres
    obtain rfl : q = q' := Option.some.inj (hq.symm.trans hq')
    -- what is taken weighs at least `k`, so its product with the denominator does not fit
    have hle := Nat.mul_le_mul_right q.denom.toNat
      (weightOf_le_greedySigners (W := W) (q := q) hk)
    omega

/-- Two validators of weights `2 ^ 511` and `2 ^ 510`: their total fits a `U512`. -/
def heavyValidators : OrdMap Nat Nat := OrdMap.ofList [(1, 2 ^ 511), (2, 2 ^ 510)]

/-- Signatures of both heavy validators. -/
def signedByBoth : BlockSignatures Nat Unit := ⟨OrdMap.ofList [(1, ()), (2, ())]⟩

/-- No fault tolerance, `0/1`. -/
def noFaults : RatioU64 := ⟨0, 1⟩

theorem getMinimalSetOfBlockSignatures_panics_heavyValidators :
    quorumFraction noFaults = some ⟨1, 2⟩ ∧ totalValidatorWeight heavyValidators < u512Limit ∧
      (noFaults.val + 1) / 2 * totalValidatorWeight heavyValidators <
        weight heavyValidators (signers signedByBoth) ∧
      getMinimalSetOfBlockSignatures heavyValidators noFaults signedByBoth = none := by
  have hq : quorumFraction noFaults = some ⟨1, 2⟩ := by decide
  -- the quorum is one half, and both signers weigh the whole total
  have hhalf : (noFaults.val + 1) / 2 = (⟨1, 2⟩ : RatioU64).val := by
    norm_num [RatioU64.val, noFaults, UInt64.toNat_ofNat]
  have hweight : (noFaults.val + 1) / 2 * totalValidatorWeight heavyValidators <
      weight heavyValidators (signers signedByBoth) := by
    rw [hhalf]
    exact (RatioU64.mul_numer_lt_mul_denom_iff (by decide) _ _).mp (by decide +kernel)
  exact ⟨hq, by decide +kernel, hweight,
    getMinimalSetOfBlockSignatures_panics heavyValidators noFaults signedByBoth hq
      ⟨1, by decide +kernel, by decide +kernel⟩⟩

end LinearChain

end CasperNode
