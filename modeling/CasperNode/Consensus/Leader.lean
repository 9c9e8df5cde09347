import CasperNode.Consensus.FinalityDetector
import CasperNode.Library.BinarySearch
import CasperNode.Library.WordBits

/-!
# The leader of a time slot

`State::leader` picks the proposer of a time slot.  From the era's seed plus the timestamp it
draws a weight unit `r` from `1` to the total weight, and the slot goes to the validator that
owns it: the first whose running weight sum in `cumulative_w` reaches `r`
(`ValidatorMap::binary_search`).  If that validator may not propose, the slot goes, with the
next seed, to a validator drawn the same way from `cumulative_w_leaders`, the running sums in
which the validators that may not propose weigh nothing.

`HighwayProtocol::new_boxed` scales the era's stakes to `u64` weights, bans the faulty
validators, excludes the inactive ones from proposing, and asserts that
`Validators::ensure_nonzero_proposing_stake` leaves weight to propose; `Highway::new` then
builds the state.  For every era it starts and every timestamp the leader is a validator with
positive weight that may propose, and excluding validators never moves a slot whose validator
may still propose (`leader_of_newBoxed`).

`ChaCha8Rng`'s `gen_range` is a parameter: any function below its positive bound (`Rng`).  A
binary search that finds nothing is a programming error, for which production code picks
validator `0`; so does the model, and on these states it never happens.  Validator IDs only fix
the order of the validators, which is the order of the lists here, and `ban` and
`set_cannot_propose` take an index.  Weights are `u64` values, natural numbers below `2 ^ 64`.
-/

namespace CasperNode.Highway

/-- `Validator`, without its ID. -/
structure Validator where
  weight : Nat
  banned : Bool
  canPropose : Bool
deriving DecidableEq

/-- `Validator::from`: a validator neither banned nor excluded from proposing. -/
def Validator.ofWeight (weight : Nat) : Validator := ⟨weight, false, true⟩

/-- `Weight::checked_add`. -/
def Weight.checkedAdd (sum w : Nat) : Option Nat :=
  if sum + w < 2 ^ 64 then some (sum + w) else none

/-- `Validators`: the validators in ID order, and their total weight. -/
structure Validators where
  validators : List Validator
  totalWeight : Nat

/-- `Validators::from_iter`; `none` is its panic "total weight must be < 2^64". -/
def Validators.fromIter (weights : List Nat) : Option Validators :=
  (weights.foldlM Weight.checkedAdd 0).map fun totalWeight =>
    ⟨weights.map Validator.ofWeight, totalWeight⟩

/-- `Validators::ban`: banned, and excluded from proposing. -/
def Validators.ban (vs : Validators) (idx : Nat) : Validators :=
  { vs with validators := vs.validators.modify idx fun v =>
      { v with banned := true, canPropose := false } }

/-- `Validators::set_cannot_propose`. -/
def Validators.setCannotPropose (vs : Validators) (idx : Nat) : Validators :=
  { vs with validators := vs.validators.modify idx fun v => { v with canPropose := false } }

/-- `Validators::ensure_nonzero_proposing_stake`: `false` for a zero total weight.  If every
validator with weight is banned, all are admitted again; else if every one with weight is
excluded from proposing, those not banned may propose again. -/
def Validators.ensureNonzeroProposingStake (vs : Validators) : Validators × Bool :=
  if vs.totalWeight = 0 then (vs, false)
  else if vs.validators.all fun v => v.banned || v.weight == 0 then
    ({ vs with validators := vs.validators.map fun v =>
        { v with canPropose := true, banned := false } }, true)
  else if vs.validators.all fun v => !v.canPropose || v.weight == 0 then
    ({ vs with validators := vs.validators.map fun v =>
        if !v.banned then { v with canPropose := true } else v }, true)
  else (vs, true)

/-- The indices of the validators with a property, in order. -/
def Validators.indicesWhere (vs : Validators) (p : Validator → Bool) : List Nat :=
  vs.validators.zipIdx.filterMap fun (v, idx) => if p v then some idx else none

/-- `Validators::iter_banned_idx`. -/
def Validators.iterBannedIdx (vs : Validators) : List Nat :=
  vs.indicesWhere Validator.banned

/-- `Validators::iter_cannot_propose_idx`. -/
def Validators.iterCannotProposeIdx (vs : Validators) : List Nat :=
  vs.indicesWhere fun v => !v.canPropose

/-- The validators `HighwayProtocol::new_boxed` starts an era with: the scaled stakes, the faulty
ones banned and the inactive ones excluded from proposing.  `none` is its assertion that there
is weight to propose. -/
def newBoxedValidators (stakes faulty inactive : List Nat) : Option Validators :=
  if stakes.sum = 0 then none
  else (Validators.fromIter ((scaleStakes stakes).map UInt64.toNat)).bind fun validators =>
    let validators := inactive.foldl Validators.setCannotPropose
      (faulty.foldl Validators.ban validators)
    match validators.ensureNonzeroProposingStake with
    | (validators, true) => some validators
    | (_, false) => none

/-- Highway's `State`, with the fields that `State::new` builds from the weights and
`State::leader` reads. -/
structure LeaderState where
  seed : Nat
  weights : List Nat
  cumulativeW : List Nat
  cumulativeWLeaders : List Nat
  canPropose : List Bool

/-- The closure `sums` of `State::new`: the next running sum, which must stay below `2 ^ 64`. -/
def pushSum (sums : List Nat) (w : Nat) : Option (List Nat) :=
  (Weight.checkedAdd (sums.getLast?.getD 0) w).map fun sum => sums ++ [sum]

/-- The running sums of the weights. -/
def cumulativeSums (weights : List Nat) : Option (List Nat) := weights.foldlM pushSum []

/-- One round of `State::new`'s loop over the validators excluded from proposing, which asserts
that the index is a validator's. -/
def excludeProposer (count : Nat) (canPropose : List Bool) (idx : Nat) : Option (List Bool) :=
  if idx < count then some (canPropose.set idx false) else none

/-- `State::new`, with the fields the leader sequence needs.  `none` is one of its assertions:
there are validators, their total weight is positive, and every banned or excluded index is a
validator's. -/
def LeaderState.new (weights : List Nat) (seed : Nat) (banned cannotPropose : List Nat) :
    Option LeaderState :=
  if weights.length = 0 then none
  else (cumulativeSums weights).bind fun cumulativeW =>
    if cumulativeW.getLast?.getD 0 = 0 then none
    else (cannotPropose.foldlM (excludeProposer weights.length) (weights.map fun _ => true)).bind
      fun canPropose =>
        if banned.all (· < weights.length) then
          (cumulativeSums (List.zipWith (fun w c => if c then w else 0) weights canPropose)).map
            fun cumulativeWLeaders => ⟨seed, weights, cumulativeW, cumulativeWLeaders, canPropose⟩
        else none

/-- `Highway::new`: the state of the validators' weights, with the banned ones and those excluded
from proposing.  The seed is the one of the parameters. -/
protected def new (validators : Validators) (seed : Nat) : Option LeaderState :=
  LeaderState.new (validators.validators.map Validator.weight) seed validators.iterBannedIdx
    validators.iterCannotProposeIdx

/-- `ChaCha8Rng::seed_from_u64(seed).gen_range(0..upper)`: a number below a positive bound. -/
structure Rng where
  genRange : Nat → Nat → Nat
  genRange_lt : ∀ seed upper, 0 < upper → genRange seed upper < upper

/-- `leader_prng`: a number from `1` to `upper`.  `gen_range` panics on an empty range. -/
def leaderPrng (rng : Rng) (upper seed : Nat) : Option Nat :=
  if upper = 0 then none else some (WordBits.saturatingAdd 64 (rng.genRange seed upper) 1)

/-- `ValidatorMap::binary_search`: the lowest index of an entry at least `x`.  The standard
library's search may find any entry equal to `x`; the walk down from it stops at the first. -/
def ValidatorMap.binarySearch (xs : List Nat) (x : Nat) : Option Nat :=
  match BinarySearch.binarySearch xs x with
  | .ok i => some ((((List.range i).reverse.takeWhile fun j => xs[j]? == some x).getLast?).getD i)
  | .error i => if i < xs.length then some i else none

/-- `State::leader`: the owner of a drawn weight unit, and if it may not propose, the owner of
one drawn with the next seed among the validators that may. -/
def LeaderState.leader (rng : Rng) (st : LeaderState) (timestamp : Nat) : Option Nat := do
  let seed := (st.seed + timestamp) % 2 ^ 64
  let totalWeight ← st.cumulativeW.getLast?
  let r ← leaderPrng rng totalWeight seed
  let leaderIndex := (ValidatorMap.binarySearch st.cumulativeW r).getD 0
  let canPropose ← st.canPropose[leaderIndex]?
  if canPropose then pure leaderIndex
  else do
    let totalWLeaders ← st.cumulativeWLeaders.getLast?
    let r ← leaderPrng rng totalWLeaders ((seed + 1) % 2 ^ 64)
    pure ((ValidatorMap.binarySearch st.cumulativeWLeaders r).getD 0)

/-! ## Running sums -/

/-- The running sums of a list of weights: the `i`-th is the sum of the first `i + 1`. -/
def prefixSums (ws : List Nat) : List Nat :=
  (List.range ws.length).map fun i => (ws.take (i + 1)).sum

@[simp] theorem length_prefixSums (ws : List Nat) : (prefixSums ws).length = ws.length := by
  simp [prefixSums]

@[simp] theorem getElem_prefixSums (ws : List Nat) (i : Nat) (hi : i < (prefixSums ws).length) :
    (prefixSums ws)[i] = (ws.take (i + 1)).sum := by
  simp [prefixSums]

theorem prefixSums_append_singleton (ws : List Nat) (w : Nat) :
    prefixSums (ws ++ [w]) = prefixSums ws ++ [ws.sum + w] := by
  apply List.ext_getElem (by simp)
  intro i h1 h2
  rw [getElem_prefixSums]
  simp only [length_prefixSums, List.length_append, List.length_singleton] at h1
  rcases Nat.lt_or_ge i ws.length with hi | hi
  · rw [List.getElem_append_left (by simpa using hi), getElem_prefixSums,
      List.take_append_of_le_length (by omega)]
  · obtain rfl : i = ws.length := by omega
    rw [List.getElem_append_right (by simp), List.take_of_length_le (by simp)]
    simp

theorem getLast?_prefixSums (ws : List Nat) : (prefixSums ws).getLast?.getD 0 = ws.sum := by
  rcases List.eq_nil_or_concat ws with rfl | ⟨L, b, rfl⟩
  · rfl
  · simp [prefixSums_append_singleton]

/-- The loop of running sums, from the sums of a prefix: it runs to the end exactly when the
total stays below `2 ^ 64`. -/
theorem foldlM_pushSum (pre ws : List Nat) (hpre : pre.sum < 2 ^ 64) :
    ws.foldlM pushSum (prefixSums pre) =
      if (pre ++ ws).sum < 2 ^ 64 then some (prefixSums (pre ++ ws)) else none := by
  induction ws generalizing pre with
  | nil =>
    rw [List.append_nil, if_pos hpre]
    rfl
  | cons w ws ih =>
    have hstep : pushSum (prefixSums pre) w =
        if pre.sum + w < 2 ^ 64 then some (prefixSums (pre ++ [w])) else none := by
      rw [pushSum, getLast?_prefixSums, Weight.checkedAdd, prefixSums_append_singleton]
      split <;> rfl
    rw [List.foldlM_cons, hstep]
    by_cases hw : pre.sum + w < 2 ^ 64
    · rw [if_pos hw]
      simp only [Option.bind_eq_bind, Option.bind_some]
      rw [ih (pre ++ [w]) (by simpa using hw), List.append_assoc, List.singleton_append]
    · have hsum : ¬(pre ++ w :: ws).sum < 2 ^ 64 := by
        simp only [List.sum_append, List.sum_cons]
        omega
      rw [if_neg hw, if_neg hsum]
      rfl

/-- **`State::new`'s running sums** are the prefix sums, when the total fits a `u64`. -/
theorem cumulativeSums_eq (ws : List Nat) :
    cumulativeSums ws = if ws.sum < 2 ^ 64 then some (prefixSums ws) else none := by
  have := foldlM_pushSum [] ws (by decide)
  rw [List.nil_append] at this
  exact this

theorem prefixSums_sorted (ws : List Nat) : (prefixSums ws).Pairwise (· ≤ ·) := by
  rw [List.pairwise_iff_getElem]
  intro i j hi hj hij
  rw [getElem_prefixSums, getElem_prefixSums]
  exact (List.take_sublist_take_left (by omega)).sum_le_sum fun _ _ => Nat.zero_le _

/-- The first running sum to reach a positive `r` ends with a positive weight. -/
theorem pos_of_lowerBound {ws : List Nat} {r i : Nat} (hr : 1 ≤ r) (hi : i < ws.length)
    (hle : r ≤ (ws.take (i + 1)).sum) (hbelow : ∀ j < i, (ws.take (j + 1)).sum < r) :
    0 < ws[i] := by
  rw [List.sum_take_succ ws i hi] at hle
  cases i with
  | zero =>
    simp only [List.take_zero, List.sum_nil, Nat.zero_add] at hle
    omega
  | succ i =>
    have := hbelow i (by omega)
    omega

/-! ## The lowest entry at least a weight -/

/-- The walk down from `i` over indices where `p` holds stops at `k`: `p` holds on `[k, i)`
and fails just below. -/
theorem walkDown_spec (p : Nat → Bool) (i : Nat) {k : Nat}
    (hk : ((List.range i).reverse.takeWhile p).getLast?.getD i = k) :
    k ≤ i ∧ (∀ j, k ≤ j → j < i → p j = true) ∧ (0 < k → p (k - 1) = false) := by
  induction i generalizing k with
  | zero =>
    obtain rfl : 0 = k := hk
    exact ⟨le_rfl, fun j _ hj => absurd hj (Nat.not_lt_zero _), fun h => absurd h (lt_irrefl 0)⟩
  | succ i ih =>
    rw [List.range_succ, List.reverse_append, List.reverse_singleton, List.singleton_append,
      List.takeWhile_cons] at hk
    by_cases hp : p i = true
    · -- the walk goes on below `i`, and stops where it stops from `i`
      rw [if_pos hp, List.getLast?_cons, Option.getD_some] at hk
      obtain ⟨hki, hrun, hstop⟩ := ih hk
      refine ⟨by omega, fun j hkj hj => ?_, hstop⟩
      rcases Nat.lt_or_ge j i with hji | hji
      · exact hrun j hkj hji
      · obtain rfl : j = i := by omega
        exact hp
    · -- the walk stops at once
      rw [if_neg hp] at hk
      obtain rfl : i + 1 = k := hk
      refine ⟨le_rfl, fun j hkj hj => absurd hj (by omega), fun _ => ?_⟩
      simpa using hp

/-- **`ValidatorMap::binary_search` finds the lowest entry at least `x`** of a sorted list that
has one. -/
theorem ValidatorMap.binarySearch_lowerBound {xs : List Nat} (hs : xs.Pairwise (· ≤ ·))
    {x j : Nat} (hj : j < xs.length) (hx : x ≤ xs[j]) :
    ∃ i, ValidatorMap.binarySearch xs x = some i ∧ ∃ hi : i < xs.length, x ≤ xs[i] ∧
      ∀ k (hk : k < i), xs[k] < x := by
  have hans := BinarySearch.binarySearch_answers (x := x) hs
  unfold ValidatorMap.binarySearch
  rcases hres : BinarySearch.binarySearch xs x with i | i
  · -- not found: the insertion point is inside the list, as `xs[j]` is at least `x`
    rw [hres] at hans
    have hilt : i < xs.length := by
      by_contra hge
      have := hans.below j hj (by omega)
      omega
    exact ⟨i, if_pos hilt, hilt, le_of_lt (hans.above i hilt le_rfl),
      fun k hk => hans.below k (by omega) hk⟩
  · -- found at `i`: the walk down stops at the first entry equal to `x`
    rw [hres] at hans
    obtain ⟨hi, hxi⟩ := hans
    obtain ⟨k, hkdef⟩ : ∃ k, ((List.range i).reverse.takeWhile fun j => xs[j]? == some x).getLast?.getD i = k :=
      ⟨_, rfl⟩
    obtain ⟨hki, hrun, hstop⟩ := walkDown_spec (fun j => xs[j]? == some x) i hkdef
    have hk : k < xs.length := by omega
    have hxk : xs[k] = x := by
      rcases Nat.lt_or_ge k i with hlt | hge
      · have := hrun k le_rfl hlt
        simpa [List.getElem?_eq_getElem hk] using this
      · obtain rfl : k = i := by omega
        exact hxi
    refine ⟨k, congrArg some hkdef, hk, hxk.ge, fun m hm => ?_⟩
    -- below `k` the entries are at most the one at `k - 1`, which is not `x`
    have hprev := hstop (by omega)
    have hne : xs[k - 1] ≠ x := by
      simpa [List.getElem?_eq_getElem (show k - 1 < xs.length by omega)] using hprev
    have hle : xs[k - 1] ≤ x := hxk ▸ BinarySearch.le_of_sorted hs (by omega) hk
    exact lt_of_le_of_lt (BinarySearch.le_of_sorted hs (by omega) _) (lt_of_le_of_ne hle hne)

/-! ## `State::leader` -/

/-- Below `2 ^ 64`, a positive bound gives a draw from `1` to the bound. -/
theorem leaderPrng_eq (rng : Rng) {upper : Nat} (hpos : 0 < upper) (hlt : upper < 2 ^ 64)
    (seed : Nat) : ∃ r, leaderPrng rng upper seed = some r ∧ 1 ≤ r ∧ r ≤ upper := by
  have hg := rng.genRange_lt seed upper hpos
  refine ⟨rng.genRange seed upper + 1, ?_, by omega, by omega⟩
  rw [leaderPrng, if_neg (by omega), WordBits.saturatingAdd, min_eq_left (by omega)]

section Leader

variable (rng : Rng) {st : LeaderState} {timestamp total r : Nat}

/-- The first draw stands when its validator may propose. -/
theorem LeaderState.leader_of_canPropose (htotal : st.cumulativeW.getLast? = some total)
    (hr : leaderPrng rng total ((st.seed + timestamp) % 2 ^ 64) = some r)
    (hc : st.canPropose[(ValidatorMap.binarySearch st.cumulativeW r).getD 0]? = some true) :
    st.leader rng timestamp = some ((ValidatorMap.binarySearch st.cumulativeW r).getD 0) := by
  simp only [LeaderState.leader, htotal, hr, hc, Option.bind_eq_bind, Option.bind_some]
  rfl

/-- Otherwise the second draw, among the validators that may propose, decides. -/
theorem LeaderState.leader_of_not_canPropose {totalL r' : Nat}
    (htotal : st.cumulativeW.getLast? = some total)
    (hr : leaderPrng rng total ((st.seed + timestamp) % 2 ^ 64) = some r)
    (hc : st.canPropose[(ValidatorMap.binarySearch st.cumulativeW r).getD 0]? = some false)
    (htotalL : st.cumulativeWLeaders.getLast? = some totalL)
    (hr' : leaderPrng rng totalL (((st.seed + timestamp) % 2 ^ 64 + 1) % 2 ^ 64) = some r') :
    st.leader rng timestamp = some ((ValidatorMap.binarySearch st.cumulativeWLeaders r').getD 0) := by
  simp only [LeaderState.leader, htotal, hr, hc, htotalL, hr', Option.bind_eq_bind,
    Option.bind_some]
  rfl

end Leader

/-! ## `State::new` -/

theorem getLast?_prefixSums_of_ne_nil {ws : List Nat} (hws : ws ≠ []) :
    (prefixSums ws).getLast? = some ws.sum := by
  have hne : prefixSums ws ≠ [] := by
    rw [← List.length_pos_iff, length_prefixSums]
    exact List.length_pos_iff.mpr hws
  obtain ⟨a, ha⟩ := Option.isSome_iff_exists.mp (List.getLast?_isSome.mpr hne)
  have hsum := getLast?_prefixSums ws
  rw [ha, Option.getD_some] at hsum
  rw [ha, hsum]

/-- The weights that may propose, with weight zero for the others, sum to at most the total. -/
theorem sum_zipWith_le (ws : List Nat) (cs : List Bool) :
    (List.zipWith (fun w c => if c then w else 0) ws cs).sum ≤ ws.sum := by
  induction ws generalizing cs with
  | nil => simp
  | cons w ws ih =>
    cases cs with
    | nil => simp
    | cons c cs =>
      simp only [List.zipWith_cons_cons, List.sum_cons]
      have := ih cs
      split <;> omega

/-- The loop over the excluded validators: with every index a validator's, each of them is
excluded and the others keep their flag. -/
theorem foldlM_excludeProposer {count : Nat} (idxs : List Nat) (hidx : ∀ idx ∈ idxs, idx < count)
    (acc : List Bool) (hacc : acc.length = count) :
    ∃ out, idxs.foldlM (excludeProposer count) acc = some out ∧
      ∀ i, out[i]? = acc[i]?.map fun c => c && !idxs.contains i := by
  induction idxs generalizing acc with
  | nil => exact ⟨acc, rfl, fun i => by cases acc[i]? <;> simp⟩
  | cons idx idxs ih =>
    have hidx' : idx < count := hidx idx (by simp)
    obtain ⟨out, hout, hget⟩ := ih (fun j hj => hidx j (by simp [hj])) (acc.set idx false)
      (by simp [hacc])
    refine ⟨out, ?_, fun i => ?_⟩
    · rw [List.foldlM_cons, excludeProposer, if_pos hidx']
      exact hout
    · rw [hget i, List.getElem?_set]
      by_cases hi : idx = i
      · subst hi
        rw [if_pos rfl, if_pos (by omega), List.getElem?_eq_getElem (by omega)]
        simp
      · rw [if_neg hi]
        cases acc[i]? <;> simp [Ne.symm hi]

theorem foldlM_excludeProposer_length {count : Nat} {idxs : List Nat} {acc out : List Bool}
    (h : idxs.foldlM (excludeProposer count) acc = some out) : out.length = acc.length := by
  induction idxs generalizing acc with
  | nil => exact (Option.some.inj h).symm ▸ rfl
  | cons idx idxs ih =>
    rw [List.foldlM_cons, excludeProposer] at h
    by_cases hidx : idx < count
    · rw [if_pos hidx] at h
      rw [ih h, List.length_set]
    · rw [if_neg hidx] at h
      cases h

/-- **What `State::new` builds**: the running sums of weights with a positive total below
`2 ^ 64`, and of the weights that may propose. -/
theorem LeaderState.new_eq_some {weights : List Nat} {seed : Nat} {banned cannotPropose : List Nat}
    {st : LeaderState} (h : LeaderState.new weights seed banned cannotPropose = some st) :
    st.seed = seed ∧ st.weights = weights ∧ st.cumulativeW = prefixSums weights ∧
      0 < weights.sum ∧ weights.sum < 2 ^ 64 ∧ st.canPropose.length = weights.length ∧
      st.cumulativeWLeaders =
        prefixSums (List.zipWith (fun w c => if c then w else 0) weights st.canPropose) := by
  unfold LeaderState.new at h
  rw [if_neg (by rintro hnil; rw [hnil] at h; cases h), cumulativeSums_eq] at h
  by_cases hlt : weights.sum < 2 ^ 64
  swap
  · rw [if_neg hlt] at h
    cases h
  rw [if_pos hlt, Option.bind_some, getLast?_prefixSums] at h
  by_cases hzero : weights.sum = 0
  · rw [if_pos hzero] at h
    cases h
  rw [if_neg hzero] at h
  obtain ⟨canPropose, hcp, h⟩ := Option.bind_eq_some_iff.mp h
  have hlen : canPropose.length = weights.length := by
    rw [foldlM_excludeProposer_length hcp, List.length_map]
  by_cases hbanned : banned.all (· < weights.length)
  swap
  · rw [if_neg hbanned] at h
    cases h
  -- the running sums of the weights that may propose fit as well
  rw [if_pos hbanned, cumulativeSums_eq,
    if_pos (lt_of_le_of_lt (sum_zipWith_le weights canPropose) hlt)] at h
  obtain rfl := Option.some.inj h
  exact ⟨rfl, rfl, rfl, Nat.pos_of_ne_zero hzero, hlt, hlen, rfl⟩

/-- **`State::new` succeeds** on weights with a positive total below `2 ^ 64` and indices of
validators; the excluded validators are the ones that may not propose. -/
theorem LeaderState.new_exists {weights : List Nat} (seed : Nat) {banned cannotPropose : List Nat}
    (hpos : 0 < weights.sum) (hlt : weights.sum < 2 ^ 64)
    (hbanned : ∀ idx ∈ banned, idx < weights.length)
    (hcannot : ∀ idx ∈ cannotPropose, idx < weights.length) :
    ∃ st, LeaderState.new weights seed banned cannotPropose = some st ∧
      ∀ i, st.canPropose[i]? = weights[i]?.map fun _ => !cannotPropose.contains i := by
  have hne : weights.length ≠ 0 := by
    intro hlen
    rw [List.length_eq_zero_iff.mp hlen] at hpos
    cases hpos
  obtain ⟨canPropose, hcp, hget⟩ :=
    foldlM_excludeProposer cannotPropose hcannot (weights.map fun _ => true) (by simp)
  have hleaders := lt_of_le_of_lt (sum_zipWith_le weights canPropose) hlt
  refine ⟨⟨seed, weights, prefixSums weights,
    prefixSums (List.zipWith (fun w c => if c then w else 0) weights canPropose), canPropose⟩,
    ?_, fun i => by rw [hget, List.getElem?_map]; cases weights[i]? <;> rfl⟩
  unfold LeaderState.new
  rw [if_neg hne, cumulativeSums_eq, if_pos hlt, Option.bind_some, getLast?_prefixSums,
    if_neg (by omega), hcp, Option.bind_some,
    if_pos (List.all_eq_true.mpr fun idx hidx => decide_eq_true (hbanned idx hidx)),
    cumulativeSums_eq, if_pos hleaders]
  rfl

/-- **The leader has weight and may propose**, on a state that `State::new` built where some
validator with weight may propose.  The first draw owns a positive weight; if its validator may
not propose, the second draw owns a positive weight among those that may. -/
theorem LeaderState.leader_spec (rng : Rng) {weights : List Nat} {seed : Nat}
    {banned cannotPropose : List Nat} {st : LeaderState}
    (h : LeaderState.new weights seed banned cannotPropose = some st)
    (hprop : ∃ (p : Nat) (w : Nat), st.canPropose[p]? = some true ∧ weights[p]? = some w ∧ 0 < w)
    (timestamp : Nat) :
    ∃ i w, st.leader rng timestamp = some i ∧ st.weights[i]? = some w ∧ 0 < w ∧
      st.canPropose[i]? = some true := by
  obtain ⟨hseed, hweights, hcum, hpos, hlt, hlen, hleaders⟩ := LeaderState.new_eq_some h
  have hne : weights ≠ [] := by
    rintro rfl
    cases hpos
  -- the first draw, and the validator owning it
  have htotal : st.cumulativeW.getLast? = some weights.sum := by
    rw [hcum, getLast?_prefixSums_of_ne_nil hne]
  obtain ⟨r, hr, hr1, hrle⟩ := leaderPrng_eq rng hpos hlt ((st.seed + timestamp) % 2 ^ 64)
  have hlast : weights.length - 1 < (prefixSums weights).length := by
    simp [List.length_pos_iff.mpr hne]
  obtain ⟨i, hi, hilt, hri, hbelow⟩ := ValidatorMap.binarySearch_lowerBound (x := r)
    (prefixSums_sorted weights) hlast (by
      rw [getElem_prefixSums, show weights.length - 1 + 1 = weights.length by
        have := List.length_pos_iff.mpr hne; omega, List.take_length]
      exact hrle)
  rw [length_prefixSums] at hilt
  have hwi : 0 < weights[i] := pos_of_lowerBound hr1 hilt
    (by simpa using hri) (fun j hj => by simpa using hbelow j hj)
  rw [← hcum] at hi
  have hidx : (ValidatorMap.binarySearch st.cumulativeW r).getD 0 = i := by rw [hi]; rfl
  obtain ⟨c, hc⟩ : ∃ c, st.canPropose[i]? = some c :=
    ⟨st.canPropose[i], List.getElem?_eq_getElem (by omega)⟩
  cases c with
  | true =>
    refine ⟨i, weights[i], ?_, by rw [hweights]; exact List.getElem?_eq_getElem hilt, hwi, hc⟩
    rw [LeaderState.leader_of_canPropose rng htotal hr (by rw [hidx]; exact hc), hidx]
  | false =>
    -- the second draw, among the weights that may propose
    set leaders := List.zipWith (fun w c => if c then w else 0) weights st.canPropose
    have hleaders_len : leaders.length = weights.length := by simp [leaders, hlen]
    have hleaders_get : ∀ j (hj : j < leaders.length) (hjc : j < st.canPropose.length)
        (hjw : j < weights.length), leaders[j] = if st.canPropose[j] then weights[j] else 0 := by
      intro j hj hjc hjw
      simp [leaders]
    obtain ⟨p, w, hpc, hpw, hw⟩ := hprop
    have hp : p < leaders.length := by
      have := (List.getElem?_eq_some_iff.mp hpw).1
      omega
    have hlpos : 0 < leaders.sum := by
      have hmem : leaders[p] ∈ leaders := List.getElem_mem hp
      have hlp : leaders[p] = w := by
        rw [hleaders_get p hp (by omega) (by omega)]
        obtain ⟨_, hcp⟩ := List.getElem?_eq_some_iff.mp hpc
        obtain ⟨_, hwp⟩ := List.getElem?_eq_some_iff.mp hpw
        simp [hcp, hwp]
      have := List.le_sum_of_mem hmem
      omega
    have hllt : leaders.sum < 2 ^ 64 := lt_of_le_of_lt (sum_zipWith_le _ _) hlt
    have hlne : leaders ≠ [] := List.ne_nil_of_length_pos (by omega)
    have htotalL : st.cumulativeWLeaders.getLast? = some leaders.sum := by
      rw [hleaders, getLast?_prefixSums_of_ne_nil hlne]
    obtain ⟨r', hr', hr'1, hr'le⟩ :=
      leaderPrng_eq rng hlpos hllt (((st.seed + timestamp) % 2 ^ 64 + 1) % 2 ^ 64)
    have hlastL : leaders.length - 1 < (prefixSums leaders).length := by
      simp [List.length_pos_iff.mpr hlne]
    obtain ⟨j, hj, hjlt, hrj, hbelowj⟩ := ValidatorMap.binarySearch_lowerBound (x := r')
      (prefixSums_sorted leaders) hlastL (by
        rw [getElem_prefixSums, show leaders.length - 1 + 1 = leaders.length by omega,
          List.take_length]
        exact hr'le)
    rw [length_prefixSums] at hjlt
    have hlj : 0 < leaders[j] := pos_of_lowerBound hr'1 hjlt
      (by simpa using hrj) (fun k hk => by simpa using hbelowj k hk)
    -- a positive weight among those that may propose is a proposer's
    have hjc : j < st.canPropose.length := by omega
    have hjw : j < weights.length := by omega
    rw [hleaders_get j hjlt hjc hjw] at hlj
    have hcj : st.canPropose[j] = true := by
      by_contra hcj
      rw [if_neg hcj] at hlj
      exact lt_irrefl 0 hlj
    rw [if_pos hcj] at hlj
    rw [← hleaders] at hj
    refine ⟨j, weights[j], ?_, by rw [hweights]; exact List.getElem?_eq_getElem hjw,
      hlj, by rw [List.getElem?_eq_getElem hjc, hcj]⟩
    rw [LeaderState.leader_of_not_canPropose rng htotal hr (by rw [hidx]; exact hc) htotalL hr', hj]
    rfl

/-- **Exclusions never move a slot** whose validator may still propose: the validator that the
first draw picks, the leader when nobody is excluded, keeps the slot under any exclusions that
let it propose, as the first draw only reads the seed and the weights. -/
theorem LeaderState.leader_of_new_nil (rng : Rng) {weights : List Nat} {seed : Nat}
    {banned cannotPropose : List Nat} {st₀ st : LeaderState} {timestamp i : Nat}
    (h₀ : LeaderState.new weights seed [] [] = some st₀) (hi : st₀.leader rng timestamp = some i)
    (h : LeaderState.new weights seed banned cannotPropose = some st)
    (hc : st.canPropose[i]? = some true) :
    st.leader rng timestamp = some i := by
  obtain ⟨hseed₀, -, hcum₀, hpos, hlt, -, -⟩ := LeaderState.new_eq_some h₀
  obtain ⟨hseed, -, hcum, -, -, -, -⟩ := LeaderState.new_eq_some h
  have hne : weights ≠ [] := by
    rintro rfl
    cases hpos
  -- without exclusions every validator may propose
  have hnil : ∀ idx ∈ ([] : List Nat), idx < weights.length := fun _ h => absurd h List.not_mem_nil
  obtain ⟨st', h', hcp'⟩ := LeaderState.new_exists seed hpos hlt hnil hnil
  obtain rfl : st₀ = st' := Option.some.inj (h₀.symm.trans h')
  -- the first draw is the same in both states
  have htotal : ∀ s : LeaderState, s.cumulativeW = prefixSums weights →
      s.cumulativeW.getLast? = some weights.sum := by
    intro s hs
    rw [hs, getLast?_prefixSums_of_ne_nil hne]
  obtain ⟨r, hr, -, hrle⟩ := leaderPrng_eq rng hpos hlt ((seed + timestamp) % 2 ^ 64)
  set k := (ValidatorMap.binarySearch (prefixSums weights) r).getD 0
  have hk : k < weights.length := by
    obtain ⟨j, hj, hjlt, -⟩ := ValidatorMap.binarySearch_lowerBound (x := r)
      (prefixSums_sorted weights) (j := weights.length - 1)
      (by simp [List.length_pos_iff.mpr hne]) (by
        rw [getElem_prefixSums, show weights.length - 1 + 1 = weights.length by
          have := List.length_pos_iff.mpr hne; omega, List.take_length]
        exact hrle)
    simp only [k, hj, Option.getD_some]
    simpa using hjlt
  have hk₀ : st₀.canPropose[k]? = some true := by
    rw [hcp', List.getElem?_eq_getElem hk]
    rfl
  have hleader₀ := LeaderState.leader_of_canPropose rng (htotal st₀ hcum₀)
    (by rw [hseed₀]; exact hr) (by rw [hcum₀]; exact hk₀)
  rw [hcum₀, hi] at hleader₀
  obtain rfl : i = k := Option.some.inj hleader₀
  have hleader := LeaderState.leader_of_canPropose rng (htotal st hcum)
    (by rw [hseed]; exact hr) (by rw [hcum]; exact hc)
  rw [hcum] at hleader
  exact hleader

/-! ## The validators of an era -/

/-- Validators whose total weight is the sum of their weights, below `2 ^ 64`. -/
structure Validators.Weighted (vs : Validators) : Prop where
  totalWeight_eq : vs.totalWeight = (vs.validators.map Validator.weight).sum
  totalWeight_lt : vs.totalWeight < 2 ^ 64

theorem foldlM_checkedAdd_eq_some {ws : List Nat} {acc t : Nat} (hacc : acc < 2 ^ 64)
    (h : ws.foldlM Weight.checkedAdd acc = some t) : t = acc + ws.sum ∧ t < 2 ^ 64 := by
  induction ws generalizing acc with
  | nil =>
    obtain rfl := Option.some.inj h
    exact ⟨by simp, hacc⟩
  | cons w ws ih =>
    rw [List.foldlM_cons, Weight.checkedAdd] at h
    by_cases hw : acc + w < 2 ^ 64
    · rw [if_pos hw] at h
      obtain ⟨ht, hlt⟩ := ih hw h
      exact ⟨by rw [ht, List.sum_cons]; omega, hlt⟩
    · rw [if_neg hw] at h
      cases h

theorem Validators.fromIter_eq_some {weights : List Nat} {vs : Validators}
    (h : Validators.fromIter weights = some vs) :
    vs.validators = weights.map Validator.ofWeight ∧ vs.Weighted := by
  obtain ⟨total, htotal, rfl⟩ := Option.map_eq_some_iff.mp h
  obtain ⟨heq, hlt⟩ := foldlM_checkedAdd_eq_some (by decide) htotal
  refine ⟨rfl, heq.trans ?_, hlt⟩
  simp [Function.comp_def, Validator.ofWeight]

/-- Changing flags keeps the weights. -/
theorem map_weight_modify (vs : List Validator) (idx : Nat) (f : Validator → Validator)
    (hf : ∀ v, (f v).weight = v.weight) :
    (vs.modify idx f).map Validator.weight = vs.map Validator.weight := by
  apply List.ext_getElem?
  intro i
  rw [List.getElem?_map, List.getElem?_map, List.getElem?_modify]
  cases vs[i]? with
  | none => rfl
  | some v =>
    simp only [Option.map_eq_map, Option.map_some]
    split <;> simp [hf]

theorem map_weight_map (vs : List Validator) (f : Validator → Validator)
    (hf : ∀ v, (f v).weight = v.weight) :
    (vs.map f).map Validator.weight = vs.map Validator.weight := by
  rw [List.map_map]
  exact List.map_congr_left fun v _ => hf v

theorem Validators.Weighted.ban {vs : Validators} (hw : vs.Weighted) (idx : Nat) :
    (vs.ban idx).Weighted :=
  ⟨hw.totalWeight_eq.trans (congrArg List.sum (map_weight_modify _ idx
      (fun v => { v with banned := true, canPropose := false }) fun _ => rfl).symm),
    hw.totalWeight_lt⟩

theorem Validators.Weighted.setCannotPropose {vs : Validators} (hw : vs.Weighted) (idx : Nat) :
    (vs.setCannotPropose idx).Weighted :=
  ⟨hw.totalWeight_eq.trans (congrArg List.sum (map_weight_modify _ idx
      (fun v => { v with canPropose := false }) fun _ => rfl).symm),
    hw.totalWeight_lt⟩

theorem Validators.Weighted.foldl {f : Validators → Nat → Validators}
    (hf : ∀ vs idx, vs.Weighted → (f vs idx).Weighted) (idxs : List Nat) {vs : Validators}
    (hw : vs.Weighted) : (idxs.foldl f vs).Weighted := by
  induction idxs generalizing vs with
  | nil => exact hw
  | cons idx idxs ih => exact ih (hf vs idx hw)

/-- **After `ensure_nonzero_proposing_stake` returns `true`, a validator with weight may
propose**: one that was already, one not banned that is admitted again, or, if all with weight
were banned, any with weight. -/
theorem Validators.ensureNonzeroProposingStake_true {vs vs' : Validators} (hw : vs.Weighted)
    (h : vs.ensureNonzeroProposingStake = (vs', true)) :
    vs'.Weighted ∧ ∃ v ∈ vs'.validators, v.canPropose = true ∧ 0 < v.weight := by
  unfold Validators.ensureNonzeroProposingStake at h
  by_cases hzero : vs.totalWeight = 0
  · rw [if_pos hzero] at h
    cases h
  rw [if_neg hzero] at h
  by_cases hbanned : vs.validators.all fun v => v.banned || v.weight == 0
  · -- all with weight banned: everyone is admitted again, and some validator has weight
    rw [if_pos hbanned] at h
    obtain rfl := (Prod.mk.inj h).1
    obtain ⟨v, hv, hpos⟩ : ∃ v ∈ vs.validators, 0 < v.weight := by
      by_contra hnone
      apply hzero
      rw [hw.totalWeight_eq, List.sum_eq_zero_iff_forall_eq_nat]
      intro w hw'
      obtain ⟨v, hv, rfl⟩ := List.mem_map.mp hw'
      exact Nat.eq_zero_of_not_pos fun hpos => hnone ⟨v, hv, hpos⟩
    refine ⟨⟨hw.totalWeight_eq.trans (congrArg List.sum (map_weight_map _
      (fun v => { v with canPropose := true, banned := false }) fun _ => rfl).symm),
      hw.totalWeight_lt⟩, _, List.mem_map_of_mem hv, rfl, hpos⟩
  rw [if_neg hbanned] at h
  obtain ⟨v, hv, hvb⟩ := List.all_eq_false.mp (Bool.eq_false_iff.mpr hbanned)
  have hvb' : v.banned = false ∧ 0 < v.weight := by
    simp only [Bool.or_eq_true, beq_iff_eq, not_or, Bool.not_eq_true] at hvb
    exact ⟨hvb.1, Nat.pos_of_ne_zero hvb.2⟩
  by_cases hexcluded : vs.validators.all fun v => !v.canPropose || v.weight == 0
  · -- all with weight excluded: those not banned may propose again
    rw [if_pos hexcluded] at h
    obtain rfl := (Prod.mk.inj h).1
    refine ⟨⟨hw.totalWeight_eq.trans
      (congrArg List.sum (map_weight_map _
        (fun v => if !v.banned then { v with canPropose := true } else v)
        fun v => by split <;> rfl).symm),
      hw.totalWeight_lt⟩, _, List.mem_map_of_mem hv, by simp [hvb'.1], ?_⟩
    simp [hvb'.1, hvb'.2]
  · -- some validator with weight may propose already
    rw [if_neg hexcluded] at h
    obtain rfl := (Prod.mk.inj h).1
    obtain ⟨u, hu, hub⟩ := List.all_eq_false.mp (Bool.eq_false_iff.mpr hexcluded)
    simp only [Bool.or_eq_true, Bool.not_eq_true', beq_iff_eq, not_or, Bool.not_eq_false] at hub
    exact ⟨hw, u, hu, hub.1, Nat.pos_of_ne_zero hub.2⟩

/-- **What `new_boxed` starts an era with**: weights summing below `2 ^ 64`, and a validator with
weight that may propose. -/
theorem newBoxedValidators_spec {stakes faulty inactive : List Nat} {vs : Validators}
    (h : newBoxedValidators stakes faulty inactive = some vs) :
    vs.Weighted ∧ ∃ v ∈ vs.validators, v.canPropose = true ∧ 0 < v.weight := by
  unfold newBoxedValidators at h
  by_cases hzero : stakes.sum = 0
  · rw [if_pos hzero] at h
    cases h
  rw [if_neg hzero] at h
  obtain ⟨vs₀, hvs₀, h⟩ := Option.bind_eq_some_iff.mp h
  have hw := Validators.Weighted.foldl (fun vs idx hw => hw.setCannotPropose idx) inactive
    (Validators.Weighted.foldl (fun vs idx hw => hw.ban idx) faulty
      (Validators.fromIter_eq_some hvs₀).2)
  dsimp only at h
  generalize hens : (inactive.foldl Validators.setCannotPropose
    (faulty.foldl Validators.ban vs₀)).ensureNonzeroProposingStake = e at h
  rcases e with ⟨vs', _ | _⟩
  · cases h
  · obtain rfl := Option.some.inj h
    exact Validators.ensureNonzeroProposingStake_true hw hens

theorem Validators.mem_indicesWhere {vs : Validators} {p : Validator → Bool} {i : Nat} :
    i ∈ vs.indicesWhere p ↔ ∃ v, vs.validators[i]? = some v ∧ p v = true := by
  simp [Validators.indicesWhere, List.mem_filterMap, List.mem_zipIdx_iff_getElem?]

/-- **`Highway::new` succeeds** on validators with a positive total weight below `2 ^ 64`, and
the state's flags are the validators'. -/
protected theorem new_exists {vs : Validators} (hw : vs.Weighted) (hpos : 0 < vs.totalWeight)
    (seed : Nat) :
    ∃ st, Highway.new vs seed = some st ∧
      ∀ i : Nat, st.canPropose[i]? = vs.validators[i]?.map Validator.canPropose := by
  -- the indices both lists hold are validators'
  have hidx : ∀ (p : Validator → Bool), ∀ idx ∈ vs.indicesWhere p,
      idx < (vs.validators.map Validator.weight).length := by
    intro p idx hmem
    obtain ⟨v, hv, -⟩ := Validators.mem_indicesWhere.mp hmem
    rw [List.length_map]
    exact (List.getElem?_eq_some_iff.mp hv).1
  have hsum : (vs.validators.map Validator.weight).sum = vs.totalWeight := hw.totalWeight_eq.symm
  obtain ⟨st, hst, hcp⟩ := LeaderState.new_exists seed (hsum ▸ hpos) (hsum ▸ hw.totalWeight_lt)
    (hidx _) (hidx _)
  refine ⟨st, hst, fun i => ?_⟩
  rw [hcp, List.getElem?_map]
  rcases hv : vs.validators[i]? with _ | v
  · rfl
  · -- an index is excluded exactly when its validator may not propose
    have hmem : (vs.indicesWhere fun v => !v.canPropose).contains i = !v.canPropose := by
      rw [Bool.eq_iff_iff, List.contains_iff_mem, Validators.mem_indicesWhere]
      constructor
      · rintro ⟨u, hu, hcan⟩
        rw [hv, Option.some_inj] at hu
        obtain rfl := hu
        exact hcan
      · intro hcan
        exact ⟨v, hv, hcan⟩
    simp only [Option.map_some, hmem, Bool.not_not]

/-- **The leader of every slot of an era** has positive weight and may propose, for every era
that `new_boxed` starts and every timestamp; and the validator that the first draw picks keeps
its slot under any exclusions that let it propose. -/
theorem leader_of_newBoxed (rng : Rng) :
    (∀ stakes faulty inactive validators seed timestamp,
      newBoxedValidators stakes faulty inactive = some validators →
      ∃ st, Highway.new validators seed = some st ∧
        ∃ i w, st.leader rng timestamp = some i ∧ st.weights[i]? = some w ∧ 0 < w ∧
          st.canPropose[i]? = some true) ∧
    (∀ weights seed banned cannotPropose st₀ st timestamp i,
      LeaderState.new weights seed [] [] = some st₀ → st₀.leader rng timestamp = some i →
      LeaderState.new weights seed banned cannotPropose = some st →
      st.canPropose[i]? = some true → st.leader rng timestamp = some i) := by
  refine ⟨fun stakes faulty inactive validators seed timestamp hnew => ?_,
    fun _ _ _ _ _ _ _ _ h₀ hi h hc => LeaderState.leader_of_new_nil rng h₀ hi h hc⟩
  obtain ⟨hw, v, hv, hcan, hpos⟩ := newBoxedValidators_spec hnew
  have htotal : 0 < validators.totalWeight := by
    rw [hw.totalWeight_eq]
    exact lt_of_lt_of_le hpos (List.le_sum_of_mem (List.mem_map_of_mem hv))
  obtain ⟨st, hst, hcp⟩ := Highway.new_exists hw htotal seed
  refine ⟨st, hst, LeaderState.leader_spec rng hst ?_ timestamp⟩
  -- the validator with weight that may propose is at some index
  obtain ⟨p, hp⟩ := List.mem_iff_getElem?.mp hv
  exact ⟨p, v.weight, by rw [hcp, hp, Option.map_some, hcan],
    by rw [List.getElem?_map, hp, Option.map_some], hpos⟩

/-- `gen_range` as the seed modulo the bound. -/
def modRng : Rng := ⟨fun seed upper => seed % upper, fun _ _ h => Nat.mod_lt _ h⟩

theorem leader_of_newBoxed_threeValidators :
    newBoxedValidators [3, 5, 2] [1] [] =
        some ⟨[⟨3, false, true⟩, ⟨5, true, false⟩, ⟨2, false, true⟩], 10⟩ ∧
      (∃ st, Highway.new ⟨[⟨3, false, true⟩, ⟨5, true, false⟩, ⟨2, false, true⟩], 10⟩ 0 = some st ∧
        ∃ i w, st.leader modRng 7 = some i ∧ st.weights[i]? = some w ∧ 0 < w ∧
          st.canPropose[i]? = some true) ∧
      LeaderState.new [3, 5, 2] 0 [] [] = some ⟨0, [3, 5, 2], [3, 8, 10], [3, 8, 10], [true, true, true]⟩ ∧
      LeaderState.leader modRng ⟨0, [3, 5, 2], [3, 8, 10], [3, 8, 10], [true, true, true]⟩ 7 = some 1 ∧
      LeaderState.new [3, 5, 2] 0 [] [0] =
        some ⟨0, [3, 5, 2], [3, 8, 10], [0, 5, 7], [false, true, true]⟩ ∧
      LeaderState.leader modRng ⟨0, [3, 5, 2], [3, 8, 10], [0, 5, 7], [false, true, true]⟩ 7 = some 1 := by
  have hnew : newBoxedValidators [3, 5, 2] [1] [] =
      some ⟨[⟨3, false, true⟩, ⟨5, true, false⟩, ⟨2, false, true⟩], 10⟩ := rfl
  have h₀ : LeaderState.new [3, 5, 2] 0 [] [] =
      some ⟨0, [3, 5, 2], [3, 8, 10], [3, 8, 10], [true, true, true]⟩ := rfl
  have hi : LeaderState.leader modRng ⟨0, [3, 5, 2], [3, 8, 10], [3, 8, 10], [true, true, true]⟩ 7 =
      some 1 := by decide +kernel
  have h : LeaderState.new [3, 5, 2] 0 [] [0] =
      some ⟨0, [3, 5, 2], [3, 8, 10], [0, 5, 7], [false, true, true]⟩ := rfl
  exact ⟨hnew, (leader_of_newBoxed modRng).1 _ _ _ _ 0 7 hnew, h₀, hi, h,
    (leader_of_newBoxed modRng).2 _ _ _ _ _ _ _ _ h₀ hi h rfl⟩

end CasperNode.Highway
