import CasperNode.Consensus.Panorama
import CasperNode.Library.Pruning

/-!
# Horizons and committees

The finality detector looks for a *summit*: committees of validators, each member of the level-`n`
committee with a unit that sees a quorum of level-`(n-1)` units by members of that committee.  A
`Horizon` holds, for each validator, the sequence number of the earliest unit that qualifies it
for a committee, and the latest units the summit may use: `level0` assigns each validator the
oldest unit of its current streak for the candidate block, and `next` computes the next level.

`Horizon::prune_committee` drops the members whose latest unit does not see a quorum of the
committee, and repeats until it drops none.  A unit's seen weight is a sum of validator weights
over the committee, so it only grows with the committee, and the loop is an instance of
`Pruning.loop`: it returns the greatest subset of the committee all of whose members see a
quorum of it (`pruneCommittee_nextFromCommittee_greatest`).  `next_from_committee` then assigns
each member of that subset the earliest unit of its swimlane from which on every unit up to its
latest sees a quorum.

The source indexes validator maps, looks units up and unwraps the latest units, all of which
panic; the model returns `none` there, and walks swimlanes with fuel.  On a state built from
validated units, with the latest units read off a valid panorama and weights for every validator,
none of these panics happens for the horizons that `level0` and `next` build (`HorizonOk`).
Weights are summed as natural numbers: the sum over distinct validators is at most the total
weight, which `HighwayProtocol::new_boxed` makes fit a `u64`.
-/

namespace CasperNode.Highway

variable {H CV : Type}

/-- `ValidatorMap::keys_some`: the indices that hold a value, in order. -/
def keysSome {α : Type} (m : List (Option α)) : List Nat :=
  (List.range m.length).filter fun idx => (m[idx]?.bind id).isSome

/-- `state.swimlane(vhash).take_while(p).last()`: back from `vhash` through the creator's
previous units while the test holds, the last unit that passes it.  Looking a unit up, and the
test, may panic. -/
def State.swimlaneLastWhile (s : State H CV) (p : Unit H → Option Bool) :
    Nat → H → Option (Option (Unit H))
  | 0, _ => none
  | fuel + 1, hash => do
    let unit ← s.units hash
    if ← p unit then
      match unit.previous with
      | none => pure (some unit)
      | some prev => do
        let rest ← s.swimlaneLastWhile p fuel prev
        pure (some (rest.getD unit))
    else pure none

/-- `Horizon`: for each validator the sequence number of the earliest unit that qualifies it
for the committee, and the latest units that the summit may use.  The state it belongs to is a
parameter of the functions below. -/
structure Horizon (H : Type) where
  sequenceNumbers : List (Option Nat)
  latest : List (Option H)

/-! ## Horizons in the code -/

section Code

variable (s : State H CV) (weights : List Nat)

/-- `Horizon::can_see`: whether `unit` sees the unit of validator `idx` in the horizon, where a
unit sees itself and the units below it. -/
def Horizon.canSee (hz : Horizon H) (unit : Unit H) (idx : Nat) : Option Bool := do
  let selfSn? ← hz.sequenceNumbers[idx]?
  match selfSn? with
  | none => pure false
  | some selfSn =>
    if unit.creator = idx then pure (decide (selfSn ≤ unit.seqNumber))
    else do
      let obs ← unit.panorama[idx]?
      match obs.correct? with
      | none => pure false
      | some vhash => do
        let seen ← s.units vhash
        pure (decide (selfSn ≤ seen.seqNumber))

/-- `Horizon::seen_weight`: the total weight of the committee members whose unit in the horizon
`unit` sees.  `weights` are the state's validator weights. -/
def Horizon.seenWeight (hz : Horizon H) (unit : Unit H) (committee : List Nat) : Option Nat := do
  let ws ← committee.mapM fun idx => do
    if ← hz.canSee s unit idx then weights[idx]? else pure 0
  pure ws.sum

/-- `self.state.unit(self.latest[idx].unwrap())`. -/
def Horizon.latestUnit (hz : Horizon H) (idx : Nat) : Option (Unit H) := do
  let maybeVhash ← hz.latest[idx]?
  let vhash ← maybeVhash
  s.units vhash

/-- The closure `sees_quorum` of `Horizon::prune_committee`. -/
def Horizon.seesQuorum (hz : Horizon H) (quorum idx : Nat) (committee : List Nat) :
    Option Bool := do
  let unit ← hz.latestUnit s idx
  let w ← hz.seenWeight s weights unit committee
  pure (decide (quorum ≤ w))

/-- `Horizon::prune_committee`: the committee pruned until every member's latest unit sees a
quorum of it, and the pruned members.  The loop runs at most once more than the committee has
members. -/
def Horizon.pruneCommittee (hz : Horizon H) (quorum : Nat) (committee : List Nat) :
    Option (List Nat × Finset Nat) :=
  Pruning.loop (hz.seesQuorum s weights quorum) (committee.length + 1) committee ∅

/-- `Horizon::committee_quorum`: the least weight of the committee that a member's latest unit
sees, `None` for an empty committee. -/
def Horizon.committeeQuorum (hz : Horizon H) (committee : List Nat) : Option (Option Nat) := do
  let ws ← committee.mapM fun idx => do
    let unit ← hz.latestUnit s idx
    hz.seenWeight s weights unit committee
  pure ws.min?

/-- The closure `find_first_lvl_n` of `Horizon::next_from_committee`: the member and the
sequence number of the earliest unit back from its latest up to which every unit sees a quorum
of the committee. -/
def Horizon.findFirstLvlN (hz : Horizon H) (fuel quorum : Nat) (committee : List Nat)
    (idx : Nat) : Option (Option (Nat × Nat)) := do
  match ← hz.latest[idx]? with
  | none => pure none
  | some vhash => do
    let first ← s.swimlaneLastWhile (fun unit => do
      let w ← hz.seenWeight s weights unit committee
      pure (decide (quorum ≤ w))) fuel vhash
    pure (first.map fun unit => (idx, unit.seqNumber))

/-- `Horizon::next_from_committee`: each committee member's earliest unit up to which every
unit of its swimlane sees a quorum of the committee.  The index of every assignment was read from
`latest`, so it is in range. -/
def Horizon.nextFromCommittee (hz : Horizon H) (fuel quorum : Nat) (committee : List Nat) :
    Option (Horizon H) := do
  let firsts ← committee.mapM (hz.findFirstLvlN s weights fuel quorum committee)
  pure ⟨firsts.reduceOption.foldl (fun sns first => sns.set first.1 (some first.2))
    (List.replicate hz.latest.length none), hz.latest⟩

/-- `Horizon::next`: the next horizon from the pruned committee of the validators the horizon
assigns units to, and `None` when that is empty. -/
def Horizon.next (hz : Horizon H) (fuel quorum : Nat) : Option (Option (Horizon H)) := do
  let (committee, _) ← hz.pruneCommittee s weights quorum (keysSome hz.sequenceNumbers)
  if committee.isEmpty then pure none
  else (hz.nextFromCommittee s weights fuel quorum committee).map some

/-- `Horizon::level0`: each validator's oldest unit of its current streak for `candidate`, back
from its latest unit while the unit's block has `candidate` as its ancestor at the candidate's
height.  The candidate's block must be there. -/
def Horizon.level0 [DecidableEq H] (fuel : Nat) (candidate : H) (latest : List (Option H)) :
    Option (Horizon H) := do
  let block ← s.blocks candidate
  let sequenceNumbers ← latest.mapM fun maybeVhash =>
    match maybeVhash with
    | none => pure none
    | some vhash => do
      let lvl0 ← s.swimlaneLastWhile (fun unit => do
        let ancestor ← s.findAncestorProposal fuel unit.block block.height
        pure (ancestor == some candidate)) fuel vhash
      pure (lvl0.map Unit.seqNumber)
  pure ⟨sequenceNumbers, latest⟩

/-- The horizons that `find_summit` builds: `level0`, then `next` again and again. -/
inductive Horizon.Derived [DecidableEq H] (fuel : Nat) (candidate : H)
    (latest : List (Option H)) : Horizon H → Prop
  | level0 {hz : Horizon H} : Horizon.level0 s fuel candidate latest = some hz →
      Horizon.Derived fuel candidate latest hz
  | next {hz hz' : Horizon H} (quorum : Nat) : Horizon.Derived fuel candidate latest hz →
      hz.next s weights fuel quorum = some (some hz') → Horizon.Derived fuel candidate latest hz'

end Code

/-! ## What a horizon sees -/

section Sees

variable (s : State H CV) (weights : List Nat)

/-- `unit` sees the unit of validator `idx` in the horizon: the horizon has one, and it is
`unit` or below it, or below the unit that `unit`'s panorama has for `idx`. -/
def Horizon.Sees (hz : Horizon H) (unit : Unit H) (idx : Nat) : Prop :=
  ∃ selfSn, hz.sequenceNumbers[idx]? = some (some selfSn) ∧
    if unit.creator = idx then selfSn ≤ unit.seqNumber
    else ∃ vhash seen, unit.panorama[idx]? = some (.correct vhash) ∧ s.units vhash = some seen ∧
      selfSn ≤ seen.seqNumber

open scoped Classical in
/-- The weight of the members of `S` whose unit in the horizon `unit` sees. -/
noncomputable def Horizon.seenWeightOf (hz : Horizon H) (unit : Unit H) (S : Finset Nat) : Nat :=
  ∑ idx ∈ S with hz.Sees s unit idx, weights.getD idx 0

/-- A member is supported by a set when its latest unit sees a quorum of the set. -/
def Horizon.QuorumSupport (hz : Horizon H) (quorum idx : Nat) (S : Finset Nat) : Prop :=
  ∃ unit, hz.latestUnit s idx = some unit ∧ quorum ≤ hz.seenWeightOf s weights unit S

open scoped Classical in
theorem Horizon.seenWeightOf_mono (hz : Horizon H) (unit : Unit H) {S T : Finset Nat}
    (hST : S ⊆ T) : hz.seenWeightOf s weights unit S ≤ hz.seenWeightOf s weights unit T :=
  Finset.sum_le_sum_of_subset (Finset.filter_subset_filter _ hST)

theorem Horizon.quorumSupport_mono (hz : Horizon H) (quorum : Nat) :
    Pruning.SupportMono (hz.QuorumSupport s weights quorum) := by
  rintro v S T hST ⟨unit, hunit, hq⟩
  exact ⟨unit, hunit, hq.trans (hz.seenWeightOf_mono s weights unit hST)⟩

/-- `ue`, the unit `e`, is the earliest of the swimlane back from `vh` from which on every unit
up to `vh` sees a quorum of `S`: it is in the swimlane, every unit from `vh` down to it sees a
quorum, and its previous unit, if any, does not. -/
def Horizon.EarliestSeeing (hz : Horizon H) (quorum : Nat) (S : Finset Nat) (vh e : H)
    (ue : Unit H) : Prop :=
  s.InSwimlane vh e ∧ s.units e = some ue ∧
    (∀ w uw, s.InSwimlane vh w → s.InSwimlane w e → s.units w = some uw →
      quorum ≤ hz.seenWeightOf s weights uw S) ∧
    ∀ p up, ue.previous = some p → s.units p = some up → hz.seenWeightOf s weights up S < quorum

theorem Horizon.latestUnit_eq_some {hz : Horizon H} {idx : Nat} {unit : Unit H} :
    hz.latestUnit s idx = some unit ↔
      ∃ vhash, hz.latest[idx]? = some (some vhash) ∧ s.units vhash = some unit := by
  constructor
  · intro h
    obtain ⟨maybeVhash, hmaybe, h⟩ := Option.bind_eq_some_iff.mp h
    obtain ⟨vhash, rfl, h⟩ := Option.bind_eq_some_iff.mp h
    exact ⟨vhash, hmaybe, h⟩
  · rintro ⟨vhash, hvhash, hunit⟩
    simp [Horizon.latestUnit, hvhash, hunit]

theorem mem_keysSome {α : Type} {m : List (Option α)} {idx : Nat} :
    idx ∈ keysSome m ↔ ∃ x, m[idx]? = some (some x) := by
  simp only [keysSome, List.mem_filter, List.mem_range]
  constructor
  · rintro ⟨hlt, hsome⟩
    rw [List.getElem?_eq_getElem hlt] at hsome ⊢
    obtain ⟨x, hx⟩ := Option.isSome_iff_exists.mp hsome
    exact ⟨x, by simpa using hx⟩
  · rintro ⟨x, hx⟩
    exact ⟨(List.getElem?_eq_some_iff.mp hx).1, by simp [hx]⟩

theorem nodup_keysSome {α : Type} (m : List (Option α)) : (keysSome m).Nodup :=
  List.nodup_range.filter _

end Sees


/-! ## Lists -/

theorem forall₂_of_mapM_eq_some {α β : Type} {f : α → Option β} :
    ∀ {l : List α} {l' : List β}, l.mapM f = some l' →
      List.Forall₂ (fun x y => f x = some y) l l'
  | [], _, h => by
    obtain rfl := Option.some.inj h
    exact .nil
  | x :: l, _, h => by
    rw [List.mapM_cons] at h
    obtain ⟨y, hy, h⟩ := Option.bind_eq_some_iff.mp h
    obtain ⟨ys, hys, h⟩ := Option.bind_eq_some_iff.mp h
    obtain rfl := Option.some.inj h
    exact .cons hy (forall₂_of_mapM_eq_some hys)

theorem length_foldl_set (pairs : List (Nat × Nat)) (init : List (Option Nat)) :
    (pairs.foldl (fun sns first => sns.set first.1 (some first.2)) init).length =
      init.length := by
  induction pairs generalizing init with
  | nil => rfl
  | cons first pairs ih => rw [List.foldl_cons, ih, List.length_set]

/-- An index that no pair assigns keeps its entry. -/
theorem getElem?_foldl_set_of_not_mem {v : Nat} :
    ∀ {pairs : List (Nat × Nat)} {init : List (Option Nat)}, v ∉ pairs.map Prod.fst →
      (pairs.foldl (fun sns first => sns.set first.1 (some first.2)) init)[v]? = init[v]?
  | [], _, _ => rfl
  | first :: pairs, init, hv => by
    have hne : first.1 ≠ v := fun heq => hv (heq ▸ List.mem_cons_self)
    rw [List.foldl_cons, getElem?_foldl_set_of_not_mem fun h => hv (List.mem_cons_of_mem _ h),
      List.getElem?_set_ne hne]

/-- With one pair for each index, an index in range gets its pair's sequence number. -/
theorem getElem?_foldl_set_of_mem {v sn : Nat} :
    ∀ {pairs : List (Nat × Nat)} {init : List (Option Nat)}, (pairs.map Prod.fst).Nodup →
      (v, sn) ∈ pairs → v < init.length →
      (pairs.foldl (fun sns first => sns.set first.1 (some first.2)) init)[v]? = some (some sn)
  | first :: pairs, init, hnodup, hmem, hlt => by
    rw [List.map_cons, List.nodup_cons] at hnodup
    rw [List.foldl_cons]
    rcases List.mem_cons.mp hmem with rfl | hmem'
    · -- the pair itself, which no later pair overwrites
      rw [getElem?_foldl_set_of_not_mem hnodup.1, List.getElem?_set_self hlt]
    · exact getElem?_foldl_set_of_mem hnodup.2 hmem' (by rw [List.length_set]; exact hlt)

/-- Results that are each `some` pair of the member and a sequence number: their pairs are one
for each member. -/
theorem reduceOption_of_forall₂ {Q : Nat → Nat → Prop} :
    ∀ {C : List Nat} {firsts : List (Option (Nat × Nat))},
      List.Forall₂ (fun idx r => ∃ sn, r = some (idx, sn) ∧ Q idx sn) C firsts →
      firsts.reduceOption.map Prod.fst = C ∧
        ∀ v ∈ C, ∃ sn, (v, sn) ∈ firsts.reduceOption ∧ Q v sn
  | _, _, .nil => ⟨rfl, fun _ hv => by cases hv⟩
  | _, _, .cons ⟨sn, rfl, hQ⟩ hrest => by
    obtain ⟨hmap, hmem⟩ := reduceOption_of_forall₂ hrest
    rw [List.reduceOption_cons_of_some]
    refine ⟨by rw [List.map_cons, hmap], fun v hv => ?_⟩
    rcases List.mem_cons.mp hv with rfl | hv'
    · exact ⟨sn, List.mem_cons_self, hQ⟩
    · obtain ⟨sn', hmem', hQ'⟩ := hmem v hv'
      exact ⟨sn', List.mem_cons_of_mem _ hmem', hQ'⟩

/-! ## Horizons of a coherent state -/

/-- The latest units of `find_summit`: one entry for each of the `n` validators, each a unit of
its validator. -/
structure LatestOk (s : State H CV) (n : Nat) (latest : List (Option H)) : Prop where
  length : latest.length = n
  units : ∀ (idx : Nat) vhash, latest[idx]? = some (some vhash) →
    ∃ u, s.units vhash = some u ∧ u.creator = idx

/-- The correct entries of a valid panorama are such latest units. -/
theorem latestOk_of_panValid {s : State H CV} {n : Nat} {pan : List (Observation H)}
    (hpan : s.PanValid pan) (hlen : pan.length = n) :
    LatestOk s n (pan.map Observation.correct?) := by
  refine ⟨by rw [List.length_map, hlen], fun idx vhash h => ?_⟩
  rw [List.getElem?_map] at h
  obtain ⟨obs, hobs, hcorrect⟩ := Option.map_eq_some_iff.mp h
  cases obs with
  | correct vh =>
    obtain rfl : vh = vhash := Option.some.inj hcorrect
    obtain ⟨u, hu, hcreator, -⟩ := hpan idx vh hobs
    exact ⟨u, hu, hcreator⟩
  | none => cases hcorrect
  | faulty => cases hcorrect

/-- What every horizon that `level0` and `next` build keeps: the latest units it started from,
an entry for each validator, and a sequence number only where there is a latest unit. -/
structure HorizonOk (n : Nat) (latest : List (Option H)) (hz : Horizon H) : Prop where
  latest_eq : hz.latest = latest
  length : hz.sequenceNumbers.length = n
  seq : ∀ (idx sn : Nat), hz.sequenceNumbers[idx]? = some (some sn) →
    ∃ vhash, latest[idx]? = some (some vhash)

section Specs

variable {s : State H CV} {n : Nat} {weights : List Nat} {latest : List (Option H)}
  {hz : Horizon H}

theorem HorizonOk.lt_of_seq (hok : HorizonOk n latest hz) {idx sn : Nat}
    (h : hz.sequenceNumbers[idx]? = some (some sn)) : idx < n := by
  rw [← hok.length]
  exact (List.getElem?_eq_some_iff.mp h).1

/-- A member with a sequence number has a latest unit, of its own. -/
theorem HorizonOk.latestUnit (hok : HorizonOk n latest hz) (hlatest : LatestOk s n latest)
    {idx sn : Nat} (h : hz.sequenceNumbers[idx]? = some (some sn)) :
    ∃ vhash u, hz.latest[idx]? = some (some vhash) ∧ s.units vhash = some u ∧
      hz.latestUnit s idx = some u := by
  obtain ⟨vhash, hvhash⟩ := hok.seq idx sn h
  obtain ⟨u, hu, -⟩ := hlatest.units idx vhash hvhash
  rw [hok.latest_eq]
  exact ⟨vhash, u, hvhash, hu, by simp [Horizon.latestUnit, hok.latest_eq, hvhash, hu]⟩

variable (hc : s.Coherent n) (hok : HorizonOk n latest hz)
include hc hok

/-- `can_see` decides `Sees` for every unit of the state and every validator. -/
theorem Horizon.canSee_spec {h : H} {unit : Unit H} (hu : s.units h = some unit) {idx : Nat}
    (hidx : idx < n) : ∃ b, hz.canSee s unit idx = some b ∧ (b = true ↔ hz.Sees s unit idx) := by
  obtain ⟨selfSn?, hsn⟩ : ∃ o, hz.sequenceNumbers[idx]? = some o :=
    ⟨_, List.getElem?_eq_getElem (by rw [hok.length]; exact hidx)⟩
  cases selfSn? with
  | none => exact ⟨false, by simp [Horizon.canSee, hsn], by simp [Horizon.Sees, hsn]⟩
  | some selfSn =>
    by_cases hcreator : unit.creator = idx
    · exact ⟨decide (selfSn ≤ unit.seqNumber), by simp [Horizon.canSee, hsn, hcreator],
        by simp [Horizon.Sees, hsn, hcreator]⟩
    -- another validator's entry: the unit its panorama cites there
    obtain ⟨obs, hobs⟩ : ∃ obs, unit.panorama[idx]? = some obs :=
      ⟨_, List.getElem?_eq_getElem (by rw [hc.length h unit hu]; exact hidx)⟩
    cases obs with
    | correct vhash =>
      obtain ⟨seen, hseen, -, -⟩ := hc.valid h unit hu idx vhash hobs
      exact ⟨decide (selfSn ≤ seen.seqNumber),
        by simp [Horizon.canSee, hsn, hcreator, hobs, Observation.correct?, hseen],
        by simp [Horizon.Sees, hsn, hcreator, hobs, hseen]⟩
    | none =>
      exact ⟨false, by simp [Horizon.canSee, hsn, hcreator, hobs, Observation.correct?],
        by simp [Horizon.Sees, hsn, hcreator, hobs]⟩
    | faulty =>
      exact ⟨false, by simp [Horizon.canSee, hsn, hcreator, hobs, Observation.correct?],
        by simp [Horizon.Sees, hsn, hcreator, hobs]⟩

open scoped Classical in
/-- **`seen_weight` sums the weights of the members seen**, for a committee of distinct
validators. -/
theorem Horizon.seenWeight_spec (hweights : weights.length = n) {h : H} {unit : Unit H}
    (hu : s.units h = some unit) {committee : List Nat} (hnodup : committee.Nodup)
    (hmem : ∀ idx ∈ committee, idx < n) :
    hz.seenWeight s weights unit committee =
      some (hz.seenWeightOf s weights unit committee.toFinset) := by
  have hmap : committee.mapM (fun idx => do
      if ← hz.canSee s unit idx then weights[idx]? else pure 0) =
      some (committee.map fun idx => if hz.Sees s unit idx then weights.getD idx 0 else 0) := by
    apply mapM_eq_some_map
    intro idx hidx
    obtain ⟨b, hb, hiff⟩ := hz.canSee_spec hc hok hu (hmem idx hidx)
    have hw : weights[idx]? = some (weights.getD idx 0) := by
      rw [List.getD_eq_getElem?_getD, List.getElem?_eq_getElem (by rw [hweights]; exact hmem idx hidx)]
      rfl
    cases b with
    | true =>
      simp only [hb, Option.bind_eq_bind, Option.bind_some, ↓reduceIte, if_pos (hiff.mp rfl)]
      exact hw
    | false =>
      have hnot : ¬hz.Sees s unit idx := fun h' => by simpa using hiff.mpr h'
      simp only [hb, Option.bind_eq_bind, Option.bind_some, Bool.false_eq_true, ↓reduceIte,
        if_neg hnot]
      rfl
  rw [Horizon.seenWeight, hmap, Option.bind_eq_bind, Option.bind_some, Horizon.seenWeightOf,
    Finset.sum_filter, List.sum_toFinset _ hnodup]
  rfl


open scoped Classical in
/-- `sees_quorum` decides `QuorumSupport` for a member with a sequence number, on a committee of
distinct validators. -/
theorem Horizon.seesQuorum_spec (hlatest : LatestOk s n latest) (hweights : weights.length = n)
    (quorum : Nat) {idx sn : Nat} (hidx : hz.sequenceNumbers[idx]? = some (some sn))
    {L : List Nat} (hnodup : L.Nodup) (hmem : ∀ v ∈ L, v < n) :
    hz.seesQuorum s weights quorum idx L =
      some (decide (hz.QuorumSupport s weights quorum idx L.toFinset)) := by
  obtain ⟨vhash, u, -, hu, hunit⟩ := hok.latestUnit hlatest hidx
  have hsupport : hz.QuorumSupport s weights quorum idx L.toFinset ↔
      quorum ≤ hz.seenWeightOf s weights u L.toFinset := by
    constructor
    · rintro ⟨u', hu', hq⟩
      obtain rfl := Option.some.inj (hu'.symm.trans hunit)
      exact hq
    · exact fun hq => ⟨u, hunit, hq⟩
  simp only [Horizon.seesQuorum, hunit, hz.seenWeight_spec hc hok hweights hu hnodup hmem,
    Option.bind_eq_bind, Option.bind_some]
  exact congrArg some (decide_eq_decide.mpr hsupport.symm)

open scoped Classical in
/-- **`prune_committee` keeps the greatest subset of the committee all of whose members see a
quorum of it**, with the pruned members the rest, for a committee of distinct validators with
sequence numbers in the horizon. -/
theorem Horizon.pruneCommittee_spec (hlatest : LatestOk s n latest)
    (hweights : weights.length = n) (quorum : Nat) {committee : List Nat}
    (hnodup : committee.Nodup)
    (hcommittee : ∀ v ∈ committee, ∃ sn, hz.sequenceNumbers[v]? = some (some sn)) :
    ∃ C' pruned, hz.pruneCommittee s weights quorum committee = some (C', pruned) ∧
      C'.Sublist committee ∧ pruned = committee.toFinset \ C'.toFinset ∧
      IsGreatest {S | S ⊆ committee.toFinset ∧
        Pruning.Supported (hz.QuorumSupport s weights quorum) S} C'.toFinset := by
  have hmem : ∀ v ∈ committee, v < n := by
    intro v hv
    obtain ⟨sn, hsn⟩ := hcommittee v hv
    exact hok.lt_of_seq hsn
  have htest : ∀ L, L.Sublist committee → ∀ v ∈ L, hz.seesQuorum s weights quorum v L =
      some (decide (hz.QuorumSupport s weights quorum v L.toFinset)) := by
    intro L hL v hv
    obtain ⟨sn, hsn⟩ := hcommittee v (hL.subset hv)
    exact hz.seesQuorum_spec hc hok hlatest hweights quorum hsn (hnodup.sublist hL)
      fun w hw => hmem w (hL.subset hw)
  obtain ⟨C', pruned, hloop, hsub, hpruned, hgreatest⟩ :=
    Pruning.loop_spec (hz.quorumSupport_mono s weights quorum) htest
      (Nat.lt_succ_self committee.length)
  exact ⟨C', pruned, hloop, hsub, by rw [hpruned, Finset.empty_union], hgreatest⟩

end Specs

/-- **The walk back along a swimlane while a test holds**: with fuel above the sequence number
of its start and a test that decides a property on every unit of the swimlane, it finds nothing
when the start fails, and otherwise the earliest unit from which on every unit up to the start
passes. -/
theorem State.Coherent.swimlaneLastWhile_spec {s : State H CV} {n : Nat} (hc : s.Coherent n)
    {p : Unit H → Option Bool} {P : Unit H → Prop} {fuel : Nat} :
    ∀ {vh : H} {uvh : Unit H}, s.units vh = some uvh → uvh.seqNumber < fuel →
      (∀ w u, s.InSwimlane vh w → s.units w = some u → ∃ b, p u = some b ∧ (b = true ↔ P u)) →
      ∃ r, s.swimlaneLastWhile p fuel vh = some r ∧ (r = none ↔ ¬P uvh) ∧
        ∀ ue, r = some ue → ∃ e, s.InSwimlane vh e ∧ s.units e = some ue ∧
          (∀ w uw, s.InSwimlane vh w → s.InSwimlane w e → s.units w = some uw → P uw) ∧
          ∀ q uq, ue.previous = some q → s.units q = some uq → ¬P uq := by
  induction fuel with
  | zero =>
    intro vh uvh _ hlt
    omega
  | succ fuel ih =>
    intro vh uvh hvh hlt hp
    obtain ⟨b, hb, hiff⟩ := hp vh uvh (State.InSwimlane.refl vh) hvh
    -- the units between `vh` and itself are `vh`
    have honly : ∀ w uw, s.InSwimlane vh w → s.InSwimlane w vh → s.units w = some uw →
        uw = uvh := by
      intro w uw hvw hwv huw
      obtain rfl := hc.inSwimlane_antisymm (by simp [hvh]) hvw hwv
      exact Option.some.inj (huw.symm.trans hvh)
    cases b with
    | false =>
      refine ⟨none, by simp [State.swimlaneLastWhile, hvh, hb], ⟨fun _ hP => ?_, fun _ => rfl⟩,
        fun ue h => by cases h⟩
      simpa using hiff.mpr hP
    | true =>
      have hP : P uvh := hiff.mp rfl
      cases hprev : uvh.previous with
      | none =>
        -- the creator's first unit passes: it is the earliest
        refine ⟨some uvh, by simp [State.swimlaneLastWhile, hvh, hb, hprev], by simp [hP], ?_⟩
        rintro ue ⟨⟩
        refine ⟨vh, State.InSwimlane.refl vh, hvh, fun w uw hvw hwe huw => ?_,
          fun q uq hq => by simp [hprev] at hq⟩
        rw [honly w uw hvw hwe huw]
        exact hP
      | some prev =>
        obtain ⟨up, hup, -, hseq, -, -⟩ := hc.previous_spec hvh hprev
        obtain ⟨r', hr', hnone, hsome⟩ := ih hup (by omega)
          fun w u hw hu => hp w u (State.InSwimlane.of_previous hvh hprev hw) hu
        refine ⟨some (r'.getD uvh), by simp [State.swimlaneLastWhile, hvh, hb, hprev, hr'],
          by simp [hP], ?_⟩
        intro ue hue
        cases r' with
        | none =>
          -- the previous unit fails: the start is the earliest
          obtain rfl : uvh = ue := by simpa using hue
          refine ⟨vh, State.InSwimlane.refl vh, hvh, fun w uw hvw hwe huw => ?_,
            fun q uq hq huq => ?_⟩
          · rw [honly w uw hvw hwe huw]
            exact hP
          · rw [hprev] at hq
            obtain rfl := Option.some.inj hq
            obtain rfl := Option.some.inj (huq.symm.trans hup)
            exact hnone.mp rfl
        | some ue' =>
          obtain rfl : ue' = ue := by simpa using hue
          obtain ⟨e, hpe, he, hbetween, hlast⟩ := hsome ue' rfl
          refine ⟨e, State.InSwimlane.of_previous hvh hprev hpe, he,
            fun w uw hvw hwe huw => ?_, hlast⟩
          -- a unit between the start and `e` is the start or between the previous unit and `e`
          rcases hvw.cases with rfl | ⟨u', p', hu', hp', hsw⟩
          · obtain rfl := Option.some.inj (huw.symm.trans hvh)
            exact hP
          · obtain rfl := Option.some.inj (hu'.symm.trans hvh)
            rw [hprev] at hp'
            obtain rfl := Option.some.inj hp'
            exact hbetween w uw hsw hwe huw


section Next

variable {s : State H CV} {n fuel : Nat} {weights : List Nat} {latest : List (Option H)}
  {hz : Horizon H}

variable (hc : s.Coherent n) (hfuel : s.FuelBound fuel) (hok : HorizonOk n latest hz)
  (hlatest : LatestOk s n latest) (hweights : weights.length = n)
include hc hfuel hok hlatest hweights

omit hlatest in
/-- `find_first_lvl_n` of a member whose latest unit sees a quorum of the committee: the earliest
unit from which on every unit up to the latest sees one. -/
theorem Horizon.findFirstLvlN_spec {quorum : Nat} {C : List Nat} (hnodup : C.Nodup)
    (hmem : ∀ v ∈ C, v < n) {idx : Nat}
    (hsup : hz.QuorumSupport s weights quorum idx C.toFinset) :
    ∃ vh e ue, hz.latest[idx]? = some (some vh) ∧
      hz.EarliestSeeing s weights quorum C.toFinset vh e ue ∧
      hz.findFirstLvlN s weights fuel quorum C idx = some (some (idx, ue.seqNumber)) := by
  obtain ⟨u, hunit, hq⟩ := hsup
  obtain ⟨vh, hvh, hu⟩ := (Horizon.latestUnit_eq_some s).mp hunit
  -- the test of the walk decides the quorum on every unit of the state
  have htest : ∀ w uw, s.InSwimlane vh w → s.units w = some uw →
      ∃ b, (do let w ← hz.seenWeight s weights uw C; pure (decide (quorum ≤ w))) = some b ∧
        (b = true ↔ quorum ≤ hz.seenWeightOf s weights uw C.toFinset) := by
    intro w uw _ huw
    refine ⟨decide (quorum ≤ hz.seenWeightOf s weights uw C.toFinset), ?_, by simp⟩
    simp only [hz.seenWeight_spec hc hok hweights huw hnodup hmem, Option.bind_eq_bind,
      Option.bind_some]
    rfl
  obtain ⟨r, hr, hnone, hsome⟩ := hc.swimlaneLastWhile_spec hu (hfuel vh u hu) htest
  cases r with
  | none => exact absurd hq (hnone.mp rfl)
  | some ue =>
    obtain ⟨e, hve, he, hbetween, hlast⟩ := hsome ue rfl
    refine ⟨vh, e, ue, hvh,
      ⟨hve, he, hbetween, fun p up hp hup => Nat.lt_of_not_le (hlast p up hp hup)⟩, ?_⟩
    have hr' : s.swimlaneLastWhile (fun unit => (hz.seenWeight s weights unit C).bind
        fun w => some (decide (quorum ≤ w))) fuel vh = some (some ue) := hr
    simp [Horizon.findFirstLvlN, hvh, hr']

/-- **`next_from_committee` assigns each member of a committee that sees a quorum of itself its
earliest unit from which on every unit up to its latest sees a quorum**, and nothing to the
other validators. -/
theorem Horizon.nextFromCommittee_spec {quorum : Nat} {C : List Nat} (hnodup : C.Nodup)
    (hmem : ∀ v ∈ C, v < n)
    (hsup : Pruning.Supported (hz.QuorumSupport s weights quorum) C.toFinset) :
    ∃ hz', hz.nextFromCommittee s weights fuel quorum C = some hz' ∧ hz'.latest = hz.latest ∧
      hz'.sequenceNumbers.length = n ∧ ∀ v,
        (v ∉ C → hz'.sequenceNumbers[v]?.bind id = none) ∧
        (v ∈ C → ∃ vh e ue, hz.latest[v]? = some (some vh) ∧
          hz.EarliestSeeing s weights quorum C.toFinset vh e ue ∧
          hz'.sequenceNumbers[v]? = some (some ue.seqNumber)) := by
  obtain ⟨firsts, hfirsts, hall⟩ := mapM_forall₂
    (R := fun idx r => ∃ sn, r = some (idx, sn) ∧ ∃ vh e ue, hz.latest[idx]? = some (some vh) ∧
      hz.EarliestSeeing s weights quorum C.toFinset vh e ue ∧ sn = ue.seqNumber)
    (f := hz.findFirstLvlN s weights fuel quorum C) (l := C) (by
      intro v hv
      obtain ⟨vh, e, ue, hvh, hearliest, hfind⟩ :=
        hz.findFirstLvlN_spec hc hfuel hok hweights hnodup hmem
          (hsup v (List.mem_toFinset.mpr hv))
      exact ⟨_, hfind, ue.seqNumber, rfl, vh, e, ue, hvh, hearliest, rfl⟩)
  obtain ⟨hmap, hpairs⟩ := reduceOption_of_forall₂ hall
  have hlen : hz.latest.length = n := by rw [hok.latest_eq, hlatest.length]
  refine ⟨⟨firsts.reduceOption.foldl (fun sns first => sns.set first.1 (some first.2))
      (List.replicate hz.latest.length none), hz.latest⟩,
    by simp [Horizon.nextFromCommittee, hfirsts], rfl,
    by rw [length_foldl_set, List.length_replicate, hlen], fun v => ⟨fun hv => ?_, fun hv => ?_⟩⟩
  · rw [getElem?_foldl_set_of_not_mem (by rwa [hmap]), List.getElem?_replicate]
    split <;> rfl
  · obtain ⟨sn, hpair, vh, e, ue, hvh, hearliest, rfl⟩ := hpairs v hv
    refine ⟨vh, e, ue, hvh, hearliest, getElem?_foldl_set_of_mem (by rwa [hmap]) hpair ?_⟩
    rw [List.length_replicate, hlen]
    exact hmem v hv

/-- `next` keeps the invariant: the pruned committee sees a quorum of itself, so every member
gets a unit, and only members do. -/
theorem HorizonOk.next {quorum : Nat} {hz' : Horizon H}
    (hnext : hz.next s weights fuel quorum = some (some hz')) : HorizonOk n latest hz' := by
  obtain ⟨C', pruned, hprune, hsub, -, hgreatest⟩ :=
    hz.pruneCommittee_spec hc hok hlatest hweights quorum (nodup_keysSome hz.sequenceNumbers)
      fun v hv => mem_keysSome.mp hv
  have hmem : ∀ v ∈ C', v < n := by
    intro v hv
    obtain ⟨sn, hsn⟩ := mem_keysSome.mp (hsub.subset hv)
    exact hok.lt_of_seq hsn
  obtain ⟨hz'', hnfc, hlatest', hlength, hentries⟩ :=
    hz.nextFromCommittee_spec hc hfuel hok hlatest hweights
      ((nodup_keysSome hz.sequenceNumbers).sublist hsub) hmem hgreatest.1.2
  simp only [Horizon.next, hprune, Option.bind_eq_bind, Option.bind_some] at hnext
  split at hnext
  · cases hnext
  rw [hnfc] at hnext
  obtain rfl : hz'' = hz' := by simpa using hnext
  refine ⟨hlatest'.trans hok.latest_eq, hlength, fun idx sn hsn => ?_⟩
  by_cases hidx : idx ∈ C'
  · obtain ⟨vh, -, -, hvh, -, -⟩ := (hentries idx).2 hidx
    exact ⟨vh, hok.latest_eq ▸ hvh⟩
  · have := (hentries idx).1 hidx
    rw [hsn] at this
    cases this

end Next

/-- `level0` builds a horizon that keeps the invariant: a validator without a latest unit gets no
sequence number. -/
theorem HorizonOk.level0 [DecidableEq H] {s : State H CV} {n fuel : Nat} {candidate : H}
    {latest : List (Option H)} {hz : Horizon H} (hlatest : LatestOk s n latest)
    (h0 : Horizon.level0 s fuel candidate latest = some hz) : HorizonOk n latest hz := by
  obtain ⟨block, -, h0⟩ := Option.bind_eq_some_iff.mp h0
  obtain ⟨seqs, hseqs, h0⟩ := Option.bind_eq_some_iff.mp h0
  obtain rfl := Option.some.inj h0
  have hall := forall₂_of_mapM_eq_some hseqs
  refine ⟨rfl, by rw [← hall.length_eq, hlatest.length], fun idx sn hsn => ?_⟩
  obtain ⟨maybeVhash, hmaybe, hcall⟩ := forall₂_getElem? hall.flip hsn
  cases maybeVhash with
  | none => cases hcall
  | some vhash => exact ⟨vhash, hmaybe⟩

/-- Every horizon that `find_summit` builds keeps the invariant, by induction on the steps. -/
theorem Horizon.Derived.horizonOk [DecidableEq H] {s : State H CV} {n fuel : Nat}
    {weights : List Nat} {candidate : H} {latest : List (Option H)} {hz : Horizon H}
    (hc : s.Coherent n) (hfuel : s.FuelBound fuel) (hlatest : LatestOk s n latest)
    (hweights : weights.length = n) (hder : hz.Derived s weights fuel candidate latest) :
    HorizonOk n latest hz := by
  induction hder with
  | level0 h0 => exact HorizonOk.level0 hlatest h0
  | next quorum _ hnext ih => exact ih.next hc hfuel hlatest hweights hnext


/-! ## The greatest fixed point -/

/-- **Horizon committee pruning computes the greatest fixed point.**  On a state built from
validated units, with fuel above its sequence numbers, weights for its `n` validators and the
latest units of a valid panorama, take any horizon that `level0` and `next` build, any quorum,
and any committee of distinct validators that the horizon assigns units to.  `prune_committee`
returns, without panicking, a sublist of the committee whose members are the greatest subset all
of whose members' latest units see a quorum of it, and the other members as the pruned ones.
`next_from_committee` assigns each of its members the earliest unit of its swimlane from which
on every unit up to its latest sees a quorum of it, and nothing to the other validators. -/
theorem pruneCommittee_greatest_fixed_point [DecidableEq H] {n fuel : Nat} {s : State H CV}
    (hs : ValidReachable n s) (hfuel : s.FuelBound fuel) {weights : List Nat}
    (hweights : weights.length = n) {pan : List (Observation H)} (hpan : s.PanValid pan)
    (hlen : pan.length = n) {candidate : H} {hz : Horizon H}
    (hder : hz.Derived s weights fuel candidate (pan.map Observation.correct?)) (quorum : Nat)
    {committee : List Nat} (hnodup : committee.Nodup)
    (hcommittee : ∀ v ∈ committee, ∃ sn, hz.sequenceNumbers[v]? = some (some sn)) :
    ∃ C' pruned, hz.pruneCommittee s weights quorum committee = some (C', pruned) ∧
      C'.Sublist committee ∧ pruned = committee.toFinset \ C'.toFinset ∧
      IsGreatest {S | S ⊆ committee.toFinset ∧
        ∀ v ∈ S, hz.QuorumSupport s weights quorum v S} C'.toFinset ∧
      ∃ hz', hz.nextFromCommittee s weights fuel quorum C' = some hz' ∧ hz'.latest = hz.latest ∧
        ∀ v, (v ∉ C' → hz'.sequenceNumbers[v]?.bind id = none) ∧
          (v ∈ C' → ∃ vh e ue, hz.latest[v]? = some (some vh) ∧
            hz.EarliestSeeing s weights quorum C'.toFinset vh e ue ∧
            hz'.sequenceNumbers[v]? = some (some ue.seqNumber)) := by
  have hc := hs.coherent
  have hlatest := latestOk_of_panValid hpan hlen
  have hok := hder.horizonOk hc hfuel hlatest hweights
  obtain ⟨C', pruned, hprune, hsub, hpruned, hgreatest⟩ :=
    hz.pruneCommittee_spec hc hok hlatest hweights quorum hnodup hcommittee
  have hmem : ∀ v ∈ C', v < n := by
    intro v hv
    obtain ⟨sn, hsn⟩ := hcommittee v (hsub.subset hv)
    exact hok.lt_of_seq hsn
  obtain ⟨hz', hnfc, hlatest', -, hentries⟩ :=
    hz.nextFromCommittee_spec hc hfuel hok hlatest hweights (hnodup.sublist hsub) hmem
      hgreatest.1.2
  exact ⟨C', pruned, hprune, hsub, hpruned, hgreatest, hz', hnfc, hlatest', hentries⟩

/-- In `staggeredState` validator `0`, of weight `5`, has units `10` and `11`; the horizon of
candidate `10` starts its swimlane at `10`.  At quorum `6` its latest unit sees only weight `5`,
so it is pruned: the greatest supported committee is empty, and so is the next horizon. -/
theorem pruneCommittee_greatest_fixed_point_staggered :
    ValidReachable 1 staggeredState ∧ staggeredState.FuelBound 2 ∧ [5].length = 1 ∧
      staggeredState.PanValid [.correct 11] ∧ [Observation.correct 11].length = 1 ∧
      (⟨[some 0], [some 11]⟩ : Horizon Nat).Derived staggeredState [5] 2 10
        ([Observation.correct 11].map Observation.correct?) ∧ [0].Nodup ∧
      (∀ v ∈ [0], ∃ sn, ([some 0] : List (Option Nat))[v]? = some (some sn)) ∧
      (⟨[some 0], [some 11]⟩ : Horizon Nat).pruneCommittee staggeredState [5] 6 [0] =
        some ([], {0}) ∧
      IsGreatest {S | S ⊆ [0].toFinset ∧ ∀ v ∈ S,
        (⟨[some 0], [some 11]⟩ : Horizon Nat).QuorumSupport staggeredState [5] 6 v S} ∅ ∧
      ∃ hz', (⟨[some 0], [some 11]⟩ : Horizon Nat).nextFromCommittee staggeredState [5] 2 6 [] =
          some hz' ∧ hz'.latest = [some 11] ∧
        ∀ v : Nat, hz'.sequenceNumbers[v]?.bind id = none := by
  obtain ⟨hs, hfuel, hpan⟩ := staggeredState_valid
  have hder : (⟨[some 0], [some 11]⟩ : Horizon Nat).Derived staggeredState [5] 2 10
      ([Observation.correct 11].map Observation.correct?) := .level0 rfl
  have hcommittee : ∀ v ∈ [0], ∃ sn, ([some 0] : List (Option Nat))[v]? = some (some sn) := by
    intro v hv
    obtain rfl := List.mem_singleton.mp hv
    exact ⟨0, rfl⟩
  have hprune : (⟨[some 0], [some 11]⟩ : Horizon Nat).pruneCommittee staggeredState [5] 6 [0] =
      some ([], {0}) := rfl
  obtain ⟨C', pruned, hprune', -, -, hgreatest, hz', hnext, hlatest, hentries⟩ :=
    pruneCommittee_greatest_fixed_point hs hfuel rfl hpan rfl hder 6 (List.nodup_singleton 0)
      hcommittee
  -- the committee the theorem describes is the one computed, with validator `0` pruned
  obtain ⟨rfl, -⟩ := Prod.mk.inj (Option.some.inj (hprune'.symm.trans hprune))
  exact ⟨hs, hfuel, rfl, hpan, rfl, hder, List.nodup_singleton 0, hcommittee, hprune, hgreatest,
    hz', hnext, hlatest, fun v => (hentries v).1 List.not_mem_nil⟩

end CasperNode.Highway
