import CasperNode.Consensus.Horizon
import CasperNode.Consensus.FinalityDetector

/-!
# The summit search of the finality detector

`FinalityDetector::find_summit` asks, for a target level `t`, how many levels of horizons
`Horizon::next` builds one after another from the level-0 horizon of the candidate block, with
the quorum `quorum_for_lvl(t)` and at most `t` of them.  `next_finalized` finalizes the candidate
when some target is reached, and searches the targets from 63 down: when a summit for `t` only
reaches `l < t`, it goes on with `l`, and never tries the targets between.  The code's comment
says why nothing is lost there: "the required quorum increases with decreasing level, so
choosing `target_lvl` greater than `lvl` would always yield a summit of level `lvl` or lower."

Two facts carry that argument.  The exact quorum of a level falls as the level rises
(`exactQuorum_succ_le`).  And a lower quorum builds at least as many levels: the committee a
horizon prunes to is the greatest subset all of whose members see a quorum of it, so it can only
grow when the quorum falls and the horizon's units move down their swimlanes, and the earliest
units that see a quorum then move down too (`Horizon.Below.next`).  Together they make the
summit found for a target monotone in the target (`findSummit_mono`), and the search complete:
`next_finalized` finalizes the candidate exactly when some target from 1 to 63 is reached
(`nextFinalized_complete`).  Both rest on the quorum being exact, which holds when the fault
tolerance is at most half the total weight (`quorumForLvl_exact`).
-/

namespace CasperNode.Highway

variable {H CV : Type}

/-! ## The search in the code -/

section Code

variable (s : State H CV) (weights : List Nat)

/-- `iter::successors(Some(hz), |sec| sec.next(quorum)).skip(1).take(k).count()`: how many
horizons `next` builds one after another from `hz`, at most `k`.  `take` asks for no more than
`k` of them, so `next` runs at most `k` times. -/
def Horizon.levels (hz : Horizon H) (fuel quorum : Nat) : Nat → Option Nat
  | 0 => pure 0
  | k + 1 => do
    match ← hz.next s weights fuel quorum with
    | none => pure 0
    | some hz' => do
      let l ← hz'.levels fuel quorum k
      pure (l + 1)

/-- `FinalityDetector::find_summit`: the number of levels, up to `targetLvl`, of the summit that
the horizons from the candidate's level-0 horizon reach with the quorum a level-`targetLvl`
summit needs.  The latest units are the correct entries of the state's panorama. -/
def findSummit [DecidableEq H] (d : FinalityDetector) (fuel targetLvl : Nat) (candidate : H)
    (totalW : UInt64) (panorama : List (Observation H)) : Option Nat := do
  let quorum := (d.quorumForLvl targetLvl totalW).toNat
  let sec0 ← Horizon.level0 s fuel candidate (panorama.map Observation.correct?)
  sec0.levels s weights fuel quorum targetLvl

/-- The loop of `FinalityDetector::next_finalized`: while the target level is positive, find the
summit for it; stop when it reaches the target, and go on with the level it reached otherwise.
The loop runs at most `bound` times, and `none` is the bound running out. -/
def nextFinalizedLoop [DecidableEq H] (d : FinalityDetector) (fuel : Nat) (candidate : H)
    (totalW : UInt64) (panorama : List (Observation H)) : Nat → Nat → Option Bool
  | _, 0 => pure false
  | 0, _ + 1 => none
  | bound + 1, targetLvl + 1 => do
    let lvl ← findSummit s weights d fuel (targetLvl + 1) candidate totalW panorama
    if lvl = targetLvl + 1 then pure true
    else nextFinalizedLoop d fuel candidate totalW panorama bound lvl

/-- `FinalityDetector::next_finalized` for the candidate `next_candidate` found: the candidate,
which becomes the last finalized block, when a summit reaches its target for some target from
63 down, and nothing otherwise.  The loop lowers the target at every round, so 63 rounds are
enough. -/
def nextFinalized [DecidableEq H] (d : FinalityDetector) (fuel : Nat) (candidate : H)
    (totalW : UInt64) (panorama : List (Observation H)) : Option (Option H) := do
  let found ← nextFinalizedLoop s weights d fuel candidate totalW panorama 63 63
  pure (if found then some candidate else none)

end Code

/-! ## Counting levels -/

section Levels

variable {s : State H CV} {weights : List Nat} {fuel quorum : Nat}

theorem Horizon.levels_succ_of_next_none {hz : Horizon H} {k : Nat}
    (h : hz.next s weights fuel quorum = some none) :
    hz.levels s weights fuel quorum (k + 1) = some 0 := by
  simp [Horizon.levels, h]

theorem Horizon.levels_succ_of_next_some {hz hz' : Horizon H} {k : Nat}
    (h : hz.next s weights fuel quorum = some (some hz')) :
    hz.levels s weights fuel quorum (k + 1) = (hz'.levels s weights fuel quorum k).map (· + 1) := by
  simp only [Horizon.levels, h, Option.bind_eq_bind, Option.bind_some]
  cases hz'.levels s weights fuel quorum k <;> rfl

/-- A count of levels is the count up to `k` of the whole chain of horizons: asking for fewer
gives the same count, cut at the smaller bound. -/
theorem Horizon.levels_min :
    ∀ {k' k : Nat} {hz : Horizon H} {l : Nat}, hz.levels s weights fuel quorum k = some l →
      k' ≤ k → hz.levels s weights fuel quorum k' = some (min k' l)
  | 0, _, _, _, _, _ => by simp [Horizon.levels]
  | k' + 1, 0, _, _, _, hle => absurd hle (by omega)
  | k' + 1, k + 1, hz, l, h, hle => by
    -- the first call of `next` is the same for both bounds
    rcases hr : hz.next s weights fuel quorum with _ | ⟨_ | hz'⟩
    · simp [Horizon.levels, hr] at h
    · rw [Horizon.levels_succ_of_next_none hr] at h ⊢
      obtain rfl := Option.some.inj h
      simp
    · rw [Horizon.levels_succ_of_next_some hr] at h ⊢
      obtain ⟨l', hl', rfl⟩ := Option.map_eq_some_iff.mp h
      rw [Horizon.levels_min hl' (by omega), Option.map_some]
      congr 1
      omega

/-- `take(k)` counts at most `k` levels. -/
theorem Horizon.levels_le {hz : Horizon H} {k l : Nat}
    (h : hz.levels s weights fuel quorum k = some l) : l ≤ k := by
  have hself := Horizon.levels_min h (le_refl k)
  rw [h] at hself
  have := Option.some.inj hself
  omega

end Levels

/-! ## The quorum falls with the level -/

section Quorum

/-- One level up, the exact quorum is no larger: `quorum_for_lvl`'s value
`total / 2 + ftt / 2 * 2^lvl / (2^lvl - 1)` falls as `lvl` rises, and so does its ceiling. -/
theorem exactQuorum_succ_le {lvl : Nat} (h1 : 1 ≤ lvl) (total ftt : Nat) :
    exactQuorum (lvl + 1) total ftt ≤ exactQuorum lvl total ftt := by
  obtain ⟨m, hm⟩ : ∃ m, 2 ^ lvl = m + 2 :=
    ⟨2 ^ lvl - 2, by have := Nat.le_self_pow (by omega : lvl ≠ 0) 2; omega⟩
  have hpow1 : 2 ^ (lvl + 1) = 2 * m + 4 := by rw [pow_succ, hm]; ring
  have hpow2 : 2 ^ (lvl + 1 + 1) = 4 * m + 8 := by rw [pow_succ, hpow1]; ring
  simp only [exactQuorum]
  rw [hm, hpow1, hpow2, show m + 2 - 1 = m + 1 by omega, show 2 * m + 4 - 1 = 2 * m + 3 by omega,
    show 2 * m + 4 - 2 = 2 * m + 2 by omega, show 4 * m + 8 - 2 = 4 * m + 6 by omega]
  -- cross-multiply the two fractions against the lower level's ceiling `c`
  set c := ((m + 1) * total + (m + 2) * ftt) ⌈/⌉ (2 * m + 2)
  have hc : (m + 1) * total + (m + 2) * ftt ≤ (2 * m + 2) * c :=
    (ceilDiv_le_iff_le_mul (by omega)).mp le_rfl
  rw [ceilDiv_le_iff_le_mul (by omega)]
  have hcross : (m + 1) * ((2 * m + 3) * total + (2 * m + 4) * ftt) ≤
      (m + 1) * ((4 * m + 6) * c) :=
    calc (m + 1) * ((2 * m + 3) * total + (2 * m + 4) * ftt)
        ≤ (2 * m + 3) * ((m + 1) * total + (m + 2) * ftt) := by
          have hsplit : (2 * m + 3) * ((m + 1) * total + (m + 2) * ftt) =
              (m + 1) * ((2 * m + 3) * total + (2 * m + 4) * ftt) + (m + 2) * ftt := by ring
          rw [hsplit]
          exact Nat.le_add_right _ _
      _ ≤ (2 * m + 3) * ((2 * m + 2) * c) := Nat.mul_le_mul_left _ hc
      _ = (m + 1) * ((4 * m + 6) * c) := by ring
  exact Nat.le_of_mul_le_mul_left hcross (by omega)

/-- The exact quorum falls as the level rises. -/
theorem exactQuorum_antitone {lvl lvl' : Nat} (h1 : 1 ≤ lvl) (hle : lvl ≤ lvl') (total ftt : Nat) :
    exactQuorum lvl' total ftt ≤ exactQuorum lvl total ftt := by
  induction lvl', hle using Nat.le_induction with
  | base => exact le_rfl
  | succ lvl' hle ih => exact (exactQuorum_succ_le (by omega) total ftt).trans ih

/-- With a fault tolerance of at most half the total, `quorum_for_lvl` falls as the level
rises through `1..=63`. -/
theorem quorumForLvl_antitone (d : FinalityDetector) {lvl lvl' : Nat} (h1 : 1 ≤ lvl)
    (hle : lvl ≤ lvl') (h63 : lvl' ≤ 63) (totalW : UInt64)
    (hF : 2 * d.ftt.toNat ≤ totalW.toNat) :
    (d.quorumForLvl lvl' totalW).toNat ≤ (d.quorumForLvl lvl totalW).toNat := by
  rw [quorumForLvl_exact d (by omega) h63 totalW hF, quorumForLvl_exact d h1 (by omega) totalW hF]
  exact exactQuorum_antitone h1 hle _ _

end Quorum

/-! ## Horizons below horizons -/

section Below

variable {s : State H CV} {weights : List Nat}

/-- `hz'` keeps `hz`'s latest units, and assigns every validator that `hz` assigns a unit a
unit at or below it in its swimlane. -/
structure Horizon.Below (hz' hz : Horizon H) : Prop where
  latest_eq : hz'.latest = hz.latest
  seq : ∀ (idx sn : Nat), hz.sequenceNumbers[idx]? = some (some sn) →
    ∃ sn' : Nat, sn' ≤ sn ∧ hz'.sequenceNumbers[idx]? = some (some sn')

theorem Horizon.Below.refl (hz : Horizon H) : hz.Below hz :=
  ⟨rfl, fun _ sn h => ⟨sn, le_rfl, h⟩⟩

variable {hz hz' : Horizon H}

/-- A unit that sees a validator's unit in a horizon sees its unit in a horizon below. -/
theorem Horizon.Below.sees (hbelow : hz'.Below hz) {unit : Unit H} {idx : Nat}
    (h : hz.Sees s unit idx) : hz'.Sees s unit idx := by
  obtain ⟨selfSn, hsn, hsees⟩ := h
  obtain ⟨sn', hle, hsn'⟩ := hbelow.seq idx selfSn hsn
  refine ⟨sn', hsn', ?_⟩
  by_cases hcreator : unit.creator = idx
  · rw [if_pos hcreator] at hsees ⊢
    omega
  · rw [if_neg hcreator] at hsees ⊢
    obtain ⟨vhash, seen, hobs, hseen, hle'⟩ := hsees
    exact ⟨vhash, seen, hobs, hseen, by omega⟩

/-- A unit sees at least as much weight of a larger set in a horizon below. -/
theorem Horizon.Below.seenWeightOf_le (hbelow : hz'.Below hz) (unit : Unit H)
    {S T : Finset Nat} (hST : S ⊆ T) :
    hz.seenWeightOf s weights unit S ≤ hz'.seenWeightOf s weights unit T := by
  calc hz.seenWeightOf s weights unit S ≤ hz.seenWeightOf s weights unit T :=
        hz.seenWeightOf_mono s weights unit hST
    _ ≤ hz'.seenWeightOf s weights unit T := by
        unfold Horizon.seenWeightOf
        rw [Finset.sum_filter, Finset.sum_filter]
        apply Finset.sum_le_sum
        intro idx _
        by_cases h : hz.Sees s unit idx
        · rw [if_pos h, if_pos (hbelow.sees h)]
        · rw [if_neg h]
          exact Nat.zero_le _

theorem Horizon.latestUnit_of_latest_eq (h : hz'.latest = hz.latest) (idx : Nat) :
    hz'.latestUnit s idx = hz.latestUnit s idx := by
  simp [Horizon.latestUnit, h]

/-- Support for a quorum carries over to a lower quorum, a larger set and a horizon below. -/
theorem Horizon.Below.quorumSupport (hbelow : hz'.Below hz) {q q' idx : Nat} (hq : q' ≤ q)
    {S T : Finset Nat} (hST : S ⊆ T) (h : hz.QuorumSupport s weights q idx S) :
    hz'.QuorumSupport s weights q' idx T := by
  obtain ⟨unit, hunit, hle⟩ := h
  exact ⟨unit, (Horizon.latestUnit_of_latest_eq hbelow.latest_eq idx).trans hunit,
    hq.trans (hle.trans (hbelow.seenWeightOf_le unit hST))⟩

/-- The earliest unit of a swimlane from which on every unit sees a lower quorum of a larger set
in a horizon below is at or below the earliest one for the higher quorum: a unit above it would
have a previous unit that sees the higher quorum, and so the lower one. -/
theorem Horizon.Below.earliestSeeing_le {n : Nat} (hc : s.Coherent n) (hbelow : hz'.Below hz)
    {q q' : Nat} (hq : q' ≤ q) {S T : Finset Nat} (hST : S ⊆ T) {vh e e' : H}
    {ue ue' : Unit H} (he : hz.EarliestSeeing s weights q S vh e ue)
    (he' : hz'.EarliestSeeing s weights q' T vh e' ue') : ue'.seqNumber ≤ ue.seqNumber := by
  obtain ⟨hve, hue, hbetween, -⟩ := he
  obtain ⟨hve', hue', -, hlast'⟩ := he'
  rcases hve.total hve' with hee' | he'e
  · -- `e'` is in the swimlane below `e`
    obtain ⟨uc, huc, -, hseq, -, -⟩ := hc.inSwimlane_spec hue hee'
    obtain rfl := Option.some.inj (huc.symm.trans hue')
    exact hseq
  · rcases he'e.cases with rfl | ⟨u, p, hu, hp, hpe⟩
    · obtain rfl := Option.some.inj (hue'.symm.trans hue)
      exact le_rfl
    · -- `e'` strictly above `e`: its previous unit lies between `vh` and `e`
      obtain rfl := Option.some.inj (hu.symm.trans hue')
      obtain ⟨up, hup, -⟩ := hc.previous_spec hue' hp
      have hvp : s.InSwimlane vh p :=
        hve'.trans (State.InSwimlane.of_previous hue' hp (State.InSwimlane.refl p))
      have hhigh := hbetween p up hvp hpe hup
      have hlow := hlast' p up hp hup
      have hmono : hz.seenWeightOf s weights up S ≤ hz'.seenWeightOf s weights up T :=
        hbelow.seenWeightOf_le up hST
      omega

end Below

/-! ## `next` with a lower quorum -/

section Next

variable {s : State H CV} {n fuel : Nat} {weights : List Nat} {latest : List (Option H)}

variable (hc : s.Coherent n) (hfuel : s.FuelBound fuel) (hlatest : LatestOk s n latest)
  (hweights : weights.length = n)
include hc hfuel hlatest hweights

/-- What `next` does on a horizon of the invariant: it prunes to the greatest subset `C` of the
validators with units all of whose members see a quorum of it; with `C` empty it stops, and
otherwise it assigns each member of `C` its earliest unit from which on every unit sees a
quorum of `C`, and nothing to the other validators. -/
theorem Horizon.next_spec {hz : Horizon H} (hok : HorizonOk n latest hz) (quorum : Nat) :
    ∃ C : List Nat, C.Sublist (keysSome hz.sequenceNumbers) ∧
      IsGreatest {S | S ⊆ (keysSome hz.sequenceNumbers).toFinset ∧
        Pruning.Supported (hz.QuorumSupport s weights quorum) S} C.toFinset ∧
      (C = [] → hz.next s weights fuel quorum = some none) ∧
      (C ≠ [] → ∃ hz', hz.next s weights fuel quorum = some (some hz') ∧
        hz'.latest = hz.latest ∧ ∀ v,
          (v ∉ C → hz'.sequenceNumbers[v]?.bind id = none) ∧
          (v ∈ C → ∃ vh e ue, hz.latest[v]? = some (some vh) ∧
            hz.EarliestSeeing s weights quorum C.toFinset vh e ue ∧
            hz'.sequenceNumbers[v]? = some (some ue.seqNumber))) := by
  obtain ⟨C, pruned, hprune, hsub, -, hgreatest⟩ :=
    hz.pruneCommittee_spec hc hok hlatest hweights quorum (nodup_keysSome hz.sequenceNumbers)
      fun v hv => mem_keysSome.mp hv
  have hnodup := (nodup_keysSome hz.sequenceNumbers).sublist hsub
  have hmem : ∀ v ∈ C, v < n := by
    intro v hv
    obtain ⟨sn, hsn⟩ := mem_keysSome.mp (hsub.subset hv)
    exact hok.lt_of_seq hsn
  refine ⟨C, hsub, hgreatest, fun hnil => ?_, fun hne => ?_⟩
  · simp [Horizon.next, hprune, hnil]
  · obtain ⟨hz', hnfc, hlatest', -, hentries⟩ :=
      hz.nextFromCommittee_spec hc hfuel hok hlatest hweights hnodup hmem hgreatest.1.2
    refine ⟨hz', ?_, hlatest', hentries⟩
    simp [Horizon.next, hprune, hne, hnfc]

/-- **A lower quorum from a horizon below builds a horizon below.**  The committee `hz` prunes
to is a supported subset for the lower quorum in `hz'`, so the greatest one there contains it;
each of its members then gets in `hz'`'s next horizon a unit at or below its unit in `hz`'s. -/
theorem Horizon.Below.next {hz hz' h1 : Horizon H} (hok : HorizonOk n latest hz)
    (hok' : HorizonOk n latest hz') (hbelow : hz'.Below hz) {q q' : Nat} (hq : q' ≤ q)
    (hnext : hz.next s weights fuel q = some (some h1)) :
    ∃ h1', hz'.next s weights fuel q' = some (some h1') ∧ h1'.Below h1 := by
  obtain ⟨C, hCsub, hCg, hCnil, hCcons⟩ := hz.next_spec hc hfuel hlatest hweights hok q
  obtain ⟨C', -, hC'g, -, hC'cons⟩ := hz'.next_spec hc hfuel hlatest hweights hok' q'
  have hne : C ≠ [] := by
    rintro rfl
    rw [hCnil rfl] at hnext
    cases hnext
  obtain ⟨h1₀, hnext₀, hlatest1, hentries⟩ := hCcons hne
  obtain rfl : h1₀ = h1 := by
    rw [hnext] at hnext₀
    exact (Option.some.inj (Option.some.inj hnext₀)).symm
  have hsubset : C.toFinset ⊆ C'.toFinset := by
    apply hC'g.2
    refine ⟨fun v hv => ?_, fun v hv => hbelow.quorumSupport hq subset_rfl (hCg.1.2 v hv)⟩
    obtain ⟨sn, hsn⟩ := mem_keysSome.mp (hCsub.subset (List.mem_toFinset.mp hv))
    obtain ⟨sn', -, hsn'⟩ := hbelow.seq v sn hsn
    exact List.mem_toFinset.mpr (mem_keysSome.mpr ⟨sn', hsn'⟩)
  have hne' : C' ≠ [] := by
    obtain ⟨v, hv⟩ := List.exists_mem_of_ne_nil C hne
    rintro rfl
    simpa using hsubset (List.mem_toFinset.mpr hv)
  obtain ⟨h1', hnext', hlatest1', hentries'⟩ := hC'cons hne'
  refine ⟨h1', hnext', ⟨by rw [hlatest1', hbelow.latest_eq, hlatest1], fun idx sn hsn => ?_⟩⟩
  -- a validator with a unit in `h1` is a member of `C`, and so of `C'`
  have hidx : idx ∈ C := by
    by_contra hnot
    have hnone := (hentries idx).1 hnot
    rw [hsn] at hnone
    cases hnone
  obtain ⟨vh, e, ue, hvh, hearliest, hsn₀⟩ := (hentries idx).2 hidx
  obtain ⟨vh', e', ue', hvh', hearliest', hsn'⟩ :=
    (hentries' idx).2 (List.mem_toFinset.mp (hsubset (List.mem_toFinset.mpr hidx)))
  obtain rfl : vh' = vh := by
    rw [hbelow.latest_eq, hvh] at hvh'
    exact (Option.some.inj (Option.some.inj hvh')).symm
  obtain rfl : ue.seqNumber = sn := by
    rw [hsn₀] at hsn
    exact Option.some.inj (Option.some.inj hsn)
  exact ⟨ue'.seqNumber, hbelow.earliestSeeing_le hc hq hsubset hearliest hearliest', hsn'⟩

/-- On a horizon of the invariant the count of levels never panics. -/
theorem HorizonOk.levels_isSome (quorum k : Nat) {hz : Horizon H} (hok : HorizonOk n latest hz) :
    ∃ l, hz.levels s weights fuel quorum k = some l := by
  induction k generalizing hz with
  | zero => exact ⟨0, rfl⟩
  | succ k ih =>
    obtain ⟨C, -, -, hnil, hcons⟩ := hz.next_spec hc hfuel hlatest hweights hok quorum
    by_cases hne : C = []
    · exact ⟨0, Horizon.levels_succ_of_next_none (hnil hne)⟩
    · obtain ⟨hz', hnext, -⟩ := hcons hne
      obtain ⟨l, hl⟩ := ih (hok.next hc hfuel hlatest hweights hnext)
      exact ⟨l + 1, by rw [Horizon.levels_succ_of_next_some hnext, hl, Option.map_some]⟩

/-- **A lower quorum from a horizon below counts at least as many levels**, by induction on the
bound, one `Below.next` a level. -/
theorem Horizon.Below.levels {q q' : Nat} (hq : q' ≤ q) (k : Nat) {hz hz' : Horizon H}
    (hok : HorizonOk n latest hz) (hok' : HorizonOk n latest hz') (hbelow : hz'.Below hz)
    {l : Nat} (hl : hz.levels s weights fuel q k = some l) :
    ∃ l', hz'.levels s weights fuel q' k = some l' ∧ l ≤ l' := by
  induction k generalizing hz hz' l with
  | zero =>
    obtain rfl : l = 0 := (Option.some.inj hl).symm
    exact ⟨0, rfl, le_rfl⟩
  | succ k ih =>
    rcases hr : hz.next s weights fuel q with _ | ⟨_ | h1⟩
    · simp [Horizon.levels, hr] at hl
    · obtain ⟨l', hl'⟩ := hok'.levels_isSome hc hfuel hlatest hweights q' (k + 1)
      rw [Horizon.levels_succ_of_next_none hr] at hl
      obtain rfl := Option.some.inj hl
      exact ⟨l', hl', Nat.zero_le _⟩
    · obtain ⟨h1', hnext', hbelow1⟩ := hbelow.next hc hfuel hlatest hweights hok hok' hq hr
      rw [Horizon.levels_succ_of_next_some hr] at hl
      obtain ⟨l₁, hl₁, rfl⟩ := Option.map_eq_some_iff.mp hl
      obtain ⟨l₁', hl₁', hle⟩ := ih (hok.next hc hfuel hlatest hweights hr)
        (hok'.next hc hfuel hlatest hweights hnext') hbelow1 hl₁
      exact ⟨l₁' + 1, by rw [Horizon.levels_succ_of_next_some hnext', hl₁', Option.map_some],
        by omega⟩

end Next

/-! ## The search over target levels -/

section Search

variable [DecidableEq H] {s : State H CV} {n fuel : Nat} {weights : List Nat}
  {pan : List (Observation H)} {d : FinalityDetector} {totalW : UInt64} {candidate : H}
  {hz0 : Horizon H}

theorem findSummit_eq (h0 : Horizon.level0 s fuel candidate (pan.map Observation.correct?) =
    some hz0) (targetLvl : Nat) :
    findSummit s weights d fuel targetLvl candidate totalW pan =
      hz0.levels s weights fuel (d.quorumForLvl targetLvl totalW).toNat targetLvl := by
  simp [findSummit, h0]

variable (hs : ValidReachable n s) (hfuel : s.FuelBound fuel) (hweights : weights.length = n)
  (hpan : s.PanValid pan) (hlen : pan.length = n) (hF : 2 * d.ftt.toNat ≤ totalW.toNat)
  (h0 : Horizon.level0 s fuel candidate (pan.map Observation.correct?) = some hz0)
include hs hfuel hweights hpan hlen hF h0

/-- **The summit found grows with the target level.**  On a state built from validated units,
with the latest units of a valid panorama, a fault tolerance of at most half the total weight,
and the candidate's level-0 horizon built, `find_summit` answers for every target from 1 to 63,
at most the target, and no more for a lower target than for a higher one: the lower target
needs a higher quorum, which counts no more levels. -/
theorem findSummit_mono {t t' : Nat} (h1 : 1 ≤ t') (hle : t' ≤ t) (h63 : t ≤ 63) :
    ∃ l l', findSummit s weights d fuel t candidate totalW pan = some l ∧
      findSummit s weights d fuel t' candidate totalW pan = some l' ∧ l' ≤ l ∧ l' ≤ t' := by
  have hc := hs.coherent
  have hlatest := latestOk_of_panValid hpan hlen
  have hok0 := HorizonOk.level0 hlatest h0
  have hq := quorumForLvl_antitone d h1 hle h63 totalW hF
  obtain ⟨l, hl⟩ := hok0.levels_isSome hc hfuel hlatest hweights (d.quorumForLvl t totalW).toNat t
  obtain ⟨l', hl'⟩ :=
    hok0.levels_isSome hc hfuel hlatest hweights (d.quorumForLvl t' totalW).toNat t'
  -- the higher target's lower quorum counts at least as many levels up to `t'`
  obtain ⟨l'', hl'', hle'⟩ :=
    (Horizon.Below.refl hz0).levels hc hfuel hlatest hweights hq t' hok0 hok0 hl'
  rw [Horizon.levels_min hl hle] at hl''
  obtain rfl := Option.some.inj hl''
  exact ⟨l, l', by rw [findSummit_eq h0, hl], by rw [findSummit_eq h0, hl'], by omega,
    Horizon.levels_le hl'⟩

/-- The loop of `next_finalized` with a bound at least its target answers whether some target
up to it is reached: a target it skips lies between the level a summit reached and the target
it was for, so by `findSummit_mono` it is not reached either. -/
theorem nextFinalizedLoop_spec :
    ∀ bound target, target ≤ bound → target ≤ 63 →
      ∃ found, nextFinalizedLoop s weights d fuel candidate totalW pan bound target = some found ∧
        (found = true ↔ ∃ t, 1 ≤ t ∧ t ≤ target ∧
          findSummit s weights d fuel t candidate totalW pan = some t)
  | _, 0, _, _ => ⟨false, by simp [nextFinalizedLoop], by simp⟩
  | 0, _ + 1, hle, _ => absurd hle (by omega)
  | bound + 1, t + 1, hle, h63 => by
    obtain ⟨l, l', hl, hl', -, hlt⟩ :=
      findSummit_mono hs hfuel hweights hpan hlen hF h0 (by omega) (le_refl (t + 1)) h63
    rw [hl] at hl'
    obtain rfl := Option.some.inj hl'
    by_cases hreach : l = t + 1
    · subst hreach
      exact ⟨true, by simp [nextFinalizedLoop, hl], by simp only [true_iff]; exact ⟨t + 1, by omega, le_rfl, hl⟩⟩
    · obtain ⟨found, hfound, hiff⟩ :=
        nextFinalizedLoop_spec bound l (by omega) (by omega)
      refine ⟨found, by simp [nextFinalizedLoop, hl, hreach, hfound], hiff.trans ⟨?_, ?_⟩⟩
      · rintro ⟨t', h1, hle', ht'⟩
        exact ⟨t', h1, by omega, ht'⟩
      · rintro ⟨t', h1, hle', ht'⟩
        -- a reached target is at most the level the summit for `t + 1` reached
        obtain ⟨l₂, l₂', hl₂, hl₂', hmono, -⟩ :=
          findSummit_mono hs hfuel hweights hpan hlen hF h0 h1 hle' h63
        rw [hl] at hl₂
        rw [ht'] at hl₂'
        obtain rfl := Option.some.inj hl₂
        obtain rfl := Option.some.inj hl₂'
        exact ⟨t', h1, hmono, ht'⟩

end Search

/-- **`next_finalized` misses no summit.**  On a state built from validated units, with fuel
above its sequence numbers, weights for its `n` validators, the latest units of a valid
panorama, a fault tolerance of at most half the total weight, and the candidate's level-0
horizon built: the search from level 63 down ends, and it finalizes the candidate exactly when
the summit for some target level from 1 to 63 reaches that level.  The targets it skips cannot
be reached, since a lower target needs a higher quorum. -/
theorem nextFinalized_complete [DecidableEq H] {n fuel : Nat} {s : State H CV}
    (hs : ValidReachable n s) (hfuel : s.FuelBound fuel) {weights : List Nat}
    (hweights : weights.length = n) {pan : List (Observation H)} (hpan : s.PanValid pan)
    (hlen : pan.length = n) (d : FinalityDetector) (totalW : UInt64)
    (hF : 2 * d.ftt.toNat ≤ totalW.toNat) {candidate : H} {hz0 : Horizon H}
    (h0 : Horizon.level0 s fuel candidate (pan.map Observation.correct?) = some hz0) :
    ∃ r, nextFinalized s weights d fuel candidate totalW pan = some r ∧
      (r = none ∨ r = some candidate) ∧
      (r = some candidate ↔ ∃ t, 1 ≤ t ∧ t ≤ 63 ∧
        findSummit s weights d fuel t candidate totalW pan = some t) := by
  obtain ⟨found, hfound, hiff⟩ :=
    nextFinalizedLoop_spec hs hfuel hweights hpan hlen hF h0 63 63 le_rfl le_rfl
  refine ⟨if found then some candidate else none, by simp [nextFinalized, hfound], ?_, ?_⟩
  · cases found <;> simp
  · rw [← hiff]
    cases found <;> simp

set_option maxRecDepth 20000 in
/-- One validator of weight 5 with the units `10` and `11`, and a fault tolerance of 1: the
candidate `10` is finalized, as the summit for some target reaches it. -/
theorem nextFinalized_complete_staggered :
    ValidReachable 1 staggeredState ∧ staggeredState.FuelBound 2 ∧ [5].length = 1 ∧
      staggeredState.PanValid [.correct 11] ∧ [Observation.correct 11].length = 1 ∧
      2 * (⟨1⟩ : FinalityDetector).ftt.toNat ≤ (5 : UInt64).toNat ∧
      Horizon.level0 staggeredState 2 10 ([Observation.correct 11].map Observation.correct?) =
        some ⟨[some 0], [some 11]⟩ ∧
      nextFinalized staggeredState [5] ⟨1⟩ 2 10 5 [.correct 11] = some (some 10) ∧
      ∃ t, 1 ≤ t ∧ t ≤ 63 ∧ findSummit staggeredState [5] ⟨1⟩ 2 t 10 5 [.correct 11] = some t := by
  obtain ⟨hs, hfuel, hpan⟩ := staggeredState_valid
  have h0 : Horizon.level0 staggeredState 2 10 ([Observation.correct 11].map Observation.correct?) =
      some ⟨[some 0], [some 11]⟩ := rfl
  have hfinal : nextFinalized staggeredState [5] ⟨1⟩ 2 10 5 [.correct 11] = some (some 10) := by
    decide
  obtain ⟨r, hr, -, hiff⟩ := nextFinalized_complete hs hfuel (rfl : [5].length = 1) hpan rfl ⟨1⟩ 5
    (by decide) h0
  obtain rfl : r = some 10 := Option.some.inj (hr.symm.trans hfinal)
  exact ⟨hs, hfuel, rfl, hpan, rfl, by decide, h0, hfinal, hiff.mp rfl⟩

end CasperNode.Highway
