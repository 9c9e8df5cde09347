import CasperNode.Consensus.Evidence
import CasperNode.Library.SkipList
import CasperNode.Library.WordBits

/-!
# Skip lists of units and blocks

Each unit of the Highway `State` carries a skip list of its creator's earlier units, and each
block one of its ancestors.  `Unit::new` and `Block::new` build it from its first entry, the
unit's previous unit or the block's parent (`Unit::previous`, `Block::parent`), with one more
entry for each power of two dividing the sequence number or the height.  `find_in_swimlane`
and `find_ancestor_proposal` search them, jumping `2 ^ log2 d` steps for a distance `d` where
the skip list allows.  Both are instances of `SkipList`: a unit's level is its sequence number,
a block's its height, and `SkipList.follow` walks the first entries.

`State::add_valid_unit` adds a validated unit and, if it has a value, its block.  Validation
checks the sequence number against `Panorama::next_seq_num`.  Every state reached by such
additions keeps both skip lists well formed (`Reachable.wellFormed`), so on it both searches
return what walking back along the first entries returns (`SkipList.Wf.find_eq`).

The fork choice is a parameter of `add_valid_unit` here.  Its update of the state's panorama
and the ping it records change neither map and are left out: more states are reachable here
than in the source.  Sequence numbers and heights are `u64` values that the source increments
by one, remarking that they overflow in a trillion years; they are natural numbers here.  The
searches recurse without a bound; the model takes fuel, and `none` is a panic or the fuel
running out.
-/

namespace CasperNode.Highway

open WordBits

/-- `Unit`, with the fields that the searches and panoramas read: the unit's panorama, its
sequence number and creator, the block it votes for, the skip list of its creator's earlier
units, and its timestamp. -/
structure Unit (H : Type) where
  panorama : List (Observation H)
  seqNumber : Nat
  creator : Nat
  block : H
  skipIdx : List H
  timestamp : Nat

/-- `Block`. -/
structure Block (H CV : Type) where
  height : Nat
  value : CV
  skipIdx : List H

/-- Highway's `State`, with its units and blocks by hash. -/
structure State (H CV : Type) where
  units : H → Option (Unit H)
  blocks : H → Option (Block H CV)

variable {H S I CV : Type}

/-- `log2`: the greatest `i` with `2 ^ i ≤ x`, and `0` for zero, from the trailing zeros of the
least power of two above `x`. -/
def log2 (x : Nat) : Nat :=
  trailingZeros 64 ((checkedNextPowerOfTwo 64 (saturatingAdd 64 x 1)).getD 0) - 1

/-- `Panorama::next_seq_num`: one more than the sequence number of the validator's latest unit,
or `0` without one.  Indexing the panorama, and looking the unit up, panic. -/
def nextSeqNum (panorama : List (Observation H)) (s : State H CV) (vidx : Nat) : Option Nat := do
  let obs ← panorama[vidx]?
  match obs.correct? with
  | none => pure 0
  | some vh => do
    let unit ← s.units vh
    pure (unit.seqNumber + 1)

/-- `Unit::new`: the unit of a signed wire unit, and its value.  A unit with a value votes for
its own block and one without for the fork choice, which must be there.  The skip list starts
with the creator's previous unit in the unit's panorama, and for each `2 ^ i` dividing the
sequence number adds the `i`-th entry of the unit that its `i`-th entry points to. -/
def Unit.new (swunit : SignedWireUnit H S I CV) (forkChoice : Option H) (s : State H CV) :
    Option (Unit H × Option CV) := do
  let hash := swunit.hash
  let wunit := swunit.wireUnit
  let block ← (if wunit.value.isSome then some hash else forkChoice : Option H)
  let previous ← wunit.previous
  let skipIdx ← (match previous with
    | none => pure []
    | some prev => SkipList.extend s.units Unit.skipIdx (trailingZeros 64 wunit.seqNumber) [prev] :
    Option (List H))
  pure (⟨wunit.panorama, wunit.seqNumber, wunit.creator, block, skipIdx, wunit.timestamp⟩,
    wunit.value)

/-- `Block::initial`. -/
def Block.initial (value : CV) : Block H CV := ⟨0, value, []⟩

/-- `Block::new`: the initial block without a parent, and otherwise a block one above its
parent, which must be there, with a skip list built as a unit's. -/
def Block.new (parentHash : Option H) (value : CV) (s : State H CV) : Option (Block H CV) :=
  match parentHash with
  | none => some (Block.initial value)
  | some hash => do
    let parent ← s.blocks hash
    let height := parent.height + 1
    let skipIdx ← SkipList.extend s.blocks Block.skipIdx (trailingZeros 64 height) [hash]
    pure ⟨height, value, skipIdx⟩

/-- `State::add_valid_unit`: a known unit changes nothing; a new one is added under its hash, with
the block of its value, if it has one, on top of the fork choice. -/
def State.addValidUnit [DecidableEq H] (s : State H CV) (swunit : SignedWireUnit H S I CV)
    (forkChoice : Option H) : Option (State H CV) := do
  let hash := swunit.hash
  if (s.units hash).isSome then pure s
  else
    let (unit, maybeValue) ← Unit.new swunit forkChoice s
    let blocks ← match maybeValue with
      | none => pure s.blocks
      | some value => do
        let block ← Block.new forkChoice value s
        pure (Function.update s.blocks hash (some block))
    pure { units := Function.update s.units hash (some unit), blocks }

/-- `State::find_in_swimlane`: the unit by `hash`'s creator with the sequence number, and `none`
if that is above `hash`'s.  The source's `checked_sub` of the two fails exactly when it is. -/
def State.findInSwimlane (s : State H CV) (fuel : Nat) (hash : H) (seqNumber : Nat) :
    Option (Option H) :=
  SkipList.find s.units Unit.seqNumber Unit.skipIdx log2 fuel hash seqNumber

/-- `State::find_ancestor_proposal`: the ancestor of the block at the height, and `none` if that
is above the block's. -/
def State.findAncestorProposal (s : State H CV) (fuel : Nat) (hash : H) (height : Nat) :
    Option (Option H) :=
  SkipList.find s.blocks Block.height Block.skipIdx log2 fuel hash height

/-- The states that `add_valid_unit` reaches from the empty one with units whose sequence number
passed `validate_unit`'s check. -/
inductive Reachable [DecidableEq H] : State H CV → Prop
  | empty : Reachable ⟨fun _ => none, fun _ => none⟩
  | addValidUnit {S I : Type} {s s' : State H CV} (swunit : SignedWireUnit H S I CV)
      (forkChoice : Option H) (hs : Reachable s)
      (hseq : nextSeqNum swunit.wireUnit.panorama s swunit.wireUnit.creator =
        some swunit.wireUnit.seqNumber)
      (hadd : s.addValidUnit swunit forkChoice = some s') : Reachable s'

/-! ## `log2` -/

/-- `log2` is the base-two logarithm of its argument, saturated at `u64::MAX`. -/
theorem log2_eq (x : Nat) : log2 x = Nat.log2 (min x (2 ^ 64 - 1)) := by
  rcases Nat.eq_zero_or_pos x with rfl | hx
  · decide
  by_cases hsmall : x + 1 ≤ 2 ^ (64 - 1)
  · -- the next power of two fits: it is `2 ^ (log2 x + 1)`
    have hsat : saturatingAdd 64 x 1 = x + 1 := by
      unfold saturatingAdd
      omega
    rw [log2, hsat, checkedNextPowerOfTwo_of_le (by omega) hsmall, Option.getD_some,
      Nat.add_sub_cancel, trailingZeros_two_pow, Nat.add_sub_cancel, min_eq_left (by omega)]
  · -- it overflows, and the trailing zeros of zero are all `64` bits
    have hsat : 2 ^ (64 - 1) < saturatingAdd 64 x 1 ∧ saturatingAdd 64 x 1 ≤ 2 ^ 64 := by
      unfold saturatingAdd
      omega
    rw [log2, checkedNextPowerOfTwo_of_gt (by omega) hsat.1 hsat.2, Option.getD_none,
      trailingZeros_zero, eq_comm, Nat.log2_eq_iff (by omega)]
    omega

theorem two_pow_log2_le {x : Nat} (hx : 0 < x) : 2 ^ log2 x ≤ x := by
  have hmin : min x (2 ^ 64 - 1) ≠ 0 := by omega
  rw [log2_eq]
  exact (Nat.log2_self_le hmin).trans (min_le_left _ _)

/-! ## What `add_valid_unit` builds -/

/-- Without a previous unit of the creator, the next sequence number is `0`. -/
theorem nextSeqNum_of_previous_none {wunit : WireUnit H I CV} (s : State H CV)
    (hprev : wunit.previous = some none) : nextSeqNum wunit.panorama s wunit.creator = some 0 := by
  obtain ⟨obs, hobs, hcorrect⟩ := Option.map_eq_some_iff.mp hprev
  simp [nextSeqNum, hobs, hcorrect]

/-- With one, it is one above that unit's. -/
theorem nextSeqNum_of_previous_some {wunit : WireUnit H I CV} (s : State H CV) {vh : H}
    (hprev : wunit.previous = some (some vh)) :
    nextSeqNum wunit.panorama s wunit.creator = (s.units vh).map (·.seqNumber + 1) := by
  obtain ⟨obs, hobs, hcorrect⟩ := Option.map_eq_some_iff.mp hprev
  simp only [nextSeqNum, hobs, hcorrect, Option.bind_eq_bind, Option.bind_some]
  cases s.units vh <;> rfl

/-- **A validated unit is built as its skip list requires.**  The value is the wire unit's, and
the unit is at sequence number `0` without entries, or one above its previous unit with the
entries that the loop builds. -/
theorem Unit.new_builds {swunit : SignedWireUnit H S I CV} {forkChoice : Option H}
    {s : State H CV} {unit : Unit H} {maybeValue : Option CV}
    (hnew : Unit.new swunit forkChoice s = some (unit, maybeValue))
    (hseq : nextSeqNum swunit.wireUnit.panorama s swunit.wireUnit.creator =
      some swunit.wireUnit.seqNumber) :
    maybeValue = swunit.wireUnit.value ∧ SkipList.Builds s.units Unit.seqNumber Unit.skipIdx unit := by
  -- the block the unit votes for plays no part; the skip list follows the previous unit
  unfold Unit.new at hnew
  obtain ⟨block, -, hnew⟩ := Option.bind_eq_some_iff.mp hnew
  obtain ⟨previous, hprev, hnew⟩ := Option.bind_eq_some_iff.mp hnew
  obtain ⟨skipIdx, hskip, hnew⟩ := Option.bind_eq_some_iff.mp hnew
  obtain ⟨rfl, rfl⟩ := Prod.mk.inj (Option.some.inj hnew)
  refine ⟨rfl, ?_⟩
  cases previous with
  | none =>
    -- the creator's first unit
    obtain rfl := Option.some.inj hskip
    rw [nextSeqNum_of_previous_none s hprev, Option.some_inj] at hseq
    exact Or.inl ⟨hseq.symm, rfl⟩
  | some vh =>
    -- one above the previous unit, with the loop's entries
    rw [nextSeqNum_of_previous_some s hprev] at hseq
    obtain ⟨b, hb, hseq⟩ := Option.map_eq_some_iff.mp hseq
    rw [trailingZeros_of_ne_zero 64 (x := swunit.wireUnit.seqNumber) (by omega)] at hskip
    exact Or.inr ⟨vh, b, hb, hseq.symm, hskip⟩

/-- **A block is built as its skip list requires**: the initial block, or one above its parent
with the entries that the loop builds. -/
theorem Block.new_builds {parentHash : Option H} {value : CV} {s : State H CV}
    {block : Block H CV} (hnew : Block.new parentHash value s = some block) :
    SkipList.Builds s.blocks Block.height Block.skipIdx block := by
  cases parentHash with
  | none =>
    obtain rfl := Option.some.inj hnew
    exact Or.inl ⟨rfl, rfl⟩
  | some hash =>
    obtain ⟨parent, hparent, hnew⟩ := Option.bind_eq_some_iff.mp hnew
    obtain ⟨skipIdx, hext, hnew⟩ := Option.bind_eq_some_iff.mp hnew
    obtain rfl := Option.some.inj hnew
    refine Or.inr ⟨hash, parent, hparent, rfl, ?_⟩
    rw [trailingZeros_of_ne_zero 64 (x := parent.height + 1) (by omega)] at hext
    exact hext

/-! ## Reachable states -/

/-- What every reachable state keeps: both skip lists well formed, and a block only under the
hash of a unit. -/
structure State.WellFormed (s : State H CV) : Prop where
  units_wf : SkipList.Wf s.units Unit.seqNumber Unit.skipIdx
  blocks_wf : SkipList.Wf s.blocks Block.height Block.skipIdx
  block_unit : ∀ h, s.units h = none → s.blocks h = none

theorem State.WellFormed.empty : (⟨fun _ => none, fun _ => none⟩ : State H CV).WellFormed :=
  ⟨fun _ _ h => (by cases h), fun _ _ h => (by cases h), fun _ _ => rfl⟩

/-- **`add_valid_unit` keeps the state well formed.**  The new unit, and its block, are fresh
under their hash and built as the skip lists require. -/
theorem State.WellFormed.addValidUnit [DecidableEq H] {s s' : State H CV}
    {swunit : SignedWireUnit H S I CV} {forkChoice : Option H} (hwf : s.WellFormed)
    (hseq : nextSeqNum swunit.wireUnit.panorama s swunit.wireUnit.creator =
      some swunit.wireUnit.seqNumber)
    (hadd : s.addValidUnit swunit forkChoice = some s') : s'.WellFormed := by
  rw [State.addValidUnit] at hadd
  by_cases hknown : (s.units swunit.hash).isSome
  · -- a known unit: nothing changes
    rw [if_pos hknown] at hadd
    obtain rfl := Option.some.inj hadd
    exact hwf
  rw [if_neg hknown] at hadd
  have hfresh : s.units swunit.hash = none := Option.not_isSome_iff_eq_none.mp hknown
  obtain ⟨⟨unit, maybeValue⟩, hnew, hadd⟩ := Option.bind_eq_some_iff.mp hadd
  have hunits := hwf.units_wf.insert hfresh (Unit.new_builds hnew hseq).2
  -- a hash without a unit after the addition is not the new one
  have hother : ∀ h, Function.update s.units swunit.hash (some unit) h = none →
      h ≠ swunit.hash ∧ s.blocks h = none := by
    intro h hh
    have hne : h ≠ swunit.hash := by
      rintro rfl
      simp at hh
    rw [Function.update_of_ne hne] at hh
    exact ⟨hne, hwf.block_unit h hh⟩
  cases maybeValue with
  | none =>
    obtain rfl := Option.some.inj hadd
    exact ⟨hunits, hwf.blocks_wf, fun h hh => (hother h hh).2⟩
  | some value =>
    obtain ⟨block, hblock, hadd⟩ := Option.bind_eq_some_iff.mp hadd
    obtain rfl := Option.some.inj hadd
    refine ⟨hunits, hwf.blocks_wf.insert (hwf.block_unit _ hfresh) (Block.new_builds hblock),
      fun h hh => ?_⟩
    obtain ⟨hne, hblocks⟩ := hother h hh
    show Function.update s.blocks swunit.hash (some block) h = none
    rw [Function.update_of_ne hne, hblocks]

/-- **Every reachable state is well formed**, by induction on the additions. -/
theorem Reachable.wellFormed [DecidableEq H] {s : State H CV} (hs : Reachable s) :
    s.WellFormed := by
  induction hs with
  | empty => exact State.WellFormed.empty
  | addValidUnit swunit forkChoice _ hseq hadd ih => exact ih.addValidUnit hseq hadd

/-! ## The searches -/

/-- **Skip-list searches agree with the walk.**  On a reachable state, `find_in_swimlane` from a
unit returns nothing for a sequence number above the unit's, and for any other the unit with
that sequence number that walking back along the previous units reaches; `find_ancestor_proposal`
does the same along the parents.  Both return, without panicking, given more fuel than the
distance. -/
theorem findInSwimlane_findAncestorProposal_of_reachable [DecidableEq H] {s : State H CV}
    (hs : Reachable s) :
    (∀ h u, s.units h = some u → ∀ seqNumber fuel, u.seqNumber - seqNumber < fuel →
      if u.seqNumber < seqNumber then s.findInSwimlane fuel h seqNumber = some none
      else ∃ h' u', SkipList.follow s.units Unit.skipIdx (u.seqNumber - seqNumber) h = some h' ∧
        s.units h' = some u' ∧ u'.seqNumber = seqNumber ∧
        s.findInSwimlane fuel h seqNumber = some (some h')) ∧
    (∀ b blk, s.blocks b = some blk → ∀ height fuel, blk.height - height < fuel →
      if blk.height < height then s.findAncestorProposal fuel b height = some none
      else ∃ b' blk', SkipList.follow s.blocks Block.skipIdx (blk.height - height) b = some b' ∧
        s.blocks b' = some blk' ∧ blk'.height = height ∧
        s.findAncestorProposal fuel b height = some (some b')) := by
  have hwf := hs.wellFormed
  exact ⟨fun h u hu _ _ hfuel => hwf.units_wf.find_spec (fun _ => two_pow_log2_le) hu hfuel,
    fun b blk hb _ _ hfuel => hwf.blocks_wf.find_spec (fun _ => two_pow_log2_le) hb hfuel⟩

/-- A creator's first unit, with a value. -/
def firstUnit : SignedWireUnit Nat Nat Nat Nat :=
  ⟨⟨10, ⟨[.none], 0, 0, some 7, 0, 0, 0, []⟩⟩, 0⟩

/-- The creator's second unit, with a value, citing the first. -/
def secondUnit : SignedWireUnit Nat Nat Nat Nat :=
  ⟨⟨11, ⟨[.correct 10], 0, 0, some 8, 1, 0, 0, []⟩⟩, 0⟩

/-- The state after adding both, the second's block on top of the first's. -/
def twoUnitState : State Nat Nat where
  units := Function.update (Function.update (fun _ => none) 10 (some ⟨[.none], 0, 0, 10, [], 0⟩))
    11 (some ⟨[.correct 10], 1, 0, 11, [10], 0⟩)
  blocks := Function.update (Function.update (fun _ => none) 10 (some ⟨0, 7, []⟩)) 11
    (some ⟨1, 8, [10]⟩)

theorem findInSwimlane_findAncestorProposal_of_reachable_twoUnitState :
    Reachable twoUnitState ∧ twoUnitState.findInSwimlane 2 11 0 = some (some 10) ∧
      twoUnitState.findAncestorProposal 2 11 0 = some (some 10) := by
  have hs : Reachable twoUnitState :=
    .addValidUnit secondUnit (some 10) (.addValidUnit firstUnit none .empty rfl rfl) rfl rfl
  obtain ⟨hunits, hblocks⟩ := findInSwimlane_findAncestorProposal_of_reachable hs
  have hu := hunits 11 _ rfl 0 2 (by decide)
  have hb := hblocks 11 _ rfl 0 2 (by decide)
  rw [if_neg (by decide)] at hu hb
  -- the walks take one step back, to the first unit and its block
  obtain ⟨h', _, hfollow, -, -, hfind⟩ := hu
  obtain ⟨b', _, hfollow', -, -, hfind'⟩ := hb
  obtain rfl : h' = 10 := Option.some.inj (hfollow.symm.trans rfl)
  obtain rfl : b' = 10 := Option.some.inj (hfollow'.symm.trans rfl)
  exact ⟨hs, hfind, hfind'⟩

end CasperNode.Highway
