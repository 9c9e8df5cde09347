import CasperNode.Consensus.Evidence
import CasperNode.Library.OrdMap

/-!
# The fork choice

`State::fork_choice` picks the block a new unit votes for.  The latest unit of every correct
validator in the panorama votes, with the validator's weight, for its block and all the block's
ancestors.  The votes are collected in `Tallies`, one `Tally` per block height, each holding the
weight per block and the heaviest block (the greater hash among equals).  `find_decided` walks
down from the greatest height, moving the votes to the parents level by level, until a block
holds more than half of all the weight: that block, or its heaviest child, is an ancestor of the
fork choice.  `fork_choice` then drops the votes that are not below it and repeats until no
votes are left.

The blocks of the state are a `BlockTree`: a height and, above height 0, a parent.
`find_ancestor_proposal` jumps along each block's skip list; the model steps from parent to
parent, which reaches the same ancestor.  A weight is a `u64` whose sums the state keeps below
`2^64`; it is a `Nat` here.  The `loop` of `fork_choice` has no bound: the model runs it for a
given number of rounds and returns `none` when it has not returned by then.

A validator may have weight zero.  When every vote left has weight zero no block ever holds more
than half of the weight, so `find_decided` falls through to height 0, where its block is below
every vote, and dropping the votes that are not above it changes nothing: the loop never ends
(`forkChoice_zero_weight_diverges`).
-/

namespace CasperNode

/-- The blocks of a `State`, as the fork choice reads them. -/
structure BlockTree (H : Type) where
  height : H → Nat
  /-- `Block::parent`, which a block has above height 0. -/
  parent : H → H
  height_parent : ∀ b, 0 < height b → height (parent b) + 1 = height b

namespace BlockTree

variable {H : Type} (s : BlockTree H)

/-- The ancestor `k` generations up. -/
def ancestor : Nat → H → H
  | 0, b => b
  | k + 1, b => ancestor k (s.parent b)

/-- `State::find_ancestor_proposal`: the ancestor at `height`, if the block is not lower. -/
def findAncestorProposal (hash : H) (height : Nat) : Option H :=
  if s.height hash < height then none else some (s.ancestor (s.height hash - height) hash)

/-- The block at height 0 below `b`. -/
def root (b : H) : H := s.ancestor (s.height b) b

theorem root_parent {b : H} (h : 0 < s.height b) : s.root (s.parent b) = s.root b := by
  have hp := s.height_parent b h
  obtain ⟨n, hn⟩ : ∃ n, s.height b = n + 1 := ⟨s.height b - 1, by omega⟩
  rw [root, root, hn, ancestor, show s.height (s.parent b) = n by omega]

theorem root_of_height_eq_zero {b : H} (h : s.height b = 0) : s.root b = b := by
  rw [root, h, ancestor]

theorem findAncestorProposal_zero (b : H) : s.findAncestorProposal b 0 = some (s.root b) := by
  simp [findAncestorProposal, root]

end BlockTree

/-- A chain of blocks: block `n` at height `n`, its parent `n - 1`. -/
def chainTree : BlockTree Nat := ⟨fun b => b, fun b => b - 1, fun _ h => by omega⟩

variable {H : Type} [LinearOrder H]

/-- `(Weight, &Hash)` pairs ordered by weight, then by hash. -/
def voteLt (a b : Nat × H) : Prop := a.1 < b.1 ∨ (a.1 = b.1 ∧ a.2 < b.2)

instance (a b : Nat × H) : Decidable (voteLt a b) := by
  unfold voteLt
  infer_instance

/-- `Ord::max` of two `(Weight, &Hash)` pairs: the first if it is greater, else the second. -/
def voteMax (a b : Nat × H) : Nat × H := if voteLt b a then a else b

theorem voteMax_eq_or (a b : Nat × H) : voteMax a b = a ∨ voteMax a b = b := by
  unfold voteMax
  split
  · exact .inl rfl
  · exact .inr rfl

/-- `Tally`: the weight of the votes for each block at one height and the heaviest block.  It
is never empty. -/
structure Tally (H : Type) [LinearOrder H] where
  max : Nat × H
  votes : OrdMap H Nat
  nonempty : votes.entries ≠ []

namespace Tally

/-- `Tally::new`. -/
def new (bhash : H) (w : Nat) : Tally H :=
  ⟨(w, bhash), OrdMap.singleton bhash w, OrdMap.entries_insert_ne_nil _ _ _⟩

/-- `Tally::add`. -/
def add (t : Tally H) (bhash : H) (weight : Nat) : Tally H :=
  let w := (t.votes.find? bhash).getD 0 + weight
  ⟨voteMax (w, bhash) t.max, t.votes.insert bhash w, OrdMap.entries_insert_ne_nil _ _ _⟩

/-- `Extend for Tally`. -/
def extend (t : Tally H) (votes : List (H × Nat)) : Tally H :=
  votes.foldl (fun t e => t.add e.1 e.2) t

/-- `Tally::try_from_iter`. -/
def tryFromIter : List (H × Nat) → Option (Tally H)
  | [] => none
  | (bhash, w) :: rest => some ((new bhash w).extend rest)

theorem isSome_tryFromIter {votes : List (H × Nat)} (h : votes ≠ []) :
    (tryFromIter votes).isSome := by
  cases votes with
  | nil => exact absurd rfl h
  | cons e rest => simp [tryFromIter]

/-- `Tally::parents`: the same votes, each for the parent of its block.  The source unwraps
`try_from_iter`, which cannot fail on a tally. -/
def parents (s : BlockTree H) (t : Tally H) : Tally H :=
  (tryFromIter (t.votes.entries.map fun e => (s.parent e.1, e.2))).get
    (isSome_tryFromIter (by simpa using t.nonempty))

/-- `Tally::weight`. -/
def weight (t : Tally H) : Nat := (t.votes.entries.map Prod.snd).sum

/-- `Tally::max_w`. -/
def maxW (t : Tally H) : Nat := t.max.1

/-- `Tally::max_bhash`. -/
def maxBhash (t : Tally H) : H := t.max.2

/-- `Tally::filter_descendants`: the votes for blocks whose ancestor at `height` is `bhash`. -/
def filterDescendants (t : Tally H) (s : BlockTree H) (height : Nat) (bhash : H) :
    Option (Tally H) :=
  tryFromIter (t.votes.entries.filter fun e => s.findAncestorProposal e.1 height = some bhash)

end Tally

/-- `Tallies`: a tally per height. -/
abbrev Tallies (H : Type) [LinearOrder H] := OrdMap Nat (Tally H)

namespace Tallies

variable (s : BlockTree H)

/-- `Tallies::add`. -/
def add (T : Tallies H) (height : Nat) (bhash : H) (weight : Nat) : Tallies H :=
  match T.find? height with
  | some tally => T.insert height (tally.add bhash weight)
  | none => T.insert height (Tally.new bhash weight)

/-- `FromIterator for Tallies`. -/
def fromIter (votes : List (Nat × H × Nat)) : Tallies H :=
  votes.foldl (fun T e => T.add e.1 e.2.1 e.2.2) OrdMap.empty

/-- The loop of `find_decided` over the heights below `height + 1`, from the top: `prevTally`
holds the votes from above, moved down to `height + 1`. -/
def findDecidedLoop (T : Tallies H) (totalWeight : Nat) : Nat → Tally H → Nat × H
  | 0, prevTally => (0, prevTally.maxBhash)
  | height + 1, prevTally =>
    let hTally :=
      match T.find? height with
      | some tally => (prevTally.parents s).extend tally.votes.entries
      | none => prevTally.parents s
    if totalWeight / 2 < hTally.maxW then
      match prevTally.filterDescendants s height hTally.maxBhash with
      | some filtered => (height + 1, filtered.maxBhash)
      | none => (height, hTally.maxBhash)
    else findDecidedLoop T totalWeight height hTally

/-- `Tallies::find_decided`. -/
def findDecided (T : Tallies H) : Option (Nat × H) :=
  match T.entries.getLast? with
  | none => none
  | some (maxHeight, top) =>
    let totalWeight := (T.entries.map fun e => e.2.weight).sum
    some (findDecidedLoop s T totalWeight maxHeight top)

/-- `Tallies::filter_descendants`: the tallies above `height`, each without the votes for blocks
not above `bhash`. -/
def filterDescendants (T : Tallies H) (height : Nat) (bhash : H) : Tallies H :=
  OrdMap.ofList ((T.entries.reverse.takeWhile fun e => height < e.1).filterMap fun e =>
    (e.2.filterDescendants s height bhash).map fun t => (e.1, t))

/-- `Tallies::is_empty`. -/
def isEmpty (T : Tallies H) : Bool := T.entries.isEmpty

end Tallies

/-- The loop of `State::fork_choice`, for at most `fuel` rounds: `none` if it has not returned
by then. -/
def forkChoiceLoop (s : BlockTree H) : Nat → Tallies H → Option (Option H)
  | 0, _ => none
  | fuel + 1, T =>
    match T.findDecided s with
    | none => some none
    | some (height, bhash) =>
      let T := T.filterDescendants s height bhash
      if T.isEmpty then some (some bhash) else forkChoiceLoop s fuel T

/-- What `fork_choice` reads of a `State`: the blocks, the block of each unit and the weight of
each validator. -/
structure ForkChoiceState (H : Type) where
  blocks : BlockTree H
  /-- `State::unit(hash).block`. -/
  unitBlock : H → H
  weights : List Nat

namespace ForkChoiceState

/-- The votes of a panorama's correct entries: the height of the block, the block, the weight. -/
def votes (st : ForkChoiceState H) (pan : List (Observation H)) : List (Nat × H × Nat) :=
  (pan.zip st.weights).filterMap fun e =>
    e.1.correct?.map fun u => (st.blocks.height (st.unitBlock u), st.unitBlock u, e.2)

/-- `State::fork_choice`, its loop run for at most `fuel` rounds. -/
def forkChoice (st : ForkChoiceState H) (fuel : Nat) (pan : List (Observation H)) :
    Option (Option H) :=
  forkChoiceLoop st.blocks fuel (Tallies.fromIter (st.votes pan))

end ForkChoiceState

example : (⟨chainTree, fun u => u, [10, 0]⟩ : ForkChoiceState Nat).forkChoice 3
    [.correct 2, .correct 1] = some (some 2) := by
  decide


/-! ## Votes of weight zero -/

section ZeroWeight

variable (s : BlockTree H) (b0 : H)

/-- A block at `height` whose block at height 0 is `b0`. -/
def BlockTree.Above (height : Nat) (b : H) : Prop := s.height b = height ∧ s.root b = b0

/-- Every vote of the tally has weight zero and is for a block at `height` above `b0`; so is
the heaviest block. -/
structure Tally.ZeroAt (t : Tally H) (height : Nat) : Prop where
  votes : ∀ e ∈ t.votes.entries, e.2 = 0 ∧ s.Above b0 height e.1
  maxW : t.max.1 = 0
  maxBhash : s.Above b0 height t.max.2

/-- Votes of weight zero for blocks at `height` above `b0`. -/
def ZeroVotes (height : Nat) (votes : List (H × Nat)) : Prop :=
  ∀ e ∈ votes, e.2 = 0 ∧ s.Above b0 height e.1

/-- Every tally is `ZeroAt` its own height. -/
def ZeroTallies (T : Tallies H) : Prop := ∀ e ∈ T.entries, e.2.ZeroAt s b0 e.1

/-- The tallies the loop of `fork_choice` cannot leave: weight zero, above `b0`, one of them
above height 0. -/
def Stuck (T : Tallies H) : Prop := ZeroTallies s b0 T ∧ ∃ e ∈ T.entries, 0 < e.1

variable {s b0}

theorem Tally.ZeroAt.new {height : Nat} {b : H} (hb : s.Above b0 height b) :
    (Tally.new b 0).ZeroAt s b0 height where
  votes e he := by
    have he : e = (b, 0) := by simpa [Tally.new, OrdMap.singleton, OrdMap.insert, OrdMap.empty,
      OrdMap.insertEntry] using he
    subst he
    exact ⟨rfl, hb⟩
  maxW := rfl
  maxBhash := hb

theorem Tally.ZeroAt.add {t : Tally H} {height : Nat} {b : H} (ht : t.ZeroAt s b0 height)
    (hb : s.Above b0 height b) : (t.add b 0).ZeroAt s b0 height := by
  have hw : (t.votes.find? b).getD 0 + 0 = 0 := by
    cases hfind : t.votes.find? b with
    | none => rfl
    | some w => exact (ht.votes _ (OrdMap.mem_of_find?_eq_some hfind)).1
  refine ⟨fun e he => ?_, ?_, ?_⟩
  · rcases OrdMap.mem_insertEntry he with rfl | he
    · exact ⟨hw, hb⟩
    · exact ht.votes e he
  · rcases voteMax_eq_or ((t.votes.find? b).getD 0 + 0, b) t.max with h | h
    · simp only [Tally.add, h]
      exact hw
    · simp only [Tally.add, h]
      exact ht.maxW
  · rcases voteMax_eq_or ((t.votes.find? b).getD 0 + 0, b) t.max with h | h
    · simp only [Tally.add, h]
      exact hb
    · simp only [Tally.add, h]
      exact ht.maxBhash

theorem Tally.ZeroAt.extend {t : Tally H} {height : Nat} {votes : List (H × Nat)}
    (ht : t.ZeroAt s b0 height) (hv : ZeroVotes s b0 height votes) :
    (t.extend votes).ZeroAt s b0 height := by
  induction votes generalizing t with
  | nil => exact ht
  | cons e rest ih =>
    obtain ⟨hw, hb⟩ := hv e List.mem_cons_self
    have hadd : (t.add e.1 e.2).ZeroAt s b0 height := hw ▸ ht.add hb
    exact ih hadd (fun e' he' => hv e' (List.mem_cons_of_mem _ he'))

theorem Tally.ZeroAt.tryFromIter {t : Tally H} {height : Nat} {votes : List (H × Nat)}
    (hv : ZeroVotes s b0 height votes) (h : Tally.tryFromIter votes = some t) :
    t.ZeroAt s b0 height := by
  cases votes with
  | nil => simp [Tally.tryFromIter] at h
  | cons e rest =>
    obtain ⟨hw, hb⟩ := hv e List.mem_cons_self
    simp only [Tally.tryFromIter, Option.some.injEq] at h
    subst h
    rw [hw]
    exact (Tally.ZeroAt.new hb).extend (fun e' he' => hv e' (List.mem_cons_of_mem _ he'))

theorem Tally.ZeroAt.parents {t : Tally H} {height : Nat} (ht : t.ZeroAt s b0 (height + 1)) :
    (t.parents s).ZeroAt s b0 height := by
  apply Tally.ZeroAt.tryFromIter _ (Option.some_get _).symm
  intro e he
  obtain ⟨e', he', rfl⟩ := List.mem_map.mp he
  obtain ⟨hw, hheight, hroot⟩ := ht.votes e' he'
  have hp := s.height_parent e'.1 (by omega)
  refine ⟨hw, show s.height (s.parent e'.1) = height by omega, ?_⟩
  show s.root (s.parent e'.1) = b0
  rw [s.root_parent (by omega), hroot]

/-- Filtering a tally by its block at height 0 keeps every vote. -/
theorem Tally.ZeroAt.filterDescendants_root {t : Tally H} {height : Nat}
    (ht : t.ZeroAt s b0 height) :
    ∃ t', t.filterDescendants s 0 b0 = some t' ∧ t'.ZeroAt s b0 height := by
  have hall : t.votes.entries.filter (fun e => s.findAncestorProposal e.1 0 = some b0) =
      t.votes.entries := by
    apply List.filter_eq_self.mpr
    intro e he
    simp [BlockTree.findAncestorProposal_zero, (ht.votes e he).2.2]
  have hsome := Tally.isSome_tryFromIter t.nonempty
  obtain ⟨t', ht'⟩ := Option.isSome_iff_exists.mp hsome
  refine ⟨t', by rw [Tally.filterDescendants, hall, ht'], ?_⟩
  exact Tally.ZeroAt.tryFromIter ht.votes ht'

/-- With no weight anywhere no height holds a majority, and the loop ends at height 0 with the
block there. -/
theorem findDecidedLoop_zero {T : Tallies H} (hT : ZeroTallies s b0 T) (totalWeight : Nat)
    (height : Nat) (prev : Tally H) (hprev : prev.ZeroAt s b0 height) :
    Tallies.findDecidedLoop s T totalWeight height prev = (0, b0) := by
  induction height generalizing prev with
  | zero =>
    obtain ⟨hheight, hroot⟩ := hprev.maxBhash
    rw [Tallies.findDecidedLoop, Tally.maxBhash, ← hroot, s.root_of_height_eq_zero hheight]
  | succ height ih =>
    have hparents := hprev.parents
    cases hfind : T.find? height with
    | none =>
      simp only [Tallies.findDecidedLoop, hfind, Tally.maxW, hparents.maxW, Nat.not_lt_zero,
        if_false]
      exact ih _ hparents
    | some tally =>
      have htally : tally.ZeroAt s b0 height := hT _ (OrdMap.mem_of_find?_eq_some hfind)
      have hext := hparents.extend htally.votes
      simp only [Tallies.findDecidedLoop, hfind, Tally.maxW, hext.maxW, Nat.not_lt_zero, if_false]
      exact ih _ hext

theorem findDecided_zero {T : Tallies H} (hT : ZeroTallies s b0 T) (hne : T.entries ≠ []) :
    T.findDecided s = some (0, b0) := by
  obtain ⟨top, htop⟩ : ∃ top, T.entries.getLast? = some top :=
    Option.isSome_iff_exists.mp (List.getLast?_isSome.mpr hne)
  have hmem := List.mem_of_getLast? htop
  rw [Tallies.findDecided, htop]
  exact congrArg some (findDecidedLoop_zero hT _ _ _ (hT _ hmem))

/-- In a list sorted so that `p` holds of an entry whenever it holds of a later one, every
entry satisfying `p` is in the prefix `takeWhile p` keeps. -/
theorem mem_takeWhile_of_pairwise {α : Type} {R : α → α → Prop} {p : α → Bool} {l : List α}
    (hl : l.Pairwise R) (hp : ∀ a b, R a b → p b → p a) {e : α} (he : e ∈ l) (hpe : p e) :
    e ∈ l.takeWhile p := by
  induction l with
  | nil => simp at he
  | cons x rest ih =>
    rw [List.pairwise_cons] at hl
    rcases List.mem_cons.mp he with rfl | he
    · simp [hpe]
    · have hpx : p x := hp x e (hl.1 e he) hpe
      simp only [List.takeWhile_cons, hpx]
      exact List.mem_cons_of_mem _ (ih hl.2 he)

/-- Dropping the votes not above `b0` at height 0 keeps the tallies above height 0, each
whole. -/
theorem filterDescendants_zero {T : Tallies H} (hT : ZeroTallies s b0 T) :
    ZeroTallies s b0 (T.filterDescendants s 0 b0) ∧
      ∀ e ∈ T.entries, 0 < e.1 → ∃ t, (e.1, t) ∈ (T.filterDescendants s 0 b0).entries := by
  constructor
  · intro e he
    obtain ⟨e', he', hfe⟩ := List.mem_filterMap.mp (OrdMap.mem_ofList he)
    have hmem : e' ∈ T.entries := List.mem_reverse.mp ((List.takeWhile_sublist _).subset he')
    obtain ⟨t', ht', hzero⟩ := (hT e' hmem).filterDescendants_root
    rw [ht', Option.map_some, Option.some.injEq] at hfe
    exact hfe ▸ hzero
  · intro e he hpos
    have hsorted : T.entries.reverse.Pairwise fun a b => b.1 < a.1 :=
      List.pairwise_reverse.mpr T.sorted
    have htake := mem_takeWhile_of_pairwise (p := fun e => decide (0 < e.1)) hsorted
      (fun a b hab hb => by
        simp only [decide_eq_true_eq] at hb ⊢
        omega) (List.mem_reverse.mpr he) (by simpa using hpos)
    obtain ⟨t', ht', -⟩ := (hT e he).filterDescendants_root
    have hin : (e.1, t') ∈ (T.entries.reverse.takeWhile fun e => 0 < e.1).filterMap
        (fun e => (e.2.filterDescendants s 0 b0).map fun t => (e.1, t)) :=
      List.mem_filterMap.mpr ⟨e, htake, by rw [ht', Option.map_some]⟩
    exact OrdMap.key_mem_ofList (e := (e.1, t')) hin

/-- One round from stuck tallies: `find_decided` answers height 0 and `b0`, and the tallies
left are stuck again. -/
theorem Stuck.step {T : Tallies H} (hT : Stuck s b0 T) :
    T.findDecided s = some (0, b0) ∧ Stuck s b0 (T.filterDescendants s 0 b0) := by
  obtain ⟨hzero, e, he, hpos⟩ := hT
  obtain ⟨hzero', hkeys⟩ := filterDescendants_zero hzero
  obtain ⟨t, ht⟩ := hkeys e he hpos
  exact ⟨findDecided_zero hzero (List.ne_nil_of_mem he), hzero', ⟨(e.1, t), ht, hpos⟩⟩

theorem Stuck.isEmpty {T : Tallies H} (hT : Stuck s b0 T) : T.isEmpty = false := by
  obtain ⟨-, e, he, -⟩ := hT
  simpa [Tallies.isEmpty] using List.ne_nil_of_mem he

/-- From stuck tallies the loop never returns, however many rounds it runs. -/
theorem forkChoiceLoop_stuck {T : Tallies H} (hT : Stuck s b0 T) (fuel : Nat) :
    forkChoiceLoop s fuel T = none := by
  induction fuel generalizing T with
  | zero => rfl
  | succ fuel ih =>
    obtain ⟨hdecided, hnext⟩ := hT.step
    simp only [forkChoiceLoop, hdecided, hnext.isEmpty, Bool.false_eq_true, if_false]
    exact ih hnext

theorem ZeroTallies.add {T : Tallies H} (hT : ZeroTallies s b0 T) {height : Nat} {b : H}
    (hb : s.Above b0 height b) : ZeroTallies s b0 (T.add height b 0) := by
  intro e he
  unfold Tallies.add at he
  cases hfind : T.find? height with
  | none =>
    rw [hfind] at he
    rcases OrdMap.mem_insertEntry he with rfl | he
    · exact Tally.ZeroAt.new hb
    · exact hT e he
  | some tally =>
    rw [hfind] at he
    rcases OrdMap.mem_insertEntry he with rfl | he
    · exact (hT _ (OrdMap.mem_of_find?_eq_some hfind)).add hb
    · exact hT e he

theorem key_mem_add (T : Tallies H) (height : Nat) (b : H) (w : Nat) {e : Nat × Tally H}
    (he : e ∈ T.entries ∨ e.1 = height) : ∃ t, (e.1, t) ∈ (T.add height b w).entries := by
  unfold Tallies.add
  cases T.find? height with
  | none =>
    rcases he with he | he
    · exact OrdMap.key_mem_insertEntry _ _ he
    · rw [he]
      exact ⟨_, OrdMap.mem_insertEntry_self _ _ _⟩
  | some tally =>
    rcases he with he | he
    · exact OrdMap.key_mem_insertEntry _ _ he
    · rw [he]
      exact ⟨_, OrdMap.mem_insertEntry_self _ _ _⟩

/-- Tallies built from votes of weight zero above `b0`, one of them above height 0, are stuck. -/
theorem stuck_fromIter {votes : List (Nat × H × Nat)}
    (hvotes : ∀ v ∈ votes, v.2.2 = 0 ∧ s.Above b0 v.1 v.2.1) (hpos : ∃ v ∈ votes, 0 < v.1) :
    Stuck s b0 (Tallies.fromIter votes) := by
  suffices h : ∀ T : Tallies H, ZeroTallies s b0 T →
      ZeroTallies s b0 (votes.foldl (fun T e => T.add e.1 e.2.1 e.2.2) T) ∧
        ∀ e, (e ∈ T.entries ∨ ∃ v ∈ votes, v.1 = e.1) →
          ∃ t, (e.1, t) ∈ (votes.foldl (fun T e => T.add e.1 e.2.1 e.2.2) T).entries by
    obtain ⟨hzero, hkeys⟩ := h OrdMap.empty (fun e he => by simp [OrdMap.empty] at he)
    obtain ⟨v, hv, hvpos⟩ := hpos
    obtain ⟨t, ht⟩ := hkeys (v.1, (Tally.new v.2.1 0 : Tally H)) (.inr ⟨v, hv, rfl⟩)
    exact ⟨hzero, ⟨(v.1, t), ht, hvpos⟩⟩
  clear hpos
  induction votes with
  | nil =>
    intro T hT
    refine ⟨hT, fun e he => ?_⟩
    rcases he with he | ⟨v, hv, -⟩
    · exact ⟨e.2, he⟩
    · simp at hv
  | cons v rest ih =>
    intro T hT
    obtain ⟨hw, hb⟩ := hvotes v List.mem_cons_self
    have hadd : ZeroTallies s b0 (T.add v.1 v.2.1 v.2.2) := hw ▸ hT.add hb
    obtain ⟨hzero, hkeys⟩ := ih (fun v' hv' => hvotes v' (List.mem_cons_of_mem _ hv')) _ hadd
    refine ⟨hzero, fun e he => ?_⟩
    rcases he with he | ⟨v', hv', hkey⟩
    · obtain ⟨t, ht⟩ := key_mem_add T v.1 v.2.1 v.2.2 (.inl he)
      exact hkeys (e.1, t) (.inl ht)
    · rcases List.mem_cons.mp hv' with rfl | hv'
      · obtain ⟨t, ht⟩ := key_mem_add T v'.1 v'.2.1 v'.2.2 (e := e) (.inr hkey.symm)
        exact hkeys (e.1, t) (.inl ht)
      · exact hkeys e (.inr ⟨v', hv', hkey⟩)

/-- If every correct entry of the panorama has weight zero and votes for a block above `b0`,
one of them above height 0, `fork_choice` never returns. -/
theorem forkChoice_zero_weight_diverges (st : ForkChoiceState H) (pan : List (Observation H))
    (b0 : H) (hweight : ∀ u w, (Observation.correct u, w) ∈ pan.zip st.weights → w = 0)
    (hroot : ∀ u w, (Observation.correct u, w) ∈ pan.zip st.weights →
      st.blocks.root (st.unitBlock u) = b0)
    (hdeep : ∃ u w, (Observation.correct u, w) ∈ pan.zip st.weights ∧
      0 < st.blocks.height (st.unitBlock u))
    (fuel : Nat) : st.forkChoice fuel pan = none := by
  have hvotes : ∀ v ∈ st.votes pan, v.2.2 = 0 ∧ st.blocks.Above b0 v.1 v.2.1 := by
    intro v hv
    obtain ⟨⟨obs, w⟩, hmem, hv⟩ := List.mem_filterMap.mp hv
    cases obs with
    | correct u =>
      simp only [Observation.correct?, Option.map_some, Option.some.injEq] at hv
      subst hv
      exact ⟨hweight u w hmem, rfl, hroot u w hmem⟩
    | none => simp [Observation.correct?] at hv
    | faulty => simp [Observation.correct?] at hv
  have hpos : ∃ v ∈ st.votes pan, 0 < v.1 := by
    obtain ⟨u, w, hmem, hheight⟩ := hdeep
    exact ⟨_, List.mem_filterMap.mpr ⟨(.correct u, w), hmem, rfl⟩, hheight⟩
  exact forkChoiceLoop_stuck (stuck_fromIter hvotes hpos) fuel

theorem forkChoice_zero_weight_diverges_chain :
    (∀ u w, (Observation.correct u, w) ∈ [.faulty, .correct 2].zip [10, 0] → w = 0) ∧
    (∀ u w, (Observation.correct u, w) ∈ [.faulty, .correct 2].zip [10, 0] →
      chainTree.root u = 0) ∧
    (∃ u w, (Observation.correct u, w) ∈ [.faulty, .correct 2].zip [10, 0] ∧
      0 < chainTree.height u) ∧
    ∀ fuel, (⟨chainTree, fun u => u, [10, 0]⟩ : ForkChoiceState Nat).forkChoice fuel
      [.faulty, .correct 2] = none := by
  have hweight : ∀ u w, (Observation.correct u, w) ∈ [.faulty, .correct 2].zip [10, 0] → w = 0 := by
    intro u w h
    simp at h
    exact h.2
  have hroot : ∀ u w, (Observation.correct u, w) ∈ [.faulty, .correct 2].zip [10, 0] →
      chainTree.root u = 0 := by
    intro u w h
    simp at h
    rw [h.1]
    rfl
  have hdeep : ∃ u w, (Observation.correct u, w) ∈ [.faulty, .correct 2].zip [10, 0] ∧
      0 < chainTree.height u := ⟨2, 0, by simp, by decide⟩
  exact ⟨hweight, hroot, hdeep, fun fuel =>
    forkChoice_zero_weight_diverges ⟨chainTree, fun u => u, [10, 0]⟩ _ 0 hweight hroot hdeep fuel⟩

end ZeroWeight

end CasperNode
