import Mathlib

/-!
# Disjoint sequences of block heights

`DisjointSequences` is how storage records which block heights it holds completely: a list of
inclusive ranges `[low, high]`, highest first, with a gap of at least one between neighbours
(`Canonical`).  `insert` walks the ranges from high to low asking each where the value falls
(`Sequence.tryInsert`), records where a new range should go or which range a merge removes, and
applies both after the loop.  `truncate` drops what lies above a maximum.

The loop with its indices computes the recursive insertion `insertAt`
(`insertThenRemove_insertLoop`).  On canonical ranges `insertAt` keeps them canonical and adds
exactly the value (`Canonical.insertAt`, `coverSet_insertAt`), and `truncate` intersects with
`[0, max]` (`Canonical.truncate`, `coverSet_truncate`).  So every value built from `default` or
from one range by inserts and truncations represents the set those operations build, and its
highest range is the maximal run through its maximum (`run_represents`).

`From<Vec<u64>>` sorts its input and batches it into ranges, but its inner loop only advances
when the next value extends the range: on a duplicate or a gap it peeks at the same value
forever.  With fuel, it returns nothing for any fuel on such an input (`fromVec_diverges`), and
one range for the permutations of a run of consecutive values (`fromVec_of_perm_range'`).

Heights are `u64`, natural numbers here, and each `+ 1` of the source wraps at `u64::MAX` in a
release build (`wrappingSucc`).  Inserting `0` into the sequence of `u64::MAX` alone extends it
at the high end, to a high end of `0` over a low end of `u64::MAX`; the results on insertion
hold for heights below `u64::MAX`, which a chain does not reach.
-/

namespace CasperNode

/-! ## The model -/

/-- `x + 1` on a `u64`, which wraps to `0` at `u64::MAX` in a release build. -/
def wrappingSucc (x : ℕ) : ℕ := (x + 1) % 2 ^ 64

/-- `InsertOutcome`. -/
inductive InsertOutcome where
  | tooHigh
  | extendedHigh
  | alreadyInSequence
  | extendedLow
  | tooLow
deriving DecidableEq, Repr

/-- `Sequence`: the inclusive range `[low, high]`. -/
structure Sequence where
  high : ℕ
  low : ℕ
deriving DecidableEq, Repr

namespace Sequence

/-- `Sequence::new`. -/
def new (a b : ℕ) : Sequence := if a ≤ b then ⟨b, a⟩ else ⟨a, b⟩

/-- `Sequence::single`. -/
def single (value : ℕ) : Sequence := ⟨value, value⟩

/-- `Sequence::try_insert`: the sequence after the attempt, and where the value fell. -/
def tryInsert (sequence : Sequence) (value : ℕ) : Sequence × InsertOutcome :=
  if value = wrappingSucc sequence.high then ({ sequence with high := value }, .extendedHigh)
  else if value ≥ sequence.low ∧ value ≤ sequence.high then (sequence, .alreadyInSequence)
  else if wrappingSucc value = sequence.low then ({ sequence with low := value }, .extendedLow)
  else if value > sequence.high then (sequence, .tooHigh)
  else (sequence, .tooLow)

end Sequence

/-- `DisjointSequences`. -/
structure DisjointSequences where
  sequences : List Sequence
deriving DecidableEq, Repr

namespace DisjointSequences

/-- `Default::default`. -/
instance : Inhabited DisjointSequences := ⟨⟨[]⟩⟩

/-- `DisjointSequences::new`. -/
def new (initialSequence : Sequence) : DisjointSequences := ⟨[initialSequence]⟩

/-- The loop of `DisjointSequences::insert` from the sequence at `index` on: the sequences as the
loop leaves them, `maybe_insertion_index` and `maybe_removal_index`. -/
def insertLoop (value : ℕ) (maybeInsertionIndex : Option ℕ) (index : ℕ) :
    List Sequence → List Sequence × Option ℕ × Option ℕ
  | [] => ([], maybeInsertionIndex, none)
  | sequence :: rest =>
    match sequence.tryInsert value with
    | (sequence, .extendedHigh) | (sequence, .alreadyInSequence) => (sequence :: rest, none, none)
    | (sequence, .tooHigh) => (sequence :: rest, some index, none)
    | (sequence, .tooLow) =>
      let r := insertLoop value (some (index + 1)) (index + 1) rest
      (sequence :: r.1, r.2)
    | (sequence, .extendedLow) =>
      -- merge with the next sequence if the value closed the gap to it
      match rest with
      | nextSequence :: rest' =>
        if wrappingSucc nextSequence.high = sequence.low then
          ({ sequence with low := nextSequence.low } :: nextSequence :: rest', none,
            some (index + 1))
        else (sequence :: rest, none, none)
      | [] => (sequence :: rest, none, none)

/-- The end of `DisjointSequences::insert`: a new single sequence at the insertion index, then
the removal of a merged sequence. -/
def insertThenRemove (value : ℕ) (sequences : List Sequence) (maybeInsertionIndex : Option ℕ)
    (maybeRemovalIndex : Option ℕ) : List Sequence :=
  let sequences :=
    match maybeInsertionIndex with
    | some indexToInsert => sequences.insertIdx indexToInsert (Sequence.single value)
    | none => sequences
  match maybeRemovalIndex with
  | some indexToRemove => sequences.eraseIdx indexToRemove
  | none => sequences

/-- `DisjointSequences::insert`. -/
def insert (disjointSequences : DisjointSequences) (value : ℕ) : DisjointSequences :=
  let r := insertLoop value (some 0) 0 disjointSequences.sequences
  ⟨insertThenRemove value r.1 r.2.1 r.2.2⟩

/-- `DisjointSequences::highest_sequence`. -/
def highestSequence (disjointSequences : DisjointSequences) : Option Sequence :=
  disjointSequences.sequences.head?

/-- The closure `DisjointSequences::truncate` passes to `retain_mut`: a sequence at or below
`maxValue` is kept, one above it dropped, and one containing it cut at `maxValue`. -/
def truncateSequence (maxValue : ℕ) (sequence : Sequence) : Option Sequence :=
  if sequence.high ≤ maxValue then some sequence
  else if sequence.low > maxValue then none
  else some { sequence with high := maxValue }

/-- `DisjointSequences::truncate`. -/
def truncate (disjointSequences : DisjointSequences) (maxValue : ℕ) : DisjointSequences :=
  ⟨disjointSequences.sequences.filterMap (truncateSequence maxValue)⟩

/-- The `while let` loop of the batching closure of `From<Vec<u64>>`, for at most `fuel` rounds:
it takes the next value only when it is `high + 1`, and otherwise peeks at it again. -/
def extendHigh : ℕ → Sequence → List ℕ → Option (Sequence × List ℕ)
  | 0, _, _ => none
  | _ + 1, sequence, [] => some (sequence, [])
  | fuel + 1, sequence, i :: rest =>
    if i = wrappingSucc sequence.high then extendHigh fuel { sequence with high := i } rest
    else extendHigh fuel sequence (i :: rest)

/-- `Itertools::batching` with the closure of `From<Vec<u64>>`, for at most `fuel` batches. -/
def batching : ℕ → List ℕ → Option (List Sequence)
  | 0, _ => none
  | _ + 1, [] => some []
  | fuel + 1, low :: rest =>
    match extendHigh fuel (Sequence.single low) rest with
    | some (sequence, rest) => (batching fuel rest).map (sequence :: ·)
    | none => none

/-- `From<Vec<u64>>::from`, with fuel; `sort_unstable` sorts like any other sort here. -/
def fromVec (fuel : ℕ) (input : List ℕ) : Option DisjointSequences :=
  (batching fuel (input.insertionSort (· ≤ ·))).map DisjointSequences.mk

/-! ## What the sequences cover -/

/-- What an outcome of `try_insert` says of the value, and the sequence it leaves. -/
def InsertOutcome.Holds (sequence : Sequence) (value : ℕ) : Sequence × InsertOutcome → Prop
  | (sequence', .extendedHigh) => value = sequence.high + 1 ∧ sequence' = { sequence with high := value }
  | (sequence', .alreadyInSequence) =>
    sequence.low ≤ value ∧ value ≤ sequence.high ∧ sequence' = sequence
  | (sequence', .extendedLow) => value + 1 = sequence.low ∧ sequence' = { sequence with low := value }
  | (sequence', .tooHigh) => sequence.high + 1 < value ∧ sequence' = sequence
  | (sequence', .tooLow) => value + 1 < sequence.low ∧ sequence' = sequence

theorem wrappingSucc_of_lt {x : ℕ} (h : x < 2 ^ 64 - 1) : wrappingSucc x = x + 1 :=
  Nat.mod_eq_of_lt (by omega)

/-- Below `u64::MAX` neither `+ 1` of `try_insert` wraps. -/
theorem tryInsert_holds (sequence : Sequence) (value : ℕ) (hhigh : sequence.high < 2 ^ 64 - 1)
    (hvalue : value < 2 ^ 64 - 1) :
    InsertOutcome.Holds sequence value (sequence.tryInsert value) := by
  unfold Sequence.tryInsert
  rw [wrappingSucc_of_lt hhigh, wrappingSucc_of_lt hvalue]
  split_ifs with hHigh hIn hLow hAbove
  · exact ⟨hHigh, rfl⟩
  · exact ⟨hIn.1, hIn.2, rfl⟩
  · exact ⟨hLow, rfl⟩
  · exact ⟨by omega, rfl⟩
  · exact ⟨by omega, rfl⟩

/-- The values the sequences cover. -/
def coverSet : List Sequence → Set ℕ
  | [] => ∅
  | sequence :: rest => Set.Icc sequence.low sequence.high ∪ coverSet rest

@[simp] theorem not_mem_coverSet_nil (x : ℕ) : x ∉ coverSet [] := id

@[simp] theorem mem_coverSet_cons {x : ℕ} {sequence : Sequence} {rest : List Sequence} :
    x ∈ coverSet (sequence :: rest) ↔
      (sequence.low ≤ x ∧ x ≤ sequence.high) ∨ x ∈ coverSet rest := Iff.rfl

theorem mem_coverSet_iff {x : ℕ} {sequences : List Sequence} :
    x ∈ coverSet sequences ↔ ∃ sequence ∈ sequences, sequence.low ≤ x ∧ x ≤ sequence.high := by
  induction sequences with
  | nil => simp
  | cons sequence rest ih => simp [ih]

/-- The invariant of the source: each sequence has `low ≤ high`, and each lies above every later
one with a gap of at least one. -/
structure Canonical (sequences : List Sequence) : Prop where
  low_le_high : ∀ sequence ∈ sequences, sequence.low ≤ sequence.high
  above : sequences.Pairwise fun a b => b.high + 1 < a.low

theorem Canonical.nil : Canonical [] := ⟨by simp, List.Pairwise.nil⟩

/-- Every sequence ends below `u64::MAX`, so that `high + 1` does not wrap. -/
def BelowMax (sequences : List Sequence) : Prop :=
  ∀ sequence ∈ sequences, sequence.high < 2 ^ 64 - 1

theorem BelowMax.tail {sequence : Sequence} {rest : List Sequence}
    (h : BelowMax (sequence :: rest)) : BelowMax rest :=
  fun b hb => h b (List.mem_cons_of_mem _ hb)

theorem canonical_cons {sequence : Sequence} {rest : List Sequence} :
    Canonical (sequence :: rest) ↔
      sequence.low ≤ sequence.high ∧ (∀ b ∈ rest, b.high + 1 < sequence.low) ∧ Canonical rest := by
  constructor
  · rintro ⟨hle, habove⟩
    obtain ⟨hhead, hrest⟩ := List.pairwise_cons.mp habove
    exact ⟨hle _ List.mem_cons_self, hhead,
      ⟨fun b hb => hle b (List.mem_cons_of_mem _ hb), hrest⟩⟩
  · rintro ⟨hle, hhead, hrest⟩
    refine ⟨?_, List.pairwise_cons.mpr ⟨hhead, hrest.above⟩⟩
    intro b hb
    rcases List.mem_cons.mp hb with rfl | hb
    · exact hle
    · exact hrest.low_le_high b hb

/-! ## Insertion -/

/-- Insertion into sequences given highest first, as a recursion: what the loop of `insert` and
the index bookkeeping after it compute. -/
def insertAt (value : ℕ) : List Sequence → List Sequence
  | [] => [Sequence.single value]
  | sequence :: rest =>
    match sequence.tryInsert value with
    | (sequence, .extendedHigh) | (sequence, .alreadyInSequence) => sequence :: rest
    | (sequence, .tooHigh) => Sequence.single value :: sequence :: rest
    | (sequence, .tooLow) => sequence :: insertAt value rest
    | (sequence, .extendedLow) =>
      match rest with
      | nextSequence :: rest' =>
        if wrappingSucc nextSequence.high = sequence.low then
          { sequence with low := nextSequence.low } :: rest'
        else sequence :: rest
      | [] => sequence :: rest

/-- Every high end after an insertion is the value or a high end before it. -/
theorem high_mem_insertAt {value : ℕ} (hvalue : value < 2 ^ 64 - 1) {sequences : List Sequence}
    (hb : BelowMax sequences) :
    ∀ t ∈ insertAt value sequences, t.high = value ∨ ∃ u ∈ sequences, t.high = u.high := by
  induction sequences with
  | nil => simp [insertAt, Sequence.single]
  | cons sequence rest ih =>
    have hholds := tryInsert_holds sequence value (hb sequence List.mem_cons_self) hvalue
    have hself : ∀ t ∈ sequence :: rest, ∃ u ∈ sequence :: rest, t.high = u.high :=
      fun t ht => ⟨t, ht, rfl⟩
    rcases htry : sequence.tryInsert value with ⟨sequence', _ | _ | _ | _ | _⟩ <;>
      rw [htry] at hholds <;> simp only [insertAt, htry]
    · -- tooHigh: a new single sequence in front
      obtain ⟨-, rfl⟩ := hholds
      intro t ht
      rcases List.mem_cons.mp ht with rfl | ht
      · exact Or.inl rfl
      · exact Or.inr (hself t ht)
    · -- extendedHigh
      obtain ⟨-, rfl⟩ := hholds
      intro t ht
      rcases List.mem_cons.mp ht with rfl | ht
      · exact Or.inl rfl
      · exact Or.inr (hself t (List.mem_cons_of_mem _ ht))
    · obtain ⟨-, -, rfl⟩ := hholds
      exact fun t ht => Or.inr (hself t ht)
    · -- extendedLow, merged with the next sequence or not
      obtain ⟨-, rfl⟩ := hholds
      cases rest with
      | nil => simp
      | cons nextSequence rest' =>
        dsimp only
        split_ifs
        · intro t ht
          rcases List.mem_cons.mp ht with rfl | ht
          · exact Or.inr ⟨sequence, List.mem_cons_self, rfl⟩
          · exact Or.inr (hself t (List.mem_cons_of_mem _ (List.mem_cons_of_mem _ ht)))
        · intro t ht
          rcases List.mem_cons.mp ht with rfl | ht
          · exact Or.inr ⟨sequence, List.mem_cons_self, rfl⟩
          · exact Or.inr (hself t (List.mem_cons_of_mem _ ht))
    · -- tooLow: the value goes further down
      obtain ⟨-, rfl⟩ := hholds
      intro t ht
      rcases List.mem_cons.mp ht with rfl | ht
      · exact Or.inr (hself _ List.mem_cons_self)
      · rcases ih hb.tail t ht with hv | ⟨u, hu, hut⟩
        · exact Or.inl hv
        · exact Or.inr ⟨u, List.mem_cons_of_mem _ hu, hut⟩

/-- Insertion of a value below `u64::MAX` keeps every sequence below it. -/
theorem BelowMax.insertAt {value : ℕ} (hvalue : value < 2 ^ 64 - 1) {sequences : List Sequence}
    (hb : BelowMax sequences) : BelowMax (insertAt value sequences) := by
  intro t ht
  rcases high_mem_insertAt hvalue hb t ht with hv | ⟨u, hu, hut⟩
  · omega
  · exact hut ▸ hb u hu

theorem Canonical.insertAt {sequences : List Sequence} (h : Canonical sequences) {value : ℕ}
    (hvalue : value < 2 ^ 64 - 1) (hb : BelowMax sequences) :
    Canonical (insertAt value sequences) := by
  induction sequences with
  | nil => exact canonical_cons.mpr ⟨le_refl _, by simp, Canonical.nil⟩
  | cons sequence rest ih =>
    obtain ⟨hle, habove, hrest⟩ := canonical_cons.mp h
    have hholds := tryInsert_holds sequence value (hb sequence List.mem_cons_self) hvalue
    rcases htry : sequence.tryInsert value with ⟨sequence', _ | _ | _ | _ | _⟩ <;>
      rw [htry] at hholds <;> simp only [DisjointSequences.insertAt, htry]
    · -- tooHigh: the single value lies above the whole list
      obtain ⟨hgt, rfl⟩ := hholds
      refine canonical_cons.mpr ⟨le_refl _, ?_, h⟩
      intro b hb
      rcases List.mem_cons.mp hb with rfl | hb
      · exact hgt
      · have := habove b hb
        simp only [Sequence.single]
        omega
    · obtain ⟨rfl, rfl⟩ := hholds
      exact canonical_cons.mpr ⟨by dsimp only; omega, habove, hrest⟩
    · obtain ⟨-, -, rfl⟩ := hholds
      exact h
    · -- extendedLow: with a merge the next sequence's low end is taken over
      obtain ⟨hlow, rfl⟩ := hholds
      cases rest with
      | nil => exact canonical_cons.mpr ⟨by dsimp only; omega, by simp, Canonical.nil⟩
      | cons nextSequence rest' =>
        obtain ⟨hnle, hnabove, hrest'⟩ := canonical_cons.mp hrest
        have hnext := habove nextSequence List.mem_cons_self
        dsimp only
        rw [wrappingSucc_of_lt (hb.tail nextSequence List.mem_cons_self)]
        split_ifs with hmerge
        · exact canonical_cons.mpr ⟨by dsimp only; omega, hnabove, hrest'⟩
        · refine canonical_cons.mpr ⟨by dsimp only; omega, ?_, hrest⟩
          intro b hb
          rcases List.mem_cons.mp hb with rfl | hb
          · dsimp only at hmerge ⊢
            omega
          · have := hnabove b hb
            dsimp only
            omega
    · -- tooLow: everything the recursion returns lies below this sequence
      obtain ⟨hlt, rfl⟩ := hholds
      refine canonical_cons.mpr ⟨hle, ?_, ih hrest hb.tail⟩
      intro t ht
      rcases high_mem_insertAt hvalue hb.tail t ht with hv | ⟨u, hu, hut⟩
      · omega
      · have := habove u hu
        omega

/-- On canonical sequences insertion adds exactly the value. -/
theorem mem_coverSet_insertAt {sequences : List Sequence} (h : Canonical sequences) {value : ℕ}
    (hvalue : value < 2 ^ 64 - 1) (hb : BelowMax sequences) (x : ℕ) :
    x ∈ coverSet (insertAt value sequences) ↔ x = value ∨ x ∈ coverSet sequences := by
  induction sequences with
  | nil =>
    simp only [insertAt, Sequence.single, mem_coverSet_cons, not_mem_coverSet_nil, or_false]
    omega
  | cons sequence rest ih =>
    obtain ⟨hle, habove, hrest⟩ := canonical_cons.mp h
    have hholds := tryInsert_holds sequence value (hb sequence List.mem_cons_self) hvalue
    rcases htry : sequence.tryInsert value with ⟨sequence', _ | _ | _ | _ | _⟩ <;>
      rw [htry] at hholds <;> simp only [insertAt, htry]
    · obtain ⟨-, rfl⟩ := hholds
      have hsingle : (value ≤ x ∧ x ≤ value) ↔ x = value := by omega
      simp only [mem_coverSet_cons, Sequence.single, hsingle]
    · obtain ⟨rfl, rfl⟩ := hholds
      have hext : (sequence.low ≤ x ∧ x ≤ sequence.high + 1) ↔
          x = sequence.high + 1 ∨ (sequence.low ≤ x ∧ x ≤ sequence.high) := by omega
      simp only [mem_coverSet_cons, hext, or_assoc]
    · obtain ⟨hlo, hhi, rfl⟩ := hholds
      rw [mem_coverSet_cons]
      constructor
      · exact Or.inr
      · rintro (rfl | hx)
        · exact Or.inl ⟨hlo, hhi⟩
        · exact hx
    · obtain ⟨hlow, rfl⟩ := hholds
      have hext : (value ≤ x ∧ x ≤ sequence.high) ↔
          x = value ∨ (sequence.low ≤ x ∧ x ≤ sequence.high) := by omega
      cases rest with
      | nil => simp only [mem_coverSet_cons, hext, or_assoc]
      | cons nextSequence rest' =>
        have hnle := hrest.low_le_high nextSequence List.mem_cons_self
        dsimp only
        rw [wrappingSucc_of_lt (hb.tail nextSequence List.mem_cons_self)]
        split_ifs with hmerge
        · -- the merged sequence covers the value and both sequences it joins
          have hmerged : (nextSequence.low ≤ x ∧ x ≤ sequence.high) ↔
              x = value ∨ (sequence.low ≤ x ∧ x ≤ sequence.high) ∨
                (nextSequence.low ≤ x ∧ x ≤ nextSequence.high) := by omega
          simp only [mem_coverSet_cons, hmerged, or_assoc]
        · simp only [mem_coverSet_cons, hext, or_assoc]
    · obtain ⟨-, rfl⟩ := hholds
      rw [mem_coverSet_cons, ih hrest hb.tail, mem_coverSet_cons, or_left_comm]

theorem insertIdx_length_append {α : Type} (pre l : List α) (x : α) :
    (pre ++ l).insertIdx pre.length x = pre ++ x :: l := by
  induction pre with
  | nil => exact List.insertIdx_zero
  | cons a pre ih => rw [List.cons_append, List.length_cons, List.insertIdx_succ_cons, ih]; rfl

/-- The loop of `insert` run after the sequences `pre`, and the insertion and removal at the
indices it returns, insert into the sequences it ran over. -/
theorem insertThenRemove_insertLoop (value : ℕ) (pre sequences : List Sequence) :
    insertThenRemove value (pre ++ (insertLoop value (some pre.length) pre.length sequences).1)
        (insertLoop value (some pre.length) pre.length sequences).2.1
        (insertLoop value (some pre.length) pre.length sequences).2.2 =
      pre ++ insertAt value sequences := by
  induction sequences generalizing pre with
  | nil => simp [insertLoop, insertThenRemove, insertAt]
  | cons sequence rest ih =>
    rcases htry : sequence.tryInsert value with ⟨sequence', _ | _ | _ | _ | _⟩ <;>
      simp only [insertLoop, insertAt, htry]
    · simp [insertThenRemove, insertIdx_length_append]
    · rfl
    · rfl
    · cases rest with
      | nil => rfl
      | cons nextSequence rest' =>
        dsimp only
        split_ifs
        · -- the merged-away sequence sits right after `pre` and the extended one
          simp [insertThenRemove, List.eraseIdx_append_of_length_le]
        · rfl
    · -- tooLow: the loop goes on with this sequence counted before the rest
      have hrest := ih (pre ++ [sequence'])
      simp only [List.length_append, List.length_singleton, List.append_assoc,
        List.singleton_append] at hrest
      exact hrest

theorem insert_sequences (disjointSequences : DisjointSequences) (value : ℕ) :
    (disjointSequences.insert value).sequences = insertAt value disjointSequences.sequences :=
  insertThenRemove_insertLoop value [] disjointSequences.sequences

example : (DisjointSequences.mk [⟨9, 9⟩, ⟨7, 3⟩]).insert 8 = ⟨[⟨9, 3⟩]⟩ := by decide

/-! ## Truncation -/

/-- What truncation keeps of a sequence is the sequence cut at the maximum. -/
theorem eq_of_truncateSequence_eq_some {maxValue : ℕ} {sequence t : Sequence}
    (h : truncateSequence maxValue sequence = some t) :
    t = { sequence with high := min sequence.high maxValue } := by
  unfold truncateSequence at h
  split_ifs at h with hhigh hlow
  · cases h
    rw [Nat.min_eq_left hhigh]
  · cases h
    rw [Nat.min_eq_right (by omega)]

/-- A sequence with `low ≤ high` is dropped exactly when it lies above the maximum. -/
theorem truncateSequence_eq {maxValue : ℕ} {sequence : Sequence}
    (hle : sequence.low ≤ sequence.high) :
    truncateSequence maxValue sequence =
      if maxValue < sequence.low then none
      else some { sequence with high := min sequence.high maxValue } := by
  unfold truncateSequence
  rcases le_or_gt sequence.high maxValue with hhigh | hhigh
  · rw [if_pos hhigh, if_neg (by omega), Nat.min_eq_left hhigh]
  · rw [if_neg (by omega)]
    rcases lt_or_ge maxValue sequence.low with hlow | hlow
    · rw [if_pos hlow, if_pos hlow]
    · rw [if_neg (by omega), if_neg (by omega), Nat.min_eq_right (by omega)]

theorem mem_coverSet_truncate {sequences : List Sequence}
    (hle : ∀ sequence ∈ sequences, sequence.low ≤ sequence.high) (maxValue x : ℕ) :
    x ∈ coverSet (sequences.filterMap (truncateSequence maxValue)) ↔
      x ∈ coverSet sequences ∧ x ≤ maxValue := by
  induction sequences with
  | nil => simp
  | cons sequence rest ih =>
    have ih := ih fun b hb => hle b (List.mem_cons_of_mem _ hb)
    rw [List.filterMap_cons, truncateSequence_eq (hle sequence List.mem_cons_self),
      mem_coverSet_cons, or_and_right]
    split_ifs with hlt
    · -- the sequence is dropped: none of it is at or below the maximum
      have hnone : ¬((sequence.low ≤ x ∧ x ≤ sequence.high) ∧ x ≤ maxValue) := by omega
      simp only [ih, hnone, false_or]
    · have hcut : (sequence.low ≤ x ∧ x ≤ min sequence.high maxValue) ↔
          (sequence.low ≤ x ∧ x ≤ sequence.high) ∧ x ≤ maxValue := by omega
      rw [mem_coverSet_cons, ih, hcut]

theorem Canonical.truncate {sequences : List Sequence} (h : Canonical sequences)
    (maxValue : ℕ) : Canonical (sequences.filterMap (truncateSequence maxValue)) := by
  refine ⟨?_, h.above.filterMap _ ?_⟩
  · intro t ht
    obtain ⟨sequence, hmem, hsome⟩ := List.mem_filterMap.mp ht
    have hle := h.low_le_high sequence hmem
    rw [truncateSequence_eq hle] at hsome
    split_ifs at hsome with hlt
    cases hsome
    dsimp only
    omega
  · intro a a' habove b hb b' hb'
    rw [eq_of_truncateSequence_eq_some hb, eq_of_truncateSequence_eq_some hb']
    dsimp only
    omega

/-! ## The set of heights -/

/-- `run` is the maximal run of consecutive values of `S` through the maximum of `S`. -/
def IsHighestRun (S : Set ℕ) (run : Sequence) : Prop :=
  run.high ∈ S ∧ (∀ x ∈ S, x ≤ run.high) ∧ Set.Icc run.low run.high ⊆ S ∧
    (run.low = 0 ∨ run.low - 1 ∉ S)

/-- What `highest_sequence` should return for the set `S`: nothing when `S` is empty, and
otherwise its highest run. -/
def HighestRun (S : Set ℕ) : Option Sequence → Prop
  | none => S = ∅
  | some run => IsHighestRun S run

theorem Canonical.isHighestRun {sequence : Sequence} {rest : List Sequence}
    (h : Canonical (sequence :: rest)) : IsHighestRun (coverSet (sequence :: rest)) sequence := by
  obtain ⟨hle, habove, -⟩ := canonical_cons.mp h
  have hbelow : ∀ x ∈ coverSet rest, x + 1 < sequence.low := by
    intro x hx
    obtain ⟨b, hb, -, hxb⟩ := mem_coverSet_iff.mp hx
    have := habove b hb
    omega
  refine ⟨Or.inl ⟨hle, le_refl _⟩, ?_, fun x hx => Or.inl hx, ?_⟩
  · rintro x (hx | hx)
    · exact hx.2
    · have := hbelow x hx
      omega
  · rcases Nat.eq_zero_or_pos sequence.low with hzero | hpos
    · exact Or.inl hzero
    · refine Or.inr ?_
      rintro (hx | hx)
      · exact absurd hx.1 (by omega)
      · have := hbelow _ hx
        omega

theorem Canonical.highestRun {sequences : List Sequence} (h : Canonical sequences) :
    HighestRun (coverSet sequences) sequences.head? := by
  cases sequences with
  | nil => rfl
  | cons sequence rest => exact h.isHighestRun

/-- `ds` keeps the invariant, covers exactly `S`, and its highest sequence is the highest run of
`S`. -/
structure Represents (disjointSequences : DisjointSequences) (S : Set ℕ) : Prop where
  canonical : Canonical disjointSequences.sequences
  coverSet_eq : coverSet disjointSequences.sequences = S
  highestRun : HighestRun S disjointSequences.highestSequence

theorem Represents.of_canonical {disjointSequences : DisjointSequences}
    (h : Canonical disjointSequences.sequences) :
    Represents disjointSequences (coverSet disjointSequences.sequences) :=
  ⟨h, rfl, h.highestRun⟩

/-- A call that changes the recorded heights. -/
inductive Op where
  | insert (value : ℕ)
  | truncate (maxValue : ℕ)

/-- The sequences after a call. -/
def step (disjointSequences : DisjointSequences) : Op → DisjointSequences
  | .insert value => disjointSequences.insert value
  | .truncate maxValue => disjointSequences.truncate maxValue

/-- The sequences after a list of calls. -/
def run (disjointSequences : DisjointSequences) (ops : List Op) : DisjointSequences :=
  ops.foldl step disjointSequences

/-- The set of heights after a call. -/
def Op.applySet (S : Set ℕ) : Op → Set ℕ
  | .insert value => Insert.insert value S
  | .truncate maxValue => S ∩ Set.Iic maxValue

/-- A call inserts a value below `u64::MAX`, or truncates. -/
def Op.BelowMax : Op → Prop
  | .insert value => value < 2 ^ 64 - 1
  | .truncate _ => True

/-- Truncation lowers high ends only. -/
theorem BelowMax.truncate {sequences : List Sequence} (hb : BelowMax sequences) (maxValue : ℕ) :
    BelowMax (sequences.filterMap (truncateSequence maxValue)) := by
  intro t ht
  obtain ⟨sequence, hmem, hsome⟩ := List.mem_filterMap.mp ht
  rw [eq_of_truncateSequence_eq_some hsome]
  have := hb sequence hmem
  dsimp only
  omega

/-- **One call**: on canonical sequences below `u64::MAX`, a call keeps them so and applies its
change to the set they cover. -/
theorem Canonical.step {disjointSequences : DisjointSequences}
    (h : Canonical disjointSequences.sequences) (hb : BelowMax disjointSequences.sequences)
    {op : Op} (hop : op.BelowMax) :
    Canonical (disjointSequences.step op).sequences ∧
      BelowMax (disjointSequences.step op).sequences ∧
      coverSet (disjointSequences.step op).sequences =
        op.applySet (coverSet disjointSequences.sequences) := by
  cases op with
  | insert value =>
    simp only [DisjointSequences.step, insert_sequences]
    exact ⟨h.insertAt hop hb, hb.insertAt hop,
      Set.ext fun x => mem_coverSet_insertAt h hop hb x⟩
  | truncate maxValue =>
    exact ⟨h.truncate maxValue, hb.truncate maxValue,
      Set.ext fun x => mem_coverSet_truncate h.low_le_high maxValue x⟩

/-- **A run of calls**, by induction on the calls from `Canonical.step`. -/
theorem Canonical.run {disjointSequences : DisjointSequences}
    (h : Canonical disjointSequences.sequences) (hb : BelowMax disjointSequences.sequences)
    {ops : List Op} (hops : ∀ op ∈ ops, op.BelowMax) :
    Represents (disjointSequences.run ops)
      (ops.foldl Op.applySet (coverSet disjointSequences.sequences)) := by
  induction ops generalizing disjointSequences with
  | nil => exact Represents.of_canonical h
  | cons op rest ih =>
    obtain ⟨hstep, hbstep, hset⟩ := h.step hb (hops op List.mem_cons_self)
    have hrest := ih hstep hbstep fun op' hop' => hops op' (List.mem_cons_of_mem _ hop')
    rw [hset] at hrest
    exact hrest

theorem canonical_new (a b : ℕ) : Canonical (new (Sequence.new a b)).sequences := by
  refine canonical_cons.mpr ⟨?_, by simp, Canonical.nil⟩
  unfold Sequence.new
  split_ifs <;> dsimp only <;> omega

theorem coverSet_new (a b : ℕ) :
    coverSet (new (Sequence.new a b)).sequences = Set.Icc (min a b) (max a b) := by
  ext x
  simp only [DisjointSequences.new, mem_coverSet_cons, not_mem_coverSet_nil, or_false, Set.mem_Icc]
  unfold Sequence.new
  split_ifs <;> dsimp only <;> omega

/-- Built from `default` or from one sequence by inserts and truncations, with every height
below `u64::MAX`, the sequences represent the set those calls build. -/
theorem run_represents (a b : ℕ) (hab : max a b < 2 ^ 64 - 1) (ops : List Op)
    (hops : ∀ value, Op.insert value ∈ ops → value < 2 ^ 64 - 1) :
    Represents ((default : DisjointSequences).run ops) (ops.foldl Op.applySet ∅) ∧
      Represents ((new (Sequence.new a b)).run ops)
        (ops.foldl Op.applySet (Set.Icc (min a b) (max a b))) := by
  have hops' : ∀ op ∈ ops, op.BelowMax := by
    intro op hop
    cases op with
    | insert value => exact hops value hop
    | truncate maxValue => trivial
  have hbnew : BelowMax (new (Sequence.new a b)).sequences := by
    intro sequence hs
    simp only [DisjointSequences.new, List.mem_singleton] at hs
    subst hs
    unfold Sequence.new
    split_ifs <;> dsimp only <;> omega
  have hdefault := @Canonical.run default Canonical.nil (fun _ h => by cases h) ops hops'
  have hnew := (canonical_new a b).run hbnew hops'
  rw [coverSet_new] at hnew
  exact ⟨hdefault, hnew⟩

theorem run_represents_insertsTruncate :
    max 3 1 < 2 ^ 64 - 1 ∧
      (∀ value, Op.insert value ∈ [.insert 5, .insert 4, .truncate 4] → value < 2 ^ 64 - 1) ∧
      Represents ((default : DisjointSequences).run [.insert 5, .insert 4, .truncate 4])
        ([Op.insert 5, .insert 4, .truncate 4].foldl Op.applySet ∅) ∧
      Represents ((new (Sequence.new 3 1)).run [.insert 5, .insert 4, .truncate 4])
        ([Op.insert 5, .insert 4, .truncate 4].foldl Op.applySet (Set.Icc (min 3 1) (max 3 1))) := by
  have hops : ∀ value, Op.insert value ∈ [.insert 5, .insert 4, .truncate 4] →
      value < 2 ^ 64 - 1 := by
    intro value hv
    simp only [List.mem_cons, Op.insert.injEq, reduceCtorEq, List.not_mem_nil, or_false] at hv
    omega
  exact ⟨by decide, hops, run_represents 3 1 (by decide) _ hops⟩

/-! ## `From<Vec<u64>>` -/

/-- Once the next value does not extend the sequence, the loop peeks at it forever. -/
theorem extendHigh_stuck {sequence : Sequence} {i : ℕ} (hi : i ≠ wrappingSucc sequence.high)
    (rest : List ℕ) (fuel : ℕ) : extendHigh fuel sequence (i :: rest) = none := by
  induction fuel with
  | zero => rfl
  | succ fuel ih => rw [extendHigh, if_neg hi, ih]

/-- The loop never finishes a sequence whose remaining values have a gap or a repeat. -/
theorem extendHigh_of_gap {a b : ℕ} (hab : b ≠ wrappingSucc a) (values : List ℕ) :
    ∀ (sequence : Sequence) (fuel : ℕ), [a, b] <:+: sequence.high :: values →
      extendHigh fuel sequence values = none := by
  induction values with
  | nil =>
    intro sequence fuel hgap
    exact absurd hgap.length_le (by simp)
  | cons i rest ih =>
    intro sequence fuel hgap
    cases fuel with
    | zero => rfl
    | succ fuel =>
      rw [extendHigh]
      split_ifs with hi
      · -- `i` extends the sequence, so the gap lies further on
        refine ih _ fuel ?_
        rcases List.infix_cons_iff.mp hgap with hpre | hinf
        · obtain ⟨rfl, hb⟩ := List.cons_prefix_cons.mp hpre
          obtain ⟨rfl, -⟩ := List.cons_prefix_cons.mp hb
          exact absurd hi hab
        · exact hinf
      · exact extendHigh_stuck hi rest fuel

/-- A run of consecutive values within `u64` extends the sequence to its end. -/
theorem extendHigh_range' (n : ℕ) :
    ∀ sequence : Sequence, sequence.high + n < 2 ^ 64 →
      extendHigh (n + 1) sequence (List.range' (sequence.high + 1) n) =
        some ({ sequence with high := sequence.high + n }, []) := by
  induction n with
  | zero => intro sequence _; rfl
  | succ n ih =>
    intro sequence hn
    have hsucc : sequence.high + 1 = wrappingSucc sequence.high :=
      (wrappingSucc_of_lt (by omega)).symm
    rw [List.range'_succ, extendHigh, if_pos hsucc, ih _ (by dsimp only; omega)]
    simp only [Nat.add_assoc, Nat.add_comm 1 n]

/-- Sorted values in which each is one more than the one before are a run. -/
theorem eq_range'_of_consecutive :
    ∀ (values : List ℕ) (x : ℕ), values.head? = some x →
      (∀ a b, [a, b] <:+: values → b = a + 1) → values = List.range' x values.length
  | [], _, hhead, _ => by simp at hhead
  | [y], x, hhead, _ => by simp_all
  | y :: z :: rest, x, hhead, hcons => by
    obtain rfl : y = x := by simpa using hhead
    have hz : z = y + 1 := hcons y z (List.prefix_append _ _).isInfix
    have hrest := eq_range'_of_consecutive (z :: rest) z rfl
      fun a b hab => hcons a b (hab.trans (List.suffix_cons _ _).isInfix)
    rw [hrest, hz]
    simp [List.range'_succ]

/-- `From<Vec<u64>>` does not return on an input with a repeated value or a gap: no fuel is
enough. -/
theorem fromVec_diverges {input : List ℕ}
    (h : ¬input.Nodup ∨ ∃ a ∈ input, ∃ b ∈ input, ∃ c, a < c ∧ c < b ∧ c ∉ input) (fuel : ℕ) :
    fromVec fuel input = none := by
  set sorted := input.insertionSort (· ≤ ·) with hsorted
  have hperm : sorted.Perm input := List.perm_insertionSort _ input
  -- the sorted input has two neighbours that are not consecutive
  obtain ⟨a, b, hgap, hab⟩ : ∃ a b, [a, b] <:+: sorted ∧ b ≠ a + 1 := by
    by_contra hnone
    have hcons : ∀ a b, [a, b] <:+: sorted → b = a + 1 := fun a b hab =>
      Classical.byContradiction fun hne => hnone ⟨a, b, hab, hne⟩
    obtain ⟨x, hx⟩ : ∃ x, sorted.head? = some x := by
      cases hs : sorted with
      | nil =>
        rw [hs, List.nil_perm] at hperm
        subst hperm
        simp at h
      | cons x _ => exact ⟨x, rfl⟩
    have hrange := eq_range'_of_consecutive sorted x hx hcons
    rcases h with hdup | ⟨a, ha, b, hb, c, hac, hcb, hc⟩
    · exact hdup (hperm.nodup_iff.mp (hrange ▸ List.nodup_range'))
    · rw [← hperm.mem_iff, hrange, List.mem_range'_1] at ha hb
      exact hc (hperm.mem_iff.mp (hrange ▸ List.mem_range'_1.mpr ⟨by omega, by omega⟩))
  -- sorted, the two are not `b = a + 1` modulo `2 ^ 64` either
  have hle : a ≤ b := List.pairwise_pair.mp
    ((List.pairwise_insertionSort (· ≤ ·) input).sublist hgap.sublist)
  have hab' : b ≠ wrappingSucc a := by
    unfold wrappingSucc
    omega
  unfold fromVec
  rw [← hsorted]
  cases fuel with
  | zero => rfl
  | succ fuel =>
    cases hs : sorted with
    | nil => simp [hs] at hgap
    | cons low rest =>
      rw [hs] at hgap
      rw [batching, extendHigh_of_gap hab' rest (Sequence.single low) fuel hgap]
      rfl

theorem fromVec_diverges_oneThree :
    (¬[1, 3].Nodup ∨ ∃ a ∈ [1, 3], ∃ b ∈ [1, 3], ∃ c, a < c ∧ c < b ∧ c ∉ [1, 3]) ∧
      ∀ fuel, fromVec fuel [1, 3] = none := by
  have hgap : ¬[1, 3].Nodup ∨ ∃ a ∈ [1, 3], ∃ b ∈ [1, 3], ∃ c, a < c ∧ c < b ∧ c ∉ [1, 3] :=
    Or.inr ⟨1, by simp, 3, by simp, 2, by omega, by omega, by simp⟩
  exact ⟨hgap, fun fuel => fromVec_diverges hgap fuel⟩

/-- On the permutations of a run of consecutive values within `u64` `From<Vec<u64>>` returns the
one sequence of the run. -/
theorem fromVec_of_perm_range' {input : List ℕ} {a n : ℕ} (h : input.Perm (List.range' a (n + 1)))
    (hn : a + n < 2 ^ 64) : fromVec (n + 2) input = some ⟨[⟨a + n, a⟩]⟩ := by
  have hsorted : input.insertionSort (· ≤ ·) = List.range' a (n + 1) :=
    List.Perm.eq_of_pairwise' (List.pairwise_insertionSort _ _) List.pairwise_le_range'
      ((List.perm_insertionSort _ _).trans h)
  have hrun : extendHigh (n + 1) (Sequence.single a) (List.range' (a + 1) n) =
      some (⟨a + n, a⟩, []) := extendHigh_range' n (Sequence.single a) hn
  rw [fromVec, hsorted, List.range'_succ, batching, hrun]
  rfl

example : fromVec 4 [3, 1, 2] = some ⟨[⟨3, 1⟩]⟩ := by decide

end DisjointSequences

end CasperNode
