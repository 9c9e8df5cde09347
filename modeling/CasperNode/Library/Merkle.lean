import Mathlib

/-!
# Chunked lists and balanced tree folds

Two list operations that the Merkle hashing of a byte string is built from, and the descent
along the tree that a Merkle path follows.

`chunks n l` cuts `l` into consecutive pieces of `n` elements, the last one possibly shorter,
and the empty list into no pieces at all: `<[T]>::chunks` of Rust's standard library.

`treeFold1 f l` combines the elements of a nonempty list with `f` along a balanced binary
tree.  A list of at least two elements is split after `pivot l.length` of them, the largest
power of two below its length, and the halves are folded recursively.  This is the
combination pattern of `Itertools::tree_fold1`, which builds complete trees of `2 ^ k`
elements from the left and folds the leftover elements into one last, smaller tree: for six
elements it computes `f (f (f a b) (f c d)) (f e g)`.

`descend step n i acc` walks the same tree from its root down to leaf `i` of `n`, calling
`step` with each direction taken (`true` for right).  Loops of this shape compute the path
and the expected length of a Merkle proof.

A path to a leaf is its `directions`, root first, and its `siblings`, lowest first: at each
level the fold of the other half of the split.  Climbing from the leaf with the siblings on the
sides the directions give rebuilds the fold of the whole list (`climb_siblings`), and when `f`
is injective only the leaf itself, with its own siblings, climbs to that fold
(`eq_of_climb`).  The climb of `root_hash` reads the directions from the bits of a number, the
root's the highest (`foldl_pathNumber`).
-/

namespace Merkle

variable {α β : Type}

/-! ## Chunks -/

/-- `<[T]>::chunks(n)`.  Rust panics on `n = 0`; the model returns no chunks there. -/
def chunks (n : Nat) : List α → List (List α)
  | [] => []
  | a :: l => if n = 0 then [] else (a :: l).take n :: chunks n ((a :: l).drop n)
termination_by l => l.length
decreasing_by
  simp only [List.length_drop, List.length_cons]
  omega

@[simp] theorem chunks_nil (n : Nat) : chunks n ([] : List α) = [] := by
  rw [chunks]

theorem chunks_of_ne_nil {n : Nat} (hn : 0 < n) {l : List α} (hl : l ≠ []) :
    chunks n l = l.take n :: chunks n (l.drop n) := by
  cases l with
  | nil => exact absurd rfl hl
  | cons a l => rw [chunks, if_neg (by omega)]

/-- A nonempty list of at most `n` elements is one chunk. -/
theorem chunks_of_length_le {n : Nat} (hn : 0 < n) {l : List α} (hl : l ≠ [])
    (hle : l.length ≤ n) : chunks n l = [l] := by
  rw [chunks_of_ne_nil hn hl, List.take_of_length_le hle, List.drop_of_length_le hle, chunks_nil]

/-- A first piece of exactly `n` elements is the first chunk. -/
theorem chunks_append_of_length_eq {n : Nat} (hn : 0 < n) {l₁ l₂ : List α}
    (h₁ : l₁.length = n) : chunks n (l₁ ++ l₂) = l₁ :: chunks n l₂ := by
  have hne : l₁ ++ l₂ ≠ [] := by
    intro h
    have := congrArg List.length h
    simp only [List.length_append, List.length_nil] at this
    omega
  rw [chunks_of_ne_nil hn hne, List.take_left' h₁, List.drop_left' h₁]

theorem chunks_eq_nil_iff {n : Nat} (hn : 0 < n) {l : List α} : chunks n l = [] ↔ l = [] := by
  constructor
  · intro h
    by_contra hl
    rw [chunks_of_ne_nil hn hl] at h
    cases h
  · rintro rfl
    exact chunks_nil n

/-- The `k`-th chunk is the slice of `n` elements from `k * n`, when that is inside the list. -/
theorem getElem?_chunks {n : Nat} (hn : 0 < n) (l : List α) (k : Nat) :
    (chunks n l)[k]? = if k * n < l.length then some ((l.drop (k * n)).take n) else none := by
  induction k generalizing l with
  | zero =>
    rcases l with _ | ⟨a, l⟩
    · simp
    · rw [chunks_of_ne_nil hn (List.cons_ne_nil a l)]
      simp
  | succ k ih =>
    rcases l with _ | ⟨a, l⟩
    · simp
    · -- chunk `k + 1` of the list is chunk `k` of what follows the first chunk
      rw [chunks_of_ne_nil hn (List.cons_ne_nil a l), List.getElem?_cons_succ, ih,
        List.drop_drop, List.length_drop, Nat.succ_mul, Nat.add_comm (k * n) n]
      by_cases h : n + k * n < (a :: l).length
      · rw [if_pos (by omega), if_pos h]
      · rw [if_neg (by omega), if_neg h]

/-- There is a `k`-th chunk when the `k`-th slice starts inside the list. -/
theorem lt_length_chunks_iff {n : Nat} (hn : 0 < n) (l : List α) (k : Nat) :
    k < (chunks n l).length ↔ k * n < l.length := by
  have h := getElem?_chunks hn l k
  constructor
  · intro hk
    rw [List.getElem?_eq_getElem hk] at h
    by_contra hout
    rw [if_neg hout] at h
    cases h
  · intro hk
    rw [if_pos hk] at h
    exact (List.getElem?_eq_some_iff.mp h).1

theorem length_chunks_le {n : Nat} (hn : 0 < n) (l : List α) : (chunks n l).length ≤ l.length := by
  have h := getElem?_chunks hn l l.length
  rw [if_neg (Nat.not_lt.mpr (Nat.le_mul_of_pos_right _ hn))] at h
  exact List.getElem?_eq_none_iff.mp h

/-! ## Balanced tree folds -/

/-- The largest power of two below `n`, for `2 ≤ n`: `1 << (63 - (n - 1).leading_zeros())`. -/
def pivot (n : Nat) : Nat := 2 ^ Nat.log2 (n - 1)

theorem pivot_pos (n : Nat) : 0 < pivot n := Nat.two_pow_pos _

theorem pivot_lt {n : Nat} (h : 2 ≤ n) : pivot n < n := by
  have hle : 2 ^ Nat.log2 (n - 1) ≤ n - 1 := Nat.log2_self_le (by omega)
  unfold pivot
  omega

/-- `Itertools::tree_fold1`, which the `itertools` crate documents as accumulating "the
elements in the iterator in a tree-like manner ... in bottom-up-merge-sort order", with the
example that for `1..8` and `f(x, y)` it gives `f(f(f(1, 2), f(3, 4)), f(f(5, 6), 7))`: complete
trees of `2 ^ k` elements from the left, the rest folded into one last tree. -/
def treeFold1 (f : α → α → α) (l : List α) : Option α :=
  if l.length ≤ 1 then l.head?
  else
    match treeFold1 f (l.take (pivot l.length)), treeFold1 f (l.drop (pivot l.length)) with
    | some x, some y => some (f x y)
    | _, _ => none
termination_by l.length
decreasing_by
  · have := pivot_lt (n := l.length) (by omega)
    simp only [List.length_take]
    omega
  · have := pivot_pos l.length
    simp only [List.length_drop]
    omega

@[simp] theorem treeFold1_nil (f : α → α → α) : treeFold1 f [] = none := by
  rw [treeFold1]
  simp

@[simp] theorem treeFold1_singleton (f : α → α → α) (a : α) : treeFold1 f [a] = some a := by
  rw [treeFold1]
  simp

theorem treeFold1_of_two_le (f : α → α → α) {l : List α} (h : 2 ≤ l.length) :
    treeFold1 f l =
      match treeFold1 f (l.take (pivot l.length)), treeFold1 f (l.drop (pivot l.length)) with
      | some x, some y => some (f x y)
      | _, _ => none := by
  rw [treeFold1, if_neg (by omega)]

/-- The fold of a nonempty list is defined. -/
theorem treeFold1_isSome (f : α → α → α) {l : List α} (hl : l ≠ []) :
    (treeFold1 f l).isSome := by
  induction l using WellFounded.induction (measure List.length).wf with
  | h l ih =>
    by_cases hlen : l.length ≤ 1
    · rw [treeFold1, if_pos hlen]
      cases l with
      | nil => exact absurd rfl hl
      | cons a _ => rfl
    · have hp := pivot_lt (n := l.length) (by omega)
      have hp0 := pivot_pos l.length
      have hleft : (treeFold1 f (l.take (pivot l.length))).isSome := by
        refine ih _ ?_ ?_
        · show (l.take _).length < l.length
          simp only [List.length_take]
          omega
        · simp only [ne_eq, List.take_eq_nil_iff, not_or]
          exact ⟨by omega, hl⟩
      have hright : (treeFold1 f (l.drop (pivot l.length))).isSome := by
        refine ih _ ?_ ?_
        · show (l.drop _).length < l.length
          simp only [List.length_drop]
          omega
        · simp only [ne_eq, List.drop_eq_nil_iff]
          omega
      obtain ⟨x, hx⟩ := Option.isSome_iff_exists.mp hleft
      obtain ⟨y, hy⟩ := Option.isSome_iff_exists.mp hright
      rw [treeFold1_of_two_le f (by omega), hx, hy]
      rfl

/-- Induction along the split of `treeFold1`: what holds of lists of at most one element and
is kept by joining the two halves at the pivot holds of every list. -/
@[elab_as_elim]
theorem pivot_induction {motive : List α → Prop} (small : ∀ l, l.length ≤ 1 → motive l)
    (split : ∀ l, 2 ≤ l.length → motive (l.take (pivot l.length)) →
      motive (l.drop (pivot l.length)) → motive l)
    (l : List α) : motive l := by
  induction l using WellFounded.induction (measure List.length).wf with
  | h l ih =>
    by_cases hlen : l.length ≤ 1
    · exact small l hlen
    · have hp := pivot_lt (n := l.length) (by omega)
      have hp0 := pivot_pos l.length
      refine split l (by omega) (ih _ ?_) (ih _ ?_)
      · show (l.take _).length < l.length
        simp only [List.length_take]
        omega
      · show (l.drop _).length < l.length
        simp only [List.length_drop]
        omega

theorem length_take_pivot {l : List α} (h : 2 ≤ l.length) :
    (l.take (pivot l.length)).length = pivot l.length := by
  have := pivot_lt h
  simp only [List.length_take]
  omega

theorem take_pivot_ne_nil {l : List α} (h : 2 ≤ l.length) : l.take (pivot l.length) ≠ [] := by
  have := pivot_pos l.length
  simp only [ne_eq, List.take_eq_nil_iff, not_or]
  exact ⟨by omega, by rintro rfl; simp at h⟩

theorem drop_pivot_ne_nil {l : List α} (h : 2 ≤ l.length) : l.drop (pivot l.length) ≠ [] := by
  have := pivot_lt h
  simp only [ne_eq, List.drop_eq_nil_iff]
  omega

/-- A list of two or more elements folds to `f` of the folds of its halves, both defined. -/
theorem treeFold1_halves (f : α → α → α) {l : List α} (h : 2 ≤ l.length) :
    ∃ x y, treeFold1 f (l.take (pivot l.length)) = some x ∧
      treeFold1 f (l.drop (pivot l.length)) = some y ∧ treeFold1 f l = some (f x y) := by
  obtain ⟨x, hx⟩ := Option.isSome_iff_exists.mp (treeFold1_isSome f (take_pivot_ne_nil h))
  obtain ⟨y, hy⟩ := Option.isSome_iff_exists.mp (treeFold1_isSome f (drop_pivot_ne_nil h))
  refine ⟨x, y, hx, hy, ?_⟩
  rw [treeFold1_of_two_le f h, hx, hy]

/-- The fold commutes with a map that turns `f` into `g`. -/
theorem treeFold1_map {f : α → α → α} {g : β → β → β} (φ : α → β)
    (hφ : ∀ x y, φ (f x y) = g (φ x) (φ y)) (l : List α) :
    treeFold1 g (l.map φ) = (treeFold1 f l).map φ := by
  induction l using pivot_induction with
  | small l h =>
    rcases l with _ | ⟨a, _ | ⟨b, l⟩⟩
    · simp
    · simp
    · simp at h
  | split l h ihl ihr =>
    obtain ⟨x, y, hx, hy, hl⟩ := treeFold1_halves f h
    rw [treeFold1_of_two_le g (by simpa using h), List.length_map, ← List.map_take,
      ← List.map_drop, ihl, ihr, hx, hy, hl]
    simp [hφ]

@[simp] theorem treeFold1_pair (f : α → α → α) (a b : α) : treeFold1 f [a, b] = some (f a b) := by
  have hp : pivot 2 = 1 := by decide
  rw [treeFold1_of_two_le f (by simp)]
  simp [hp]

/-! ## Descending to a leaf -/

/-- The loop `while n > 1 { pivot; if i < pivot { n = pivot } else { n -= pivot; i -= pivot } }`
with an accumulator updated by the direction taken. -/
def descend (step : β → Bool → β) (n i : Nat) (acc : β) : β :=
  if n ≤ 1 then acc
  else if i < pivot n then descend step (pivot n) i (step acc false)
  else descend step (n - pivot n) (i - pivot n) (step acc true)
termination_by n
decreasing_by
  · exact pivot_lt (by omega)
  · have := pivot_pos n
    omega

/-! ## Paths to a leaf -/

/-- A function of two arguments that is injective as a function of pairs determines both. -/
theorem eq_and_eq_of_injective {γ δ ε : Type} {g : γ → δ → ε}
    (hg : Function.Injective (Function.uncurry g)) {a c : γ} {b d : δ} (h : g a b = g c d) :
    a = c ∧ b = d :=
  Prod.mk.inj (@hg (a, b) (c, d) h)

/-- The directions from the root of the tree over `n` leaves down to leaf `i`, root first
(`true` for right): the choices `descend` makes. -/
def directions (n i : Nat) : List Bool :=
  if n ≤ 1 then []
  else if i < pivot n then false :: directions (pivot n) i
  else true :: directions (n - pivot n) (i - pivot n)
termination_by n
decreasing_by
  · exact pivot_lt (by omega)
  · have := pivot_pos n
    omega

theorem directions_of_le_one {n : Nat} (h : n ≤ 1) (i : Nat) : directions n i = [] := by
  rw [directions, if_pos h]

theorem directions_of_lt {n i : Nat} (h : 2 ≤ n) (hi : i < pivot n) :
    directions n i = false :: directions (pivot n) i := by
  rw [directions, if_neg (by omega), if_pos hi]

theorem directions_of_le {n i : Nat} (h : 2 ≤ n) (hi : pivot n ≤ i) :
    directions n i = true :: directions (n - pivot n) (i - pivot n) := by
  rw [directions, if_neg (by omega), if_neg (by omega)]

/-- `descend` folds its step over the directions. -/
theorem descend_eq_foldl (step : β → Bool → β) (n i : Nat) (acc : β) :
    descend step n i acc = (directions n i).foldl step acc := by
  induction n, i, acc using descend.induct step with
  | case1 n i acc h => rw [descend, if_pos h, directions_of_le_one h]; rfl
  | case2 n i acc h hi ih =>
    rw [descend, if_neg h, if_pos hi, directions_of_lt (by omega) hi, ih, List.foldl_cons]
  | case3 n i acc h hi ih =>
    rw [descend, if_neg h, if_neg hi, directions_of_le (by omega) (by omega), ih, List.foldl_cons]

/-- The siblings on the path from leaf `i` up to the root, lowest first: at each level the fold
of the other half of the split. -/
def siblings (f : α → α → α) (l : List α) (i : Nat) : List α :=
  if l.length ≤ 1 then []
  else if i < pivot l.length then
    siblings f (l.take (pivot l.length)) i ++ (treeFold1 f (l.drop (pivot l.length))).toList
  else
    siblings f (l.drop (pivot l.length)) (i - pivot l.length) ++
      (treeFold1 f (l.take (pivot l.length))).toList
termination_by l.length
decreasing_by
  · have := pivot_lt (n := l.length) (by omega)
    simp only [List.length_take]
    omega
  · have := pivot_pos l.length
    simp only [List.length_drop]
    omega

theorem siblings_of_le_one (f : α → α → α) {l : List α} (h : l.length ≤ 1) (i : Nat) :
    siblings f l i = [] := by
  rw [siblings, if_pos h]

theorem siblings_of_lt (f : α → α → α) {l : List α} (h : 2 ≤ l.length) {i : Nat}
    (hi : i < pivot l.length) :
    siblings f l i =
      siblings f (l.take (pivot l.length)) i ++ (treeFold1 f (l.drop (pivot l.length))).toList := by
  rw [siblings, if_neg (by omega), if_pos hi]

theorem siblings_of_le (f : α → α → α) {l : List α} (h : 2 ≤ l.length) {i : Nat}
    (hi : pivot l.length ≤ i) :
    siblings f l i = siblings f (l.drop (pivot l.length)) (i - pivot l.length) ++
      (treeFold1 f (l.take (pivot l.length))).toList := by
  rw [siblings, if_neg (by omega), if_neg (by omega)]

/-- One sibling for each direction. -/
theorem length_siblings (f : α → α → α) (l : List α) (i : Nat) :
    (siblings f l i).length = (directions l.length i).length := by
  induction l using pivot_induction generalizing i with
  | small l h =>
    rw [siblings_of_le_one f h, directions_of_le_one h]
    rfl
  | split l h ihl ihr =>
    obtain ⟨x, y, hx, hy, -⟩ := treeFold1_halves f h
    by_cases hi : i < pivot l.length
    · rw [siblings_of_lt f h hi, directions_of_lt h hi, hy, List.length_append, ihl,
        length_take_pivot h]
      rfl
    · rw [siblings_of_le f h (by omega), directions_of_le h (by omega), hx, List.length_append,
        ihr, List.length_drop]
      rfl

/-- Hash a leaf up a path of siblings, lowest first, each with the side the path comes from
(`true`: the path is the right child and the sibling the left). -/
def climb (f : α → α → α) (leaf : α) (path : List (α × Bool)) : α :=
  path.foldl (fun acc step => if step.2 then f step.1 acc else f acc step.1) leaf

@[simp] theorem climb_nil (f : α → α → α) (a : α) : climb f a [] = a := rfl

@[simp] theorem climb_cons (f : α → α → α) (a s : α) (right : Bool) (path : List (α × Bool)) :
    climb f a ((s, right) :: path) = climb f (if right then f s a else f a s) path := rfl

@[simp] theorem climb_append_singleton (f : α → α → α) (a s : α) (right : Bool)
    (path : List (α × Bool)) :
    climb f a (path ++ [(s, right)]) =
      if right then f s (climb f a path) else f (climb f a path) s := by
  simp [climb, List.foldl_append]

section Climb

variable {f : α → α → α}

/-- A list one longer than another list is that long a list and one more element. -/
theorem exists_concat_of_length_succ {sibs : List α} {b : Bool} {ds : List Bool}
    (h : sibs.length = (b :: ds).length) : ∃ sibs' s, sibs = sibs' ++ [s] := by
  rcases List.eq_nil_or_concat' sibs with rfl | hsnoc
  · simp at h
  · exact hsnoc

/-- The top level of a climb over the path of a leaf: below it the climb in the half holding
the leaf, at it the other half's fold. -/
theorem climb_zip_cons {sibs : List α} {ds : List Bool} (hlen : sibs.length = ds.length)
    (a s : α) (right : Bool) :
    climb f a ((sibs ++ [s]).zip (right :: ds).reverse) =
      if right then f s (climb f a (sibs.zip ds.reverse)) else f (climb f a (sibs.zip ds.reverse)) s := by
  rw [List.reverse_cons, List.zip_append (by simpa using hlen)]
  simp

/-- **Completeness.**  Climbing from a leaf with its own siblings gives the fold of the list. -/
theorem climb_siblings {l : List α} {i : Nat} (hi : i < l.length) :
    some (climb f l[i] ((siblings f l i).zip (directions l.length i).reverse)) = treeFold1 f l := by
  induction l using pivot_induction generalizing i with
  | small l h =>
    rw [siblings_of_le_one f h, directions_of_le_one h]
    rcases l with _ | ⟨a, _ | ⟨b, l⟩⟩
    · simp at hi
    · simp only [List.length_cons, List.length_nil] at hi
      obtain rfl : i = 0 := by omega
      simp
    · simp at h
  | split l h ihl ihr =>
    obtain ⟨x, y, hx, hy, hl⟩ := treeFold1_halves f h
    rw [hl]
    by_cases hlt : i < pivot l.length
    · -- the leaf is on the left: the right half's fold is the top sibling
      have hd : directions (l.take (pivot l.length)).length i = directions (pivot l.length) i := by
        rw [length_take_pivot h]
      have hlen := length_siblings f (l.take (pivot l.length)) i
      have hclimb := ihl (i := i) (by rw [length_take_pivot h]; exact hlt)
      rw [hd] at hlen hclimb
      rw [siblings_of_lt f h hlt, directions_of_lt h hlt, hy, Option.toList_some,
        climb_zip_cons hlen, if_neg Bool.false_ne_true]
      rw [List.getElem_take, hx] at hclimb
      rw [Option.some.inj hclimb]
    · -- the leaf is on the right: the left half's fold is the top sibling
      have hle : pivot l.length ≤ i := by omega
      have hd : directions (l.drop (pivot l.length)).length (i - pivot l.length) =
          directions (l.length - pivot l.length) (i - pivot l.length) := by
        rw [List.length_drop]
      have hlen := length_siblings f (l.drop (pivot l.length)) (i - pivot l.length)
      have hclimb := ihr (i := i - pivot l.length) (by rw [List.length_drop]; omega)
      rw [hd] at hlen hclimb
      rw [siblings_of_le f h hle, directions_of_le h hle, hx, Option.toList_some,
        climb_zip_cons hlen, if_pos rfl]
      rw [List.getElem_drop, hy] at hclimb
      simp only [Nat.add_sub_cancel' hle] at hclimb
      rw [Option.some.inj hclimb]

/-- **Binding.**  With `f` injective, a climb over the directions of leaf `i` that reaches the
fold of the list starts from leaf `i` and takes its own siblings: the top step pins both the
climb below it and the top sibling, and the rest follows in the half holding the leaf. -/
theorem eq_of_climb (hf : Function.Injective (Function.uncurry f)) {l : List α} {i : Nat}
    (hi : i < l.length) {a : α} {sibs : List α}
    (hlen : sibs.length = (directions l.length i).length)
    (h : some (climb f a (sibs.zip (directions l.length i).reverse)) = treeFold1 f l) :
    a = l[i] ∧ sibs = siblings f l i := by
  induction l using pivot_induction generalizing i a sibs with
  | small l hsmall =>
    rw [directions_of_le_one hsmall] at h hlen
    rw [siblings_of_le_one f hsmall]
    obtain rfl : sibs = [] := List.eq_nil_of_length_eq_zero hlen
    rcases l with _ | ⟨b, _ | ⟨c, l⟩⟩
    · simp at hi
    · simp only [List.length_cons, List.length_nil] at hi
      obtain rfl : i = 0 := by omega
      simpa using h
    · simp at hsmall
  | split l hl ihl ihr =>
    obtain ⟨x, y, hx, hy, hfold⟩ := treeFold1_halves f hl
    rw [hfold] at h
    by_cases hlt : i < pivot l.length
    · rw [directions_of_lt hl hlt] at h hlen
      -- a path over a nonempty direction list ends with its top sibling
      obtain ⟨sibs, s, rfl⟩ := exists_concat_of_length_succ hlen
      have hlen' : sibs.length = (directions (pivot l.length) i).length := by simpa using hlen
      rw [climb_zip_cons hlen', if_neg Bool.false_ne_true] at h
      obtain ⟨hbelow, rfl⟩ := eq_and_eq_of_injective hf (Option.some.inj h)
      have hd : directions (l.take (pivot l.length)).length i = directions (pivot l.length) i := by
        rw [length_take_pivot hl]
      obtain ⟨rfl, rfl⟩ := ihl (by rw [length_take_pivot hl]; exact hlt) (by rw [hd]; exact hlen')
        (by rw [hd, hbelow, hx])
      refine ⟨List.getElem_take, ?_⟩
      rw [siblings_of_lt f hl hlt, hy, Option.toList_some]
    · have hle : pivot l.length ≤ i := by omega
      rw [directions_of_le hl hle] at h hlen
      obtain ⟨sibs, s, rfl⟩ := exists_concat_of_length_succ hlen
      have hlen' : sibs.length =
          (directions (l.length - pivot l.length) (i - pivot l.length)).length := by
        simpa using hlen
      rw [climb_zip_cons hlen', if_pos rfl] at h
      obtain ⟨rfl, hbelow⟩ := eq_and_eq_of_injective hf (Option.some.inj h)
      have hd : directions (l.drop (pivot l.length)).length (i - pivot l.length) =
          directions (l.length - pivot l.length) (i - pivot l.length) := by
        rw [List.length_drop]
      obtain ⟨rfl, rfl⟩ := ihr (i := i - pivot l.length) (by rw [List.length_drop]; omega)
        (by rw [hd]; exact hlen')
        (by rw [hd, hbelow, hy])
      refine ⟨by rw [List.getElem_drop]; simp only [Nat.add_sub_cancel' hle], ?_⟩
      rw [siblings_of_le f hl hle, hx, Option.toList_some]

end Climb

/-- The directions as a number, the root's the highest bit. -/
def pathNumber (ds : List Bool) : Nat := ds.foldl (fun path right => 2 * path + if right then 1 else 0) 0

theorem pathNumber_append_singleton (ds : List Bool) (right : Bool) :
    pathNumber (ds ++ [right]) = 2 * pathNumber ds + if right then 1 else 0 := by
  simp [pathNumber, List.foldl_append]

/-- The fold of `root_hash`: reading the bits of the path number from the lowest, it climbs
from the leaf with the siblings on the sides the directions give, the lowest level first. -/
theorem foldl_pathNumber (f : α → α → α) (hs : List α) (ds : List Bool) (a : α)
    (hlen : hs.length ≤ ds.length) :
    (hs.foldl (fun (acc : α × Nat) h =>
        (if acc.2 % 2 = 1 then f h acc.1 else f acc.1 h, acc.2 / 2)) (a, pathNumber ds)).1 =
      climb f a (hs.zip ds.reverse) := by
  induction hs generalizing a ds with
  | nil => rfl
  | cons h hs ih =>
    -- the lowest bit is the last direction
    obtain ⟨ds, right, rfl⟩ : ∃ ds' r, ds = ds' ++ [r] := by
      rcases List.eq_nil_or_concat' ds with rfl | hsnoc
      · simp at hlen
      · exact hsnoc
    have hbit : (2 * pathNumber ds + if right then 1 else 0) % 2 = if right then 1 else 0 := by
      cases right <;> simp
    have hrest : (2 * pathNumber ds + if right then 1 else 0) / 2 = pathNumber ds := by
      cases right <;> simp; omega
    rw [List.foldl_cons, pathNumber_append_singleton, hbit, hrest, List.reverse_append,
      List.reverse_singleton, List.singleton_append, List.zip_cons_cons, climb_cons,
      ih _ _ (by simpa using hlen)]
    cases right <;> rfl

end Merkle
