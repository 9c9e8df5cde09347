import Mathlib

/-!
# Binary search in a sorted list

Rust's `slice::binary_search` (as of Rust 1.63) halves a window `[left, right)`: it compares
the element at `mid = left + (right - left) / 2` with the key, keeps the part above `mid` when
that element is less, the part below `mid` when it is greater, and returns `Ok(mid)` when it is
equal.  An empty window returns `Err(left)`, the index where the key would be inserted.

On a sorted list the elements left of the window are below the key and those right of it above
(`Inv`), and each halving keeps that (`Inv.step_lt`, `Inv.step_gt`).  So the search answers an
index of the key or its insertion point (`binarySearch_answers`), and either way the least index
whose element is at least the key is found by walking down over the elements equal to the key.
-/

namespace BinarySearch

variable {α : Type} [LinearOrder α]

/-- The loop on the window `[left, right)`.  On a window inside the list the element at `mid`
is there; were it not, the loop would stop as on an empty window. -/
def search (xs : List α) (x : α) (left right : Nat) : Except Nat Nat :=
  if _h : left < right then
    match xs[left + (right - left) / 2]? with
    | none => .error left
    | some y =>
      match compare y x with
      | .lt => search xs x (left + (right - left) / 2 + 1) right
      | .gt => search xs x left (left + (right - left) / 2)
      | .eq => .ok (left + (right - left) / 2)
  else .error left
termination_by right - left

/-- `slice::binary_search`: `Ok` of an index of the key, or `Err` of its insertion point. -/
def binarySearch (xs : List α) (x : α) : Except Nat Nat := search xs x 0 xs.length

/-- The window holds every index of the key: the elements below it are less than the key, and
those above it greater. -/
structure Inv (xs : List α) (x : α) (left right : Nat) : Prop where
  left_le : left ≤ right
  right_le : right ≤ xs.length
  below : ∀ j (hj : j < xs.length), j < left → xs[j] < x
  above : ∀ j (hj : j < xs.length), right ≤ j → x < xs[j]

/-- What the search answers: `Ok i` at an index of the key, and `Err i` at its insertion point,
an empty window. -/
def Answers (xs : List α) (x : α) : Except Nat Nat → Prop
  | .ok i => ∃ hi : i < xs.length, xs[i] = x
  | .error i => Inv xs x i i

section Sorted

variable {xs : List α} {x : α} (hs : xs.Pairwise (· ≤ ·))
include hs

theorem le_of_sorted {i j : Nat} (hij : i ≤ j) (hj : j < xs.length) :
    xs[i] ≤ xs[j] := by
  rcases Nat.lt_or_eq_of_le hij with hlt | rfl
  · exact List.pairwise_iff_getElem.mp hs i j (by omega) hj hlt
  · exact le_rfl

/-- Past an element below the key, the key can only be further up. -/
theorem Inv.step_lt {left right mid : Nat} (h : Inv xs x left right) (hmid : mid < right)
    (hlen : mid < xs.length) (hlt : xs[mid] < x) :
    Inv xs x (mid + 1) right :=
  ⟨hmid, h.right_le, fun j hj hjm => lt_of_le_of_lt (le_of_sorted hs (by omega) _) hlt, h.above⟩

/-- Before an element above the key, the key can only be further down. -/
theorem Inv.step_gt {left right mid : Nat} (h : Inv xs x left right) (hleft : left ≤ mid)
    (hlen : mid < xs.length) (hgt : x < xs[mid]) :
    Inv xs x left mid :=
  ⟨hleft, Nat.le_of_lt hlen, h.below,
    fun _ hj hmj => lt_of_lt_of_le hgt (le_of_sorted hs hmj hj)⟩

/-- **The loop's answer**, by induction along the loop, each halving keeping `Inv`. -/
theorem search_answers {left right : Nat} (h : Inv xs x left right) :
    Answers xs x (search xs x left right) := by
  induction left, right using search.induct xs x with
  | case1 left right hlt hnone =>
    have := h.right_le
    rw [List.getElem?_eq_none_iff] at hnone
    omega
  | case2 left right hlt y hy hcmp ih =>
    rw [search, dif_pos hlt, hy]
    simp only [hcmp]
    obtain ⟨hmid, rfl⟩ := List.getElem?_eq_some_iff.mp hy
    exact ih (h.step_lt hs (by omega) hmid (compare_lt_iff_lt.mp hcmp))
  | case3 left right hlt y hy hcmp ih =>
    rw [search, dif_pos hlt, hy]
    simp only [hcmp]
    obtain ⟨hmid, rfl⟩ := List.getElem?_eq_some_iff.mp hy
    exact ih (h.step_gt hs (by omega) hmid (compare_gt_iff_gt.mp hcmp))
  | case4 left right hlt y hy hcmp =>
    rw [search, dif_pos hlt, hy]
    simp only [hcmp]
    obtain ⟨hmid, rfl⟩ := List.getElem?_eq_some_iff.mp hy
    exact ⟨hmid, compare_eq_iff_eq.mp hcmp⟩
  | case5 left right hge =>
    rw [search, dif_neg hge]
    obtain rfl : left = right := by
      have := h.left_le
      omega
    exact h

theorem binarySearch_answers : Answers xs x (binarySearch xs x) :=
  search_answers hs ⟨Nat.zero_le _, Nat.le_refl _, fun _ _ hj => absurd hj (Nat.not_lt_zero _),
    fun _ hj hle => absurd hj (by omega)⟩

end Sorted

end BinarySearch
