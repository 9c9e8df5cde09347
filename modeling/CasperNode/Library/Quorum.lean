import Mathlib

/-!
# Weighted quorums

A quorum for a fraction `q` is a set of members whose weight exceeds `q` times the weight of
all members.  Two quorums share members of weight above `2 q - 1` times the total
(`weight_inter_gt`): counted together they weigh at most the total plus what they share.

A quorum can be picked greedily, taking members in order of decreasing weight while the weight
taken so far is at most the threshold (`takeUpTo`).  The threshold is compared
cross-multiplied, `acc * d ≤ c`, as integer code compares a weight with a quorum `c / d`.  What
is taken exceeds the threshold exactly when all the members do (`takeUpTo_exceeds_iff`), and
its last member is its lightest, without which the weight is back at the threshold
(`takeUpTo_minimal`).
-/

namespace Quorum

section Intersection

variable {κ : Type} [DecidableEq κ] (w : κ → ℕ) {s t u : Finset κ}

/-- Two sets within `u`, each heavier than `q` times `u`, share weight above `2 q - 1` times
`u`. -/
theorem weight_inter_gt (hs : s ⊆ u) (ht : t ⊆ u) {q : ℚ}
    (hsq : q * ↑(∑ k ∈ u, w k) < ↑(∑ k ∈ s, w k))
    (htq : q * ↑(∑ k ∈ u, w k) < ↑(∑ k ∈ t, w k)) :
    (2 * q - 1) * ↑(∑ k ∈ u, w k) < (↑(∑ k ∈ s ∩ t, w k) : ℚ) := by
  have hunion : ∑ k ∈ s ∪ t, w k ≤ ∑ k ∈ u, w k :=
    Finset.sum_le_sum_of_subset (Finset.union_subset hs ht)
  have hsplit : ∑ k ∈ s ∪ t, w k + ∑ k ∈ s ∩ t, w k = ∑ k ∈ s, w k + ∑ k ∈ t, w k :=
    Finset.sum_union_inter
  -- both sets counted together weigh at most the total plus what they share
  have hboth : ((∑ k ∈ s, w k : ℕ) : ℚ) + ↑(∑ k ∈ t, w k) ≤
      ↑(∑ k ∈ u, w k) + ↑(∑ k ∈ s ∩ t, w k) := by
    exact_mod_cast (by omega : ∑ k ∈ s, w k + ∑ k ∈ t, w k ≤ ∑ k ∈ u, w k + ∑ k ∈ s ∩ t, w k)
  linarith

end Intersection

section Greedy

variable {ι : Type} (wt : ι → ℕ) (d c : ℕ)

/-- Take members, in the order given, while the weight taken so far times `d` is at most `c`:
the members taken, and the weight taken added to `acc`. -/
def takeUpTo : List ι → ℕ → List ι × ℕ
  | [], acc => ([], acc)
  | e :: rest, acc =>
    if acc * d ≤ c then
      let r := takeUpTo rest (acc + wt e)
      (e :: r.1, r.2)
    else ([], acc)

@[simp] theorem takeUpTo_nil (acc : ℕ) : takeUpTo wt d c [] acc = ([], acc) := rfl

theorem takeUpTo_cons_of_le {e : ι} {rest : List ι} {acc : ℕ} (h : acc * d ≤ c) :
    takeUpTo wt d c (e :: rest) acc =
      (e :: (takeUpTo wt d c rest (acc + wt e)).1, (takeUpTo wt d c rest (acc + wt e)).2) := by
  simp [takeUpTo, h]

theorem takeUpTo_of_gt {l : List ι} {acc : ℕ} (h : c < acc * d) :
    takeUpTo wt d c l acc = ([], acc) := by
  cases l with
  | nil => rfl
  | cons e rest => simp [takeUpTo, not_le.mpr h]

/-- The weight taken is the weight of the members taken. -/
theorem takeUpTo_snd (l : List ι) (acc : ℕ) :
    (takeUpTo wt d c l acc).2 = acc + ((takeUpTo wt d c l acc).1.map wt).sum := by
  induction l generalizing acc with
  | nil => simp
  | cons e rest ih =>
    by_cases h : acc * d ≤ c
    · rw [takeUpTo_cons_of_le wt d c h, List.map_cons, List.sum_cons, ih]
      omega
    · simp [takeUpTo_of_gt wt d c (not_le.mp h)]

/-- What is taken is a prefix of the members. -/
theorem takeUpTo_isPrefix (l : List ι) (acc : ℕ) : (takeUpTo wt d c l acc).1 <+: l := by
  induction l generalizing acc with
  | nil => simp
  | cons e rest ih =>
    by_cases h : acc * d ≤ c
    · rw [takeUpTo_cons_of_le wt d c h]
      exact (List.prefix_cons_inj e).mpr (ih _)
    · rw [takeUpTo_of_gt wt d c (not_le.mp h)]
      exact List.nil_prefix

/-- No more is taken than all the members weigh. -/
theorem takeUpTo_snd_le (l : List ι) (acc : ℕ) :
    (takeUpTo wt d c l acc).2 ≤ acc + (l.map wt).sum := by
  obtain ⟨rest, hrest⟩ := takeUpTo_isPrefix wt d c l acc
  have hsum : ((takeUpTo wt d c l acc).1.map wt).sum + (rest.map wt).sum = (l.map wt).sum := by
    rw [← List.sum_append, ← List.map_append, hrest]
  rw [takeUpTo_snd]
  omega

/-- Below the threshold the first member is taken. -/
theorem add_head_le_takeUpTo_snd {e : ι} {rest : List ι} {acc : ℕ} (h : acc * d ≤ c) :
    acc + wt e ≤ (takeUpTo wt d c (e :: rest) acc).2 := by
  rw [takeUpTo_cons_of_le wt d c h, takeUpTo_snd]
  exact Nat.le_add_right _ _

/-- What is taken exceeds the threshold exactly when all the members do. -/
theorem takeUpTo_exceeds_iff (l : List ι) (acc : ℕ) :
    c < (takeUpTo wt d c l acc).2 * d ↔ c < (acc + (l.map wt).sum) * d := by
  induction l generalizing acc with
  | nil => simp
  | cons e rest ih =>
    by_cases h : acc * d ≤ c
    · rw [takeUpTo_cons_of_le wt d c h, ih, List.map_cons, List.sum_cons, Nat.add_assoc]
    · -- the loop stops at once, already over the threshold, and so is the whole weight
      have hgt : c < acc * d := not_le.mp h
      rw [takeUpTo_of_gt wt d c hgt]
      exact ⟨fun _ => lt_of_lt_of_le hgt (Nat.mul_le_mul_right d (Nat.le_add_right _ _)),
        fun _ => hgt⟩

/-- Taken in decreasing order of weight and over the threshold, the members taken end with
their lightest, without which the weight is at most the threshold. -/
theorem takeUpTo_minimal {l : List ι} (hl : l.Pairwise fun a b => wt b ≤ wt a) {acc : ℕ}
    (hacc : acc * d ≤ c) (hgt : c < (takeUpTo wt d c l acc).2 * d) :
    ∃ pre e, (takeUpTo wt d c l acc).1 = pre ++ [e] ∧ (acc + (pre.map wt).sum) * d ≤ c ∧
      ∀ x ∈ (takeUpTo wt d c l acc).1, wt e ≤ wt x := by
  induction l generalizing acc with
  | nil =>
    simp only [takeUpTo_nil] at hgt
    omega
  | cons e rest ih =>
    rw [takeUpTo_cons_of_le wt d c hacc] at hgt ⊢
    obtain ⟨he, hrest⟩ := List.pairwise_cons.mp hl
    by_cases hnext : (acc + wt e) * d ≤ c
    · -- more is taken after `e`, and the last of it is the lightest
      obtain ⟨pre, e', htake, hpre, hmin⟩ := ih hrest hnext hgt
      have hmem : e' ∈ rest :=
        (takeUpTo_isPrefix wt d c rest _).sublist.subset
          (htake ▸ List.mem_append_right _ (by simp))
      refine ⟨e :: pre, e', by rw [htake, List.cons_append], ?_, ?_⟩
      · simpa only [List.map_cons, List.sum_cons, Nat.add_assoc] using hpre
      · intro x hx
        rcases List.mem_cons.mp hx with rfl | hx
        · exact he e' hmem
        · exact hmin x hx
    · -- `e` alone takes the weight over the threshold
      rw [takeUpTo_of_gt wt d c (not_le.mp hnext)]
      exact ⟨[], e, rfl, by simpa using hacc, by simp⟩

end Greedy

end Quorum
