import Mathlib

/-!
# Pruning to the greatest supported subset

A member of a committee is *supported* by a set when a property `P v S` of the member and the
set holds, and a set is supported when all its members are.  When support only grows with the
set (`SupportMono`), the supported subsets of a committee have a greatest element, and pruning
finds it: drop the members that the committee does not support, and repeat on the members kept
until a round drops nothing.  A round keeps every member of every supported subset, so the
subsets it can still reach are the same after it; and a round that drops something shortens
the committee, so the loop stops within one round more than the committee has members.

The loop works on lists, with a test that reads the list and may fail, as code does.  The test
is assumed to decide the property of the list's set of members on every sublist of the
committee; nothing needs the committee to be free of duplicates.
-/

namespace Pruning

variable {α : Type}

/-- `iter().partition(test)`, with a test that may fail: the members that pass and those that do
not, each in their order, or `none` if the test fails on one. -/
def partitionOpt (test : α → Option Bool) : List α → Option (List α × List α)
  | [] => some ([], [])
  | a :: l => do
    let b ← test a
    let (kept, dropped) ← partitionOpt test l
    pure (if b then (a :: kept, dropped) else (kept, a :: dropped))

theorem partitionOpt_eq {test : α → Option Bool} {p : α → Bool} :
    ∀ {l : List α}, (∀ x ∈ l, test x = some (p x)) →
      partitionOpt test l = some (l.filter p, l.filter fun x => !p x)
  | [], _ => rfl
  | a :: l, h => by
    have hrest := partitionOpt_eq fun x hx => h x (List.mem_cons_of_mem a hx)
    simp only [partitionOpt, h a List.mem_cons_self, hrest, Option.bind_eq_bind,
      Option.bind_some]
    cases hpa : p a <;> simp [hpa]

variable [DecidableEq α]

/-- The pruning loop: split the committee by the test against the whole committee, stop when
nothing is dropped, and otherwise go on with the members kept, collecting the dropped ones.
`none` when the test fails or the fuel runs out. -/
def loop (test : α → List α → Option Bool) : Nat → List α → Finset α →
    Option (List α × Finset α)
  | 0, _, _ => none
  | fuel + 1, committee, pruned => do
    let (kept, dropped) ← partitionOpt (test · committee) committee
    if dropped.isEmpty then pure (kept, pruned)
    else loop test fuel kept (pruned ∪ dropped.toFinset)

section Support

variable (P : α → Finset α → Prop)

/-- Every member of `S` is supported by `S`. -/
def Supported (S : Finset α) : Prop := ∀ v ∈ S, P v S

/-- Support only grows with the set. -/
def SupportMono : Prop := ∀ v S T, S ⊆ T → P v S → P v T

variable {P} [∀ v S, Decidable (P v S)]

/-- One round keeps every member of a supported subset of the committee. -/
theorem subset_filter_of_supported (hmono : SupportMono P) {L : List α} {S : Finset α}
    (hS : S ⊆ L.toFinset) (hsup : Supported P S) :
    S ⊆ (L.filter fun v => decide (P v L.toFinset)).toFinset := by
  intro v hv
  rw [List.mem_toFinset, List.mem_filter]
  exact ⟨List.mem_toFinset.mp (hS hv), decide_eq_true (hmono v S L.toFinset hS (hsup v hv))⟩

/-- What a round drops and what the rest of the loop drops are what the whole loop drops. -/
theorem toFinset_sdiff_filter {L L' : List α} {p : α → Bool}
    (h : L'.toFinset ⊆ (L.filter p).toFinset) :
    (L.filter fun x => !p x).toFinset ∪ ((L.filter p).toFinset \ L'.toFinset) =
      L.toFinset \ L'.toFinset := by
  ext x
  simp only [Finset.mem_union, Finset.mem_sdiff, List.mem_toFinset, List.mem_filter]
  have hx : x ∈ L' → p x = true := fun hx' =>
    (List.mem_filter.mp (List.mem_toFinset.mp (h (List.mem_toFinset.mpr hx')))).2
  cases hp : p x <;> simp only [hp] at hx <;> simp_all

variable {test : α → List α → Option Bool}

/-- **Pruning finds the greatest supported subset.**  With support monotone and a test that
decides it on the sublists of the committee, the loop stops within one round more than the
committee has members, keeps a sublist of it whose members are the greatest supported subset,
and adds the members it drops to the pruned set. -/
theorem loop_spec (hmono : SupportMono P) :
    ∀ {fuel : Nat} {C : List α} {pruned : Finset α},
      (∀ L, L.Sublist C → ∀ v ∈ L, test v L = some (decide (P v L.toFinset))) → C.length < fuel →
      ∃ C' pruned', loop test fuel C pruned = some (C', pruned') ∧ C'.Sublist C ∧
        pruned' = pruned ∪ (C.toFinset \ C'.toFinset) ∧
        IsGreatest {S | S ⊆ C.toFinset ∧ Supported P S} C'.toFinset := by
  intro fuel
  induction fuel with
  | zero =>
    intro C pruned _ hlen
    omega
  | succ fuel ih =>
    intro C pruned htest hlen
    set p : α → Bool := fun v => decide (P v C.toFinset) with hp
    have hpart : partitionOpt (test · C) C = some (C.filter p, C.filter fun x => !p x) :=
      partitionOpt_eq (htest C (List.Sublist.refl C))
    simp only [loop, hpart, Option.bind_eq_bind, Option.bind_some]
    by_cases hdrop : (C.filter fun x => !p x).isEmpty
    · -- nothing dropped: every member passes, so the committee is supported
      have hall : ∀ v ∈ C, p v = true := by
        intro v hv
        by_contra hpv
        have hmem : v ∈ C.filter fun x => !p x := List.mem_filter.mpr ⟨hv, by simpa using hpv⟩
        rw [List.isEmpty_iff.mp hdrop] at hmem
        cases hmem
      have hkept : C.filter p = C := List.filter_eq_self.mpr hall
      rw [if_pos hdrop, hkept]
      refine ⟨C, pruned, rfl, List.Sublist.refl C, by simp, ⟨subset_refl _, ?_⟩,
        fun S hS => hS.1⟩
      intro v hv
      exact of_decide_eq_true (hall v (List.mem_toFinset.mp hv))
    · -- something dropped: the committee shrinks, and the supported subsets stay
      rw [if_neg hdrop]
      have hshort : (C.filter p).length < fuel := by
        obtain ⟨v, hv, hpv⟩ : ∃ v ∈ C, p v = false := by simpa using hdrop
        have := (List.length_filter_lt_length_iff_exists (p := p)).mpr ⟨v, hv, by simp [hpv]⟩
        omega
      obtain ⟨C', pruned', hloop, hsub, hpruned, hmem, hub⟩ :=
        ih (fun L hL => htest L (hL.trans List.filter_sublist)) hshort
      refine ⟨C', pruned', hloop, hsub.trans List.filter_sublist, ?_, ⟨?_, hmem.2⟩, ?_⟩
      · rw [hpruned, Finset.union_assoc, toFinset_sdiff_filter (hmem.1)]
      · intro x hx
        exact List.mem_toFinset.mpr (List.mem_of_mem_filter (List.mem_toFinset.mp (hmem.1 hx)))
      · intro S hS
        exact hub ⟨subset_filter_of_supported hmono hS.1 hS.2, hS.2⟩

end Support

end Pruning
