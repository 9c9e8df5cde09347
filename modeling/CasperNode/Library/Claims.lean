import Mathlib

/-!
# Claims against balances

A ledger of claims is a list of pairs of an account and an amount owed from it.  `claimOn`
is what a ledger claims from one account, and `Covered` says that balances cover every
account's claims: the solvency invariant of a component that keeps amounts on behalf of
others in accounts it does not own.

The lemmas say how claims add up over the parts of a ledger, and that an update keeps claims
covered when no account claimed afterwards loses surplus, its balance less its claims
(`Covered.of_surplus`).
-/

namespace Claims

variable {A : Type} [DecidableEq A]

/-- What the ledger `cs` claims from the account `a`. -/
def claimOn (cs : List (A × Nat)) (a : A) : Nat := ((cs.filter (·.1 = a)).map (·.2)).sum

@[simp] theorem claimOn_nil (a : A) : claimOn [] a = 0 := rfl

@[simp] theorem claimOn_cons (c : A × Nat) (cs : List (A × Nat)) (a : A) :
    claimOn (c :: cs) a = (if c.1 = a then c.2 else 0) + claimOn cs a := by
  by_cases h : c.1 = a <;> simp [claimOn, h]

@[simp] theorem claimOn_append (cs ds : List (A × Nat)) (a : A) :
    claimOn (cs ++ ds) a = claimOn cs a + claimOn ds a := by
  simp [claimOn, List.filter_append]

theorem claimOn_flatMap {γ : Type} (l : List γ) (f : γ → List (A × Nat)) (a : A) :
    claimOn (l.flatMap f) a = (l.map fun x => claimOn (f x) a).sum := by
  induction l with
  | nil => rfl
  | cons x l ih => simp [List.flatMap_cons, ih]

/-- An account that no claim names owes nothing. -/
theorem claimOn_eq_zero {cs : List (A × Nat)} {a : A} (h : a ∉ cs.map Prod.fst) :
    claimOn cs a = 0 := by
  induction cs with
  | nil => rfl
  | cons c cs ih =>
    have hc : c.1 ≠ a := fun hc => h (hc ▸ List.mem_cons_self)
    rw [claimOn_cons, if_neg hc, ih (fun ha => h (List.mem_cons_of_mem _ ha))]

/-- A ledger of zero amounts claims nothing. -/
theorem claimOn_eq_zero_of_amounts {cs : List (A × Nat)} (h : ∀ c ∈ cs, c.2 = 0) (a : A) :
    claimOn cs a = 0 := by
  induction cs with
  | nil => rfl
  | cons c cs ih =>
    rw [claimOn_cons, h c List.mem_cons_self, ih (fun c' hc' => h c' (List.mem_cons_of_mem _ hc'))]
    simp

omit [DecidableEq A] in
/-- A ledger that names only accounts another named, after that one named only accounts a
third named, names only accounts of the third. -/
theorem names_trans {cs₁ cs₂ cs₃ : List (A × Nat)} (h₁ : ∀ c ∈ cs₂, c.1 ∈ cs₁.map Prod.fst)
    (h₂ : ∀ c ∈ cs₃, c.1 ∈ cs₂.map Prod.fst) : ∀ c ∈ cs₃, c.1 ∈ cs₁.map Prod.fst := by
  intro c hc
  obtain ⟨c', hc', hfst⟩ := List.mem_map.mp (h₂ c hc)
  exact hfst ▸ h₁ c' hc'

/-- The balances `bal` cover what `cs` claims from every account. -/
def Covered (bal : A → Nat) (cs : List (A × Nat)) : Prop := ∀ a, claimOn cs a ≤ bal a

section Update

variable {bal bal' : A → Nat} {cs cs' : List (A × Nat)}

/-- Balances keep covering the claims when each account is either claimed by nothing afterwards
(`exempt`) or loses no surplus. -/
theorem Covered.of_surplus (h : Covered bal cs) (exempt : A → Prop)
    (hexempt : ∀ a, exempt a → claimOn cs' a = 0)
    (hsurplus : ∀ a, ¬ exempt a → claimOn cs' a + bal a ≤ claimOn cs a + bal' a) :
    Covered bal' cs' := by
  intro a
  by_cases ha : exempt a
  · rw [hexempt a ha]
    exact Nat.zero_le _
  · have h₁ := h a
    have h₂ := hsurplus a ha
    omega

end Update

end Claims
