import Mathlib

/-!
# Skip lists over a chain

Nodes are found by key, and each has a level and a list of pointers to nodes below it.  The
first pointer leads one level down, and `follow k` takes it `k` times: the walk that a linear
search makes.  A node at level `n ≥ 1` has one pointer for each power of two `2 ^ i` dividing
`n`, the `i`-th leading `2 ^ i` levels down (`NodeOk`).

`extend` builds a new node's pointers from its first: the next pointer is the `i`-th pointer of
the node that the `i`-th pointer leads to.  On a well-formed store the loop succeeds, and the
store with the new node is well formed (`Wf.insert`).  `find` searches for the node at a level
by taking, at each node, the longest pointer that does not pass it; on a well-formed store it
returns the node that the linear walk reaches (`Wf.find_eq`), within as many steps as the
levels it descends.
-/

namespace SkipList

variable {H α : Type} (get : H → Option α) (level : α → Nat) (skips : α → List H)

/-- Following the first pointer `k` times. -/
def follow : Nat → H → Option H
  | 0, h => some h
  | k + 1, h => (get h).bind fun a => (skips a).head?.bind (follow k)

/-- The loop that builds a node's pointers from its first: the `i`-th pointer of the node that
the `i`-th pointer leads to is the next one.  `none` when a node or a pointer is missing. -/
def extend (count : Nat) (pointers : List H) : Option (List H) :=
  (List.range count).foldlM (fun pointers i => do
    let old ← pointers[i]?
    let a ← get old
    let next ← (skips a)[i]?
    pure (pointers ++ [next])) pointers

/-- The search for the node at level `target` below `h`: at each node the jump of `2 ^ lg d`
levels for the distance `d` (`lg` a base-two logarithm), or the longest pointer there is.
`none` when a node or a pointer is missing, or the fuel runs out. -/
def find (lg : Nat → Nat) : Nat → H → Nat → Option (Option H)
  | 0, _, _ => none
  | fuel + 1, h, target => do
    let a ← get h
    if level a < target then pure none
    else if level a = target then pure (some h)
    else
      let i := min (lg (level a - target)) ((skips a).length - 1)
      let next ← (skips a)[i]?
      find lg fuel next target

/-- A node's pointers: none at level `0`, and above it one for each power of two dividing the
level, the first one level down and the `i`-th `2 ^ i` steps down the chain. -/
structure NodeOk (h : H) (a : α) : Prop where
  length_eq : (skips a).length = if level a = 0 then 0 else padicValNat 2 (level a) + 1
  first : ∀ p, (skips a).head? = some p → ∃ b, get p = some b ∧ level b + 1 = level a
  pointer : ∀ i (hi : i < (skips a).length), follow get skips (2 ^ i) h = some (skips a)[i]

/-- Every node of the store is well formed. -/
def Wf : Prop := ∀ h a, get h = some a → NodeOk get level skips h a

/-- A new node as the loop builds it: at level `0` without pointers, or one level above the node
its first pointer leads to, with the pointers that `extend` builds for the powers of two
dividing its level. -/
def Builds (a : α) : Prop :=
  (level a = 0 ∧ skips a = []) ∨ ∃ p b, get p = some b ∧ level a = level b + 1 ∧
    extend get skips (padicValNat 2 (level a)) [p] = some (skips a)

variable {get level skips}

/-! ## The walk -/

@[simp] theorem follow_zero (h : H) : follow get skips 0 h = some h := rfl

theorem follow_succ (k : Nat) (h : H) :
    follow get skips (k + 1) h = (get h).bind fun a => (skips a).head?.bind (follow get skips k) :=
  rfl

theorem follow_add (j k : Nat) (h : H) :
    follow get skips (j + k) h = (follow get skips j h).bind (follow get skips k) := by
  induction j generalizing h with
  | zero => simp
  | succ j ih =>
    rw [show j + 1 + k = (j + k) + 1 by omega, follow_succ, follow_succ]
    rcases get h with _ | a
    · rfl
    · simp only [Option.bind_some]
      rcases (skips a).head? with _ | p
      · rfl
      · exact ih p

/-- A walk through nodes that are there is the same after a new key is added. -/
theorem follow_update_of_fresh [DecidableEq H] {hn : H} (hfresh : get hn = none) (a : α)
    {k : Nat} {h p : H} (hk : follow get skips k h = some p) :
    follow (Function.update get hn (some a)) skips k h = some p := by
  induction k generalizing h with
  | zero => exact hk
  | succ k ih =>
    rw [follow_succ] at hk ⊢
    rcases hget : get h with _ | c
    · rw [hget] at hk
      cases hk
    · have hne : h ≠ hn := by
        rintro rfl
        rw [hfresh] at hget
        cases hget
      rw [hget, Option.bind_some] at hk
      rw [Function.update_of_ne hne, hget, Option.bind_some]
      rcases hhead : (skips c).head? with _ | q
      · rw [hhead] at hk
        cases hk
      · rw [hhead] at hk
        exact ih hk

/-- A walk through nodes that are there is the same in a store that keeps them. -/
theorem follow_mono {get' : H → Option α} (hext : ∀ h a, get h = some a → get' h = some a)
    {k : Nat} {h p : H} (hk : follow get skips k h = some p) : follow get' skips k h = some p := by
  induction k generalizing h with
  | zero => exact hk
  | succ k ih =>
    rw [follow_succ] at hk ⊢
    obtain ⟨a, ha, hk⟩ := Option.bind_eq_some_iff.mp hk
    rw [hext h a ha, Option.bind_some]
    obtain ⟨q, hq, hk⟩ := Option.bind_eq_some_iff.mp hk
    rw [hq, Option.bind_some]
    exact ih hk

theorem find_succ (lg : Nat → Nat) (fuel : Nat) (h : H) (target : Nat) :
    find get level skips lg (fuel + 1) h target = (get h).bind fun a =>
      if level a < target then some none
      else if level a = target then some (some h)
      else ((skips a)[min (lg (level a - target)) ((skips a).length - 1)]?).bind fun next =>
        find get level skips lg fuel next target :=
  rfl

theorem extend_succ (count : Nat) (pointers : List H) :
    extend get skips (count + 1) pointers = (extend get skips count pointers).bind fun ps =>
      (ps[count]?).bind fun old => (get old).bind fun a =>
        ((skips a)[count]?).bind fun next => some (ps ++ [next]) := by
  simp only [extend, List.range_succ, List.foldlM_append, List.foldlM_cons, List.foldlM_nil,
    bind_pure]
  rfl

/-- The loop only appends to the pointers it starts from. -/
theorem extend_prefix {count : Nat} {pointers pointers' : List H}
    (h : extend get skips count pointers = some pointers') : pointers <+: pointers' := by
  induction count generalizing pointers' with
  | zero =>
    obtain rfl : pointers = pointers' := Option.some.inj h
    exact List.prefix_refl _
  | succ count ih =>
    rw [extend_succ] at h
    obtain ⟨ps, hps, h⟩ := Option.bind_eq_some_iff.mp h
    obtain ⟨old, -, h⟩ := Option.bind_eq_some_iff.mp h
    obtain ⟨a, -, h⟩ := Option.bind_eq_some_iff.mp h
    obtain ⟨next, -, h⟩ := Option.bind_eq_some_iff.mp h
    obtain rfl := Option.some.inj h
    exact (ih hps).trans (List.prefix_append _ _)

/-! ## Levels along the walk -/

section Wf

variable (hwf : Wf get level skips)
include hwf

/-- A node above level `0` has a first pointer. -/
theorem Wf.head?_isSome {h : H} {a : α} (ha : get h = some a) (hpos : 0 < level a) :
    ∃ p b, (skips a).head? = some p ∧ get p = some b ∧ level b + 1 = level a := by
  have hlen := (hwf h a ha).length_eq
  rw [if_neg (by omega)] at hlen
  rcases hhead : (skips a).head? with _ | p
  · rw [List.head?_eq_none_iff] at hhead
    rw [hhead] at hlen
    simp at hlen
  · obtain ⟨b, hb, hlevel⟩ := (hwf h a ha).first p hhead
    exact ⟨p, b, rfl, hb, hlevel⟩

/-- The walk goes one level down a step, as far as level `0`. -/
theorem Wf.follow_level {h : H} {a : α} (ha : get h = some a) {k : Nat} (hk : k ≤ level a) :
    ∃ p b, follow get skips k h = some p ∧ get p = some b ∧ level b = level a - k := by
  induction k generalizing h a with
  | zero => exact ⟨h, a, rfl, ha, by simp⟩
  | succ k ih =>
    obtain ⟨q, c, hhead, hc, hlevel⟩ := hwf.head?_isSome ha (by omega)
    obtain ⟨p, b, hp, hb, hlevel'⟩ := ih hc (by omega)
    refine ⟨p, b, ?_, hb, by omega⟩
    rw [follow_succ, ha, Option.bind_some, hhead, Option.bind_some, hp]

/-- A walk that arrives has gone at most the node's level down, and lands that many levels
below it. -/
theorem Wf.level_of_follow {h p : H} {a : α} (ha : get h = some a) {k : Nat}
    (hk : follow get skips k h = some p) :
    k ≤ level a ∧ ∃ b, get p = some b ∧ level b = level a - k := by
  by_cases hle : k ≤ level a
  · obtain ⟨q, b, hq, hb, hlevel⟩ := hwf.follow_level ha hle
    obtain rfl : q = p := Option.some.inj (hq.symm.trans hk)
    exact ⟨hle, b, hb, hlevel⟩
  · -- past level `0` there is no first pointer left to take
    obtain ⟨q, b, hq, hb, hlevel⟩ := hwf.follow_level ha (le_refl (level a))
    have hnil : (skips b).head? = none := by
      have hlen := (hwf q b hb).length_eq
      rw [if_pos (by omega)] at hlen
      rw [List.head?_eq_none_iff, ← List.length_eq_zero_iff, hlen]
    rw [show k = level a + 1 + (k - level a - 1) by omega, follow_add, follow_add, hq,
      Option.bind_some, follow_succ, hb, Option.bind_some, hnil] at hk
    cases hk

/-- **The search agrees with the walk.**  With `2 ^ lg d ≤ d` for every distance, the search
from a node for a level returns nothing above the node, and else the node that the walk reaches
at that level, given more fuel than the levels between. -/
theorem Wf.find_eq {lg : Nat → Nat} (hlg : ∀ d, 0 < d → 2 ^ lg d ≤ d) {h : H} {a : α}
    (ha : get h = some a) {target fuel : Nat} (hfuel : level a - target < fuel) :
    find get level skips lg fuel h target =
      some (if level a < target then none else follow get skips (level a - target) h) := by
  induction fuel generalizing h a with
  | zero => omega
  | succ fuel ih =>
    rw [find_succ, ha, Option.bind_some]
    by_cases hlt : level a < target
    · rw [if_pos hlt, if_pos hlt]
    by_cases heq : level a = target
    · rw [if_neg hlt, if_pos heq, if_neg hlt, heq, Nat.sub_self, follow_zero]
    rw [if_neg hlt, if_neg heq, if_neg hlt]
    -- the jump: `2 ^ i` levels, at most the distance, along a pointer the node has
    set i := min (lg (level a - target)) ((skips a).length - 1) with hi_def
    have hlen := (hwf h a ha).length_eq
    rw [if_neg (by omega)] at hlen
    have hi_le : i ≤ (skips a).length - 1 := min_le_right _ _
    have hi : i < (skips a).length := by omega
    have hjump : 2 ^ i ≤ level a - target :=
      le_trans (Nat.pow_le_pow_right (by omega) (min_le_left _ _)) (hlg _ (by omega))
    have hpow : 1 ≤ 2 ^ i := Nat.one_le_two_pow
    obtain ⟨p, b, hp, hb, hlevel⟩ := hwf.follow_level ha (k := 2 ^ i) (by omega)
    have hnext : (skips a)[i] = p := Option.some.inj (((hwf h a ha).pointer i hi).symm.trans hp)
    rw [List.getElem?_eq_getElem hi, Option.bind_some, hnext, ih hb (by omega), if_neg (by omega)]
    -- the rest of the walk goes on from the node the jump lands on
    rw [show level a - target = 2 ^ i + (level b - target) by omega, follow_add, hp,
      Option.bind_some]

/-- The search's result, spelled out: nothing above the node, and else a node at the level,
which the walk reaches. -/
theorem Wf.find_spec {lg : Nat → Nat} (hlg : ∀ d, 0 < d → 2 ^ lg d ≤ d) {h : H} {a : α}
    (ha : get h = some a) {target fuel : Nat} (hfuel : level a - target < fuel) :
    if level a < target then find get level skips lg fuel h target = some none
    else ∃ p b, follow get skips (level a - target) h = some p ∧ get p = some b ∧
      level b = target ∧ find get level skips lg fuel h target = some (some p) := by
  rw [hwf.find_eq hlg ha hfuel]
  split_ifs with hlt
  · rfl
  · obtain ⟨p, b, hp, hb, hlevel⟩ := hwf.follow_level ha (k := level a - target) (by omega)
    exact ⟨p, b, hp, hb, by omega, by rw [hp]⟩

/-! ## Building a node's pointers -/

/-- **The pointers the loop builds.**  From a first pointer to a node one level below a level
that `2 ^ count` divides, the loop succeeds with `count + 1` pointers, the `i`-th `2 ^ i - 1`
steps below the first. -/
theorem Wf.extend_eq {p : H} {b : α} (hp : get p = some b) {count : Nat}
    (hdvd : 2 ^ count ∣ level b + 1) :
    ∃ ps, extend get skips count [p] = some ps ∧ ps.length = count + 1 ∧
      ∀ i (hi : i < ps.length), follow get skips (2 ^ i - 1) p = some ps[i] := by
  -- the invariant of the loop after `j` rounds
  suffices hloop : ∀ j ≤ count, ∃ ps, extend get skips j [p] = some ps ∧ ps.length = j + 1 ∧
      ∀ i (hi : i < ps.length), follow get skips (2 ^ i - 1) p = some ps[i] from
    hloop count le_rfl
  intro j hj
  induction j with
  | zero =>
    refine ⟨[p], rfl, rfl, fun i hi => ?_⟩
    obtain rfl : i = 0 := by simpa using hi
    rfl
  | succ j ih =>
    obtain ⟨ps, hps, hlen, hfollow⟩ := ih (by omega)
    have hj : j < ps.length := by omega
    -- round `j` reads the node `2 ^ j` levels below the new one
    have hdvdj : 2 ^ (j + 1) ∣ level b + 1 := (Nat.pow_dvd_pow 2 (by omega)).trans hdvd
    have hpowj : 2 ^ (j + 1) ≤ level b + 1 := Nat.le_of_dvd (by omega) hdvdj
    rw [pow_succ] at hpowj
    obtain ⟨q, c, hq, hc, hlevel⟩ := hwf.follow_level hp (k := 2 ^ j - 1) (by omega)
    have hqj : ps[j] = q := Option.some.inj ((hfollow j hj).symm.trans hq)
    -- whose level `2 ^ j` divides, so it has a `j`-th pointer
    have hdvdc : 2 ^ j ∣ level c := by
      rw [hlevel, show level b - (2 ^ j - 1) = (level b + 1) - 2 ^ j by omega]
      exact Nat.dvd_sub ((Nat.pow_dvd_pow 2 (by omega)).trans hdvd) dvd_rfl
    have hcpos : level c ≠ 0 := by omega
    have hjc : j < (skips c).length := by
      rw [(hwf q c hc).length_eq, if_neg hcpos]
      have := (Nat.pow_dvd_iff_le_padicValNat (by omega) hcpos).mp hdvdc
      omega
    refine ⟨ps ++ [(skips c)[j]], ?_, by simp [hlen], fun i hi => ?_⟩
    · rw [extend_succ, hps, Option.bind_some, List.getElem?_eq_getElem hj, Option.bind_some, hqj,
        hc, Option.bind_some, List.getElem?_eq_getElem hjc, Option.bind_some]
    · rcases Nat.lt_or_ge i ps.length with hi' | hi'
      · rw [List.getElem_append_left hi']
        exact hfollow i hi'
      · -- the new pointer: `2 ^ j` more steps from the node read
        simp only [List.length_append, List.length_singleton] at hi
        obtain rfl : i = j + 1 := by omega
        rw [List.getElem_append_right (by omega)]
        simp only [hlen, Nat.sub_self, List.getElem_singleton]
        rw [show 2 ^ (j + 1) - 1 = (2 ^ j - 1) + 2 ^ j by rw [pow_succ]; omega, follow_add, hq,
          Option.bind_some]
        exact (hwf q c hc).pointer j hjc

/-- **Insertion keeps the store well formed.**  A new node that the loop builds is well formed,
and so are the nodes already there. -/
theorem Wf.insert [DecidableEq H] {hn : H} (hfresh : get hn = none) {a : α}
    (hnode : Builds get level skips a) :
    Wf (Function.update get hn (some a)) level skips := by
  intro h c hc
  by_cases hh : h = hn
  · subst hh
    rw [Function.update_self, Option.some_inj] at hc
    subst hc
    rcases hnode with ⟨hzero, hnil⟩ | ⟨p, b, hp, hlevel, hext⟩
    · exact ⟨by simp [hzero, hnil], by simp [hnil], by simp [hnil]⟩
    · have hdvd : 2 ^ padicValNat 2 (level a) ∣ level b + 1 := hlevel ▸ pow_padicValNat_dvd
      obtain ⟨ps, hps, hlen, hfollow⟩ := hwf.extend_eq hp hdvd
      obtain rfl : skips a = ps := Option.some.inj (hext.symm.trans hps)
      have hhead : (skips a).head? = some p := by
        rw [List.head?_eq_getElem?, List.getElem?_eq_getElem (by omega)]
        exact congrArg some (Option.some.inj (hfollow 0 (by omega))).symm
      refine ⟨by rw [hlen, if_neg (by omega)], fun q hq => ?_, fun i hi => ?_⟩
      · obtain rfl : q = p := Option.some.inj (hq.symm.trans hhead)
        have hne : q ≠ h := by
          rintro rfl
          rw [hfresh] at hp
          cases hp
        exact ⟨b, by rw [Function.update_of_ne hne, hp], by omega⟩
      · -- a pointer of the new node: one step to the first pointer, then the old walk
        rw [show 2 ^ i = 1 + (2 ^ i - 1) by have := Nat.one_le_two_pow (n := i); omega, follow_add,
          follow_succ, Function.update_self, Option.bind_some, hhead, Option.bind_some,
          follow_zero, Option.bind_some]
        exact follow_update_of_fresh hfresh a (hfollow i hi)
  · -- a node already there keeps its pointers, and its walks avoid the new key
    rw [Function.update_of_ne hh] at hc
    have hok := hwf h c hc
    refine ⟨hok.length_eq, fun q hq => ?_, fun i hi => follow_update_of_fresh hfresh a (hok.pointer i hi)⟩
    obtain ⟨b, hb, hlevel⟩ := hok.first q hq
    have hne : q ≠ hn := by
      rintro rfl
      rw [hfresh] at hb
      cases hb
    exact ⟨b, by rw [Function.update_of_ne hne, hb], hlevel⟩

end Wf

end SkipList
