import CasperNode.Storage.Trie

/-!
# The missing descendants of a trie

While the node syncs global state it fetches tries by digest and stores them, and after each it
asks which digests below are still absent.  `missing_trie_keys` answers with a depth-first
search: a stack of digests to visit, the set of digests visited, and the list of those found
missing.  A digest in `known_complete` is not entered, since everything below it is stored.  An
entry whose first byte is the leaf tag is not parsed, since a leaf has no children; an entry that
does not parse is reported missing, like an absent one.  `descendant_trie_keys` runs the same
search and returns the visited set.

The store is read through `get_raw`, and its entries are parsed with
`bytesrepr::deserialize_from_slice` of the trie's `from_bytes`; both are parameters here
(`getRaw` and `trieFromBytes`), so the store is arbitrary: entries may point at absent digests,
point at each other in cycles, or fail to parse.

Both searches are one loop, `Traversal.step` run on fuel by `Traversal.run`, whose state keeps
both results.  `examine` is the body of the loop for a digest not visited before, and
`mem_examine_fst` and `examine_snd` say what it does in the terms of the specification: `Child`,
the pointers the search follows, and `Missing`.  The invariant `Traversal.Inv` holds from the
start and is kept by each step; when the stack is empty the visited set is closed under `Child`,
so it is exactly the digests `Reached` from the start, and the missing list holds each reached
`Missing` digest once (`missingTrieKeys_exact`).  For a store with finitely many entries the loop
ends: each pass lowers `Traversal.potential`, the stack's length plus 256 for every stored digest
not yet visited.
-/

namespace CasperNode

namespace MissingTries

variable {K V D : Type}

/-- `Trie::LEAF_TAG`. -/
def leafTag : UInt8 := 0

/-- The digests the loop pushes for a parsed entry, in the order it pushes them. -/
def descendants : Trie K V D → List D
  | .leaf _ _ => []
  | .node pointerBlock => pointerBlock.asIndexedPointers.map fun e => e.2.hash
  | .extension _ pointer => [pointer.hash]

theorem length_descendants_le (trie : Trie K V D) : (descendants trie).length ≤ 256 := by
  cases trie with
  | leaf => simp [descendants]
  | node pointerBlock =>
    simp only [descendants, List.length_map, PointerBlock.asIndexedPointers]
    exact (List.length_filterMap_le _ _).trans (by simp)
  | extension => simp [descendants]

/-- The state of the loop: the `Vec` of digests to visit as a list whose head is the `Vec`'s
last element, the `visited` set, and `missing_descendants`. -/
structure Traversal (D : Type) where
  toVisit : List D
  visited : Finset D
  missing : List D

variable [DecidableEq D]

section Loop

variable (getRaw : D → Option (List UInt8)) (trieFromBytes : List UInt8 → Decoded (Trie K V D))
  (knownComplete : Finset D)

/-- The body of the loop for a digest not visited before: the digests it pushes, and whether it
is reported missing. -/
def examine (trieKey : D) : List D × Bool :=
  if trieKey ∈ knownComplete then ([], false)
  else
    match getRaw trieKey with
    | none => ([], true)
    | some bytes =>
      if bytes.head? = some leafTag then ([], false)
      else
        match deserializeFromSlice trieFromBytes bytes with
        | .error _ => ([], true)
        | .ok trie => (descendants trie, false)

/-- One pass of the `while let Some(trie_key) = trie_keys_to_visit.pop()` loop; `none` when the
stack is empty and the loop ends. -/
def Traversal.step (s : Traversal D) : Option (Traversal D) :=
  match s.toVisit with
  | [] => none
  | trieKey :: rest =>
    if trieKey ∈ s.visited then some { s with toVisit := rest }
    else
      let examined := examine getRaw trieFromBytes knownComplete trieKey
      some ⟨examined.1.reverse ++ rest, insert trieKey s.visited,
        if examined.2 then s.missing ++ [trieKey] else s.missing⟩

/-- The loop run for at most `fuel` passes. -/
def Traversal.run : ℕ → Traversal D → Option (Traversal D)
  | 0, _ => none
  | fuel + 1, s =>
    match Traversal.step getRaw trieFromBytes knownComplete s with
    | none => some s
    | some s' => Traversal.run fuel s'

/-- The state before the loop: the digests to visit, nothing visited, nothing missing. -/
def Traversal.init (trieKeysToVisit : List D) : Traversal D := ⟨trieKeysToVisit.reverse, ∅, []⟩

/-- `missing_trie_keys`, given `fuel` passes of its loop. -/
def missingTrieKeys (fuel : ℕ) (trieKeysToVisit : List D) : Option (List D) :=
  ((Traversal.init trieKeysToVisit).run getRaw trieFromBytes knownComplete fuel).map
    Traversal.missing

/-- `descendant_trie_keys`: the same loop without the missing list, returning `visited`. -/
def descendantTrieKeys (fuel : ℕ) (trieKeysToVisit : List D) : Option (Finset D) :=
  ((Traversal.init trieKeysToVisit).run getRaw trieFromBytes knownComplete fuel).map
    Traversal.visited

/-! ## What the search should find -/

/-- The search enters `trieKey` and reads `trie` there: the digest is not known complete, and
its entry is stored without the leaf tag and parses. -/
def Entered (trieKey : D) (trie : Trie K V D) : Prop :=
  trieKey ∉ knownComplete ∧ ∃ bytes, getRaw trieKey = some bytes ∧ bytes.head? ≠ some leafTag ∧
    deserializeFromSlice trieFromBytes bytes = .ok trie

/-- The pointers the search follows. -/
def Child (parent child : D) : Prop :=
  ∃ trie, Entered getRaw trieFromBytes knownComplete parent trie ∧ child ∈ descendants trie

/-- The digests reached from the start by following `Child`. -/
def Reached (trieKeysToVisit : List D) (d : D) : Prop :=
  ∃ start ∈ trieKeysToVisit, Relation.ReflTransGen (Child getRaw trieFromBytes knownComplete) start d

/-- A digest to report: not known complete, and absent, or stored without the leaf tag and
unparseable. -/
def Missing (d : D) : Prop :=
  d ∉ knownComplete ∧ (getRaw d = none ∨ ∃ bytes, getRaw d = some bytes ∧
    bytes.head? ≠ some leafTag ∧ ∃ error, deserializeFromSlice trieFromBytes bytes = .error error)

omit [DecidableEq D] in
variable {getRaw trieFromBytes knownComplete} in
theorem Entered.unique {trieKey : D} {trie₁ trie₂ : Trie K V D}
    (h₁ : Entered getRaw trieFromBytes knownComplete trieKey trie₁)
    (h₂ : Entered getRaw trieFromBytes knownComplete trieKey trie₂) : trie₁ = trie₂ := by
  obtain ⟨-, bytes₁, hraw₁, -, hparse₁⟩ := h₁
  obtain ⟨-, bytes₂, hraw₂, -, hparse₂⟩ := h₂
  rw [hraw₁, Option.some.injEq] at hraw₂
  subst hraw₂
  rw [hparse₁, Except.ok.injEq] at hparse₂
  exact hparse₂

/-- What the body does with a digest, said once: it pushes the descendants of the trie it enters
and does not report it, or it pushes nothing and reports it exactly when it is `Missing`. -/
theorem examine_cases (trieKey : D) :
    (∃ trie, Entered getRaw trieFromBytes knownComplete trieKey trie ∧
      examine getRaw trieFromBytes knownComplete trieKey = (descendants trie, false)) ∨
    ((∀ trie, ¬Entered getRaw trieFromBytes knownComplete trieKey trie) ∧
      ∃ missing, examine getRaw trieFromBytes knownComplete trieKey = ([], missing) ∧
        (missing = true ↔ Missing getRaw trieFromBytes knownComplete trieKey)) := by
  by_cases hknown : trieKey ∈ knownComplete
  · refine .inr ⟨fun trie hentered => hentered.1 hknown, false, by simp [examine, hknown], ?_⟩
    simp [Missing, hknown]
  rcases hraw : getRaw trieKey with _ | bytes
  · refine .inr ⟨fun trie ⟨_, bytes, hsome, _⟩ => by simp [hraw] at hsome, true, ?_, ?_⟩
    · simp [examine, hknown, hraw]
    · simp [Missing, hknown, hraw]
  by_cases hleaf : bytes.head? = some leafTag
  · refine .inr ⟨fun trie ⟨_, bytes', hsome, hleaf', _⟩ => ?_, false, ?_, ?_⟩
    · rw [hraw, Option.some.injEq] at hsome
      exact hleaf' (hsome ▸ hleaf)
    · simp [examine, hknown, hraw, hleaf]
    · simp [Missing, hraw, hleaf]
  rcases hparse : deserializeFromSlice trieFromBytes bytes with error | trie
  · refine .inr ⟨fun trie ⟨_, bytes', hsome, _, hok⟩ => ?_, true, ?_, ?_⟩
    · rw [hraw, Option.some.injEq] at hsome
      subst hsome
      rw [hparse] at hok
      cases hok
    · simp [examine, hknown, hraw, hleaf, hparse]
    · simp only [Missing, hraw, true_iff]
      exact ⟨hknown, .inr ⟨bytes, rfl, hleaf, error, hparse⟩⟩
  · exact .inl ⟨trie, ⟨hknown, bytes, hraw, hleaf, hparse⟩, by simp [examine, hknown, hraw, hleaf, hparse]⟩

theorem mem_examine_fst {trieKey child : D} :
    child ∈ (examine getRaw trieFromBytes knownComplete trieKey).1 ↔
      Child getRaw trieFromBytes knownComplete trieKey child := by
  rcases examine_cases getRaw trieFromBytes knownComplete trieKey with
    ⟨trie, hentered, hexamine⟩ | ⟨hnone, missing, hexamine, -⟩
  · rw [hexamine]
    constructor
    · intro hchild
      exact ⟨trie, hentered, hchild⟩
    · rintro ⟨trie', hentered', hchild⟩
      rwa [hentered.unique hentered']
  · rw [hexamine]
    simp only [List.not_mem_nil, false_iff]
    rintro ⟨trie, hentered, -⟩
    exact hnone trie hentered

theorem examine_snd {trieKey : D} :
    (examine getRaw trieFromBytes knownComplete trieKey).2 = true ↔
      Missing getRaw trieFromBytes knownComplete trieKey := by
  rcases examine_cases getRaw trieFromBytes knownComplete trieKey with
    ⟨trie, ⟨hknown, bytes, hraw, hleaf, hparse⟩, hexamine⟩ | ⟨-, missing, hexamine, hmissing⟩
  · rw [hexamine]
    simp only [Bool.false_eq_true, false_iff]
    rintro ⟨-, hnone | ⟨bytes', hsome, -, error, herror⟩⟩
    · simp [hraw] at hnone
    · rw [hraw, Option.some.injEq] at hsome
      subst hsome
      rw [hparse] at herror
      cases herror
  · rw [hexamine]
    exact hmissing

/-- Only a stored digest has anything to push, and never more than a node's 256 slots. -/
theorem length_examine_fst_le (trieKey : D) :
    (examine getRaw trieFromBytes knownComplete trieKey).1.length ≤
      if getRaw trieKey = none then 0 else 256 := by
  rcases examine_cases getRaw trieFromBytes knownComplete trieKey with
    ⟨trie, ⟨-, bytes, hraw, -⟩, hexamine⟩ | ⟨-, missing, hexamine, -⟩
  · rw [hexamine, hraw]
    simpa using length_descendants_le trie
  · rw [hexamine]
    simp

/-! ## One pass of the loop -/

/-- What the loop keeps true, for the digests `trieKeysToVisit` it started from: what it has
seen is reached; every start digest and every child of a visited digest is visited or on the
stack; the missing list is the visited `Missing` digests, each once. -/
structure Traversal.Inv (trieKeysToVisit : List D) (s : Traversal D) : Prop where
  reached_visited : ∀ d ∈ s.visited, Reached getRaw trieFromBytes knownComplete trieKeysToVisit d
  reached_toVisit : ∀ d ∈ s.toVisit, Reached getRaw trieFromBytes knownComplete trieKeysToVisit d
  start_mem : ∀ d ∈ trieKeysToVisit, d ∈ s.visited ∨ d ∈ s.toVisit
  closed : ∀ d ∈ s.visited, ∀ c, Child getRaw trieFromBytes knownComplete d c →
    c ∈ s.visited ∨ c ∈ s.toVisit
  mem_missing : ∀ d, d ∈ s.missing ↔ d ∈ s.visited ∧ Missing getRaw trieFromBytes knownComplete d
  nodup_missing : s.missing.Nodup

/-- The stack's length, and 256 for each digest of `entries` not yet visited. -/
def Traversal.potential (entries : Finset D) (s : Traversal D) : ℕ :=
  s.toVisit.length + 256 * (entries \ s.visited).card

variable {getRaw trieFromBytes knownComplete}

theorem Traversal.step_eq_none_iff {s : Traversal D} :
    s.step getRaw trieFromBytes knownComplete = none ↔ s.toVisit = [] := by
  rcases s with ⟨_ | ⟨trieKey, rest⟩, visited, missing⟩
  · simp [Traversal.step]
  · simp only [Traversal.step, reduceCtorEq, iff_false]
    split_ifs <;> simp

/-- What one pass does, said once: it pops the top of the stack, and unless that digest was
visited it marks it visited, pushes what `examine` finds and records it if missing. -/
theorem Traversal.step_eq_some {s s' : Traversal D}
    (h : s.step getRaw trieFromBytes knownComplete = some s') :
    ∃ trieKey rest, s.toVisit = trieKey :: rest ∧
      ((trieKey ∈ s.visited ∧ s' = { s with toVisit := rest }) ∨
        (trieKey ∉ s.visited ∧
          s' = ⟨(examine getRaw trieFromBytes knownComplete trieKey).1.reverse ++ rest,
            insert trieKey s.visited,
            if (examine getRaw trieFromBytes knownComplete trieKey).2 then s.missing ++ [trieKey]
            else s.missing⟩)) := by
  rcases s with ⟨_ | ⟨trieKey, rest⟩, visited, missing⟩
  · simp [Traversal.step] at h
  · refine ⟨trieKey, rest, rfl, ?_⟩
    simp only [Traversal.step] at h
    by_cases hvisited : trieKey ∈ visited
    · rw [if_pos hvisited] at h
      exact .inl ⟨hvisited, (Option.some.inj h).symm⟩
    · rw [if_neg hvisited] at h
      exact .inr ⟨hvisited, (Option.some.inj h).symm⟩

omit [DecidableEq D] in
theorem Traversal.Inv.init (trieKeysToVisit : List D) :
    (Traversal.init trieKeysToVisit).Inv getRaw trieFromBytes knownComplete trieKeysToVisit where
  reached_visited d hd := by simp [Traversal.init] at hd
  reached_toVisit d hd := ⟨d, List.mem_reverse.mp hd, .refl⟩
  start_mem d hd := .inr (List.mem_reverse.mpr hd)
  closed d hd := by simp [Traversal.init] at hd
  mem_missing d := by simp [Traversal.init]
  nodup_missing := List.nodup_nil

omit [DecidableEq D] in
theorem mem_or_mem_of_pop {visited : Finset D} {c trieKey : D} {rest : List D}
    (hvisited : trieKey ∈ visited) (h : c ∈ visited ∨ c ∈ trieKey :: rest) :
    c ∈ visited ∨ c ∈ rest := by
  rcases h with h | h | ⟨_, h⟩
  · exact .inl h
  · exact .inl hvisited
  · exact .inr h

theorem mem_or_mem_of_visit {visited : Finset D} {c trieKey : D} {pushed rest : List D}
    (h : c ∈ visited ∨ c ∈ trieKey :: rest) :
    c ∈ insert trieKey visited ∨ c ∈ pushed ++ rest := by
  rcases h with h | h | ⟨_, h⟩
  · exact .inl (Finset.mem_insert_of_mem h)
  · exact .inl (Finset.mem_insert_self _ _)
  · exact .inr (List.mem_append_right _ h)

omit [DecidableEq D] in
/-- Popping a visited digest keeps the invariant. -/
theorem Traversal.Inv.pop {trieKeysToVisit rest : List D} {s : Traversal D} {trieKey : D}
    (hinv : s.Inv getRaw trieFromBytes knownComplete trieKeysToVisit)
    (htoVisit : s.toVisit = trieKey :: rest) (hvisited : trieKey ∈ s.visited) :
    ({ s with toVisit := rest } : Traversal D).Inv getRaw trieFromBytes knownComplete
      trieKeysToVisit where
  reached_visited := hinv.reached_visited
  reached_toVisit d hd := hinv.reached_toVisit d (htoVisit ▸ List.mem_cons_of_mem _ hd)
  start_mem d hd := mem_or_mem_of_pop hvisited (htoVisit ▸ hinv.start_mem d hd)
  closed d hd c hc := mem_or_mem_of_pop hvisited (htoVisit ▸ hinv.closed d hd c hc)
  mem_missing := hinv.mem_missing
  nodup_missing := hinv.nodup_missing

/-- Visiting a fresh digest keeps the invariant: what it pushes are its children, and it is
recorded exactly when it is missing. -/
theorem Traversal.Inv.visit {trieKeysToVisit rest : List D} {s : Traversal D} {trieKey : D}
    (hinv : s.Inv getRaw trieFromBytes knownComplete trieKeysToVisit)
    (htoVisit : s.toVisit = trieKey :: rest) (hfresh : trieKey ∉ s.visited) :
    (⟨(examine getRaw trieFromBytes knownComplete trieKey).1.reverse ++ rest,
        insert trieKey s.visited,
        if (examine getRaw trieFromBytes knownComplete trieKey).2 then s.missing ++ [trieKey]
        else s.missing⟩ : Traversal D).Inv getRaw trieFromBytes knownComplete
      trieKeysToVisit := by
  have hreached : Reached getRaw trieFromBytes knownComplete trieKeysToVisit trieKey :=
    hinv.reached_toVisit trieKey (htoVisit ▸ List.mem_cons_self)
  have hnotMissing : trieKey ∉ s.missing := fun hmem => hfresh ((hinv.mem_missing _).mp hmem).1
  refine ⟨fun d hd => ?_, fun d hd => ?_, fun d hd => ?_, fun d hd c hc => ?_, fun d => ?_, ?_⟩
  · rcases Finset.mem_insert.mp hd with rfl | hd
    · exact hreached
    · exact hinv.reached_visited d hd
  · rcases List.mem_append.mp hd with hd | hd
    · obtain ⟨root, hroot, hpath⟩ := hreached
      exact ⟨root, hroot, hpath.tail ((mem_examine_fst _ _ _).mp (List.mem_reverse.mp hd))⟩
    · exact hinv.reached_toVisit d (htoVisit ▸ List.mem_cons_of_mem _ hd)
  · exact mem_or_mem_of_visit (htoVisit ▸ hinv.start_mem d hd)
  · rcases Finset.mem_insert.mp hd with rfl | hd
    · exact .inr (List.mem_append_left _ (List.mem_reverse.mpr ((mem_examine_fst _ _ _).mpr hc)))
    · exact mem_or_mem_of_visit (htoVisit ▸ hinv.closed d hd c hc)
  · -- the fresh digest is recorded exactly when `examine` reports it, that is when it is missing
    have hsnd : (examine getRaw trieFromBytes knownComplete trieKey).2 = true ↔
        Missing getRaw trieFromBytes knownComplete trieKey :=
      examine_snd getRaw trieFromBytes knownComplete
    rw [Finset.mem_insert]
    split
    · next hreport =>
      rw [List.mem_append, List.mem_singleton, hinv.mem_missing d]
      constructor
      · rintro (⟨hvisited, hmissing⟩ | rfl)
        · exact ⟨.inr hvisited, hmissing⟩
        · exact ⟨.inl rfl, hsnd.mp hreport⟩
      · rintro ⟨rfl | hvisited, hmissing⟩
        · exact .inr rfl
        · exact .inl ⟨hvisited, hmissing⟩
    · next hreport =>
      rw [hinv.mem_missing d]
      constructor
      · rintro ⟨hvisited, hmissing⟩
        exact ⟨.inr hvisited, hmissing⟩
      · rintro ⟨rfl | hvisited, hmissing⟩
        · exact absurd (hsnd.mpr hmissing) hreport
        · exact ⟨hvisited, hmissing⟩
  · split
    · refine List.nodup_append.mpr ⟨hinv.nodup_missing, List.nodup_singleton _, ?_⟩
      intro d hd b hb hdb
      rw [List.mem_singleton] at hb
      exact hnotMissing (hb ▸ hdb ▸ hd)
    · exact hinv.nodup_missing

theorem Traversal.Inv.step {trieKeysToVisit : List D} {s s' : Traversal D}
    (hinv : s.Inv getRaw trieFromBytes knownComplete trieKeysToVisit)
    (h : s.step getRaw trieFromBytes knownComplete = some s') :
    s'.Inv getRaw trieFromBytes knownComplete trieKeysToVisit := by
  obtain ⟨trieKey, rest, htoVisit, ⟨hvisited, rfl⟩ | ⟨hfresh, rfl⟩⟩ := Traversal.step_eq_some h
  · exact hinv.pop htoVisit hvisited
  · exact hinv.visit htoVisit hfresh

/-- Each pass lowers the potential: a fresh digest with anything to push is a stored one, and
is now visited. -/
theorem Traversal.potential_step {entries : Finset D}
    (hentries : ∀ d, getRaw d ≠ none → d ∈ entries) {s s' : Traversal D}
    (h : s.step getRaw trieFromBytes knownComplete = some s') :
    s'.potential entries < s.potential entries := by
  obtain ⟨trieKey, rest, htoVisit, ⟨-, rfl⟩ | ⟨hfresh, rfl⟩⟩ := Traversal.step_eq_some h
  · simp [Traversal.potential, htoVisit]
  · have hlen := length_examine_fst_le getRaw trieFromBytes knownComplete trieKey
    have herase : ((entries \ s.visited).erase trieKey).card ≤ (entries \ s.visited).card :=
      Finset.card_erase_le
    simp only [Traversal.potential, htoVisit, List.length_append, List.length_reverse,
      List.length_cons, Finset.sdiff_insert]
    by_cases hraw : getRaw trieKey = none
    · rw [if_pos hraw] at hlen
      omega
    · rw [if_neg hraw] at hlen
      have hmem : trieKey ∈ entries \ s.visited :=
        Finset.mem_sdiff.mpr ⟨hentries trieKey hraw, hfresh⟩
      have hcard := Finset.card_erase_of_mem hmem
      have hpos : 0 < (entries \ s.visited).card := Finset.card_pos.mpr ⟨trieKey, hmem⟩
      omega

/-! ## Whole runs -/

/-- A run keeps the invariant and ends with an empty stack. -/
theorem Traversal.Inv.run {trieKeysToVisit : List D} {s s' : Traversal D} {fuel : ℕ}
    (hinv : s.Inv getRaw trieFromBytes knownComplete trieKeysToVisit)
    (hrun : s.run getRaw trieFromBytes knownComplete fuel = some s') :
    s'.Inv getRaw trieFromBytes knownComplete trieKeysToVisit ∧ s'.toVisit = [] := by
  induction fuel generalizing s with
  | zero => simp [Traversal.run] at hrun
  | succ fuel ih =>
    simp only [Traversal.run] at hrun
    rcases hstep : s.step getRaw trieFromBytes knownComplete with _ | s''
    · rw [hstep, Option.some.injEq] at hrun
      subst hrun
      exact ⟨hinv, Traversal.step_eq_none_iff.mp hstep⟩
    · rw [hstep] at hrun
      exact ih (hinv.step hstep) hrun

/-- On a store with finitely many entries the loop ends within its potential. -/
theorem Traversal.run_isSome {entries : Finset D} (hentries : ∀ d, getRaw d ≠ none → d ∈ entries)
    {s : Traversal D} {fuel : ℕ} (hfuel : s.potential entries < fuel) :
    ∃ s', s.run getRaw trieFromBytes knownComplete fuel = some s' := by
  induction fuel generalizing s with
  | zero => omega
  | succ fuel ih =>
    simp only [Traversal.run]
    rcases hstep : s.step getRaw trieFromBytes knownComplete with _ | s'
    · exact ⟨s, rfl⟩
    · have hlt := Traversal.potential_step hentries hstep
      exact ih (by omega)

omit [DecidableEq D] in
/-- With the stack empty, the visited set is closed under `Child`, so it holds everything
reached. -/
theorem Traversal.Inv.mem_visited_iff {trieKeysToVisit : List D} {s : Traversal D}
    (hinv : s.Inv getRaw trieFromBytes knownComplete trieKeysToVisit) (hdone : s.toVisit = [])
    (d : D) : d ∈ s.visited ↔ Reached getRaw trieFromBytes knownComplete trieKeysToVisit d := by
  constructor
  · exact hinv.reached_visited d
  · rintro ⟨root, hroot, hpath⟩
    -- along the path from a start digest, each digest is visited since its parent is
    induction hpath with
    | refl => simpa [hdone] using hinv.start_mem root hroot
    | tail _ hchild ih => simpa [hdone] using hinv.closed _ ih _ hchild

variable (getRaw trieFromBytes knownComplete)

/-- `missing_trie_keys` and `descendant_trie_keys` on a store with finitely many entries: given
more passes than the start's length and 256 per entry, both return.  The visited set is exactly
the digests reached from the start, and the missing list holds each reached `Missing` digest
exactly once. -/
theorem missingTrieKeys_exact (entries : Finset D) (hentries : ∀ d, getRaw d ≠ none → d ∈ entries)
    (trieKeysToVisit : List D) (fuel : ℕ)
    (hfuel : trieKeysToVisit.length + 256 * entries.card < fuel) :
    ∃ missing visited,
      missingTrieKeys getRaw trieFromBytes knownComplete fuel trieKeysToVisit = some missing ∧
      descendantTrieKeys getRaw trieFromBytes knownComplete fuel trieKeysToVisit = some visited ∧
      missing.Nodup ∧
      (∀ d, d ∈ missing ↔ Reached getRaw trieFromBytes knownComplete trieKeysToVisit d ∧
        Missing getRaw trieFromBytes knownComplete d) ∧
      (∀ d, d ∈ visited ↔ Reached getRaw trieFromBytes knownComplete trieKeysToVisit d) := by
  have hpotential : (Traversal.init trieKeysToVisit).potential entries < fuel := by
    simpa [Traversal.potential, Traversal.init] using hfuel
  obtain ⟨final, hrun⟩ := Traversal.run_isSome hentries hpotential
  obtain ⟨hinv, hdone⟩ := (Traversal.Inv.init trieKeysToVisit).run hrun
  refine ⟨final.missing, final.visited, by simp [missingTrieKeys, hrun],
    by simp [descendantTrieKeys, hrun], hinv.nodup_missing, fun d => ?_,
    hinv.mem_visited_iff hdone⟩
  rw [hinv.mem_missing d, hinv.mem_visited_iff hdone]

/-- A store over natural-number digests: `1` and `2` are parsed nodes, `3` holds bytes that do
not parse, `4` is stored, `6` is a leaf, and `5` is absent. -/
def cycleStore (d : ℕ) : Option (List UInt8) :=
  if d = 1 then some [1] else if d = 2 then some [2] else if d = 3 then some [9]
  else if d = 4 then some [4] else if d = 6 then some [0] else none

/-- A parser for `cycleStore`: `1` is a node over `2`, `3`, `4`, `5` and `6`, and `2` an
extension back to `1`, so the pointers form a cycle. -/
def cycleTries (bytes : List UInt8) : Decoded (Trie Unit Unit ℕ) :=
  if bytes = [1] then
    .ok (.node (PointerBlock.fromIndexedPointers [(0, .nodePointer 2), (1, .leafPointer 3),
      (2, .nodePointer 4), (3, .leafPointer 5), (4, .leafPointer 6)]), [])
  else if bytes = [2] then .ok (.extension [] (.nodePointer 1), [])
  else .error .formatting

/-- From `1`, with `4` known complete, the search goes round the cycle once, visits all six
digests, and reports the absent `5` and the unparseable `3`, but neither the leaf `6` nor `4`. -/
theorem missingTrieKeys_exact_cycleStore :
    (∀ d, cycleStore d ≠ none → d ∈ ({1, 2, 3, 4, 6} : Finset ℕ)) ∧
      [1].length + 256 * ({1, 2, 3, 4, 6} : Finset ℕ).card < 1282 ∧
      missingTrieKeys cycleStore cycleTries {4} 1282 [1] = some [5, 3] ∧
      descendantTrieKeys cycleStore cycleTries {4} 1282 [1] = some {1, 2, 3, 4, 5, 6} ∧
      [5, 3].Nodup ∧
      (∀ d, d ∈ [5, 3] ↔ Reached cycleStore cycleTries {4} [1] d ∧
        Missing cycleStore cycleTries {4} d) ∧
      (∀ d, d ∈ ({1, 2, 3, 4, 5, 6} : Finset ℕ) ↔ Reached cycleStore cycleTries {4} [1] d) := by
  have hentries : ∀ d, cycleStore d ≠ none → d ∈ ({1, 2, 3, 4, 6} : Finset ℕ) := by
    intro d hd
    simp only [cycleStore] at hd
    split_ifs at hd <;> simp_all
  have hmissing : missingTrieKeys cycleStore cycleTries {4} 1282 [1] = some [5, 3] := by decide
  have hvisited : descendantTrieKeys cycleStore cycleTries {4} 1282 [1] =
      some {1, 2, 3, 4, 5, 6} := by decide
  obtain ⟨missing, visited, hm, hv, hnodup, hmiss, hvis⟩ :=
    missingTrieKeys_exact cycleStore cycleTries {4} _ hentries [1] 1282 (by decide)
  obtain rfl : missing = [5, 3] := Option.some.inj (hm.symm.trans hmissing)
  obtain rfl : visited = {1, 2, 3, 4, 5, 6} := Option.some.inj (hv.symm.trans hvisited)
  exact ⟨hentries, by decide, hmissing, hvisited, hnodup, hmiss, hvis⟩

end Loop

end MissingTries

end CasperNode
