import CasperNode.Shared.Transform

/-!
# Additive maps and execution effects

`AdditiveMap<K, V>` is a hash map whose `insert_add` adds the new value to the one already
stored under the key (or to `V::default()`).  `ExecutionEffect::from(ExecutionJournal)` folds
a deploy's journal into an additive map of transforms, so the effect recorded for a key is
the `+`-sum of the key's journal entries in journal order.

A hash map has no defined iteration order.  `entries` is the order of first insertion; the
functions that iterate over a map (`global_state::commit`) are stated for any permutation
of it.  The operation counts (`ExecutionEffect::ops`) are not modelled: no modelled function
reads them.
-/

namespace CasperNode

/-- `AdditiveMap<K, V>`: entries with pairwise distinct keys. -/
structure AdditiveMap (K V : Type) where
  entries : List (K × V)
  nodup : (entries.map Prod.fst).Nodup

namespace AdditiveMap

variable {K V : Type} [DecidableEq K] [Add V] [Inhabited V]

/-- The empty map. -/
def empty : AdditiveMap K V := ⟨[], List.nodup_nil⟩

/-- `insert_add` on the entry list. -/
def insertAddEntries (k : K) (v : V) : List (K × V) → List (K × V)
  | [] => [(k, default + v)]
  | (k', v') :: rest =>
    if k' = k then (k', v' + v) :: rest else (k', v') :: insertAddEntries k v rest

theorem keys_insertAddEntries (k : K) (v : V) (l : List (K × V)) :
    (insertAddEntries k v l).map Prod.fst =
      if k ∈ l.map Prod.fst then l.map Prod.fst else l.map Prod.fst ++ [k] := by
  induction l with
  | nil => simp [insertAddEntries]
  | cons hd rest ih =>
    obtain ⟨k', v'⟩ := hd
    by_cases h : k' = k
    · subst h
      simp [insertAddEntries]
    · have hne : k ≠ k' := Ne.symm h
      simp only [insertAddEntries, h, if_false, List.map_cons, ih, List.mem_cons, hne,
        false_or]
      split <;> simp

theorem insertAddEntries_nodup (k : K) (v : V) {l : List (K × V)}
    (hl : (l.map Prod.fst).Nodup) : ((insertAddEntries k v l).map Prod.fst).Nodup := by
  rw [keys_insertAddEntries]
  split
  · exact hl
  · next hk =>
    refine List.nodup_append.mpr ⟨hl, List.nodup_singleton k, ?_⟩
    intro a ha b hb
    rw [List.mem_singleton] at hb
    subst hb
    intro hak
    exact hk (hak ▸ ha)

/-- `AdditiveMap::insert_add`. -/
def insertAdd (m : AdditiveMap K V) (k : K) (v : V) : AdditiveMap K V :=
  ⟨insertAddEntries k v m.entries, insertAddEntries_nodup k v m.nodup⟩

/-- `AdditiveMap::get`. -/
def get (m : AdditiveMap K V) (k : K) : Option V := (m.entries.find? (·.1 = k)).map Prod.snd

theorem get_insertAddEntries (k k' : K) (v : V) (l : List (K × V)) :
    ((insertAddEntries k v l).find? (·.1 = k')).map Prod.snd =
      if k' = k then some (((l.find? (·.1 = k)).map Prod.snd).getD default + v)
      else (l.find? (·.1 = k')).map Prod.snd := by
  induction l with
  | nil => by_cases h : k' = k <;> simp [insertAddEntries, h, eq_comm]
  | cons hd rest ih =>
    obtain ⟨k'', v''⟩ := hd
    by_cases h1 : k'' = k
    · subst h1
      by_cases h2 : k' = k'' <;> simp [insertAddEntries, h2, eq_comm]
    · simp only [insertAddEntries, h1, if_false, List.find?_cons]
      by_cases h2 : k' = k <;> by_cases h3 : k'' = k' <;> simp_all

@[simp] theorem get_insertAdd (m : AdditiveMap K V) (k k' : K) (v : V) :
    (m.insertAdd k v).get k' =
      if k' = k then some ((m.get k).getD default + v) else m.get k' :=
  get_insertAddEntries k k' v m.entries

omit [Add V] [Inhabited V] in
@[simp] theorem get_empty (k : K) : (empty : AdditiveMap K V).get k = none := rfl

omit [Add V] [Inhabited V] in
/-- An entry of the map is what `get` returns for its key: keys are distinct. -/
theorem get_of_mem (m : AdditiveMap K V) {e : K × V} (he : e ∈ m.entries) : m.get e.1 = some e.2 := by
  unfold get
  obtain ⟨l, hnd⟩ := m
  simp only at he ⊢
  induction l with
  | nil => cases he
  | cons hd rest ih =>
    rw [List.map_cons, List.nodup_cons] at hnd
    rw [List.find?_cons]
    by_cases hk : hd.1 = e.1
    · rcases List.mem_cons.mp he with rfl | hrest
      · simp
      · exact absurd (hk ▸ List.mem_map_of_mem hrest) hnd.1
    · rcases List.mem_cons.mp he with rfl | hrest
      · exact absurd rfl hk
      · simpa [hk] using ih hnd.2 hrest

omit [Add V] [Inhabited V] in
theorem get_eq_none_iff (m : AdditiveMap K V) (k : K) :
    m.get k = none ↔ k ∉ m.entries.map Prod.fst := by
  simp only [get, Option.map_eq_none_iff, List.find?_eq_none, decide_eq_true_eq, List.mem_map,
    not_exists, not_and, Prod.forall]

end AdditiveMap

/-- `ExecutionJournal`: the transforms of an execution, in order. -/
abbrev ExecutionJournal := List (Key × Transform)

/-- `ExecutionEffect::from(journal).transforms`: the journal folded per key with `+`. -/
def ExecutionEffect.transformsOf (journal : ExecutionJournal) : AdditiveMap Key Transform :=
  journal.foldl (fun m e => m.insertAdd e.1 e.2) AdditiveMap.empty

/-- The transforms a journal records for a key, in order. -/
def journalAt (j : ExecutionJournal) (k : Key) : List Transform :=
  (j.filter (·.1 = k)).map Prod.snd

theorem journalAt_snoc (j : ExecutionJournal) (k' : Key) (t : Transform) (k : Key) :
    journalAt (j ++ [(k', t)]) k = if k' = k then journalAt j k ++ [t] else journalAt j k := by
  by_cases h : k' = k <;> simp [journalAt, h]

/-- The effect recorded for a key is the `+`-sum of the key's journal entries, starting from
`Identity`, the default of `insert_add`. -/
theorem transformsOf_get (j : ExecutionJournal) (k : Key) :
    (ExecutionEffect.transformsOf j).get k =
      if journalAt j k = [] then none else some ((journalAt j k).foldl (· + ·) .identity) := by
  induction j using List.reverseRecOn with
  | nil => rfl
  | append_singleton j e ih =>
    obtain ⟨k', t⟩ := e
    have hsnoc : ExecutionEffect.transformsOf (j ++ [(k', t)]) =
        (ExecutionEffect.transformsOf j).insertAdd k' t := by
      simp [ExecutionEffect.transformsOf, List.foldl_append]
    rw [hsnoc, AdditiveMap.get_insertAdd, journalAt_snoc]
    by_cases hk : k = k'
    · subst hk
      rw [if_pos rfl, if_pos rfl, ih]
      by_cases hnil : journalAt j k = []
      · simp only [hnil, if_pos, Option.getD_none, List.nil_append, List.foldl_cons,
          List.foldl_nil, if_false, reduceCtorEq]
        rfl
      · simp [hnil, List.foldl_append]
    · rw [if_neg hk, if_neg (Ne.symm hk), ih]

end CasperNode
