import CasperNode.Core.TrackingCopy
import CasperNode.Storage.GlobalState

/-!
# What a tracking copy shows and what its effects commit

A tracking copy answers `get` from its caches and its reader.  The read cache only ever
holds values the reader returned, so the value `get` returns is `TrackingCopy.view`: the
mutation cache, else the reader.  This is the invariant `Consistent`; eviction and the
meter never matter.

The journal explains the view.  `journalValue S j k` applies the transforms `j` records for
`k`, in order, to the base value `S k`, as the tracking copy applied them.  Every run of
reads, writes and successful additions from `TrackingCopy.new S` keeps
`journalValue S journal k = some (view k)` for every key (`run_journalValue`).

The engine does not commit the journal but its per-key `+`-sum
(`ExecutionEffect.transformsOf`).  Committing it to the map `S` writes, for each journalled
key, the sum applied once to `S k` (`commit_transformsOf`).  So the committed state is the
tracking copy's view exactly when, at every key, applying the sum agrees with applying the
summands in turn (`commit_transformsOf_eq_view`).  `+` does not always have that property:
the combination of an `AddUInt64` after an `AddInt32` truncates the sign extension of the
`i32` operand to 64 bits (`tracking_copy_commit_diverges`).
-/

namespace CasperNode

/-! ## The read cache agrees with the reader -/

namespace TrackingCopyCache

/-- Every entry of the read cache is what `reader` returns for its key. -/
def ReadsAgree (reader : Key → Option StoredValue) (c : TrackingCopyCache) : Prop :=
  ∀ e ∈ c.readsCached, reader e.1 = some e.2

theorem mem_lruInsert {k : Key} {v : StoredValue} {l : List (Key × StoredValue)}
    {e : Key × StoredValue} (h : e ∈ lruInsert k v l) : e ∈ l ∨ e = (k, v) := by
  simp only [lruInsert, List.mem_append, List.mem_filter, List.mem_singleton] at h
  rcases h with ⟨h, _⟩ | h
  · exact .inl h
  · exact .inr h

theorem mem_evict {meter : Key → StoredValue → Nat} {maxSize size : Nat}
    {l : List (Key × StoredValue)} {e : Key × StoredValue}
    (h : e ∈ (evict meter maxSize size l).2) : e ∈ l := by
  induction l generalizing size with
  | nil => simp [evict] at h
  | cons hd rest ih =>
    obtain ⟨k, v⟩ := hd
    simp only [evict] at h
    split at h
    · exact List.mem_cons_of_mem _ (ih h)
    · exact h

/-- The entry `get_refresh` finds is an entry of the list for that key. -/
theorem lruGetRefresh_found {k : Key} {l : List (Key × StoredValue)} :
    ∀ {v : StoredValue}, (lruGetRefresh k l).2 = some v → (k, v) ∈ l := by
  intro v h
  unfold lruGetRefresh at h
  split at h
  next k' v' hf =>
    cases h
    have hk : k' = k := by simpa using List.find?_some hf
    subst hk
    exact List.mem_of_find?_eq_some hf
  next => cases h

theorem mem_lruGetRefresh {k : Key} {l : List (Key × StoredValue)} {e : Key × StoredValue}
    (h : e ∈ (lruGetRefresh k l).1) : e ∈ l := by
  cases hr : (lruGetRefresh k l).2 with
  | none =>
    unfold lruGetRefresh at h hr
    split at h
    · simp_all
    · exact h
  | some v =>
    have hmem := lruGetRefresh_found hr
    unfold lruGetRefresh at h hr
    split at h
    · rcases mem_lruInsert h with h | rfl
      · exact h
      · simp_all
    · exact h

variable {reader : Key → Option StoredValue}

theorem ReadsAgree.insertRead {c : TrackingCopyCache} {k : Key} {v : StoredValue}
    (hc : ReadsAgree reader c) (hk : reader k = some v) : ReadsAgree reader (c.insertRead k v) := by
  intro e he
  rcases mem_lruInsert (mem_evict he) with he | rfl
  · exact hc e he
  · exact hk

theorem ReadsAgree.insertWrite {c : TrackingCopyCache} (hc : ReadsAgree reader c) (k : Key)
    (v : StoredValue) : ReadsAgree reader (c.insertWrite k v) := hc

/-- `get` on the cache: it changes only the order of the read cache, and what it returns is
the mutation, else a read-cache entry. -/
theorem get_spec {c : TrackingCopyCache} (hc : ReadsAgree reader c) (k : Key) :
    ReadsAgree reader (c.get k).1 ∧ (c.get k).1.mutsCached = c.mutsCached ∧
      (c.get k).2 = match c.mutsCached k with
        | some v => some v
        | none => (lruGetRefresh k c.readsCached).2 := by
  cases hm : c.mutsCached k with
  | some v => exact ⟨by simpa [get, hm] using hc, by simp [get, hm], by simp [get, hm]⟩
  | none =>
    refine ⟨?_, by simp [get, hm], by simp [get, hm]⟩
    simp only [get, hm]
    exact fun e he => hc e (mem_lruGetRefresh he)

end TrackingCopyCache

namespace TrackingCopy

/-- The value `get` returns for a key: the mutation cache, else the reader. -/
def view (tc : TrackingCopy) (k : Key) : Option StoredValue :=
  match tc.cache.mutsCached k with
  | some v => some v
  | none => tc.reader k

/-- The read cache agrees with the reader. -/
def Consistent (tc : TrackingCopy) : Prop := TrackingCopyCache.ReadsAgree tc.reader tc.cache

theorem consistent_new (reader : Key → Option StoredValue) (meter : Key → StoredValue → Nat) :
    (new reader meter).Consistent := by
  intro e he
  simp [new, TrackingCopyCache.new] at he

@[simp] theorem view_new (reader : Key → Option StoredValue) (meter : Key → StoredValue → Nat) :
    (new reader meter).view = reader := by
  funext k
  rfl

/-- `get` returns the view, keeps the view, the reader and the journal, and keeps the
read cache in agreement with the reader. -/
theorem get_spec {tc : TrackingCopy} (hc : tc.Consistent) (k : Key) :
    (tc.get k).2 = tc.view k ∧ (tc.get k).1.Consistent ∧ (tc.get k).1.view = tc.view ∧
      (tc.get k).1.journal = tc.journal ∧ (tc.get k).1.reader = tc.reader := by
  obtain ⟨hagree, hmuts, hval⟩ := TrackingCopyCache.get_spec hc k
  unfold get view
  cases hm : tc.cache.mutsCached k with
  | some v =>
    rw [hm] at hval
    simp only [hval]
    refine ⟨trivial, hagree, ?_, trivial, trivial⟩
    funext k'
    simp [hmuts]
  | none =>
    rw [hm] at hval
    cases hr : (TrackingCopyCache.lruGetRefresh k tc.cache.readsCached).2 with
    | some v =>
      have hread : tc.reader k = some v := hc (k, v) (TrackingCopyCache.lruGetRefresh_found hr)
      simp only [hval, hr, hread]
      refine ⟨trivial, hagree, ?_, trivial, trivial⟩
      funext k'
      simp [hmuts]
    | none =>
      simp only [hval, hr]
      cases hrd : tc.reader k with
      | some v =>
        refine ⟨rfl, hagree.insertRead hrd, ?_, rfl, rfl⟩
        funext k'
        simp [TrackingCopyCache.insertRead, hmuts]
      | none =>
        refine ⟨rfl, hagree, ?_, rfl, rfl⟩
        funext k'
        simp [hmuts]

@[simp] theorem view_setJournal (tc : TrackingCopy) (j : ExecutionJournal) :
    ({ tc with journal := j } : TrackingCopy).view = tc.view := rfl

/-- Writing into the mutation cache updates the view at that key. -/
theorem view_insertWrite (tc : TrackingCopy) (k : Key) (v : StoredValue) (j : ExecutionJournal) :
    ({ tc with cache := tc.cache.insertWrite k v, journal := j } : TrackingCopy).view =
      Function.update tc.view k (some v) := by
  funext k'
  by_cases h : k' = k
  · subst h
    simp [view, TrackingCopyCache.insertWrite]
  · simp [view, TrackingCopyCache.insertWrite, h]

end TrackingCopy

/-! ## The journal explains the view -/

/-- One transform applied to the current value of its key, as the tracking copy applies it:
`none` when the application fails, else the new value.  A missing key accepts only a write. -/
def applyToValue : Option StoredValue → Transform → Option (Option StoredValue)
  | _, .write v => some (some v)
  | some cur, t =>
    match t.apply cur with
    | .ok v => some (some v)
    | .error _ => none
  | none, _ => none

theorem applyToValue_some (cur : StoredValue) (t : Transform) :
    applyToValue (some cur) t =
      match t.apply cur with
      | .ok v => some (some v)
      | .error _ => none := by
  cases t <;> rfl

/-- A transform that applies leaves a value under its key. -/
theorem applyToValue_isSome {cur : Option StoredValue} {t : Transform} {r : Option StoredValue}
    (h : applyToValue cur t = some r) : ∃ v, r = some v := by
  cases cur with
  | none =>
    cases t with
    | write v => exact ⟨v, (Option.some.inj h).symm⟩
    | _ => simp [applyToValue] at h
  | some cur =>
    rw [applyToValue_some] at h
    split at h
    · exact ⟨_, (Option.some.inj h).symm⟩
    · cases h

/-- The value of `k` after applying, in order, the transforms the journal records for it to
the base value `S k`; `none` if one of them fails. -/
def journalValue (S : MapState) (j : ExecutionJournal) (k : Key) : Option (Option StoredValue) :=
  (journalAt j k).foldlM applyToValue (S k)

theorem journalValue_snoc (S : MapState) (j : ExecutionJournal) (k' : Key) (t : Transform)
    (k : Key) :
    journalValue S (j ++ [(k', t)]) k =
      if k' = k then (journalValue S j k).bind (applyToValue · t) else journalValue S j k := by
  unfold journalValue
  rw [journalAt_snoc]
  split
  · simp [List.foldlM_append]
  · rfl

/-- A tracking copy over `S` whose journal explains its view. -/
structure Explains (S : MapState) (tc : TrackingCopy) : Prop where
  reader_eq : tc.reader = S
  consistent : tc.Consistent
  journal_view : ∀ k, journalValue S tc.journal k = some (tc.view k)

namespace Explains

variable {S : MapState} {tc : TrackingCopy}

theorem new (S : MapState) (meter : Key → StoredValue → Nat) :
    Explains S (TrackingCopy.new S meter) :=
  ⟨rfl, TrackingCopy.consistent_new S meter, fun _ => rfl⟩

theorem get (h : Explains S tc) (k : Key) : Explains S (tc.get k).1 := by
  obtain ⟨_, hc, hview, hj, hr⟩ := TrackingCopy.get_spec h.consistent k
  refine ⟨hr.trans h.reader_eq, hc, fun k' => ?_⟩
  rw [hj, hview]
  exact h.journal_view k'

/-- Journalling the `Identity` of a key that has a value. -/
theorem recordRead (h : Explains S tc) {k : Key} {v : StoredValue} (hv : tc.view k = some v) :
    Explains S { tc with journal := tc.journal ++ [(k, .identity)] } := by
  refine ⟨h.reader_eq, h.consistent, fun k' => ?_⟩
  rw [journalValue_snoc]
  split
  · next heq =>
    subst heq
    rw [h.journal_view k, hv]
    show _ = some (tc.view k)
    rw [hv]
    rfl
  · exact h.journal_view k'

/-- Journalling a transform that took the key's value to `nv`, and caching `nv`. -/
theorem record (h : Explains S tc) {k : Key} {t : Transform} {nv : StoredValue}
    (happ : applyToValue (tc.view k) t = some (some nv)) :
    Explains S { tc with cache := tc.cache.insertWrite k nv, journal := tc.journal ++ [(k, t)] } := by
  refine ⟨h.reader_eq, h.consistent.insertWrite k nv, fun k' => ?_⟩
  rw [journalValue_snoc, TrackingCopy.view_insertWrite]
  split
  · next heq =>
    subst heq
    rw [h.journal_view k]
    simpa using happ
  · next hne =>
    rw [Function.update_of_ne (Ne.symm hne)]
    exact h.journal_view k'

theorem read (h : Explains S tc) (k : Key) : Explains S (tc.read k).1 := by
  have hg := h.get k.normalize
  obtain ⟨hv, -, hview, -, -⟩ := TrackingCopy.get_spec h.consistent k.normalize
  rcases hp : tc.get k.normalize with ⟨tc', _ | v⟩
  · rw [hp] at hg
    simpa [TrackingCopy.read, hp] using hg
  · rw [hp] at hg hv hview
    simp only [TrackingCopy.read, hp]
    exact hg.recordRead (by rw [hview]; exact hv.symm)

theorem write (h : Explains S tc) (k : Key) (v : StoredValue) : Explains S (tc.write k v) :=
  h.record (t := .write v) rfl

theorem add (h : Explains S tc) (k : Key) (value : StoredValue) : Explains S (tc.add k value).1 := by
  have hg := h.get k.normalize
  obtain ⟨hv, -, hview, -, -⟩ := TrackingCopy.get_spec h.consistent k.normalize
  rcases hp : tc.get k.normalize with ⟨tc', _ | current⟩
  · rw [hp] at hg
    simpa [TrackingCopy.add, hp] using hg
  · rw [hp] at hg hv hview
    simp only [TrackingCopy.add, hp]
    rcases ht : TrackingCopy.addTransform value with r | t
    · exact hg
    · rcases happ : t.apply current with e | nv
      · cases e <;> simpa [happ] using hg
      · simp only [happ]
        exact hg.record (by rw [hview, ← hv, applyToValue_some, happ])

theorem step (h : Explains S tc) : ∀ op : TrackingCopyOp, Explains S (tc.step op).1
  | .read k => h.read k
  | .write k v => h.write k v
  | .add k v => h.add k v

theorem run (h : Explains S tc) (ops : List TrackingCopyOp) : Explains S (tc.run ops).1 := by
  induction ops generalizing tc with
  | nil => exact h
  | cons op ops ih => exact ih (h.step op)

end Explains

/-- Every run of operations from `TrackingCopy.new S` shows, at every key, the base value
with the journalled transforms applied in order.  Failed additions journal nothing. -/
theorem run_journalValue (S : MapState) (meter : Key → StoredValue → Nat)
    (ops : List TrackingCopyOp) (k : Key) :
    journalValue S ((TrackingCopy.new S meter).run ops).1.journal k =
      some (((TrackingCopy.new S meter).run ops).1.view k) :=
  ((Explains.new S meter).run ops).journal_view k

/-! ## Committing the effects to a map -/

namespace MapState

/-- On a map, the value `commit` computes for an entry is the transform applied to the
key's value as the tracking copy applies it. -/
theorem commitValue_eq_ok {m : MapState} {k : Key} {t : Transform} {v : StoredValue}
    (h : applyToValue (m k) t = some (some v)) : commitValue read () m k t = .ok v := by
  cases hm : m k with
  | none =>
    rw [hm] at h
    cases t with
    | write v' =>
      cases h
      simp [commitValue, read, hm]
    | _ => simp [applyToValue] at h
  | some cur =>
    rw [hm, applyToValue_some] at h
    rcases happ : t.apply cur with e | v'
    · simp [happ] at h
    · rw [happ] at h
      cases h
      simp [commitValue, read, hm, happ]

/-- On a map, a write that reports no change leaves the map as the update would. -/
theorem writeThen_eq (m : MapState) (k : Key) (v : StoredValue)
    (next : Unit → MapState → Except (CommitError MapState) (Unit × MapState)) :
    writeThen write () m k v next = next () (Function.update m k (some v)) := by
  unfold writeThen write
  by_cases h : m k = some v
  · rw [if_pos h, Function.update_eq_self_iff.mpr h.symm]
  · rw [if_neg h]

/-- The commit loop over entries with distinct keys: each key is written once, with its
transform applied to the value the map had before the commit. -/
theorem commitEntries_eq (R : MapState) :
    ∀ (l : List (Key × Transform)) (m : MapState), (l.map Prod.fst).Nodup →
      (∀ e ∈ l, ∃ v, applyToValue (m e.1) e.2 = some (some v) ∧ R e.1 = some v) →
      (∀ k, k ∉ l.map Prod.fst → R k = m k) →
      commitEntries read write () m l = .ok ((), R)
  | [], m, _, _, hout => by
    have hR : R = m := funext fun k => hout k (by simp)
    subst hR
    rfl
  | (k, t) :: rest, m, hnd, hin, hout => by
    obtain ⟨v, happ, hR⟩ := hin (k, t) List.mem_cons_self
    rw [List.map_cons, List.nodup_cons] at hnd
    simp only [commitEntries, commitValue_eq_ok happ, writeThen_eq]
    apply commitEntries_eq R rest _ hnd.2
    · intro e he
      have hne : e.1 ≠ k := by
        intro h
        apply hnd.1
        rw [← h]
        exact List.mem_map.mpr ⟨e, he, rfl⟩
      rw [Function.update_of_ne hne]
      exact hin e (List.mem_cons_of_mem _ he)
    · intro k' hk'
      by_cases h : k' = k
      · subst h
        rw [Function.update_self]
        exact hR
      · rw [Function.update_of_ne h]
        exact hout k' (by simp [h, hk'])

end MapState

/-- Committing the `+`-sum effects of a journal to the map `S`, in any iteration order of
the additive map, writes at each journalled key the sum applied once to the base value. -/
theorem commit_transformsOf (S R : MapState) (j : ExecutionJournal)
    (l : List (Key × Transform)) (hl : l.Perm (ExecutionEffect.transformsOf j).entries)
    (hin : ∀ k, journalAt j k ≠ [] →
      ∃ v, applyToValue (S k) ((journalAt j k).foldl (· + ·) .identity) = some (some v) ∧
        R k = some v)
    (hout : ∀ k, journalAt j k = [] → R k = S k) :
    MapState.commit S l = .ok R := by
  have hnd : (l.map Prod.fst).Nodup :=
    (hl.map Prod.fst).nodup_iff.mpr (ExecutionEffect.transformsOf j).nodup
  have hloop : commitEntries MapState.read MapState.write () S l = .ok ((), R) := by
    apply MapState.commitEntries_eq R l S hnd
    · intro e he
      have hget := AdditiveMap.get_of_mem _ (hl.mem_iff.mp he)
      rw [transformsOf_get] at hget
      split at hget
      · cases hget
      · next hne =>
        rw [← Option.some.inj hget]
        exact hin e.1 hne
    · intro k hk
      apply hout
      by_contra hne
      have hsome : (ExecutionEffect.transformsOf j).get k ≠ none := by
        rw [transformsOf_get, if_neg hne]
        simp
      exact hsome ((AdditiveMap.get_eq_none_iff _ _).mpr
        (fun hk' => hk ((hl.map Prod.fst).mem_iff.mpr hk')))
  show (commitEntries MapState.read MapState.write () S l).map Prod.snd = .ok R
  rw [hloop]
  rfl

/-- The committed effects of a tracking copy are its view, provided that at every key the
`+`-sum of the journalled transforms, applied once, does what the transforms do in turn. -/
theorem commit_transformsOf_eq_view {S : MapState} {tc : TrackingCopy} (h : Explains S tc)
    (l : List (Key × Transform)) (hl : l.Perm (ExecutionEffect.transformsOf tc.journal).entries)
    (hom : ∀ k, journalAt tc.journal k ≠ [] →
      applyToValue (S k) ((journalAt tc.journal k).foldl (· + ·) .identity) =
        journalValue S tc.journal k) :
    MapState.commit S l = .ok tc.view := by
  apply commit_transformsOf S tc.view tc.journal l hl
  · intro k hne
    have happ := (hom k hne).trans (h.journal_view k)
    obtain ⟨v, hv⟩ := applyToValue_isSome happ
    exact ⟨v, hv ▸ happ, hv⟩
  · intro k hnil
    have hj := h.journal_view k
    rw [journalValue, hnil] at hj
    exact (Option.some.inj hj).symm

/-- The sum is not always a homomorphism.  On a `U512` balance of 5, adding the `i32` value
-1 and then the `u64` value 0 leaves 4 in the tracking copy; the two additions sum to
`AddUInt64(2^64 - 1)`, and committing the effects leaves `2^64 + 4`. -/
theorem tracking_copy_commit_diverges :
    let key : Key := .balance (Vector.replicate 32 0)
    let S : MapState := fun k => if k = key then some (.clValue (.fromNum .u512 5)) else none
    let run := (TrackingCopy.new S fun _ _ => 1).run
      [.add key (.clValue (.fromNum .i32 (BitVec.ofInt 32 (-1)))),
       .add key (.clValue (.fromNum .u64 0))]
    run.2 = false ∧ run.1.view key = some (.clValue (.fromNum .u512 4)) ∧
      (MapState.commit S (ExecutionEffect.transformsOf run.1.journal).entries).toOption.map
          (· key) = some (some (.clValue (.fromNum .u512 (BitVec.ofNat 512 (2 ^ 64 + 4))))) := by
  decide +kernel

end CasperNode
