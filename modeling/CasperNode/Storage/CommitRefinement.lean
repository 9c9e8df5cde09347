import CasperNode.Storage.Scratch
import CasperNode.Core.TrackingCopyEffects

/-!
# The commits against the commit over a map

`global_state::commit` is one loop over a read and a write (`commitEntries`).  Run over two
states that a simulation relates, it ends in related states or fails with the same error
(`commitEntries_agree`).  Over the LMDB trie store, "the root is the canonical root of the map"
is such a simulation for the map state (`lmdbCommitSim`): `LmdbGlobalState::commit` on a
canonical root commits what the commit over the map commits (`lmdbCommit_agree`).

The scratch state does not write the trie.  What its views read is the cache over the map of
the base root (`Cache.overlay`), and `ScratchGlobalState::commit` commits what the commit over
that map commits (`scratchCommit_agree`).
-/

namespace CasperNode

open TrieKey

/-! ## Simulations of `commit` -/

section Simulation

variable {σ₁ σ₂ D₁ D₂ : Type}

/-- Two errors of `commit` agree: the same missing key, or the same failed transform. -/
def CommitError.Agree : CommitError D₁ → CommitError D₂ → Prop
  | .keyNotFound k₁, .keyNotFound k₂ => k₁ = k₂
  | .transformError e₁, .transformError e₂ => e₁ = e₂
  | _, _ => False

/-- Two outcomes of `commit` agree: states that `rel` relates, or errors that agree. -/
def CommitAgree (rel : σ₁ → D₁ → σ₂ → D₂ → Prop) :
    Except (CommitError D₁) (σ₁ × D₁) → Except (CommitError D₂) (σ₂ × D₂) → Prop
  | .ok (s₁, r₁), .ok (s₂, r₂) => rel s₁ r₁ s₂ r₂
  | .error e₁, .error e₂ => e₁.Agree e₂
  | _, _ => False

/-- What two outcomes that agree can be. -/
theorem CommitAgree.elim {rel : σ₁ → D₁ → σ₂ → D₂ → Prop}
    {x₁ : Except (CommitError D₁) (σ₁ × D₁)} {x₂ : Except (CommitError D₂) (σ₂ × D₂)}
    (h : CommitAgree rel x₁ x₂) :
    (∃ s₁ r₁ s₂ r₂, x₁ = .ok (s₁, r₁) ∧ x₂ = .ok (s₂, r₂) ∧ rel s₁ r₁ s₂ r₂) ∨
      ∃ e₁ e₂, x₁ = .error e₁ ∧ x₂ = .error e₂ ∧ e₁.Agree e₂ := by
  match x₁, x₂, h with
  | .ok (s₁, r₁), .ok (s₂, r₂), h => exact .inl ⟨s₁, r₁, s₂, r₂, rfl, rfl, h⟩
  | .error e₁, .error e₂, h => exact .inr ⟨e₁, e₂, rfl, rfl, h⟩

variable (read₁ : σ₁ → D₁ → Key → ReadResult StoredValue)
  (write₁ : σ₁ → D₁ → Key → StoredValue → σ₁ × WriteResult D₁)
  (read₂ : σ₂ → D₂ → Key → ReadResult StoredValue)
  (write₂ : σ₂ → D₂ → Key → StoredValue → σ₂ × WriteResult D₂)

/-- `rel` is a simulation between two instances of `commit`: related states read alike and find
their roots, and one write takes them to related states. -/
structure CommitSim (rel : σ₁ → D₁ → σ₂ → D₂ → Prop) : Prop where
  read : ∀ {s₁ r₁ s₂ r₂}, rel s₁ r₁ s₂ r₂ → ∀ k, read₁ s₁ r₁ k = read₂ s₂ r₂ k
  rootFound : ∀ {s₁ r₁ s₂ r₂}, rel s₁ r₁ s₂ r₂ → ∀ k, read₂ s₂ r₂ k ≠ .rootNotFound
  write : ∀ {s₁ r₁ s₂ r₂}, rel s₁ r₁ s₂ r₂ → ∀ k v, ∃ s₁' r₁' s₂' r₂', rel s₁' r₁' s₂' r₂' ∧
    (∀ next, writeThen write₁ s₁ r₁ k v next = next s₁' r₁') ∧
    (∀ next, writeThen write₂ s₂ r₂ k v next = next s₂' r₂')

variable {read₁ write₁ read₂ write₂}

section CommitValue

variable {σ D : Type} {read : σ → D → Key → ReadResult StoredValue} {s : σ} {root : D} {k : Key}

theorem commitValue_of_found {cur : StoredValue} (h : read s root k = .found cur) (t : Transform) :
    commitValue read s root k t =
      match t.apply cur with
      | .ok v => .ok v
      | .error e => .error (.transformError e) := by
  -- with the transform's result a constructor both matches reduce, and with the transform a
  -- constructor so does the outer match of the read
  rcases hap : t.apply cur with e | v <;> cases t <;> simp only [commitValue, h, hap]

theorem commitValue_of_notFound (h : read s root k = .notFound) (t : Transform) :
    commitValue read s root k t =
      match t with
      | .write v => .ok v
      | _ => .error (.keyNotFound k) := by
  cases t <;> simp only [commitValue, h]

end CommitValue

/-- The value of one entry agrees: where two states read alike and find their roots,
`commitValue` computes one value, or fails with errors that agree. -/
theorem commitValue_agree {s₁ : σ₁} {r₁ : D₁} {s₂ : σ₂} {r₂ : D₂} {k : Key}
    (hread : read₁ s₁ r₁ k = read₂ s₂ r₂ k) (hfound : read₂ s₂ r₂ k ≠ .rootNotFound)
    (t : Transform) :
    (∃ v, commitValue read₁ s₁ r₁ k t = .ok v ∧ commitValue read₂ s₂ r₂ k t = .ok v) ∨
      ∃ e₁ e₂, commitValue read₁ s₁ r₁ k t = .error e₁ ∧
        commitValue read₂ s₂ r₂ k t = .error e₂ ∧ e₁.Agree e₂ := by
  cases hr : read₂ s₂ r₂ k with
  | found cur =>
    rw [commitValue_of_found (hread.trans hr), commitValue_of_found hr]
    cases t.apply cur with
    | ok v => exact .inl ⟨v, rfl, rfl⟩
    | error e => exact .inr ⟨_, _, rfl, rfl, rfl⟩
  | notFound =>
    rw [commitValue_of_notFound (hread.trans hr), commitValue_of_notFound hr]
    cases t with
    | write v => exact .inl ⟨v, rfl, rfl⟩
    | _ => exact .inr ⟨_, _, rfl, rfl, rfl⟩
  | rootNotFound => exact absurd hr hfound

variable {rel : σ₁ → D₁ → σ₂ → D₂ → Prop}

/-- **The commit loop agrees** on states that a simulation relates. -/
theorem commitEntries_agree (hsim : CommitSim read₁ write₁ read₂ write₂ rel) :
    ∀ (l : List (Key × Transform)) {s₁ r₁ s₂ r₂}, rel s₁ r₁ s₂ r₂ →
      CommitAgree rel (commitEntries read₁ write₁ s₁ r₁ l) (commitEntries read₂ write₂ s₂ r₂ l)
  | [], _, _, _, _, hrel => hrel
  | (k, t) :: rest, s₁, r₁, s₂, r₂, hrel => by
    rcases commitValue_agree (hsim.read hrel k) (hsim.rootFound hrel k) t with
      ⟨v, h₁, h₂⟩ | ⟨e₁, e₂, h₁, h₂, he⟩
    · obtain ⟨s₁', r₁', s₂', r₂', hrel', hw₁, hw₂⟩ := hsim.write hrel k v
      simp only [commitEntries, h₁, h₂, hw₁, hw₂]
      exact commitEntries_agree hsim rest hrel'
    · simp only [commitEntries, h₁, h₂]
      exact he

/-- `commit` agrees on states that a simulation relates, where both find their root. -/
theorem commit_agree (hsim : CommitSim read₁ write₁ read₂ write₂ rel)
    {rootExists₁ : σ₁ → D₁ → Bool} {rootExists₂ : σ₂ → D₂ → Bool} {s₁ : σ₁} {r₁ : D₁} {s₂ : σ₂}
    {r₂ : D₂} (hrel : rel s₁ r₁ s₂ r₂) (h₁ : rootExists₁ s₁ r₁ = true)
    (h₂ : rootExists₂ s₂ r₂ = true) (l : List (Key × Transform)) :
    CommitAgree rel (commit read₁ write₁ rootExists₁ s₁ r₁ l)
      (commit read₂ write₂ rootExists₂ s₂ r₂ l) := by
  simp only [commit, h₁, h₂, if_true]
  exact commitEntries_agree hsim l hrel

end Simulation

/-! ## The LMDB commit -/

/-- A canonical root is in the store. -/
theorem RootTrie.isSome {K V D : Type} [TrieKey K] [DecidableEq K] {S : TrieStore K V D} {r : D}
    {M : Entries K V} (hroot : RootTrie S r M) : (S r).isSome = true := by
  obtain ⟨pb, hSr, -⟩ := hroot
  simp [hSr]

section Lmdb

variable {D : Type} [DecidableEq D] {hashTrie : Trie Key StoredValue D → D}
  {S : TrieStore Key StoredValue D} {r : D} {M : MapState}

/-- The LMDB state against the map state: the store holds its nodes under their hashes, and the
root is the canonical root of the map. -/
def LmdbRefines (hashTrie : Trie Key StoredValue D → D) (S : TrieStore Key StoredValue D) (r : D)
    (_ : Unit) (M : MapState) : Prop :=
  StoreOk hashTrie S ∧ RootTrie S r M

omit [DecidableEq D] in
theorem lmdbRead_of_rootTrie (hroot : RootTrie S r M) (k : Key) :
    lmdbRead S r k = MapState.read () M k := by
  simp only [lmdbRead, read_of_rootTrie hroot k]
  unfold Entries.read MapState.read
  cases M k <;> rfl

theorem MapState.read_ne_rootNotFound (M : MapState) (k : Key) :
    MapState.read () M k ≠ .rootNotFound := by
  unfold MapState.read
  split <;> simp

/-- A canonical root is a simulation of the map state by the LMDB state. -/
theorem lmdbCommitSim (hinj : Function.Injective hashTrie) :
    CommitSim lmdbRead (lmdbWrite hashTrie) MapState.read MapState.write (LmdbRefines hashTrie) where
  read := fun ⟨_, hroot⟩ k => lmdbRead_of_rootTrie hroot k
  rootFound := fun _ k => MapState.read_ne_rootNotFound _ k
  write := by
    rintro S r ⟨⟩ M ⟨hS, hroot⟩ k v
    obtain ⟨res, S', hwrite, hok, -, hout⟩ := write_of_rootTrie hinj hS hroot k v
    rcases hout with ⟨rfl, hS', hMk⟩ | ⟨r', rfl, hMk, hroot'⟩
    · -- the value is there already: both keep their state
      rw [hS'] at hwrite
      refine ⟨S, r, (), M, ⟨hS, hroot⟩, fun next => ?_, fun next => ?_⟩
      · simp [writeThen, lmdbWrite, hwrite]
      · simp [writeThen, MapState.write, hMk]
    · refine ⟨S', r', (), Function.update M k (some v), ⟨hok, hroot'⟩, fun next => ?_,
        fun next => ?_⟩
      · simp [writeThen, lmdbWrite, hwrite]
      · simp [writeThen, MapState.write, hMk]

/-- **`LmdbGlobalState::commit` refines the commit over the map.**  On the canonical root of a
map, in a store that holds its nodes under their hashes, committing effects through the trie and
committing them over the map both succeed, the trie at the canonical root of the map the other
leaves, or both fail with the same error. -/
theorem lmdbCommit_agree (hinj : Function.Injective hashTrie) (hS : StoreOk hashTrie S)
    (hroot : RootTrie S r M) (effects : List (Key × Transform)) :
    CommitAgree (LmdbRefines hashTrie) (LmdbGlobalState.commit hashTrie S r effects)
      (commit MapState.read MapState.write (fun _ _ => true) () M effects) := by
  exact commit_agree (lmdbCommitSim hinj) ⟨hS, hroot⟩ hroot.isSome rfl effects

/-- Commits one after another through LMDB, from a canonical root, refine commits one after
another over the map. -/
theorem lmdbCommitAll_agree (hinj : Function.Injective hashTrie) (effectMaps : List (List (Key × Transform))) :
    ∀ {S : TrieStore Key StoredValue D} {r : D} {M : MapState}, StoreOk hashTrie S → RootTrie S r M →
      CommitAgree (LmdbRefines hashTrie) (LmdbGlobalState.commitAll hashTrie S r effectMaps)
        ((MapState.commitAll M effectMaps).map fun M' => ((), M')) := by
  induction effectMaps with
  | nil => exact fun hS hroot => ⟨hS, hroot⟩
  | cons effects rest ih =>
    intro S r M hS hroot
    rcases (lmdbCommit_agree hinj hS hroot effects).elim with
      ⟨S', r', u, M', h₁, h₂, hS', hroot'⟩ | ⟨e₁, e₂, h₁, h₂, he⟩
    · simp only [LmdbGlobalState.commitAll, h₁, MapState.commitAll, MapState.commit, h₂,
        Except.map]
      exact ih hS' hroot'
    · simp only [LmdbGlobalState.commitAll, h₁, MapState.commitAll, MapState.commit, h₂,
        Except.map]
      exact he

end Lmdb

/-! ## The scratch commit -/

section Scratch

variable {D : Type} {S : TrieStore Key StoredValue D} {r : D} {M : MapState}

/-- What the views of a scratch state read: the cached value, else the map of the base root. -/
def Cache.overlay (cache : Cache) (M : MapState) : MapState := fun k => (cache.get k).or (M k)

@[simp] theorem Cache.overlay_new (M : MapState) : Cache.new.overlay M = M := by
  funext k
  simp [Cache.overlay]

theorem Cache.overlay_insertWrite (cache : Cache) (M : MapState) (k : Key) (v : StoredValue) :
    (cache.insertWrite k v).overlay M = Function.update (cache.overlay M) k (some v) := by
  funext k'
  by_cases h : k' = k
  · subst h
    simp [Cache.overlay]
  · simp [Cache.overlay, h]

/-- Caching a value read from the map changes nothing a view reads. -/
theorem Cache.overlay_insertRead (cache : Cache) {k : Key} {v : StoredValue} (hv : M k = some v) :
    (cache.insertRead k v).overlay M = cache.overlay M := by
  unfold Cache.insertRead
  split
  · rfl
  · next hnone =>
    funext k'
    by_cases h : k' = k
    · subst h
      simp [Cache.overlay, Cache.get, hnone, hv]
    · simp [Cache.overlay, Cache.get, h]

/-- On a canonical root, a scratch view reads the cache over the map, and what it caches
changes nothing it reads. -/
theorem ScratchGlobalStateView.read_of_rootTrie (hroot : RootTrie S r M) (cache : Cache) (k : Key) :
    ∃ cache', ScratchGlobalStateView.read ⟨cache, S, r⟩ k = .ok (cache.overlay M k, cache') ∧
      cache'.overlay M = cache.overlay M := by
  cases hc : cache.get k with
  | some v => exact ⟨cache, by simp [ScratchGlobalStateView.read, hc, Cache.overlay], rfl⟩
  | none =>
    cases hM : M k with
    | none =>
      refine ⟨cache, ?_, rfl⟩
      simp [ScratchGlobalStateView.read, hc, CasperNode.read_of_rootTrie hroot k, Entries.read, hM,
        Cache.overlay]
    | some v =>
      refine ⟨cache.insertRead k v, ?_, Cache.overlay_insertRead cache hM⟩
      simp [ScratchGlobalStateView.read, hc, CasperNode.read_of_rootTrie hroot k, Entries.read, hM,
        Cache.overlay]

/-- On a canonical root, an LMDB view reads the map. -/
theorem LmdbGlobalStateView.read_of_rootTrie (hroot : RootTrie S r M) (k : Key) :
    LmdbGlobalStateView.read ⟨S, r⟩ k = .ok (M k) := by
  cases hM : M k <;> simp [LmdbGlobalStateView.read, CasperNode.read_of_rootTrie hroot k, Entries.read, hM]

/-- On a canonical root, the value the scratch commit caches for an entry is the one the commit
over the cache and the map computes. -/
theorem scratchCommitValue_eq (hroot : RootTrie S r M) (cache : Cache) (k : Key) (t : Transform) :
    ScratchGlobalState.commitValue ⟨cache, S⟩ r k t =
      .ok (commitValue (fun (_ : Unit) (_ : D) => MapState.read () (cache.overlay M)) () r k t) := by
  cases hc : cache.get k with
  | some cur =>
    have hread : MapState.read () (cache.overlay M) k = .found cur := by
      simp [MapState.read, Cache.overlay, hc]
    rw [@commitValue_of_found Unit D _ () r k cur hread t]
    simp only [ScratchGlobalState.commitValue, hc]
    cases t.apply cur <;> rfl
  | none =>
    cases hM : M k with
    | none =>
      have hread : MapState.read () (cache.overlay M) k = .notFound := by
        simp [MapState.read, Cache.overlay, hc, hM]
      rw [@commitValue_of_notFound Unit D _ () r k hread t]
      cases t <;> simp [ScratchGlobalState.commitValue, hc, read_of_rootTrie hroot k, Entries.read, hM]
    | some cur =>
      have hread : MapState.read () (cache.overlay M) k = .found cur := by
        simp [MapState.read, Cache.overlay, hc, hM]
      rw [@commitValue_of_found Unit D _ () r k cur hread t]
      -- the trie read finds what the map holds, and a write is its own value
      cases t <;> simp [ScratchGlobalState.commitValue, hc, read_of_rootTrie hroot k,
          Entries.read, hM] <;> split <;> simp_all

/-- **`ScratchGlobalState::commit` refines the commit over the map its views read.**  On a
canonical base root the scratch commit does not panic.  Where the commit over the cache and the
map succeeds, the scratch commit returns the base root, and its cache over the map is the map
that commit leaves; otherwise both fail with the same error. -/
theorem scratchCommit_agree (hroot : RootTrie S r M) (effects : List (Key × Transform)) :
    ∀ cache : Cache, ∃ cache' res,
      ScratchGlobalState.commit ⟨cache, S⟩ r effects = .ok (⟨cache', S⟩, res) ∧
      CommitAgree (fun (_ : Unit) r' (_ : Unit) M' => r' = r ∧ cache'.overlay M = M')
        (res.map fun r' => ((), r'))
        (commit MapState.read MapState.write (fun _ _ => true) () (cache.overlay M) effects) := by
  simp only [commit, if_true]
  -- induction on the effects, for every cache: each entry caches what the map commit writes
  induction effects with
  | nil => exact fun cache => ⟨cache, .ok r, rfl, rfl, rfl⟩
  | cons e rest ih =>
    obtain ⟨k, t⟩ := e
    intro cache
    have hscratch := scratchCommitValue_eq hroot cache k t
    rcases @commitValue_agree Unit Unit D MapState (fun _ _ => MapState.read () (cache.overlay M))
        MapState.read () r () (cache.overlay M) k rfl (MapState.read_ne_rootNotFound _ k) t with
      ⟨v, h₁, h₂⟩ | ⟨e₁, e₂, h₁, h₂, he⟩
    · obtain ⟨cache', res, hcommit, hagree⟩ := ih (cache.insertWrite k v)
      refine ⟨cache', res, ?_, ?_⟩
      · simp only [ScratchGlobalState.commit, hscratch, h₁]
        exact hcommit
      · simp only [commitEntries, h₂, MapState.writeThen_eq, ← Cache.overlay_insertWrite]
        exact hagree
    · refine ⟨cache, .error e₁, by simp only [ScratchGlobalState.commit, hscratch, h₁], ?_⟩
      simp only [commitEntries, h₂]
      exact he

/-- The commits of a block through the scratch state, all at the base root, refine commits one
after another over the map its views read. -/
theorem scratchCommitAll_agree (hroot : RootTrie S r M) (effectMaps : List (List (Key × Transform))) :
    ∀ cache : Cache, ∃ cache' res,
      ScratchGlobalState.commitAll ⟨cache, S⟩ r effectMaps = .ok (⟨cache', S⟩, res) ∧
      CommitAgree (fun (_ : Unit) r' (_ : Unit) M' => r' = r ∧ cache'.overlay M = M')
        (res.map fun r' => ((), r'))
        ((MapState.commitAll (cache.overlay M) effectMaps).map fun M' => ((), M')) := by
  induction effectMaps with
  | nil => exact fun cache => ⟨cache, .ok r, rfl, rfl, rfl⟩
  | cons effects rest ih =>
    intro cache
    obtain ⟨cache₁, res₁, hcommit, hagree⟩ := scratchCommit_agree hroot effects cache
    rcases hagree.elim with ⟨u, r₁, u', M₁, h₁, h₂, hr₁, hM₁⟩ | ⟨e₁, e₂, h₁, h₂, he⟩
    · -- the commit returns the base root: the next one starts there, over the new cache
      obtain ⟨cache', res, hcommit', hagree'⟩ := ih cache₁
      have hres₁ : res₁ = .ok r := by
        rw [← hr₁]
        cases res₁ <;> simp_all [Except.map]
      refine ⟨cache', res, ?_, ?_⟩
      · simp only [ScratchGlobalState.commitAll, hcommit, hres₁]
        exact hcommit'
      · simp only [MapState.commitAll, MapState.commit, h₂, Except.map, ← hM₁]
        exact hagree'
    · have hres₁ : res₁ = .error e₁ := by
        cases res₁ <;> simp_all [Except.map]
      refine ⟨cache₁, .error e₁, by simp [ScratchGlobalState.commitAll, hcommit, hres₁], ?_⟩
      simp only [MapState.commitAll, MapState.commit, h₂, Except.map]
      exact he

end Scratch

/-! ## A block -/

section Block

variable {D : Type} [DecidableEq D] {hashTrie : Trie Key StoredValue D → D}
  {S : TrieStore Key StoredValue D} {r : D} {M : MapState}

/-- The commits of a block through the scratch state succeed exactly when the same commits one
after another through LMDB do. -/
theorem scratch_block_ok_iff (hinj : Function.Injective hashTrie) (hS : StoreOk hashTrie S)
    (hroot : RootTrie S r M) (effectMaps : List (List (Key × Transform))) :
    (∃ scratch r', ScratchGlobalState.commitAll ⟨Cache.new, S⟩ r effectMaps = .ok (scratch, .ok r')) ↔
      ∃ lmdbStore lmdbRoot,
        LmdbGlobalState.commitAll hashTrie S r effectMaps = .ok (lmdbStore, lmdbRoot) := by
  obtain ⟨cache', res, hrun, hagree⟩ := scratchCommitAll_agree hroot effectMaps Cache.new
  rw [Cache.overlay_new] at hagree
  have hlmdb := lmdbCommitAll_agree hinj effectMaps hS hroot
  -- both succeed exactly when the commits over the map do
  have hscratch_ok : (∃ r', res = .ok r') ↔ ∃ M', MapState.commitAll M effectMaps = .ok M' := by
    cases res <;> cases hc : MapState.commitAll M effectMaps <;> simp_all [Except.map, CommitAgree]
  have hlmdb_ok : (∃ lmdbStore lmdbRoot,
      LmdbGlobalState.commitAll hashTrie S r effectMaps = .ok (lmdbStore, lmdbRoot)) ↔
        ∃ M', MapState.commitAll M effectMaps = .ok M' := by
    rcases hl : LmdbGlobalState.commitAll hashTrie S r effectMaps with e | ⟨lmdbStore, lmdbRoot⟩ <;>
      cases hc : MapState.commitAll M effectMaps <;> simp_all [Except.map, CommitAgree]
  rw [hlmdb_ok, ← hscratch_ok, hrun]
  simp

theorem scratch_block_ok_iff_bid :
    (∃ scratch r', ScratchGlobalState.commitAll ⟨Cache.new, emptyStore treeDigest⟩
        (treeDigest .emptyNode) [[(.bid (Vector.replicate 32 0), .write (.bid []))]] =
          .ok (scratch, .ok r')) ↔
      ∃ lmdbStore lmdbRoot, LmdbGlobalState.commitAll treeDigest (emptyStore treeDigest)
        (treeDigest .emptyNode) [[(.bid (Vector.replicate 32 0), .write (.bid []))]] =
          .ok (lmdbStore, lmdbRoot) :=
  scratch_block_ok_iff treeDigest_injective (emptyStore_rootTrie treeDigest).1
    (emptyStore_rootTrie treeDigest).2 _

/-- **A block through the scratch state against the same commits through LMDB.**  From the
canonical root of `M`, let the commits of a block through the scratch state all succeed.  The same
commits one after another through LMDB succeed too, and after them both views read, at every
key, the value of the map the commits leave.  The LMDB view lists the keys of that map below a
prefix; the scratch view lists those of `M`, whatever the block wrote. -/
theorem scratch_block_views (hinj : Function.Injective hashTrie) (hS : StoreOk hashTrie S)
    (hroot : RootTrie S r M) (effectMaps : List (List (Key × Transform)))
    {scratch : ScratchGlobalState D} {r' : D}
    (hscratch : ScratchGlobalState.commitAll ⟨Cache.new, S⟩ r effectMaps = .ok (scratch, .ok r')) :
    ∃ M' lmdbStore lmdbRoot view lmdbView,
      MapState.commitAll M effectMaps = .ok M' ∧
      LmdbGlobalState.commitAll hashTrie S r effectMaps = .ok (lmdbStore, lmdbRoot) ∧
      scratch.checkout r' = some view ∧ LmdbGlobalState.checkout lmdbStore lmdbRoot = some lmdbView ∧
      (∀ k, (view.read k).map Prod.fst = .ok (M' k) ∧ lmdbView.read k = .ok (M' k)) ∧
      ∀ pfx, (∃ keys, (∃ n, ∀ fuel, n ≤ fuel → view.keysWithPrefix fuel pfx = .ok keys) ∧
          keys.Nodup ∧ ∀ k, k ∈ keys ↔ M k ≠ none ∧ pfx <+: keyBytes k) ∧
        ∃ keys, (∃ n, ∀ fuel, n ≤ fuel → lmdbView.keysWithPrefix fuel pfx = .ok keys) ∧
          keys.Nodup ∧ ∀ k, k ∈ keys ↔ M' k ≠ none ∧ pfx <+: keyBytes k := by
  obtain ⟨cache', res, hrun, hagree⟩ := scratchCommitAll_agree hroot effectMaps Cache.new
  rw [hscratch, Except.ok.injEq, Prod.mk.injEq] at hrun
  obtain ⟨rfl, rfl⟩ := hrun
  rw [Cache.overlay_new] at hagree
  -- the scratch run ends at the base root, with its cache over `M` the map of the commits
  obtain ⟨M', hmap, hr', hM'⟩ : ∃ M', MapState.commitAll M effectMaps = .ok M' ∧ r' = r ∧
      cache'.overlay M = M' := by
    cases hc : MapState.commitAll M effectMaps <;> simp_all [Except.map, CommitAgree]
  subst hr'
  -- the LMDB run ends at the canonical root of the same map
  obtain ⟨lmdbStore, lmdbRoot, hlmdb, -, hrootn⟩ : ∃ lmdbStore lmdbRoot,
      LmdbGlobalState.commitAll hashTrie S r' effectMaps = .ok (lmdbStore, lmdbRoot) ∧
        StoreOk hashTrie lmdbStore ∧ RootTrie lmdbStore lmdbRoot M' := by
    have hagree' := lmdbCommitAll_agree hinj effectMaps hS hroot
    rw [hmap] at hagree'
    rcases hl : LmdbGlobalState.commitAll hashTrie S r' effectMaps with e | ⟨lmdbStore, lmdbRoot⟩ <;>
      simp_all [Except.map, CommitAgree, LmdbRefines]
  refine ⟨M', lmdbStore, lmdbRoot, ⟨cache', S, r'⟩, ⟨lmdbStore, lmdbRoot⟩, hmap, hlmdb, ?_, ?_,
    fun k => ⟨?_, LmdbGlobalStateView.read_of_rootTrie hrootn k⟩,
    fun pfx => ⟨keysWithPrefix_of_rootTrie hroot pfx, keysWithPrefix_of_rootTrie hrootn pfx⟩⟩
  · simp [ScratchGlobalState.checkout, Option.isSome_iff_exists.mp hroot.isSome]
  · simp [LmdbGlobalState.checkout, Option.isSome_iff_exists.mp hrootn.isSome]
  · obtain ⟨cache'', hread, -⟩ := ScratchGlobalStateView.read_of_rootTrie hroot cache' k
    rw [hread, ← hM']
    rfl

/-- A block that writes a bid: both commits succeed, and the views read the bid, but only the
LMDB view lists it. -/
theorem scratch_block_views_bid :
    ScratchGlobalState.commitAll ⟨Cache.new, emptyStore treeDigest⟩ (treeDigest .emptyNode)
        [[(.bid (Vector.replicate 32 0), .write (.bid []))]] =
      .ok (⟨Cache.new.insertWrite (.bid (Vector.replicate 32 0)) (.bid []), emptyStore treeDigest⟩,
        .ok (treeDigest .emptyNode)) ∧
    ∃ M' lmdbStore lmdbRoot view lmdbView,
      MapState.commitAll Entries.empty [[(.bid (Vector.replicate 32 0), .write (.bid []))]] =
        .ok M' ∧
      LmdbGlobalState.commitAll treeDigest (emptyStore treeDigest) (treeDigest .emptyNode)
        [[(.bid (Vector.replicate 32 0), .write (.bid []))]] = .ok (lmdbStore, lmdbRoot) ∧
      ScratchGlobalState.checkout
        ⟨Cache.new.insertWrite (.bid (Vector.replicate 32 0)) (.bid []), emptyStore treeDigest⟩
        (treeDigest .emptyNode) = some view ∧
      LmdbGlobalState.checkout lmdbStore lmdbRoot = some lmdbView ∧
      (∀ k, (view.read k).map Prod.fst = .ok (M' k) ∧ lmdbView.read k = .ok (M' k)) ∧
      ∀ pfx, (∃ keys, (∃ n, ∀ fuel, n ≤ fuel → view.keysWithPrefix fuel pfx = .ok keys) ∧
          keys.Nodup ∧ ∀ k, k ∈ keys ↔ (Entries.empty : MapState) k ≠ none ∧
            pfx <+: keyBytes k) ∧
        ∃ keys, (∃ n, ∀ fuel, n ≤ fuel → lmdbView.keysWithPrefix fuel pfx = .ok keys) ∧
          keys.Nodup ∧ ∀ k, k ∈ keys ↔ M' k ≠ none ∧ pfx <+: keyBytes k := by
  have hscratch : ScratchGlobalState.commitAll ⟨Cache.new, emptyStore treeDigest⟩
      (treeDigest .emptyNode) [[(.bid (Vector.replicate 32 0), .write (.bid []))]] =
        .ok (⟨Cache.new.insertWrite (.bid (Vector.replicate 32 0)) (.bid []), emptyStore treeDigest⟩,
          .ok (treeDigest .emptyNode)) := by
    simp [ScratchGlobalState.commitAll, ScratchGlobalState.commit,
      ScratchGlobalState.commitValue]
  exact ⟨hscratch, scratch_block_views treeDigest_injective (emptyStore_rootTrie treeDigest).1
    (emptyStore_rootTrie treeDigest).2 _ hscratch⟩

end Block

end CasperNode
