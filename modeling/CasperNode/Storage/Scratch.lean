import CasperNode.Storage.TrieRuns
import CasperNode.Storage.TrieKeysWalk

/-!
# The scratch global state against the LMDB global state

Block execution runs every deploy of a block, and the auction's step at a switch block, against a
`ScratchGlobalState` (`contract_runtime::operations::execute_finalized_block`).  It never writes
the trie while the block runs: `commit` applies each transform to the cached value (or to the
value read from the trie at the root it is given) and caches the result as written, and returns
the root it was given.  A view reads the cache first and the trie at that root after.  At the end
of the block `write_scratch_to_db` puts the written values into the trie.

The LMDB global state is the reference: `global_state::commit` writes each value into the trie and
moves to the new root.  Its views read the trie at that root.

Reads agree, but `keys_with_prefix` of a scratch view walks the trie at the root it was given and
does not look at the cache: a key written by an earlier commit of the block is missing from it,
while the LMDB view at the root of the same commits returns it
(`scratch_keysWithPrefix_misses_written_key`).  The step's `get_keys(KeyTag::Bid)` goes through
it.

The LMDB environment, its transactions and its errors are not modelled: the trie store is a
function and the views hold it.  The source's shared `Arc<RwLock<Cache>>` is the cache a view is
built with and the cache its `read` returns.
-/

namespace CasperNode

open TrieKey

variable {D : Type}

/-! ## The cache -/

/-- `Cache`: the values read or written in the block, each with whether it was written. -/
structure Cache where
  cachedValues : Key → Option (Bool × StoredValue)

namespace Cache

/-- `Cache::new`. -/
def new : Cache := ⟨fun _ => none⟩

/-- `Cache::insert_write`. -/
def insertWrite (cache : Cache) (key : Key) (value : StoredValue) : Cache :=
  ⟨Function.update cache.cachedValues key (some (true, value))⟩

/-- `Cache::insert_read`: `entry(key).or_insert`, which keeps a value already cached. -/
def insertRead (cache : Cache) (key : Key) (value : StoredValue) : Cache :=
  match cache.cachedValues key with
  | some _ => cache
  | none => ⟨Function.update cache.cachedValues key (some (false, value))⟩

/-- `Cache::get`. -/
def get (cache : Cache) (key : Key) : Option StoredValue :=
  (cache.cachedValues key).map Prod.snd

/-- `Cache::into_dirty_writes`: the written values only. -/
def intoDirtyWrites (cache : Cache) : Key → Option StoredValue := fun key =>
  match cache.cachedValues key with
  | some (true, value) => some value
  | _ => none

@[simp] theorem get_new (key : Key) : new.get key = none := rfl

@[simp] theorem get_insertWrite (cache : Cache) (key key' : Key) (value : StoredValue) :
    (cache.insertWrite key value).get key' = if key' = key then some value else cache.get key' := by
  by_cases h : key' = key
  · subst h
    simp [get, insertWrite]
  · simp [get, insertWrite, h]

end Cache

/-! ## The states and their views -/

/-- `ScratchGlobalState`: the cache, and the trie store it reads. -/
structure ScratchGlobalState (D : Type) where
  cache : Cache
  trieStore : TrieStore Key StoredValue D

/-- `ScratchGlobalStateView`: the cache, the trie store, and the root of the view. -/
structure ScratchGlobalStateView (D : Type) where
  cache : Cache
  trieStore : TrieStore Key StoredValue D
  rootHash : D

/-- `LmdbGlobalStateView`: the trie store and the root of the view. -/
structure LmdbGlobalStateView (D : Type) where
  trieStore : TrieStore Key StoredValue D
  rootHash : D

/-- `ScratchGlobalState::checkout`: a view at a root the store holds, sharing the cache. -/
def ScratchGlobalState.checkout (state : ScratchGlobalState D) (stateHash : D) :
    Option (ScratchGlobalStateView D) :=
  (state.trieStore stateHash).map fun _ => ⟨state.cache, state.trieStore, stateHash⟩

/-- `LmdbGlobalState::checkout`. -/
def LmdbGlobalState.checkout (trieStore : TrieStore Key StoredValue D) (stateHash : D) :
    Option (LmdbGlobalStateView D) :=
  (trieStore stateHash).map fun _ => ⟨trieStore, stateHash⟩

/-- `ScratchGlobalStateView::read`: the cached value, or the value in the trie at the root of the
view, which is then cached as read.  A missing root panics. -/
def ScratchGlobalStateView.read (view : ScratchGlobalStateView D) (key : Key) :
    Except TrieFault (Option StoredValue × Cache) :=
  match view.cache.get key with
  | some value => .ok (some value, view.cache)
  | none =>
    match CasperNode.read keyBytes view.trieStore view.rootHash key with
    | .error e => .error e
    | .ok (.found value) => .ok (some value, view.cache.insertRead key value)
    | .ok .notFound => .ok (none, view.cache)
    | .ok .rootNotFound => .error (.explicit "ScratchGlobalState has invalid root")

/-- `LmdbGlobalStateView::read`. -/
def LmdbGlobalStateView.read (view : LmdbGlobalStateView D) (key : Key) :
    Except TrieFault (Option StoredValue) :=
  match CasperNode.read keyBytes view.trieStore view.rootHash key with
  | .error e => .error e
  | .ok (.found value) => .ok (some value)
  | .ok .notFound => .ok none
  | .ok .rootNotFound => .error (.explicit "LmdbGlobalState has invalid root")

/-- The `keys_with_prefix` of both views: every key the trie iterator returns below the prefix,
from the root of the view. -/
def trieKeysWithPrefix (trieStore : TrieStore Key StoredValue D) (root : D) (fuel : Nat)
    (pfx : List UInt8) : Except TrieFault (List Key) :=
  collectKeys keyBytes trieStore fuel (keysWithPrefix trieStore root pfx)

/-- `ScratchGlobalStateView::keys_with_prefix`: the trie at the root of the view, without the
cache. -/
def ScratchGlobalStateView.keysWithPrefix (view : ScratchGlobalStateView D) (fuel : Nat)
    (pfx : List UInt8) : Except TrieFault (List Key) :=
  trieKeysWithPrefix view.trieStore view.rootHash fuel pfx

/-- `LmdbGlobalStateView::keys_with_prefix`. -/
def LmdbGlobalStateView.keysWithPrefix (view : LmdbGlobalStateView D) (fuel : Nat)
    (pfx : List UInt8) : Except TrieFault (List Key) :=
  trieKeysWithPrefix view.trieStore view.rootHash fuel pfx

/-! ## Commits -/

/-- The value `ScratchGlobalState::commit` caches for one entry: a `Write` to a key not in the
cache is the new value; any other transform applies to the cached value, or to the value in the
trie at the given root, which must be there.  The outer `Except` is a panic of the trie. -/
def ScratchGlobalState.commitValue (state : ScratchGlobalState D) (stateHash : D) (key : Key)
    (transform : Transform) : Except TrieFault (Except (CommitError D) StoredValue) :=
  match state.cache.get key, transform with
  | none, .write newValue => .ok (.ok newValue)
  | none, transform =>
    match CasperNode.read keyBytes state.trieStore stateHash key with
    | .error e => .error e
    | .ok (.found currentValue) =>
      match transform.apply currentValue with
      | .ok updatedValue => .ok (.ok updatedValue)
      | .error err => .ok (.error (.transformError err))
    | .ok .notFound => .ok (.error (.keyNotFound key))
    | .ok .rootNotFound => .ok (.error (.readRootNotFound stateHash))
  | some currentValue, transform =>
    match transform.apply currentValue with
    | .ok updatedValue => .ok (.ok updatedValue)
    | .error err => .ok (.error (.transformError err))

/-- `ScratchGlobalState::commit`: each value is cached as written, in iteration order, and the
given root is returned.  The cache is shared, so on an error it keeps what was cached before. -/
def ScratchGlobalState.commit (state : ScratchGlobalState D) (stateHash : D) :
    List (Key × Transform) → Except TrieFault (ScratchGlobalState D × Except (CommitError D) D)
  | [] => .ok (state, .ok stateHash)
  | (key, transform) :: rest =>
    match state.commitValue stateHash key transform with
    | .error e => .error e
    | .ok (.error e) => .ok (state, .error e)
    | .ok (.ok value) =>
      ScratchGlobalState.commit { state with cache := state.cache.insertWrite key value }
        stateHash rest

/-- The commits of a block (`contract_runtime::operations::execute_finalized_block`): the
effects of each deploy are committed at the root the previous commit returned, and the first
error ends the block. -/
def ScratchGlobalState.commitAll (state : ScratchGlobalState D) (stateHash : D) :
    List (List (Key × Transform)) → Except TrieFault (ScratchGlobalState D × Except (CommitError D) D)
  | [] => .ok (state, .ok stateHash)
  | effects :: rest =>
    match state.commit stateHash effects with
    | .error e => .error e
    | .ok (state', .error e) => .ok (state', .error e)
    | .ok (state', .ok stateHash') => ScratchGlobalState.commitAll state' stateHash' rest

section Lmdb

variable [DecidableEq D] (hashTrie : Trie Key StoredValue D → D)

/-- `operations::read` as `commit` uses it.  A panic of the trie, which does not happen on a
canonical root (`read_of_rootTrie`), is reported as a missing root. -/
def lmdbRead (trieStore : TrieStore Key StoredValue D) (root : D) (key : Key) :
    ReadResult StoredValue :=
  match CasperNode.read keyBytes trieStore root key with
  | .ok result => result
  | .error _ => .rootNotFound

/-- `operations::write` as `commit` uses it, with the store after it.  A panic of the trie, which
does not happen on a canonical root (`write_of_rootTrie`), is reported as a missing root. -/
def lmdbWrite (trieStore : TrieStore Key StoredValue D) (root : D) (key : Key)
    (value : StoredValue) : TrieStore Key StoredValue D × WriteResult D :=
  match write keyBytes hashTrie trieStore root key value with
  | .ok (result, trieStore') => (trieStore', result)
  | .error _ => (trieStore, .rootNotFound)

/-- `LmdbGlobalState::commit`: `global_state::commit` over the trie store. -/
def LmdbGlobalState.commit (trieStore : TrieStore Key StoredValue D) (prestateHash : D)
    (effects : List (Key × Transform)) : Except (CommitError D) (TrieStore Key StoredValue D × D) :=
  CasperNode.commit lmdbRead (lmdbWrite hashTrie) (fun trieStore root => (trieStore root).isSome)
    trieStore prestateHash effects

/-- The same effects committed one after another through `LmdbGlobalState::commit`. -/
def LmdbGlobalState.commitAll (trieStore : TrieStore Key StoredValue D) (stateHash : D) :
    List (List (Key × Transform)) → Except (CommitError D) (TrieStore Key StoredValue D × D)
  | [] => .ok (trieStore, stateHash)
  | effects :: rest =>
    match LmdbGlobalState.commit hashTrie trieStore stateHash effects with
    | .error e => .error e
    | .ok (trieStore', stateHash') => LmdbGlobalState.commitAll trieStore' stateHash' rest

end Lmdb

/-! ## A key written by a commit of the block

From the empty trie, one commit writes a key.  The scratch state caches it and stays at the empty
root; the LMDB state writes the trie of that one key.  Both views read the key's value, but only
the LMDB view lists the key below its tag. -/

section Divergence

variable [DecidableEq D] {hashTrie : Trie Key StoredValue D → D}

/-- The root of the trie that holds one entry: a node with the leaf at the key's tag. -/
def singleEntryRoot (hashTrie : Trie Key StoredValue D → D) (k : Key) (v : StoredValue) :
    Trie Key StoredValue D :=
  .node (PointerBlock.new.set k.tag (some (.leafPointer (hashTrie (.leaf k v)))))

/-- The store after writing one entry into the empty trie. -/
def singleEntryStore (hashTrie : Trie Key StoredValue D → D) (k : Key) (v : StoredValue) :
    TrieStore Key StoredValue D :=
  (emptyStore hashTrie).putAll
    [(hashTrie (.leaf k v), .leaf k v), (hashTrie (singleEntryRoot hashTrie k v), singleEntryRoot hashTrie k v)]

theorem emptyStore_root :
    emptyStore hashTrie (hashTrie .emptyNode) = some (Trie.emptyNode : Trie Key StoredValue D) := by
  simp [emptyStore, TrieStore.putAll]

theorem keyBytes_eq_cons (k : Key) : ∃ rest, keyBytes k = k.tag :: rest := by
  obtain ⟨rest, hrest⟩ := List.head?_eq_some_iff.mp (Key.head?_toBytes k)
  exact ⟨rest, hrest⟩

theorem keyBytes_getElem?_zero (k : Key) : (keyBytes k)[0]? = some k.tag := by
  rw [← List.head?_eq_getElem?]
  exact Key.head?_toBytes k

theorem read_emptyStore (k : Key) :
    CasperNode.read keyBytes (emptyStore hashTrie) (hashTrie .emptyNode) k = .ok .notFound := by
  rw [read_of_rootTrie (emptyStore_rootTrie hashTrie).2 k]
  rfl

/-- `write` into the empty trie puts the leaf and the node above it. -/
theorem write_emptyStore (k : Key) (v : StoredValue) :
    write keyBytes hashTrie (emptyStore hashTrie) (hashTrie .emptyNode) k v =
      .ok (.written (hashTrie (singleEntryRoot hashTrie k v)), singleEntryStore hashTrie k v) := by
  have hroot : emptyStore hashTrie (hashTrie (.node PointerBlock.new)) =
      some (Trie.node PointerBlock.new : Trie Key StoredValue D) := emptyStore_root
  simp [write, hroot, scan, scanLoop, Trie.emptyNode, pathIndex, keyBytes_getElem?_zero k,
    writeElements, addNodeToParents, getParentsPath, commonPrefix_of_prefix List.nil_prefix,
    rehash, rehashLoop, pointerTo, singleEntryRoot, singleEntryStore]

/-- The empty trie has no key below any byte. -/
theorem keys_emptyStore {fuel : Nat} (hfuel : 3 ≤ fuel) (b : UInt8) :
    trieKeysWithPrefix (emptyStore hashTrie) (hashTrie .emptyNode) fuel [b] = .ok [] := by
  obtain ⟨n, rfl⟩ : ∃ n, fuel = n + 3 := ⟨fuel - 3, by omega⟩
  have hroot : emptyStore hashTrie (hashTrie (.node PointerBlock.new)) =
      some (Trie.node PointerBlock.new : Trie Key StoredValue D) := emptyStore_root
  simp [trieKeysWithPrefix, keysWithPrefix, Trie.emptyNode, hroot, collectKeys,
    KeysIterator.next, KeysIterator.step, childFrom_descend]

/-- The trie of one entry lists its key below the key's tag, if the leaf and the root do not
collide. -/
theorem keys_singleEntryStore (k : Key) (v : StoredValue)
    (hne : hashTrie (.leaf k v) ≠ hashTrie (singleEntryRoot hashTrie k v)) {fuel : Nat}
    (hfuel : 3 ≤ fuel) :
    trieKeysWithPrefix (singleEntryStore hashTrie k v) (hashTrie (singleEntryRoot hashTrie k v))
      fuel [k.tag] = .ok [k] := by
  obtain ⟨n, rfl⟩ : ∃ n, fuel = n + 3 := ⟨fuel - 3, by omega⟩
  unfold singleEntryRoot at hne
  have hprefix : ([k.tag] : List UInt8).isPrefixOf (keyBytes k) = true := by
    obtain ⟨rest, hrest⟩ := keyBytes_eq_cons k
    rw [List.isPrefixOf_iff_prefix]
    exact ⟨rest, hrest.symm⟩
  simp [trieKeysWithPrefix, keysWithPrefix, singleEntryStore, singleEntryRoot, TrieStore.putAll,
    collectKeys, KeysIterator.next, KeysIterator.step, childFrom_descend, pushNext,
    hne, hprefix]

/-- The trie of one entry reads its value. -/
theorem read_singleEntryStore (k : Key) (v : StoredValue)
    (hne : hashTrie (.leaf k v) ≠ hashTrie (singleEntryRoot hashTrie k v)) :
    CasperNode.read keyBytes (singleEntryStore hashTrie k v) (hashTrie (singleEntryRoot hashTrie k v)) k =
      .ok (.found v) := by
  obtain ⟨rest, hrest⟩ := keyBytes_eq_cons k
  unfold singleEntryRoot at hne
  simp [CasperNode.read, singleEntryStore, singleEntryRoot, TrieStore.putAll, hrest, readLoop,
    pathIndex, hne]

/-- **The scratch view misses the keys the block wrote.**  From the empty trie, commit the write
of a key `k` through the scratch state and through the LMDB state.  Both commits succeed, and both
views read the value at `k`; but at the root each commit returns, the scratch view lists no key
below `k`'s tag, while the LMDB view lists `k`. -/
theorem scratch_keysWithPrefix_misses_written_key (k : Key) (v : StoredValue)
    (hne : hashTrie (.leaf k v) ≠ hashTrie (singleEntryRoot hashTrie k v)) {fuel : Nat}
    (hfuel : 3 ≤ fuel) :
    ∃ scratch view lmdbStore lmdbRoot lmdbView,
      ScratchGlobalState.commit ⟨Cache.new, emptyStore hashTrie⟩ (hashTrie .emptyNode)
          [(k, .write v)] = .ok (scratch, .ok (hashTrie .emptyNode)) ∧
        scratch.checkout (hashTrie .emptyNode) = some view ∧
        LmdbGlobalState.commit hashTrie (emptyStore hashTrie) (hashTrie .emptyNode)
          [(k, .write v)] = .ok (lmdbStore, lmdbRoot) ∧
        LmdbGlobalState.checkout lmdbStore lmdbRoot = some lmdbView ∧
        (view.read k).map Prod.fst = .ok (some v) ∧ lmdbView.read k = .ok (some v) ∧
        view.keysWithPrefix fuel [k.tag] = .ok [] ∧
        lmdbView.keysWithPrefix fuel [k.tag] = .ok [k] := by
  have hroot₁ : singleEntryStore hashTrie k v (hashTrie (singleEntryRoot hashTrie k v)) =
      some (singleEntryRoot hashTrie k v) := by
    simp [singleEntryStore, TrieStore.putAll]
  refine ⟨⟨Cache.new.insertWrite k v, emptyStore hashTrie⟩,
    ⟨Cache.new.insertWrite k v, emptyStore hashTrie, hashTrie .emptyNode⟩,
    singleEntryStore hashTrie k v, hashTrie (singleEntryRoot hashTrie k v),
    ⟨singleEntryStore hashTrie k v, hashTrie (singleEntryRoot hashTrie k v)⟩,
    ?_, ?_, ?_, ?_, ?_, ?_, ?_, ?_⟩
  · simp [ScratchGlobalState.commit, ScratchGlobalState.commitValue]
  · simp [ScratchGlobalState.checkout, emptyStore_root]
  · simp [LmdbGlobalState.commit, CasperNode.commit, commitEntries, commitValue, writeThen,
      lmdbRead, lmdbWrite, emptyStore_root, read_emptyStore, write_emptyStore]
  · simp [LmdbGlobalState.checkout, hroot₁]
  · simp [ScratchGlobalStateView.read, Except.map]
  · simp [LmdbGlobalStateView.read, read_singleEntryStore k v hne]
  · exact keys_emptyStore hfuel k.tag
  · exact keys_singleEntryStore k v hne hfuel

/-- A digest that tells a leaf from the other tries: the one collision the divergence excludes. -/
def leafDigest : Trie Key StoredValue ℕ → ℕ
  | .leaf _ _ => 0
  | _ => 1

/-- A bid written by a deploy of the block is missing from the scratch view's bids. -/
theorem scratch_keysWithPrefix_misses_bid :
    leafDigest (.leaf (.bid (Vector.replicate 32 0)) (.bid [])) ≠
        leafDigest (singleEntryRoot leafDigest (.bid (Vector.replicate 32 0)) (.bid [])) ∧
      ∃ scratch view lmdbStore lmdbRoot lmdbView,
        ScratchGlobalState.commit ⟨Cache.new, emptyStore leafDigest⟩ (leafDigest .emptyNode)
            [(.bid (Vector.replicate 32 0), .write (.bid []))] =
          .ok (scratch, .ok (leafDigest .emptyNode)) ∧
        scratch.checkout (leafDigest .emptyNode) = some view ∧
        LmdbGlobalState.commit leafDigest (emptyStore leafDigest) (leafDigest .emptyNode)
            [(.bid (Vector.replicate 32 0), .write (.bid []))] = .ok (lmdbStore, lmdbRoot) ∧
        LmdbGlobalState.checkout lmdbStore lmdbRoot = some lmdbView ∧
        (view.read (.bid (Vector.replicate 32 0))).map Prod.fst = .ok (some (.bid [])) ∧
        lmdbView.read (.bid (Vector.replicate 32 0)) = .ok (some (.bid [])) ∧
        view.keysWithPrefix 3 [7] = .ok [] ∧
        lmdbView.keysWithPrefix 3 [7] = .ok [.bid (Vector.replicate 32 0)] :=
  have hne : leafDigest (.leaf (.bid (Vector.replicate 32 0)) (.bid [])) ≠
      leafDigest (singleEntryRoot leafDigest (.bid (Vector.replicate 32 0)) (.bid [])) := by
    simp [leafDigest, singleEntryRoot]
  ⟨hne, scratch_keysWithPrefix_misses_written_key _ _ hne le_rfl⟩

end Divergence

end CasperNode
