import CasperNode.Storage.TrieDelete

/-!
# Runs of `write` and `delete`: the trie store is a map

The engine and the tests of `trie_store::operations` use the store by threading a root: from
the empty trie, each `write` and `delete` runs on the current root, and the root it returns
(`Written`, `Deleted`) is the one the next operation runs on (`write_pairs`,
`interleaved_insert_and_delete`).  `runOps` is that loop.

Its abstract model is a map, changed by `Entries.insert` and `Entries.erase`.  The result: over
any run, no operation faults; `read` on the final root returns what the last operation on the
key left (`lastRead`); each `write` and `delete` says whether it changed the map; and, since the
canonical root of a map is unique, two runs that leave one map end at one root digest.

Everything rests on the hash being collision-free.  Tries of countable keys, values and digests
are countable, so some hash into `ℕ` is (`natDigest`): the hypothesis can be met.
-/

namespace CasperNode

open TrieKey

variable {K V D : Type}

/-! ## Operations and their map semantics -/

/-- An operation on the trie store. -/
inductive TrieOp (K V : Type) where
  | write (key : K) (value : V)
  | delete (key : K)
deriving DecidableEq

/-- What an operation returned. -/
inductive TrieOpResult (D : Type) where
  | write (result : WriteResult D)
  | delete (result : DeleteResult D)
deriving DecidableEq

namespace Entries

variable [DecidableEq K]

/-- An operation on the map. -/
def apply (M : Entries K V) : TrieOp K V → Entries K V
  | .write k v => M.insert k v
  | .delete k => M.erase k

/-- A run of operations on the map. -/
def run (M : Entries K V) (ops : List (TrieOp K V)) : Entries K V := ops.foldl apply M

@[simp] theorem run_nil (M : Entries K V) : M.run [] = M := rfl

@[simp] theorem run_cons (M : Entries K V) (op : TrieOp K V) (ops : List (TrieOp K V)) :
    M.run (op :: ops) = (M.apply op).run ops := rfl

end Entries

/-- What `read` of `q` should find after a run: the value of the last `write` of `q`, if no
`delete` of `q` came after it. -/
def lastReadStep [DecidableEq K] (q : K) (r : ReadResult V) : TrieOp K V → ReadResult V
  | .write k v => if k = q then .found v else r
  | .delete k => if k = q then .notFound else r

/-- The last operation on `q` decides what `read` finds. -/
def lastRead [DecidableEq K] (q : K) (ops : List (TrieOp K V)) : ReadResult V :=
  ops.foldl (lastReadStep q) .notFound

section LastRead

variable [DecidableEq K]

theorem read_apply (M : Entries K V) (op : TrieOp K V) (q : K) :
    (M.apply op).read q = lastReadStep q (M.read q) op := by
  cases op with
  | write k v =>
    by_cases hk : k = q
    · subst hk
      simp [Entries.apply, lastReadStep, Entries.read]
    · simp [Entries.apply, lastReadStep, Entries.read, hk, Ne.symm hk]
  | delete k =>
    by_cases hk : k = q
    · subst hk
      simp [Entries.apply, lastReadStep, Entries.read]
    · simp [Entries.apply, lastReadStep, Entries.read, hk, Ne.symm hk]

/-- Reading the map after a run is folding the run over what the map held. -/
theorem read_run (M : Entries K V) (ops : List (TrieOp K V)) (q : K) :
    (M.run ops).read q = ops.foldl (lastReadStep q) (M.read q) := by
  induction ops generalizing M with
  | nil => rfl
  | cons op ops ih => rw [Entries.run_cons, ih, read_apply, List.foldl_cons]

/-- **The map of a run from the empty map reads as the last operation on each key.** -/
theorem read_run_empty (ops : List (TrieOp K V)) (q : K) :
    (Entries.empty.run ops).read q = lastRead q ops := by
  rw [read_run]
  rfl

end LastRead

/-! ## The loop over the store -/

section Run

variable [DecidableEq K] [DecidableEq V] [DecidableEq D] (keyBytes : K → List UInt8)
variable (hashTrie : Trie K V D → D)

/-- The store of `create_hashed_empty_trie`: the empty node, put under its hash. -/
def emptyStore : TrieStore K V D :=
  TrieStore.putAll (fun _ => none) [(hashTrie .emptyNode, .emptyNode)]

/-- One operation on the store at a root, as the test loops run it: the new root of `Written`
and `Deleted` replaces the root, `AlreadyExists` and `DoesNotExist` keep it, and `RootNotFound`
panics. -/
def runOp (store : TrieStore K V D) (root : D) :
    TrieOp K V → Except TrieFault (TrieOpResult D × TrieStore K V D × D)
  | .write k v =>
    match write keyBytes hashTrie store root k v with
    | .error e => .error e
    | .ok (.written newRoot, store') => .ok (.write (.written newRoot), store', newRoot)
    | .ok (.alreadyExists, store') => .ok (.write .alreadyExists, store', root)
    | .ok (.rootNotFound, _) => .error (.explicit "write_leaves given an invalid root")
  | .delete k =>
    match delete keyBytes hashTrie store root k with
    | .error e => .error e
    | .ok (.deleted newRoot, store') => .ok (.delete (.deleted newRoot), store', newRoot)
    | .ok (.doesNotExist, store') => .ok (.delete .doesNotExist, store', root)
    | .ok (.rootNotFound, _) => .error (.explicit "should find root")

/-- A run of operations, each on the root the one before returned. -/
def runOps : TrieStore K V D → D → List (TrieOp K V) →
    Except TrieFault (List (TrieOpResult D) × TrieStore K V D × D)
  | store, root, [] => .ok ([], store, root)
  | store, root, op :: ops =>
    match runOp keyBytes hashTrie store root op with
    | .error e => .error e
    | .ok (result, store', root') =>
      match runOps store' root' ops with
      | .error e => .error e
      | .ok (results, store'', root'') => .ok (result :: results, store'', root'')

end Run

/-! ## What each result says about the map -/

/-- The result an operation returns on a map: `Written` exactly when the value is new,
`AlreadyExists` when the map holds it; `Deleted` exactly when the key has a value,
`DoesNotExist` when it has none. -/
def ResultSpec (M : Entries K V) : TrieOp K V → TrieOpResult D → Prop
  | .write k v, .write (.written _) => M k ≠ some v
  | .write k v, .write .alreadyExists => M k = some v
  | .delete k, .delete (.deleted _) => M k ≠ none
  | .delete k, .delete .doesNotExist => M k = none
  | _, _ => False

/-- The results of a run, each for the map the operations before it left. -/
def RunSpec [DecidableEq K] : Entries K V → List (TrieOp K V) → List (TrieOpResult D) → Prop
  | _, [], [] => True
  | M, op :: ops, result :: results => ResultSpec M op result ∧ RunSpec (M.apply op) ops results
  | _, _, _ => False

/-! ## A collision-free hash

A trie holds digests, not subtries, so a trie of countable keys, values and digests is one of
countably many; some hash of them into `ℕ` is then injective. -/

section Digest

/-- A pointer as its kind and digest. -/
def Pointer.code : Pointer D → D ⊕ D
  | .leafPointer h => .inl h
  | .nodePointer h => .inr h

theorem Pointer.code_injective : Function.Injective (Pointer.code : Pointer D → D ⊕ D) := by
  intro p p' h
  cases p <;> cases p' <;> simp_all [Pointer.code]

/-- A trie as its kind and fields. -/
def Trie.code : Trie K V D → (K × V) ⊕ (UInt8 → Option (D ⊕ D)) ⊕ (List UInt8 × (D ⊕ D))
  | .leaf k v => .inl (k, v)
  | .node pb => .inr (.inl fun b => (pb b).map Pointer.code)
  | .extension affix p => .inr (.inr (affix, p.code))

theorem Trie.code_injective : Function.Injective (Trie.code : Trie K V D → _) := by
  intro t t' h
  cases t <;> cases t' <;>
    simp only [Trie.code, Sum.inl.injEq, Sum.inr.injEq, reduceCtorEq, Prod.mk.injEq] at h
  · rw [h.1, h.2]
  · congr 1
    funext b
    exact Option.map_injective Pointer.code_injective (congrFun h b)
  · rw [h.1, Pointer.code_injective h.2]

instance : Countable Key := Key.toBytes_injective.countable

instance [Countable K] [Countable V] [Countable D] : Countable (Trie K V D) :=
  Trie.code_injective.countable

/-- A collision-free hash of the tries of `Key` and `ℕ`, with digests in `ℕ`. -/
noncomputable def natDigest : Trie Key ℕ ℕ → ℕ :=
  Classical.choose (exists_injective_nat (Trie Key ℕ ℕ))

theorem natDigest_injective : Function.Injective natDigest :=
  Classical.choose_spec (exists_injective_nat (Trie Key ℕ ℕ))

/-- A digest that keeps the whole trie, so that no two tries share one: a node is the chain of
its slots, each the pointer it holds. -/
inductive TreeDigest (K V : Type) where
  | leaf (key : K) (value : V)
  | extension (affix : List UInt8) (pointer : TreeDigest K V)
  | leafPointer (digest : TreeDigest K V)
  | nodePointer (digest : TreeDigest K V)
  | noPointer
  | slot (pointer rest : TreeDigest K V)
  | lastSlot
deriving DecidableEq

namespace TreeDigest

/-- A slot of a node, as a digest. -/
def ofPointer : Option (Pointer (TreeDigest K V)) → TreeDigest K V
  | some (.leafPointer d) => .leafPointer d
  | some (.nodePointer d) => .nodePointer d
  | none => .noPointer

/-- The slots of a node, as one digest. -/
def ofSlots : List (TreeDigest K V) → TreeDigest K V
  | [] => .lastSlot
  | d :: ds => .slot d (ofSlots ds)

theorem ofPointer_injective :
    Function.Injective (ofPointer : Option (Pointer (TreeDigest K V)) → TreeDigest K V) := by
  intro p p' h
  rcases p with _ | ⟨d⟩ | ⟨d⟩ <;> rcases p' with _ | ⟨d'⟩ | ⟨d'⟩ <;> simp_all [ofPointer]

theorem ofSlots_injective : Function.Injective (ofSlots : List (TreeDigest K V) → TreeDigest K V) := by
  intro ds
  induction ds with
  | nil => intro ds' h; cases ds' <;> simp_all [ofSlots]
  | cons d ds ih =>
    intro ds' h
    cases ds' with
    | nil => simp [ofSlots] at h
    | cons d' ds' =>
      simp only [ofSlots, slot.injEq] at h
      rw [h.1, ih h.2]

theorem ofSlots_ne_leaf (ds : List (TreeDigest K V)) (k : K) (v : V) : ofSlots ds ≠ .leaf k v := by
  cases ds <;> simp [ofSlots]

theorem ofSlots_ne_extension (ds : List (TreeDigest K V)) (affix : List UInt8) (d : TreeDigest K V) :
    ofSlots ds ≠ .extension affix d := by
  cases ds <;> simp [ofSlots]

end TreeDigest

/-- The digest of a trie whose children are digested the same way. -/
def treeDigest : Trie K V (TreeDigest K V) → TreeDigest K V
  | .leaf k v => .leaf k v
  | .node pb => .ofSlots ((List.range 256).map fun i => .ofPointer (pb (UInt8.ofNat i)))
  | .extension affix p => .extension affix (.ofPointer (some p))

theorem treeDigest_injective : Function.Injective (treeDigest : Trie K V (TreeDigest K V) → _) := by
  intro t t' h
  cases t <;> cases t' <;> simp only [treeDigest, TreeDigest.leaf.injEq,
    TreeDigest.extension.injEq, reduceCtorEq] at h
  case leaf.leaf => rw [h.1, h.2]
  case leaf.node => exact absurd h.symm (TreeDigest.ofSlots_ne_leaf _ _ _)
  case node.leaf => exact absurd h (TreeDigest.ofSlots_ne_leaf _ _ _)
  case node.node =>
    -- a node is its slots
    congr 1
    funext b
    have hb := List.map_inj_left.mp (TreeDigest.ofSlots_injective h) b.toNat
      (List.mem_range.mpr (UInt8.toNat_lt b))
    rw [UInt8.ofNat_toNat] at hb
    exact TreeDigest.ofPointer_injective hb
  case node.extension => exact absurd h (TreeDigest.ofSlots_ne_extension _ _ _)
  case extension.node => exact absurd h.symm (TreeDigest.ofSlots_ne_extension _ _ _)
  case extension.extension => rw [h.1, Option.some.inj (TreeDigest.ofPointer_injective h.2)]

end Digest

/-! ## Runs keep the root canonical -/

section Canonical

variable [TrieKey K] [DecidableEq K] [DecidableEq V] [DecidableEq D] {hashTrie : Trie K V D → D}
variable {S : TrieStore K V D} {M : Entries K V}

omit [DecidableEq V] in
/-- The empty store holds the empty node as the canonical root of the empty map. -/
theorem emptyStore_rootTrie (hashTrie : Trie K V D → D) :
    StoreOk hashTrie (emptyStore hashTrie) ∧
      RootTrie (emptyStore hashTrie) (hashTrie .emptyNode) (Entries.empty : Entries K V) := by
  refine ⟨fun h t ht => ?_, PointerBlock.new, ?_, ⟨fun b ptr hb => ?_, fun _ _ _ _ => rfl, ?_⟩⟩
  · by_cases hh : h = hashTrie .emptyNode
    · subst hh
      simp only [emptyStore, TrieStore.putAll, List.foldl_cons, List.foldl_nil,
        Function.update_self, Option.some.injEq] at ht
      rw [← ht]
    · simp [emptyStore, TrieStore.putAll, hh] at ht
  · simp [emptyStore, TrieStore.putAll, Trie.emptyNode]
  · simp at hb
  · intro k v hk
    simp at hk

/-- **One operation.**  On the canonical root of a map, in a store that holds its nodes under
their hashes, an operation returns without a fault the result the map predicts, and the
canonical root of the map it leaves. -/
theorem runOp_of_rootTrie (hinj : Function.Injective hashTrie) (hS : StoreOk hashTrie S) {r : D}
    (hroot : RootTrie S r M) (op : TrieOp K V) :
    ∃ result S' r', runOp keyBytes hashTrie S r op = .ok (result, S', r') ∧
      ResultSpec M op result ∧ StoreOk hashTrie S' ∧ RootTrie S' r' (M.apply op) := by
  cases op with
  | write k v =>
    obtain ⟨res, S', hwrite, hok, -, hout⟩ := write_of_rootTrie hinj hS hroot k v
    rcases hout with ⟨rfl, hS', hMk⟩ | ⟨r', rfl, hMk, hroot'⟩
    · -- the map is unchanged: the old root is still its canonical root
      subst hS'
      have hsame : M.insert k v = M := by
        funext k'
        by_cases hk : k' = k
        · subst hk
          simp [hMk]
        · simp [hk]
      refine ⟨.write .alreadyExists, _, r, by simp [runOp, hwrite], hMk, hok, ?_⟩
      rwa [Entries.apply, hsame]
    · exact ⟨.write (.written r'), _, r', by simp [runOp, hwrite], hMk, hok, hroot'⟩
  | delete k =>
    obtain ⟨res, S', hdelete, hok, -, hout⟩ := delete_of_rootTrie hinj hS hroot k
    rcases hout with ⟨rfl, hS', hMk⟩ | ⟨r', rfl, hMk, hroot'⟩
    · subst hS'
      have hsame : M.erase k = M := by
        funext k'
        by_cases hk : k' = k
        · subst hk
          simp [hMk]
        · simp [hk]
      refine ⟨.delete .doesNotExist, _, r, by simp [runOp, hdelete], hMk, hok, ?_⟩
      rwa [Entries.apply, hsame]
    · exact ⟨.delete (.deleted r'), _, r', by simp [runOp, hdelete], hMk, hok, hroot'⟩

/-- **A run.**  From the canonical root of a map, every run returns without a fault, with the
results the maps along it predict, at the canonical root of the map it leaves. -/
theorem runOps_of_rootTrie (hinj : Function.Injective hashTrie) :
    ∀ (ops : List (TrieOp K V)) {S : TrieStore K V D} {M : Entries K V} {r : D},
      StoreOk hashTrie S → RootTrie S r M →
      ∃ results S' r', runOps keyBytes hashTrie S r ops = .ok (results, S', r') ∧
        RunSpec M ops results ∧ StoreOk hashTrie S' ∧ RootTrie S' r' (M.run ops)
  | [], S, M, r, hS, hroot => ⟨[], S, r, rfl, trivial, hS, hroot⟩
  | op :: ops, S, M, r, hS, hroot => by
    obtain ⟨result, S₁, r₁, hop, hspec, hS₁, hroot₁⟩ := runOp_of_rootTrie hinj hS hroot op
    obtain ⟨results, S', r', hops, hspecs, hS', hroot'⟩ := runOps_of_rootTrie hinj ops hS₁ hroot₁
    exact ⟨result :: results, S', r', by simp [runOps, hop, hops], ⟨hspec, hspecs⟩, hS', hroot'⟩

/-- **The trie store is a map.**  With a collision-free hash, every run from the empty trie
returns without a fault; each `write` returns `Written` exactly when the value is new and
`AlreadyExists` when the map holds it, each `delete` returns `Deleted` exactly when the key has
a value and `DoesNotExist` when it has none; and `read` on the final root finds, for every key,
the value of the last operation on it if that was a `write`, and nothing otherwise. -/
theorem runOps_refines_map (hinj : Function.Injective hashTrie) (ops : List (TrieOp K V)) :
    ∃ results S r, runOps keyBytes hashTrie (emptyStore hashTrie) (hashTrie .emptyNode) ops =
        .ok (results, S, r) ∧
      RunSpec Entries.empty ops results ∧ ∀ q, read keyBytes S r q = .ok (lastRead q ops) := by
  obtain ⟨hS, hroot⟩ := emptyStore_rootTrie (K := K) (V := V) hashTrie
  obtain ⟨results, S, r, hops, hspecs, -, hroot'⟩ := runOps_of_rootTrie hinj ops hS hroot
  refine ⟨results, S, r, hops, hspecs, fun q => ?_⟩
  rw [read_of_rootTrie hroot' q, read_run_empty]

/-- Two writes and a delete of the first key, on the digests of `natDigest`. -/
theorem runOps_refines_map_eraInfo :
    Function.Injective natDigest ∧
      ∃ results S r, runOps keyBytes natDigest (emptyStore natDigest) (natDigest .emptyNode)
          [.write (Key.eraInfo 1) 7, .write (Key.eraInfo 2) 8, .delete (Key.eraInfo 1)] =
          .ok (results, S, r) ∧
        RunSpec Entries.empty
          [.write (Key.eraInfo 1) 7, .write (Key.eraInfo 2) 8, .delete (Key.eraInfo 1)] results ∧
        ∀ q, read keyBytes S r q =
          .ok (lastRead q [.write (Key.eraInfo 1) 7, .write (Key.eraInfo 2) 8,
            .delete (Key.eraInfo 1)]) :=
  ⟨natDigest_injective, runOps_refines_map natDigest_injective _⟩

/-- **The root digest is history-independent.**  With a collision-free hash, two runs from the
empty trie that leave one map end at one root. -/
theorem runOps_root_eq_of_run_eq (hinj : Function.Injective hashTrie)
    {ops₁ ops₂ : List (TrieOp K V)} (hM : Entries.empty.run ops₁ = Entries.empty.run ops₂) :
    ∃ r, (∃ results S, runOps keyBytes hashTrie (emptyStore hashTrie) (hashTrie .emptyNode) ops₁ =
        .ok (results, S, r)) ∧
      ∃ results S, runOps keyBytes hashTrie (emptyStore hashTrie) (hashTrie .emptyNode) ops₂ =
        .ok (results, S, r) := by
  obtain ⟨hS, hroot⟩ := emptyStore_rootTrie (K := K) (V := V) hashTrie
  obtain ⟨results₁, S₁, r₁, hops₁, -, hS₁, hroot₁⟩ := runOps_of_rootTrie hinj ops₁ hS hroot
  obtain ⟨results₂, S₂, r₂, hops₂, -, hS₂, hroot₂⟩ := runOps_of_rootTrie hinj ops₂ hS hroot
  rw [hM] at hroot₁
  have hr : r₁ = r₂ := RootTrie.unique hS₁ hS₂ hroot₁ hroot₂
  subst hr
  exact ⟨r₁, ⟨results₁, S₁, hops₁⟩, results₂, S₂, hops₂⟩

/-- Two writes in either order, on the digests of `natDigest`, end at one root. -/
theorem runOps_root_eq_of_swapped_writes :
    Function.Injective natDigest ∧
      Entries.empty.run [.write (Key.eraInfo 1) 7, .write (Key.eraInfo 2) 8] =
        Entries.empty.run [TrieOp.write (Key.eraInfo 2) (8 : ℕ), .write (Key.eraInfo 1) 7] ∧
      ∃ r, (∃ results S, runOps keyBytes natDigest (emptyStore natDigest) (natDigest .emptyNode)
          [.write (Key.eraInfo 1) 7, .write (Key.eraInfo 2) 8] = .ok (results, S, r)) ∧
        ∃ results S, runOps keyBytes natDigest (emptyStore natDigest) (natDigest .emptyNode)
          [.write (Key.eraInfo 2) 8, .write (Key.eraInfo 1) 7] = .ok (results, S, r) := by
  have hM : Entries.empty.run [.write (Key.eraInfo 1) 7, .write (Key.eraInfo 2) 8] =
      Entries.empty.run [TrieOp.write (Key.eraInfo 2) (8 : ℕ), .write (Key.eraInfo 1) 7] := by
    funext q
    by_cases h₁ : q = .eraInfo 1
    · subst h₁
      simp [Entries.apply]
    · simp [Entries.apply, h₁]
  exact ⟨natDigest_injective, hM, runOps_root_eq_of_run_eq natDigest_injective hM⟩

/-- Writing a key the map lacks and deleting it again returns to the root: the map is the same,
and so is its canonical root. -/
theorem delete_write_of_absent (hinj : Function.Injective hashTrie) (hS : StoreOk hashTrie S)
    {r : D} (hroot : RootTrie S r M) {k : K} (hk : M k = none) (v : V) :
    ∃ r' S' S'', write keyBytes hashTrie S r k v = .ok (.written r', S') ∧
      delete keyBytes hashTrie S' r' k = .ok (.deleted r, S'') := by
  obtain ⟨res, S', hwrite, hS', hincl', hout⟩ := write_of_rootTrie hinj hS hroot k v
  rcases hout with ⟨-, -, hMk⟩ | ⟨r', rfl, -, hroot'⟩
  · simp [hk] at hMk
  obtain ⟨res, S'', hdelete, hS'', hincl'', hout⟩ := delete_of_rootTrie hinj hS' hroot' k
  rcases hout with ⟨-, -, hMk⟩ | ⟨r'', rfl, -, hroot''⟩
  · simp at hMk
  -- erasing the key written returns the map, so the new root is the old one
  have hsame : (M.insert k v).erase k = M := by
    funext k'
    by_cases hk' : k' = k
    · subst hk'
      simp [hk]
    · simp [hk']
  rw [hsame] at hroot''
  have hr : r'' = r := RootTrie.unique hS'' hS hroot'' hroot
  exact ⟨r', S', S'', hwrite, by rw [hdelete, hr]⟩

/-- On the trie of `eraInfo 2`, writing `eraInfo 1` beside it and deleting it again: the delete
folds the node of the two keys back into the trie of one. -/
theorem delete_write_of_absent_sibling :
    ∃ results S r, runOps keyBytes natDigest (emptyStore natDigest) (natDigest .emptyNode)
        [.write (Key.eraInfo 2) 8] = .ok (results, S, r) ∧
      ∃ r' S' S'', write keyBytes natDigest S r (Key.eraInfo 1) 7 = .ok (.written r', S') ∧
        delete keyBytes natDigest S' r' (Key.eraInfo 1) = .ok (.deleted r, S'') := by
  obtain ⟨hS, hroot⟩ := emptyStore_rootTrie (K := Key) (V := ℕ) natDigest
  obtain ⟨results, S, r, hops, -, hS', hroot'⟩ :=
    runOps_of_rootTrie natDigest_injective [.write (Key.eraInfo 2) 8] hS hroot
  have hk : Entries.empty.run [.write (Key.eraInfo 2) 8] (Key.eraInfo 1) = none := by
    simp [Entries.apply]
  exact ⟨results, S, r, hops, delete_write_of_absent natDigest_injective hS' hroot' hk 7⟩

end Canonical

end CasperNode
