import CasperNode.Shared.AdditiveMap

/-!
# Committing effects to a global state

`storage::global_state::commit` applies a map of transforms to the state under a root hash,
key by key: it reads the current value, applies the transform (a missing key accepts only a
`Write`), and writes the result, threading the root returned by each write.
`put_stored_values` writes a map of values the same way.  Both are generic over the trie
store they run against; so is the model, over a store `σ`, a root type `D`, and the store's
`read` and `write`.

The store of the node is the Merkle trie (`Storage.Trie`).  The abstract global state of the
claims, a finite map from keys to values, is the instance `MapState` at the end, whose root
is the map itself.
-/

namespace CasperNode

/-- `trie_store::operations::ReadResult`. -/
inductive ReadResult (V : Type) where
  | found (v : V)
  | notFound
  | rootNotFound
deriving DecidableEq

/-- `trie_store::operations::WriteResult`. -/
inductive WriteResult (D : Type) where
  | written (root : D)
  | alreadyExists
  | rootNotFound
deriving DecidableEq

/-- `global_state::CommitError`. -/
inductive CommitError (D : Type) where
  | rootNotFound (root : D)
  | readRootNotFound (root : D)
  | writeRootNotFound (root : D)
  | keyNotFound (k : Key)
  | transformError (e : TransformError)

section Commit

variable {σ D : Type}
variable (read : σ → D → Key → ReadResult StoredValue)
variable (write : σ → D → Key → StoredValue → σ × WriteResult D)

/-- The value `commit` writes for one entry: the transform applied to the current value. -/
def commitValue (s : σ) (root : D) (k : Key) (t : Transform) :
    Except (CommitError D) StoredValue :=
  match read s root k, t with
  | .notFound, .write v => .ok v
  | .notFound, _ => .error (.keyNotFound k)
  | .found cur, t =>
    match t.apply cur with
    | .ok v => .ok v
    | .error e => .error (.transformError e)
  | .rootNotFound, _ => .error (.readRootNotFound root)

/-- Write one value and continue from the root the write returns. -/
def writeThen (s : σ) (root : D) (k : Key) (v : StoredValue)
    (next : σ → D → Except (CommitError D) (σ × D)) : Except (CommitError D) (σ × D) :=
  match write s root k v with
  | (s', .written r) => next s' r
  | (s', .alreadyExists) => next s' root
  | (_, .rootNotFound) => .error (.writeRootNotFound root)

/-- The loop of `commit` over the entries of the effects, in iteration order. -/
def commitEntries : σ → D → List (Key × Transform) → Except (CommitError D) (σ × D)
  | s, root, [] => .ok (s, root)
  | s, root, (k, t) :: rest =>
    match commitValue read s root k t with
    | .error e => .error e
    | .ok v => writeThen write s root k v (fun s' r => commitEntries s' r rest)

/-- `global_state::commit`, with the entries of the effects in the hash map's iteration
order.  The store changes only if the commit succeeds (the transaction is dropped on error). -/
def commit (rootExists : σ → D → Bool) (s : σ) (prestate : D)
    (entries : List (Key × Transform)) : Except (CommitError D) (σ × D) :=
  if rootExists s prestate then commitEntries read write s prestate entries
  else .error (.rootNotFound prestate)

/-- The loop of `put_stored_values`. -/
def putEntries : σ → D → List (Key × StoredValue) → Except (CommitError D) (σ × D)
  | s, root, [] => .ok (s, root)
  | s, root, (k, v) :: rest => writeThen write s root k v (fun s' r => putEntries s' r rest)

/-- `global_state::put_stored_values`. -/
def putStoredValues (rootExists : σ → D → Bool) (s : σ) (prestate : D)
    (entries : List (Key × StoredValue)) : Except (CommitError D) (σ × D) :=
  if rootExists s prestate then putEntries write s prestate entries
  else .error (.rootNotFound prestate)

end Commit

/-! ## The global state as a finite map -/

/-- The abstract global state: a finite map from keys to values. -/
abbrev MapState := Key → Option StoredValue

namespace MapState

/-- Reading a key of the map. -/
def read (_ : Unit) (m : MapState) (k : Key) : ReadResult StoredValue :=
  match m k with
  | some v => .found v
  | none => .notFound

/-- Writing a key of the map; writing the value already there changes nothing. -/
def write (_ : Unit) (m : MapState) (k : Key) (v : StoredValue) : Unit × WriteResult MapState :=
  if m k = some v then ((), .alreadyExists) else ((), .written (Function.update m k (some v)))

/-- `commit` against the map. -/
def commit (m : MapState) (entries : List (Key × Transform)) :
    Except (CommitError MapState) MapState :=
  (CasperNode.commit read write (fun _ _ => true) () m entries).map Prod.snd

/-- Commits one after another against the map. -/
def commitAll (m : MapState) : List (List (Key × Transform)) → Except (CommitError MapState) MapState
  | [] => .ok m
  | entries :: rest =>
    match commit m entries with
    | .error e => .error e
    | .ok m' => commitAll m' rest

end MapState

end CasperNode
