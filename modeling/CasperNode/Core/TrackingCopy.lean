import CasperNode.Shared.AdditiveMap

/-!
# The tracking copy

`execution_engine::core::tracking_copy::TrackingCopy` runs a deploy against a read-only
view of the global state.  Writes and additions go to a cache of mutations, values read
from the view go to a cache of reads, and every operation is appended to the execution
journal; the journal is what the engine later commits.

The read cache is a `LinkedHashMap` bounded by `max_cache_size`: an insertion or a lookup
moves the entry to the back, and insertions evict from the front while the measured size
exceeds the bound.  The measure is the cache's `Meter` (`HeapSize` in the node, whose value
depends on `size_of::<StoredValue>()`, i.e. on memory layout); the model keeps it as a field
of the cache and states every result for an arbitrary meter.  The key-tag caches serve only
`get_keys` and are not modelled.

The view below the tracking copy is its `StateReader`, a function from keys to values.
-/

namespace CasperNode

/-- `TrackingCopyCache`. `readsCached` lists the read cache oldest entry first. -/
structure TrackingCopyCache where
  meter : Key → StoredValue → Nat
  maxCacheSize : Nat
  currentCacheSize : Nat
  readsCached : List (Key × StoredValue)
  mutsCached : Key → Option StoredValue

namespace TrackingCopyCache

/-- `TrackingCopyCache::new`. -/
def new (maxCacheSize : Nat) (meter : Key → StoredValue → Nat) : TrackingCopyCache :=
  ⟨meter, maxCacheSize, 0, [], fun _ => none⟩

/-- `LinkedHashMap::insert` of the `linked-hash-map` crate: "Inserts a key-value pair into the
map"; for a key already there it replaces the value and, as its code says, updates the entry's
LRU position, detaching it and attaching it at the back. -/
def lruInsert (k : Key) (v : StoredValue) (l : List (Key × StoredValue)) :
    List (Key × StoredValue) :=
  l.filter (fun e => e.1 ≠ k) ++ [(k, v)]

/-- The eviction loop of `insert_read`: while over the bound, `LinkedHashMap::pop_front`
("Removes the first entry. Can be used in implementation of LRU cache.") takes the oldest entry,
and its measure is subtracted. -/
def evict (meter : Key → StoredValue → Nat) (maxSize : Nat) :
    Nat → List (Key × StoredValue) → Nat × List (Key × StoredValue)
  | size, [] => (size, [])
  | size, (k, v) :: rest =>
    if maxSize < size then evict meter maxSize (size - meter k v) rest else (size, (k, v) :: rest)

/-- `TrackingCopyCache::insert_read`. -/
def insertRead (c : TrackingCopyCache) (k : Key) (v : StoredValue) : TrackingCopyCache :=
  let (size, reads) :=
    evict c.meter c.maxCacheSize (c.currentCacheSize + c.meter k v) (lruInsert k v c.readsCached)
  { c with currentCacheSize := size, readsCached := reads }

/-- `TrackingCopyCache::insert_write`. -/
def insertWrite (c : TrackingCopyCache) (k : Key) (v : StoredValue) : TrackingCopyCache :=
  { c with mutsCached := Function.update c.mutsCached k (some v) }

/-- `LinkedHashMap::get_refresh`: "Returns the mutable reference corresponding to the key in the
map. If value is found, it is moved to the end of the list." -/
def lruGetRefresh (k : Key) (l : List (Key × StoredValue)) :
    List (Key × StoredValue) × Option StoredValue :=
  match l.find? (·.1 = k) with
  | some (_, v) => (lruInsert k v l, some v)
  | none => (l, none)

/-- `TrackingCopyCache::get`: mutations first, then the read cache. -/
def get (c : TrackingCopyCache) (k : Key) : TrackingCopyCache × Option StoredValue :=
  match c.mutsCached k with
  | some v => (c, some v)
  | none =>
    let (reads, r) := lruGetRefresh k c.readsCached
    ({ c with readsCached := reads }, r)

end TrackingCopyCache

/-- `TrackingCopy<R>` over a reader `R`. -/
structure TrackingCopy where
  reader : Key → Option StoredValue
  cache : TrackingCopyCache
  journal : ExecutionJournal

/-- `AddResult`. -/
inductive AddResult where
  | success
  | keyNotFound (k : Key)
  | typeMismatch (expected found : String)
  | serialization (e : BytesreprError)
deriving DecidableEq

/-- `From<CLValueError> for AddResult`. -/
def AddResult.ofCLValueError : CLValueError → AddResult
  | .serialization e => .serialization e
  | .type expected found => .typeMismatch expected.debugName found.debugName

namespace TrackingCopy

/-- `TrackingCopy::new`, with the cache bound of the source. -/
def new (reader : Key → Option StoredValue) (meter : Key → StoredValue → Nat) : TrackingCopy :=
  ⟨reader, TrackingCopyCache.new (1024 * 16) meter, []⟩

/-- `TrackingCopy::get`: the cache, else the reader (caching what it returns). -/
def get (tc : TrackingCopy) (k : Key) : TrackingCopy × Option StoredValue :=
  let (cache, cached) := tc.cache.get k
  match cached with
  | some v => ({ tc with cache := cache }, some v)
  | none =>
    match tc.reader k with
    | some v => ({ tc with cache := cache.insertRead k v }, some v)
    | none => ({ tc with cache := cache }, none)

/-- `TrackingCopy::read`: a successful read journals an `Identity`. -/
def read (tc : TrackingCopy) (k : Key) : TrackingCopy × Option StoredValue :=
  let nk := k.normalize
  match tc.get nk with
  | (tc', some v) => ({ tc' with journal := tc'.journal ++ [(nk, .identity)] }, some v)
  | (tc', none) => (tc', none)

/-- `TrackingCopy::write`. -/
def write (tc : TrackingCopy) (k : Key) (v : StoredValue) : TrackingCopy :=
  let nk := k.normalize
  { tc with cache := tc.cache.insertWrite nk v, journal := tc.journal ++ [(nk, .write v)] }

/-- The transform `TrackingCopy::add` makes of the value to add, or the `AddResult` it
returns instead. -/
def addTransform (value : StoredValue) : Except AddResult Transform :=
  let mismatch : Except AddResult Transform :=
    .error (.typeMismatch "I32, U64, U128, U256, U512 or (String, Key) tuple" value.typeName)
  let ofNum (w : AddWidth) (cl : CLValue) : Except AddResult Transform :=
    match cl.intoNum w.num with
    | .ok x => .ok (.addOf w x)
    | .error e => .error (.ofCLValueError e)
  match value with
  | .clValue cl =>
    match cl.clType with
    | .i32 => ofNum .i32 cl
    | .u64 => ofNum .u64 cl
    | .u128 => ofNum .u128 cl
    | .u256 => ofNum .u256 cl
    | .u512 => ofNum .u512 cl
    | _ =>
      if cl.clType = namedKeyType then
        match cl.intoNamedKey with
        | .ok (name, key) => .ok (.addKeys (OrdMap.singleton name key))
        | .error e => .error (.ofCLValueError e)
      else mismatch
  | _ => mismatch

/-- `TrackingCopy::add`. -/
def add (tc : TrackingCopy) (k : Key) (value : StoredValue) : TrackingCopy × AddResult :=
  let nk := k.normalize
  match tc.get nk with
  | (tc', none) => (tc', .keyNotFound nk)
  | (tc', some current) =>
    match addTransform value with
    | .error r => (tc', r)
    | .ok t =>
      match t.apply current with
      | .ok newValue =>
        ({ tc' with cache := tc'.cache.insertWrite nk newValue,
                    journal := tc'.journal ++ [(nk, t)] }, .success)
      | .error (.typeMismatch expected found) => (tc', .typeMismatch expected found)
      | .error (.serialization e) => (tc', .serialization e)

end TrackingCopy

/-! ## Runs of operations -/

/-- The operations of a run: `read`, `write` and `add`. -/
inductive TrackingCopyOp where
  | read (k : Key)
  | write (k : Key) (v : StoredValue)
  | add (k : Key) (v : StoredValue)

/-- One operation, and whether it was an `add` that did not succeed. -/
def TrackingCopy.step (tc : TrackingCopy) : TrackingCopyOp → TrackingCopy × Bool
  | .read k => ((tc.read k).1, false)
  | .write k v => (tc.write k v, false)
  | .add k v =>
    let (tc', r) := tc.add k v
    (tc', r != .success)

/-- Run a sequence of operations; the flag records whether some `add` failed. -/
def TrackingCopy.run : TrackingCopy → List TrackingCopyOp → TrackingCopy × Bool
  | tc, [] => (tc, false)
  | tc, op :: ops =>
    let (tc', failed) := tc.step op
    let (tc'', failedLater) := tc'.run ops
    (tc'', failed || failedLater)

end CasperNode
