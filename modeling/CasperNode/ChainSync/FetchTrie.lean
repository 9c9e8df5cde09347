import CasperNode.Hashing.Digest
import CasperNode.Library.OrdMap

/-!
# Fetching a trie from peers

A joining node downloads the global state trie node by node.  `get_trie` answers a request
`TrieOrChunkId(index, digest)` from the trie store: a stored byte string of at most
`CHUNK_SIZE_BYTES` is sent whole as `TrieOrChunk::Trie`, a longer one as its chunk `index`
with a Merkle proof.  The fetcher accepts an item from a peer only if `Item::validate` passes,
and hands it to the requests waiting on `item.id()`.  `fetch_trie_with_retries` asks for
chunk 0; a whole trie ends the download, a chunk tells how many more to ask for, and the
chunks are reassembled in index order.  The downloaded bytes go to `put_trie`, which stores
them under `hash_bytes_into_chunks_if_necessary` of the bytes.

The network is a function from requests to what `fetch_with_retries` returns.  Chunk
fetches run concurrently (`buffer_unordered`); the model performs them in index order, which
decides only which error is reported when several fail.  The map of chunks is keyed by the
chunk index as a `Nat` (the `u64` index, ordered the same way).

The whole-trie branch identifies an item by `Digest::hash` of its bytes with no check on
their length, while `put_trie` hashes long byte strings as a Merkle tree.  Every byte string
that `hash_merkle_root` hashes is longer than a chunk, so a peer can answer the request for a
chunked trie's digest with that byte string itself: it passes validation under the requested
id, and `put_trie` files it under another digest (`fetchTrieWithRetries_accepts_merkle_root_bytes`).
-/

namespace CasperNode

open Merkle

/-- `TrieOrChunkId`. -/
structure TrieOrChunkId (D : Type) where
  index : UInt64
  digest : D
deriving DecidableEq

/-- `TrieOrChunk`. -/
inductive TrieOrChunk (D : Type) where
  | trie (bytes : List UInt8)
  | chunkWithProof (c : ChunkWithProof D)

namespace TrieOrChunk

variable {D : Type} (H : Hasher D)

/-- `Item::validate for TrieOrChunk`. -/
def validate [DecidableEq D] : TrieOrChunk D → Except (ChunkWithProofVerificationError D) Unit
  | .trie _ => .ok ()
  | .chunkWithProof c => c.verify H

/-- `Item::id for TrieOrChunk`. -/
def id : TrieOrChunk D → TrieOrChunkId D
  | .trie bytes => ⟨0, H.hash bytes⟩
  | .chunkWithProof c => ⟨c.proof.index, c.proof.rootHash H⟩

@[simp] theorem validate_trie [DecidableEq D] (bytes : List UInt8) :
    (trie bytes : TrieOrChunk D).validate H = .ok () := rfl

@[simp] theorem id_trie (bytes : List UInt8) : (trie bytes : TrieOrChunk D).id H = ⟨0, H.hash bytes⟩ :=
  rfl

end TrieOrChunk

section Store

variable {D : Type} (H : Hasher D)

/-- `LmdbGlobalState::get_trie` over a store of raw trie bytes. -/
def getTrie (store : D → Option (List UInt8)) (id : TrieOrChunkId D) :
    Except MerkleConstructionError (Option (TrieOrChunk D)) :=
  match store id.digest with
  | none => .ok none
  | some bytes =>
    if bytes.length ≤ chunkSizeBytes then .ok (some (.trie bytes))
    else
      match ChunkWithProof.new H bytes id.index with
      | .error e => .error e
      | .ok c => .ok (some (.chunkWithProof c))

/-- `put_trie`: store the bytes under their hash and return it. -/
def putTrie [DecidableEq D] (store : D → Option (List UInt8)) (trieBytes : List UInt8) :
    (D → Option (List UInt8)) × D :=
  let trieHash := H.hashBytesIntoChunksIfNecessary trieBytes
  (Function.update store trieHash (some trieBytes), trieHash)

end Store

/-! ## `fetch_trie_with_retries` -/

/-- `FetchedData`: the item came from local storage or from a peer. -/
inductive FetchedData (D : Type) where
  | fromStorage (item : TrieOrChunk D)
  | fromPeer (item : TrieOrChunk D)

/-- `FetchTrieError`; the fetcher's own errors are not distinguished. -/
inductive FetchTrieError (D : Type) where
  | fetcherError
  | trieBeingFetchByChunksSomehowFetchedFromStorage
  | trieBeingFetchedByChunksSomehowFetchWholeFromPeer (digest : D)
  | attemptsExhausted

/-- `TrieAlreadyPresentOrDownloaded`. -/
inductive TrieAlreadyPresentOrDownloaded where
  | alreadyPresent
  | downloaded (bytes : List UInt8)
deriving DecidableEq

section Fetch

variable {D : Type} (fetch : TrieOrChunkId D → Except (FetchTrieError D) (FetchedData D))

/-- One chunk fetch of the stream in `fetch_trie_with_retries`. -/
def fetchChunk (id : D) (index : UInt64) : Except (FetchTrieError D) (Nat × List UInt8) :=
  match fetch ⟨index, id⟩ with
  | .error e => .error e
  | .ok (.fromStorage _) => .error .trieBeingFetchByChunksSomehowFetchedFromStorage
  | .ok (.fromPeer (.trie _)) => .error (.trieBeingFetchedByChunksSomehowFetchWholeFromPeer id)
  | .ok (.fromPeer (.chunkWithProof c)) => .ok (c.proof.index.toNat, c.chunk)

/-- `try_collect::<BTreeMap<u64, Bytes>>` over the chunk fetches. -/
def collectChunks (id : D) :
    List UInt64 → OrdMap Nat (List UInt8) → Except (FetchTrieError D) (OrdMap Nat (List UInt8))
  | [], chunkMap => .ok chunkMap
  | index :: rest, chunkMap =>
    match fetchChunk fetch id index with
    | .error e => .error e
    | .ok (i, chunk) => collectChunks id rest (chunkMap.insert i chunk)

/-- `fetch_trie_with_retries`. -/
def fetchTrieWithRetries (id : D) : Except (FetchTrieError D) TrieAlreadyPresentOrDownloaded :=
  match fetch ⟨0, id⟩ with
  | .error e => .error e
  | .ok (.fromStorage _) => .ok .alreadyPresent
  | .ok (.fromPeer (.trie trie)) => .ok (.downloaded trie)
  | .ok (.fromPeer (.chunkWithProof c)) =>
    let count := c.proof.count
    let firstChunk := c.chunk
    let indices := (List.range' 1 (count.toNat - 1)).map UInt64.ofNat
    match collectChunks fetch id indices OrdMap.empty with
    | .ok chunkMap =>
      .ok (.downloaded ((chunkMap.insert 0 firstChunk).entries.flatMap Prod.snd))
    -- a parallel download stored the trie first
    | .error .trieBeingFetchByChunksSomehowFetchedFromStorage => .ok .alreadyPresent
    | .error e => .error e

/-- A whole trie sent in answer to chunk 0 is the download. -/
theorem fetchTrieWithRetries_trie {id : D} {bytes : List UInt8}
    (h : fetch ⟨0, id⟩ = .ok (.fromPeer (.trie bytes))) :
    fetchTrieWithRetries fetch id = .ok (.downloaded bytes) := by
  rw [fetchTrieWithRetries, h]

end Fetch

/-! ## What `put_trie` does with a downloaded whole trie -/

section Injective

variable {D : Type} [DecidableEq D] (H : Hasher D) (hH : Function.Injective H.hash)
include hH

/-- A whole trie longer than a chunk is stored under its own digest only if it is the byte
string that `hash_merkle_root` hashed for it. -/
theorem putTrie_long_eq_hash_iff (store : D → Option (List UInt8)) {bytes : List UInt8}
    (hlong : chunkSizeBytes < bytes.length) :
    (putTrie H store bytes).2 = H.hash bytes ↔
      ∃ root, treeFold1 H.hashPair ((chunks chunkSizeBytes bytes).map H.hash) = some root ∧
        bytes = H.merkleRootBytes (UInt64.ofNat (chunks chunkSizeBytes bytes).length) root := by
  have hne : (chunks chunkSizeBytes bytes).map H.hash ≠ [] := by
    intro h
    rw [List.map_eq_nil_iff, chunks_eq_nil_iff chunkSizeBytes_pos] at h
    subst h
    simp at hlong
  obtain ⟨root, hroot⟩ := Option.isSome_iff_exists.mp (treeFold1_isSome H.hashPair hne)
  have hstored : (putTrie H store bytes).2 =
      H.hashMerkleRoot (UInt64.ofNat (chunks chunkSizeBytes bytes).length) root := by
    simp only [putTrie, Hasher.hashBytesIntoChunksIfNecessary, if_neg (Nat.not_le.mpr hlong),
      Hasher.hashMerkleTree, hroot, List.length_map]
  rw [hstored, Hasher.hashMerkleRoot]
  constructor
  · intro h
    exact ⟨root, hroot, (hH h).symm⟩
  · rintro ⟨root', hroot', hbytes⟩
    rw [hroot] at hroot'
    cases hroot'
    rw [← hbytes]

end Injective

/-- The answer `Trie(B)` to the request for the digest of a trie of `count ≠ 2` chunks, with
`B` the bytes `hash_merkle_root` hashed for that digest, passes the fetcher's checks and is the
download; `put_trie` then stores `B` under a digest other than the requested one. -/
theorem fetchTrieWithRetries_accepts_merkle_root_bytes {D : Type} [DecidableEq D]
    (H : Hasher D) (hH : Function.Injective H.hash) (hvalue : ∀ d, (H.value d).length = 32)
    (store : D → Option (List UInt8)) (count : UInt64) (root : D) (hcount : count ≠ 2) :
    let id := H.hashMerkleRoot count root
    let item : TrieOrChunk D := .trie (H.merkleRootBytes count root)
    item.validate H = .ok () ∧ item.id H = ⟨0, id⟩ ∧
      fetchTrieWithRetries (fun _ => .ok (.fromPeer item)) id =
        .ok (.downloaded (H.merkleRootBytes count root)) ∧
      (putTrie H store (H.merkleRootBytes count root)).2 ≠ id := by
  intro id item
  refine ⟨rfl, rfl, fetchTrieWithRetries_trie _ rfl, ?_⟩
  -- the bytes are one chunk of zeros and a tail of the count and the root: two leaves
  have htail : (u64ToBytes count ++ H.value root).length ≤ chunkSizeBytes := by
    simp only [List.length_append, length_u64ToBytes, hvalue, chunkSizeBytes]
    omega
  have hstored : (putTrie H store (H.merkleRootBytes count root)).2 =
      H.hashMerkleRoot 2 (H.hashPair (H.hash (List.replicate chunkSizeBytes 0))
        (H.hash (u64ToBytes count ++ H.value root))) := by
    simp only [putTrie, Hasher.merkleRootBytes, List.append_assoc]
    exact H.hashBytesIntoChunksIfNecessary_two_chunks List.length_replicate
      (by simp [u64ToBytes]) htail
  intro heq
  rw [hstored] at heq
  exact hcount (H.hashMerkleRoot_count_eq hH heq).symm

/-- The attack on the digest of a three-chunk trie, under the identity as the injective hash. -/
theorem merkle_root_bytes_of_three_chunks_accepted :
    let H : Hasher (List UInt8) := ⟨fun b => b, fun _ => List.replicate 32 0, []⟩
    Function.Injective H.hash ∧ (∀ d, (H.value d).length = 32) ∧ (3 : UInt64) ≠ 2 ∧
      (let id := H.hashMerkleRoot 3 []
       let item : TrieOrChunk (List UInt8) := .trie (H.merkleRootBytes 3 [])
       item.validate H = .ok () ∧ item.id H = ⟨0, id⟩ ∧
         fetchTrieWithRetries (fun _ => .ok (.fromPeer item)) id =
           .ok (.downloaded (H.merkleRootBytes 3 [])) ∧
         (putTrie H (fun _ => none) (H.merkleRootBytes 3 [])).2 ≠ id) := by
  intro H
  have hH : Function.Injective H.hash := fun _ _ h => h
  have hvalue : ∀ d, (H.value d).length = 32 := fun _ => List.length_replicate
  exact ⟨hH, hvalue, by decide,
    fetchTrieWithRetries_accepts_merkle_root_bytes H hH hvalue (fun _ => none) 3 [] (by decide)⟩

end CasperNode
