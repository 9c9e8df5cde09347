import CasperNode.Library.Merkle
import CasperNode.Types.Bytesrepr

/-!
# Digests, Merkle roots and chunks with proofs

`casper_hashing` hashes byte strings with BLAKE2b-256.  A byte string longer than
`ChunkWithProof::CHUNK_SIZE_BYTES` is hashed as a Merkle tree over its chunks
(`hash_bytes_into_chunks_if_necessary`), and the root of the tree is hashed once more with
the number of leaves behind a padding of `CHUNK_SIZE_BYTES` zero bytes
(`hash_merkle_root`).  The padding is there so that no byte string short enough to be hashed
directly has the same digest as a chunked one.  A chunk travels with an
`IndexedMerkleProof`: the hash of the chunk, the sibling hashes on its path, and the index
and count from which the path is recomputed.

The hash function is a parameter of the model.  A `Hasher D` gives the digest of a byte
string as a value of a digest type `D`, and the bytes of a digest (`Digest::value`), which
`hash_pair` and `hash_merkle_root` feed back into the hasher.  Results that rest on collision
resistance assume `hash` injective; an injective map from all byte strings cannot land in
32-byte arrays, so `D` is a type of its own and the 32-byte length of `value` is a
hypothesis where a proof depends on it.

The counters of the source are `u64`; the loops over them run on `Nat`, which is exact here:
a path has at most 64 steps, so the bit mask of `root_hash` never overflows.
-/

namespace CasperNode

open Merkle

/-- BLAKE2b-256 and the digest constants, as the parameters of the model. -/
structure Hasher (D : Type) where
  /-- `Digest::hash`. -/
  hash : List UInt8 → D
  /-- `Digest::value`, the bytes of a digest. -/
  value : D → List UInt8
  /-- `Digest::SENTINEL_MERKLE_TREE`. -/
  sentinelMerkleTree : D

/-- `ChunkWithProof::CHUNK_SIZE_BYTES`: 8 MiB. -/
def chunkSizeBytes : Nat := 8 * 1024 * 1024

theorem chunkSizeBytes_pos : 0 < chunkSizeBytes := by decide

namespace Hasher

variable {D : Type} (H : Hasher D)

/-- `Digest::hash_pair`: one hasher fed both digests. -/
def hashPair (a b : D) : D := H.hash (H.value a ++ H.value b)

/-- The bytes that `hash_merkle_root` hashes: the zero padding, the leaf count, the root. -/
def merkleRootBytes (leafCount : UInt64) (root : D) : List UInt8 :=
  List.replicate chunkSizeBytes 0 ++ u64ToBytes leafCount ++ H.value root

/-- `Digest::hash_merkle_root`. -/
def hashMerkleRoot (leafCount : UInt64) (root : D) : D := H.hash (H.merkleRootBytes leafCount root)

/-- `Digest::hash_merkle_tree`. -/
def hashMerkleTree (leaves : List D) : D :=
  match treeFold1 H.hashPair leaves with
  | none => H.sentinelMerkleTree
  | some rawRoot => H.hashMerkleRoot (UInt64.ofNat leaves.length) rawRoot

/-- `Digest::hash_bytes_into_chunks_if_necessary`. -/
def hashBytesIntoChunksIfNecessary (bytes : List UInt8) : D :=
  if bytes.length ≤ chunkSizeBytes then H.hash bytes
  else H.hashMerkleTree ((chunks chunkSizeBytes bytes).map H.hash)

/-- Two Merkle roots hashed under an injective hash agree only for the same leaf count. -/
theorem hashMerkleRoot_count_eq (hH : Function.Injective H.hash) {c c' : UInt64} {r r' : D}
    (h : H.hashMerkleRoot c r = H.hashMerkleRoot c' r') : c = c' := by
  have hbytes := hH h
  simp only [merkleRootBytes, List.append_assoc] at hbytes
  obtain ⟨-, htail⟩ := List.append_inj hbytes rfl
  obtain ⟨hcount, -⟩ := List.append_inj htail (by simp)
  exact u64ToBytes_injective hcount

theorem hashBytesIntoChunksIfNecessary_of_le {bytes : List UInt8}
    (h : bytes.length ≤ chunkSizeBytes) : H.hashBytesIntoChunksIfNecessary bytes = H.hash bytes := by
  rw [hashBytesIntoChunksIfNecessary, if_pos h]

/-- A string of one full chunk and a short tail is hashed as a Merkle tree of two leaves. -/
theorem hashBytesIntoChunksIfNecessary_two_chunks {first tail : List UInt8}
    (hfirst : first.length = chunkSizeBytes) (htail : tail ≠ [])
    (hle : tail.length ≤ chunkSizeBytes) :
    H.hashBytesIntoChunksIfNecessary (first ++ tail) =
      H.hashMerkleRoot 2 (H.hashPair (H.hash first) (H.hash tail)) := by
  have hlong : ¬(first ++ tail).length ≤ chunkSizeBytes := by
    have := List.length_pos_iff.mpr htail
    simp only [List.length_append]
    omega
  have hchunks : chunks chunkSizeBytes (first ++ tail) = [first, tail] := by
    rw [chunks_append_of_length_eq chunkSizeBytes_pos hfirst,
      chunks_of_length_le chunkSizeBytes_pos htail hle]
  rw [hashBytesIntoChunksIfNecessary, if_neg hlong, hchunks, hashMerkleTree]
  simp only [List.map_cons, List.map_nil, treeFold1_pair, List.length_cons, List.length_nil]
  rfl

end Hasher

/-! ## Indexed Merkle proofs -/

/-- `IndexedMerkleProof`. -/
structure IndexedMerkleProof (D : Type) where
  index : UInt64
  count : UInt64
  merkleProof : List D
deriving DecidableEq

/-- `MerkleConstructionError`. -/
inductive MerkleConstructionError where
  | indexOutOfBounds (count index : UInt64)
  | tooManyLeaves (count : Nat)
deriving DecidableEq

/-- `MerkleVerificationError`. -/
inductive MerkleVerificationError where
  | indexOutOfBounds (count index : UInt64)
  | unexpectedProofLength (count index : UInt64) (expectedProofLength actualProofLength : Nat)
deriving DecidableEq

/-- The fold state of `IndexedMerkleProof::new`: a subtree's hash, or the proof collected so
far for the subtree holding the indexed leaf. -/
inductive HashOrProof (D : Type) where
  | hash (d : D)
  | proof (p : List D)

namespace IndexedMerkleProof

variable {D : Type} (H : Hasher D)

/-- The closure folded by `IndexedMerkleProof::new`.  Two proofs never meet: only one leaf is
marked, and the source has `unreachable!()` there. -/
def combine : HashOrProof D → HashOrProof D → HashOrProof D
  | .hash x, .hash y => .hash (H.hashPair x y)
  | .hash h, .proof p => .proof (p ++ [h])
  | .proof p, .hash h => .proof (p ++ [h])
  | .proof p, .proof _ => .proof p

/-- `IndexedMerkleProof::new`. -/
def new (leaves : List D) (index : UInt64) : Except MerkleConstructionError (IndexedMerkleProof D) :=
  if 2 ^ 64 ≤ leaves.length then .error (.tooManyLeaves leaves.length)
  else
    let count := UInt64.ofNat leaves.length
    let marked := leaves.mapIdx fun i h => if i = index.toNat then .proof [h] else .hash h
    match treeFold1 (combine H) marked with
    | some (.proof merkleProof) => .ok ⟨index, count, merkleProof⟩
    | _ => .error (.indexOutOfBounds count index)

/-- The path of `root_hash`: one bit per level, the root's the highest, `1` for "hash right". -/
def path (p : IndexedMerkleProof D) : Nat :=
  descend (fun path right => 2 * path + if right then 1 else 0) p.count.toNat p.index.toNat 0

/-- `IndexedMerkleProof::root_hash`. -/
def rootHash (p : IndexedMerkleProof D) : D :=
  let rawRoot :=
    match p.merkleProof with
    | [] => H.sentinelMerkleTree
    | leafHash :: hashes =>
      (hashes.foldl
        (fun (acc : D × Nat) hash =>
          (if acc.2 % 2 = 1 then H.hashPair hash acc.1 else H.hashPair acc.1 hash, acc.2 / 2))
        (leafHash, p.path)).1
  H.hashMerkleRoot p.count rawRoot

/-- `IndexedMerkleProof::compute_expected_proof_length`. -/
def computeExpectedProofLength (p : IndexedMerkleProof D) : Nat :=
  if p.count = 0 then 0 else descend (fun l _ => l + 1) p.count.toNat p.index.toNat 1

/-- `IndexedMerkleProof::verify`. -/
def verify (p : IndexedMerkleProof D) : Except MerkleVerificationError Unit :=
  if p.count ≤ p.index then .error (.indexOutOfBounds p.count p.index)
  else if p.merkleProof.length ≠ p.computeExpectedProofLength then
    .error (.unexpectedProofLength p.count p.index p.computeExpectedProofLength
      p.merkleProof.length)
  else .ok ()

end IndexedMerkleProof

/-! ## Chunks with proofs -/

/-- `ChunkWithProof`. -/
structure ChunkWithProof (D : Type) where
  proof : IndexedMerkleProof D
  chunk : List UInt8
deriving DecidableEq

/-- `ChunkWithProofVerificationError`. -/
inductive ChunkWithProofVerificationError (D : Type) where
  | merkleVerificationError (e : MerkleVerificationError)
  | chunkWithProofHasEmptyMerkleProof (chunkWithProof : ChunkWithProof D)
  | firstDigestInMerkleProofDidNotMatchHashOfChunk (firstDigestInIndexedMerkleProof hashOfChunk : D)

namespace ChunkWithProof

variable {D : Type} (H : Hasher D)

/-- `ChunkWithProof::new`: empty data is one empty chunk. -/
def new (data : List UInt8) (index : UInt64) : Except MerkleConstructionError (ChunkWithProof D) :=
  if data = [] then
    match IndexedMerkleProof.new H [H.hash []] index with
    | .error e => .error e
    | .ok proof => .ok ⟨proof, []⟩
  else
    let dataChunks := chunks chunkSizeBytes data
    match IndexedMerkleProof.new H (dataChunks.map H.hash) index with
    | .error e => .error e
    | .ok proof =>
      match dataChunks[index.toNat]? with
      | some chunk => .ok ⟨proof, chunk⟩
      | none => .error (.indexOutOfBounds (UInt64.ofNat dataChunks.length) index)

/-- `ChunkWithProof::verify`. -/
def verify [DecidableEq D] (c : ChunkWithProof D) : Except (ChunkWithProofVerificationError D) Unit :=
  match c.proof.verify with
  | .error e => .error (.merkleVerificationError e)
  | .ok () =>
    match c.proof.merkleProof with
    | [] => .error (.chunkWithProofHasEmptyMerkleProof c)
    | first :: _ =>
      if first ≠ H.hash c.chunk then .error (.firstDigestInMerkleProofDidNotMatchHashOfChunk first (H.hash c.chunk))
      else .ok ()

end ChunkWithProof

end CasperNode
