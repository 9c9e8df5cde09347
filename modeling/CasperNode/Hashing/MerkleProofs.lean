import CasperNode.Hashing.Digest

/-!
# Indexed Merkle proofs are complete and binding

`IndexedMerkleProof::new` folds the leaves with one of them marked: the marked leaf's subtree
carries the proof collected so far, every other subtree its hash, and where the two meet the
hash is pushed onto the proof.  So the proof is the leaf followed by its `siblings`
(`treeFold1_combine_marked`).  `root_hash` and `compute_expected_proof_length` walk the same
pivot tree down to the leaf, so the path they compute is the leaf's `directions`
(`path_eq`), and climbing the proof along it gives the raw root of `hash_merkle_tree`
(`new_eq_ok`, `rootHash_new`).

Conversely, with `hash_pair` and `hash_merkle_root` injective, a proof that verifies and has
the root hash of a list of leaves was made for that list: its count is the number of leaves,
and it starts with the leaf at its index (`rootHash_binding`).  A chunk that verifies against
the digest of a long byte string is then that string's chunk at its index.

A list of leaves has at most `2 ^ 64 - 1` elements, the bound of a `usize` length.
-/

namespace CasperNode

open Merkle

namespace IndexedMerkleProof

variable {D : Type} (H : Hasher D)

/-! ## The fold of `new` -/

/-- The leaves as `new` marks them: the leaf at `i` starts a proof, the others are hashes. -/
def marked (leaves : List D) (i : Nat) : List (HashOrProof D) :=
  leaves.mapIdx fun j h => if j = i then .proof [h] else .hash h

theorem take_marked (leaves : List D) (i p : Nat) :
    (marked leaves i).take p = marked (leaves.take p) i := by
  apply List.ext_getElem?
  intro j
  simp only [marked, List.getElem?_take, List.getElem?_mapIdx]
  split_ifs <;> simp

theorem drop_marked_of_le (leaves : List D) {i p : Nat} (hp : p ≤ i) :
    (marked leaves i).drop p = marked (leaves.drop p) (i - p) := by
  apply List.ext_getElem?
  intro j
  simp only [marked, List.getElem?_drop, List.getElem?_mapIdx]
  cases leaves[p + j]? with
  | none => rfl
  | some h =>
    -- leaf `p + j` of the list is leaf `j` of the part after `p`
    have hiff : p + j = i ↔ j = i - p := by omega
    simp only [Option.map_some, hiff]

/-- Past the marked leaf, all are hashes. -/
theorem drop_marked_of_lt (leaves : List D) {i p : Nat} (hp : i < p) :
    (marked leaves i).drop p = (leaves.drop p).map .hash := by
  apply List.ext_getElem?
  intro j
  simp only [marked, List.getElem?_drop, List.getElem?_mapIdx, List.getElem?_map]
  cases leaves[p + j]? with
  | none => rfl
  | some h => simp only [Option.map_some, if_neg (show p + j ≠ i by omega)]

/-- No leaf is marked past the end: all are hashes. -/
theorem marked_of_length_le {leaves : List D} {i : Nat} (h : leaves.length ≤ i) :
    marked leaves i = leaves.map .hash := by
  apply List.ext_getElem (by simp [marked])
  intro j hj _
  have hji : j ≠ i := by
    simp only [marked, List.length_mapIdx] at hj
    omega
  simp [marked, hji]

/-- Unmarked leaves fold to the hash of the tree. -/
theorem treeFold1_combine_map_hash (leaves : List D) :
    treeFold1 (combine H) (leaves.map .hash) = (treeFold1 H.hashPair leaves).map .hash :=
  treeFold1_map _ (fun _ _ => rfl) leaves

/-- **The proof `new` builds.**  With leaf `i` marked, the fold is the proof made of the leaf
and its siblings, lowest first. -/
theorem treeFold1_combine_marked {leaves : List D} {i : Nat} (hi : i < leaves.length) :
    treeFold1 (combine H) (marked leaves i) =
      some (.proof (leaves[i] :: siblings H.hashPair leaves i)) := by
  induction leaves using pivot_induction generalizing i with
  | small l h =>
    rcases l with _ | ⟨a, _ | ⟨b, l⟩⟩
    · simp at hi
    · simp only [List.length_cons, List.length_nil] at hi
      obtain rfl : i = 0 := by omega
      simp [marked, siblings_of_le_one]
    · simp at h
  | split l h ihl ihr =>
    have hlen : (marked l i).length = l.length := List.length_mapIdx
    obtain ⟨x, y, hx, hy, -⟩ := treeFold1_halves H.hashPair h
    rw [treeFold1_of_two_le _ (by rw [hlen]; exact h), hlen, take_marked]
    by_cases hlt : i < pivot l.length
    · -- the marked leaf is on the left; the right half is all hashes
      rw [drop_marked_of_lt l hlt, ihl (by rw [length_take_pivot h]; exact hlt),
        treeFold1_combine_map_hash, hy, siblings_of_lt _ h hlt, hy, List.getElem_take]
      rfl
    · -- the marked leaf is on the right; the left half is all hashes
      have hle : pivot l.length ≤ i := by omega
      rw [marked_of_length_le (by rw [length_take_pivot h]; exact hle),
        treeFold1_combine_map_hash, hx, drop_marked_of_le l hle,
        ihr (by rw [List.length_drop]; omega), siblings_of_le _ h hle, hx, List.getElem_drop]
      simp only [Nat.add_sub_cancel' hle]
      rfl

/-! ## The path, the length and the root hash -/

/-- `root_hash` computes the leaf's directions as a number. -/
theorem path_eq (p : IndexedMerkleProof D) :
    p.path = pathNumber (directions p.count.toNat p.index.toNat) := by
  rw [path, descend_eq_foldl]
  rfl

theorem computeExpectedProofLength_eq (p : IndexedMerkleProof D) (h : p.count ≠ 0) :
    p.computeExpectedProofLength = (directions p.count.toNat p.index.toNat).length + 1 := by
  rw [computeExpectedProofLength, if_neg h, descend_eq_foldl]
  simp [Nat.add_comm]

/-- `root_hash` climbs from the first digest of the proof, with the others as the siblings,
along the leaf's directions. -/
theorem rootHash_eq (p : IndexedMerkleProof D) {leaf : D} {hashes : List D}
    (hp : p.merkleProof = leaf :: hashes)
    (hlen : hashes.length ≤ (directions p.count.toNat p.index.toNat).length) :
    p.rootHash H = H.hashMerkleRoot p.count
      (climb H.hashPair leaf (hashes.zip (directions p.count.toNat p.index.toNat).reverse)) := by
  simp only [rootHash, hp]
  rw [path_eq, foldl_pathNumber H.hashPair hashes _ leaf hlen]

/-- What `verify` checks: the index is below the count, and the proof has one digest for the
leaf and one for each direction. -/
theorem verify_eq_ok_iff (p : IndexedMerkleProof D) :
    p.verify = .ok () ↔ p.index < p.count ∧
      p.merkleProof.length = (directions p.count.toNat p.index.toNat).length + 1 := by
  by_cases hle : p.count ≤ p.index
  · have hnot : ¬p.index < p.count := fun h => absurd hle (UInt64.not_le.mpr h)
    simp [verify, hle, hnot]
  · have hlt : p.index < p.count := UInt64.not_le.mp hle
    have hcount : p.count ≠ 0 := by
      rintro hzero
      rw [hzero] at hlt
      exact absurd hlt (by simp)
    rw [verify, if_neg hle, computeExpectedProofLength_eq p hcount]
    by_cases hlen : p.merkleProof.length = (directions p.count.toNat p.index.toNat).length + 1
    · simp [hlen, hlt]
    · simp [hlen]

/-! ## `new` -/

theorem new_eq {leaves : List D} (hlen : leaves.length < 2 ^ 64) (index : UInt64) :
    new H leaves index =
      match treeFold1 (combine H) (marked leaves index.toNat) with
      | some (.proof merkleProof) => .ok ⟨index, UInt64.ofNat leaves.length, merkleProof⟩
      | _ => .error (.indexOutOfBounds (UInt64.ofNat leaves.length) index) := by
  rw [new, if_neg (by omega)]
  rfl

/-- `new` with an index in range: the proof of the leaf at the index. -/
theorem new_eq_ok {leaves : List D} (hlen : leaves.length < 2 ^ 64) {index : UInt64}
    (hi : index.toNat < leaves.length) :
    new H leaves index = .ok ⟨index, UInt64.ofNat leaves.length,
      leaves[index.toNat] :: siblings H.hashPair leaves index.toNat⟩ := by
  rw [new_eq H hlen, treeFold1_combine_marked H hi]

/-- `new` with an index out of range fails: no leaf is marked, and the fold is a hash. -/
theorem new_eq_error {leaves : List D} (hlen : leaves.length < 2 ^ 64) {index : UInt64}
    (hi : leaves.length ≤ index.toNat) :
    new H leaves index = .error (.indexOutOfBounds (UInt64.ofNat leaves.length) index) := by
  rw [new_eq H hlen, marked_of_length_le hi, treeFold1_combine_map_hash]
  cases treeFold1 H.hashPair leaves <;> rfl

theorem hashMerkleTree_of_treeFold1 {leaves : List D} {rawRoot : D}
    (h : treeFold1 H.hashPair leaves = some rawRoot) :
    H.hashMerkleTree leaves = H.hashMerkleRoot (UInt64.ofNat leaves.length) rawRoot := by
  rw [Hasher.hashMerkleTree, h]

/-- **Completeness.**  The proof that `new` makes verifies, starts with the leaf at its index,
and has the root hash of the tree. -/
theorem new_complete {leaves : List D} (hlen : leaves.length < 2 ^ 64) {index : UInt64}
    {p : IndexedMerkleProof D} (h : new H leaves index = .ok p) :
    index.toNat < leaves.length ∧ p.verify = .ok () ∧
      p.merkleProof.head? = leaves[index.toNat]? ∧ p.rootHash H = H.hashMerkleTree leaves := by
  have hi : index.toNat < leaves.length := by
    by_contra hge
    rw [new_eq_error H hlen (by omega)] at h
    cases h
  rw [new_eq_ok H hlen hi] at h
  cases h
  have hcount : (UInt64.ofNat leaves.length).toNat = leaves.length :=
    UInt64.toNat_ofNat_of_lt' hlen
  have hsib := length_siblings H.hashPair leaves index.toNat
  refine ⟨hi, ?_, by simp [hi], ?_⟩
  · rw [verify_eq_ok_iff]
    refine ⟨UInt64.lt_iff_toNat_lt.mpr (by rw [hcount]; exact hi), ?_⟩
    simp only [List.length_cons, hcount, hsib]
  · rw [rootHash_eq H _ rfl (by simp only [hcount, hsib, le_refl])]
    have hne : leaves ≠ [] := List.ne_nil_of_length_pos (by omega)
    obtain ⟨rawRoot, hroot⟩ := Option.isSome_iff_exists.mp (treeFold1_isSome H.hashPair hne)
    have hclimb := climb_siblings (f := H.hashPair) hi
    rw [hroot] at hclimb
    simp only [hcount]
    rw [Option.some.inj hclimb, hashMerkleTree_of_treeFold1 H hroot]

/-- **Binding.**  With `hash_pair` and `hash_merkle_root` injective, a proof that verifies with
the root hash of a nonempty list of leaves counts those leaves, and starts with the leaf at
its index. -/
theorem rootHash_binding (hpair : Function.Injective (Function.uncurry H.hashPair))
    (hroot : Function.Injective (Function.uncurry H.hashMerkleRoot)) {leaves : List D}
    (hne : leaves ≠ []) (hlen : leaves.length < 2 ^ 64) {p : IndexedMerkleProof D}
    (hverify : p.verify = .ok ()) (hhash : p.rootHash H = H.hashMerkleTree leaves) :
    p.count.toNat = leaves.length ∧ p.index.toNat < leaves.length ∧
      p.merkleProof.head? = leaves[p.index.toNat]? := by
  obtain ⟨hlt, hplen⟩ := (verify_eq_ok_iff p).mp hverify
  obtain ⟨leaf, hashes, hp⟩ : ∃ leaf hashes, p.merkleProof = leaf :: hashes := by
    rcases hpm : p.merkleProof with _ | ⟨leaf, hashes⟩
    · rw [hpm] at hplen
      simp at hplen
    · exact ⟨leaf, hashes, rfl⟩
  have hhashes : hashes.length = (directions p.count.toNat p.index.toNat).length := by
    rw [hp, List.length_cons] at hplen
    omega
  obtain ⟨rawRoot, hraw⟩ := Option.isSome_iff_exists.mp (treeFold1_isSome H.hashPair hne)
  rw [rootHash_eq H p hp hhashes.le, hashMerkleTree_of_treeFold1 H hraw] at hhash
  -- the root pins the count and the raw root
  obtain ⟨hcount, hclimb⟩ := eq_and_eq_of_injective hroot hhash
  have hcount' : p.count.toNat = leaves.length := by
    rw [hcount]
    exact UInt64.toNat_ofNat_of_lt' hlen
  have hi : p.index.toNat < leaves.length := by
    rw [← hcount']
    exact UInt64.lt_iff_toNat_lt.mp hlt
  rw [hcount'] at hhashes hclimb
  obtain ⟨rfl, -⟩ := eq_of_climb hpair hi hhashes (by rw [hclimb, hraw])
  exact ⟨hcount', hi, by simp [hp, hi]⟩

end IndexedMerkleProof

/-! ## Hashers whose pairs and roots are injective -/

namespace Hasher

variable {D : Type} (H : Hasher D)

/-- A byte string longer than a chunk is identified by the Merkle tree of its chunks' hashes. -/
theorem hashBytesIntoChunksIfNecessary_of_lt {data : List UInt8}
    (hlong : chunkSizeBytes < data.length) :
    H.hashBytesIntoChunksIfNecessary data =
      H.hashMerkleTree ((chunks chunkSizeBytes data).map H.hash) := by
  rw [hashBytesIntoChunksIfNecessary, if_neg (by omega)]

/-- With `hash` injective, and digests whose bytes determine them whatever follows, the pair of
digests `hash_pair` hashes is determined by its result. -/
theorem hashPair_injective (hH : Function.Injective H.hash)
    (hv : ∀ {a c : D} {x y : List UInt8}, H.value a ++ x = H.value c ++ y → a = c ∧ x = y) :
    Function.Injective (Function.uncurry H.hashPair) := by
  rintro ⟨a, b⟩ ⟨c, d⟩ h
  obtain ⟨rfl, hb⟩ := hv (hH h)
  obtain ⟨rfl, -⟩ := hv (show H.value b ++ [] = H.value d ++ [] by rw [hb])
  rfl

/-- Under the same conditions, `hash_merkle_root` is injective: after the common padding, the
fixed eight bytes of the count come first. -/
theorem hashMerkleRoot_injective (hH : Function.Injective H.hash)
    (hv : ∀ {a c : D} {x y : List UInt8}, H.value a ++ x = H.value c ++ y → a = c ∧ x = y) :
    Function.Injective (Function.uncurry H.hashMerkleRoot) := by
  rintro ⟨c, r⟩ ⟨c', r'⟩ h
  have hbytes := hH h
  simp only [merkleRootBytes, List.append_assoc] at hbytes
  obtain ⟨hc, hr⟩ := List.append_inj (List.append_cancel_left hbytes) (by simp)
  obtain ⟨rfl, -⟩ := hv (show H.value r ++ [] = H.value r' ++ [] by rw [hr])
  rw [u64ToBytes_injective hc]

theorem ne_nil_of_chunkSizeBytes_lt {data : List UInt8} (hlong : chunkSizeBytes < data.length) :
    data ≠ [] := by
  rintro rfl
  simp at hlong

theorem map_chunks_ne_nil {data : List UInt8} (hlong : chunkSizeBytes < data.length) :
    (chunks chunkSizeBytes data).map H.hash ≠ [] := by
  rw [ne_eq, List.map_eq_nil_iff, chunks_eq_nil_iff chunkSizeBytes_pos]
  exact ne_nil_of_chunkSizeBytes_lt hlong

theorem length_map_chunks_lt {data : List UInt8} (hlen : data.length < 2 ^ 64) :
    ((chunks chunkSizeBytes data).map H.hash).length < 2 ^ 64 := by
  rw [List.length_map]
  exact lt_of_le_of_lt (length_chunks_le chunkSizeBytes_pos data) hlen

end Hasher

/-! ## A hasher without collisions -/

/-- A hasher without collisions: a digest is the hashed byte string itself, and the bytes of a
digest carry its length in unary in front of it, so that no two pairs of digests have the same
bytes. -/
def unaryHasher : Hasher (List UInt8) where
  hash := id
  value d := List.replicate d.length 1 ++ 0 :: d
  sentinelMerkleTree := []

theorem replicate_one_append_zero_inj {k k' : Nat} {x x' : List UInt8}
    (h : List.replicate k 1 ++ 0 :: x = List.replicate k' 1 ++ 0 :: x') : k = k' ∧ x = x' := by
  induction k generalizing k' with
  | zero =>
    cases k' with
    | zero => simpa using h
    | succ k' => simp [List.replicate_succ] at h
  | succ k ih =>
    cases k' with
    | zero => simp [List.replicate_succ] at h
    | succ k' =>
      simp only [List.replicate_succ, List.cons_append, List.cons.injEq, true_and] at h
      obtain ⟨rfl, rfl⟩ := ih h
      exact ⟨rfl, rfl⟩

/-- The bytes of a digest, followed by anything, determine the digest. -/
theorem unaryHasher_value_append_inj {a c x y : List UInt8}
    (h : unaryHasher.value a ++ x = unaryHasher.value c ++ y) : a = c ∧ x = y := by
  simp only [unaryHasher, List.append_assoc, List.cons_append] at h
  obtain ⟨hlen, hrest⟩ := replicate_one_append_zero_inj h
  exact List.append_inj hrest hlen

theorem unaryHasher_hashPair_injective :
    Function.Injective (Function.uncurry unaryHasher.hashPair) :=
  unaryHasher.hashPair_injective Function.injective_id unaryHasher_value_append_inj

theorem unaryHasher_hashMerkleRoot_injective :
    Function.Injective (Function.uncurry unaryHasher.hashMerkleRoot) :=
  unaryHasher.hashMerkleRoot_injective Function.injective_id unaryHasher_value_append_inj

/-- A byte string of one chunk and one more byte. -/
def chunkAndOneByte : List UInt8 := List.replicate (chunkSizeBytes + 1) 0

theorem chunkAndOneByte_length : chunkAndOneByte.length = chunkSizeBytes + 1 :=
  List.length_replicate

theorem chunkSizeBytes_lt_chunkAndOneByte : chunkSizeBytes < chunkAndOneByte.length := by
  rw [chunkAndOneByte_length]
  omega

theorem chunkAndOneByte_length_lt : chunkAndOneByte.length < 2 ^ 64 := by
  rw [chunkAndOneByte_length, chunkSizeBytes]
  decide

/-! ## Chunks with proofs -/

namespace ChunkWithProof

variable {D : Type} [DecidableEq D] (H : Hasher D)

/-- What `verify` checks: the proof verifies, and its first digest is the hash of the chunk. -/
theorem verify_eq_ok_iff (c : ChunkWithProof D) :
    c.verify H = .ok () ↔ c.proof.verify = .ok () ∧ c.proof.merkleProof.head? = some (H.hash c.chunk) := by
  rw [verify]
  rcases hv : c.proof.verify with e | ⟨⟩
  · simp
  · rcases hp : c.proof.merkleProof with _ | ⟨first, rest⟩
    · simp
    · by_cases hfirst : first = H.hash c.chunk
      · simp [hfirst]
      · simp [hfirst]

/-- **Binding of a chunk.**  With `hash_pair`, `hash_merkle_root` and `hash` injective, a chunk
that verifies with the digest of a byte string longer than a chunk is that string's slice of
`CHUNK_SIZE_BYTES` bytes at the proof's index. -/
theorem verify_binding (hpair : Function.Injective (Function.uncurry H.hashPair))
    (hroot : Function.Injective (Function.uncurry H.hashMerkleRoot))
    (hhash : Function.Injective H.hash) {data : List UInt8} (hlong : chunkSizeBytes < data.length)
    (hlen : data.length < 2 ^ 64) {c : ChunkWithProof D} (hverify : c.verify H = .ok ())
    (hid : c.proof.rootHash H = H.hashBytesIntoChunksIfNecessary data) :
    c.proof.index.toNat * chunkSizeBytes < data.length ∧
      c.chunk = (data.drop (c.proof.index.toNat * chunkSizeBytes)).take chunkSizeBytes := by
  obtain ⟨hproof, hfirst⟩ := (verify_eq_ok_iff H c).mp hverify
  rw [H.hashBytesIntoChunksIfNecessary_of_lt hlong] at hid
  obtain ⟨-, -, hhead⟩ := IndexedMerkleProof.rootHash_binding H hpair hroot
    (H.map_chunks_ne_nil hlong) (H.length_map_chunks_lt hlen) hproof hid
  -- the first digest is the hash of the chunk at the index, and the hash pins the chunk
  rw [hfirst, List.getElem?_map, getElem?_chunks chunkSizeBytes_pos] at hhead
  split_ifs at hhead with hin
  · exact ⟨hin, (hhash (Option.some.inj hhead)).symm ▸ rfl⟩
  · cases hhead

omit [DecidableEq D] in
/-- `new` on a byte string longer than a chunk, at the index of one of its chunks: the proof of
that chunk's hash among the chunks' hashes, and the chunk. -/
theorem new_eq_ok {data : List UInt8} (hlong : chunkSizeBytes < data.length)
    (hlen : data.length < 2 ^ 64) {index : UInt64}
    (hin : index.toNat * chunkSizeBytes < data.length) :
    ∃ proof, IndexedMerkleProof.new H ((chunks chunkSizeBytes data).map H.hash) index = .ok proof ∧
      new H data index = .ok ⟨proof, (data.drop (index.toNat * chunkSizeBytes)).take chunkSizeBytes⟩ := by
  have hne := Hasher.ne_nil_of_chunkSizeBytes_lt hlong
  have hi : index.toNat < ((chunks chunkSizeBytes data).map H.hash).length := by
    rw [List.length_map, lt_length_chunks_iff chunkSizeBytes_pos]
    exact hin
  have hchunk := getElem?_chunks chunkSizeBytes_pos data index.toNat
  rw [if_pos hin] at hchunk
  refine ⟨_, IndexedMerkleProof.new_eq_ok H (H.length_map_chunks_lt hlen) hi, ?_⟩
  simp only [new, if_neg hne]
  rw [IndexedMerkleProof.new_eq_ok H (H.length_map_chunks_lt hlen) hi, hchunk]

omit [DecidableEq D] in
/-- `new` on a byte string longer than a chunk fails past its last chunk. -/
theorem new_eq_error {data : List UInt8} (hlong : chunkSizeBytes < data.length)
    (hlen : data.length < 2 ^ 64) (index : UInt64)
    (hout : data.length ≤ index.toNat * chunkSizeBytes) :
    ∃ e, new H data index = .error e := by
  have hne := Hasher.ne_nil_of_chunkSizeBytes_lt hlong
  have hi : ((chunks chunkSizeBytes data).map H.hash).length ≤ index.toNat := by
    rw [List.length_map]
    by_contra hlt
    have hin := (lt_length_chunks_iff chunkSizeBytes_pos data index.toNat).mp (by omega)
    omega
  simp only [new, if_neg hne]
  rw [IndexedMerkleProof.new_eq_error H (H.length_map_chunks_lt hlen) hi]
  exact ⟨_, rfl⟩

/-- **Completeness for chunks.**  The chunk that `new` returns for a byte string longer than a
chunk verifies, has the string's digest as its root hash, and is the string's slice at the
index. -/
theorem new_complete {data : List UInt8} (hlong : chunkSizeBytes < data.length)
    (hlen : data.length < 2 ^ 64) {index : UInt64} {c : ChunkWithProof D}
    (h : new H data index = .ok c) :
    c.verify H = .ok () ∧ c.proof.rootHash H = H.hashBytesIntoChunksIfNecessary data ∧
      c.proof.index = index ∧
        c.chunk = (data.drop (index.toNat * chunkSizeBytes)).take chunkSizeBytes := by
  by_cases hin : index.toNat * chunkSizeBytes < data.length
  · obtain ⟨proof, hproof, hnew⟩ := new_eq_ok H hlong hlen hin
    rw [hnew] at h
    cases h
    obtain ⟨-, hverify, hhead, hroot⟩ :=
      IndexedMerkleProof.new_complete H (H.length_map_chunks_lt hlen) hproof
    rw [IndexedMerkleProof.new_eq_ok H (H.length_map_chunks_lt hlen)
      (by rw [List.length_map, lt_length_chunks_iff chunkSizeBytes_pos]; exact hin)] at hproof
    cases hproof
    refine ⟨(verify_eq_ok_iff H _).mpr ⟨hverify, ?_⟩, ?_, rfl, rfl⟩
    · rw [hhead, List.getElem?_map, getElem?_chunks chunkSizeBytes_pos, if_pos hin]
      rfl
    · rw [hroot, H.hashBytesIntoChunksIfNecessary_of_lt hlong]
  · obtain ⟨e, he⟩ := new_eq_error H hlong hlen index (by omega)
    rw [he] at h
    cases h

/-- For a byte string longer than a chunk, `new` succeeds exactly at the indices of its chunks,
and the chunk it returns verifies, has the string's digest as its root hash, and is the slice of
the string at its index. -/
theorem chunkWithProof_new_verifies {data : List UInt8} (hlong : chunkSizeBytes < data.length)
    (hlen : data.length < 2 ^ 64) (index : UInt64) :
    ((∃ c, new H data index = .ok c) ↔ index.toNat * chunkSizeBytes < data.length) ∧
      ∀ c, new H data index = .ok c →
        c.verify H = .ok () ∧ c.proof.rootHash H = H.hashBytesIntoChunksIfNecessary data ∧
          c.proof.index = index ∧
            c.chunk = (data.drop (index.toNat * chunkSizeBytes)).take chunkSizeBytes := by
  refine ⟨⟨?_, fun hin => ?_⟩, fun c hc => new_complete H hlong hlen hc⟩
  · rintro ⟨c, hc⟩
    by_contra hout
    obtain ⟨e, he⟩ := new_eq_error H hlong hlen index (by omega)
    rw [he] at hc
    cases hc
  · obtain ⟨proof, -, hnew⟩ := new_eq_ok H hlong hlen hin
    exact ⟨_, hnew⟩

theorem chunkWithProof_new_verifies_second_chunk :
    chunkSizeBytes < chunkAndOneByte.length ∧ chunkAndOneByte.length < 2 ^ 64 ∧
      (((∃ c, new unaryHasher chunkAndOneByte 1 = .ok c) ↔
          (1 : UInt64).toNat * chunkSizeBytes < chunkAndOneByte.length) ∧
        ∀ c, new unaryHasher chunkAndOneByte 1 = .ok c →
          c.verify unaryHasher = .ok () ∧
            c.proof.rootHash unaryHasher = unaryHasher.hashBytesIntoChunksIfNecessary chunkAndOneByte ∧
              c.proof.index = 1 ∧
                c.chunk = (chunkAndOneByte.drop ((1 : UInt64).toNat * chunkSizeBytes)).take
                  chunkSizeBytes) :=
  ⟨chunkSizeBytes_lt_chunkAndOneByte, chunkAndOneByte_length_lt,
    chunkWithProof_new_verifies unaryHasher chunkSizeBytes_lt_chunkAndOneByte
      chunkAndOneByte_length_lt 1⟩

end ChunkWithProof

/-! ## The claim -/

section Claim

variable {D : Type} [DecidableEq D] (H : Hasher D)

/-- **Indexed Merkle proofs are complete and binding.**  For every list of fewer than `2 ^ 64`
leaves, `new` succeeds exactly for the indices of the leaves, and its proof verifies, starts
with the indexed leaf and has the root hash of the tree.  With `hash_pair` and
`hash_merkle_root` injective, a proof that verifies with the root hash of a nonempty list
counts its leaves and starts with the leaf at its index; with `hash` injective too, a chunk
that verifies with the digest of a string longer than a chunk is the string's slice at its
index. -/
theorem indexedMerkleProof_complete_and_binding :
    (∀ leaves : List D, leaves.length < 2 ^ 64 → ∀ index : UInt64,
      ((∃ p, IndexedMerkleProof.new H leaves index = .ok p) ↔ index.toNat < leaves.length) ∧
        ∀ p, IndexedMerkleProof.new H leaves index = .ok p →
          p.verify = .ok () ∧ p.merkleProof.head? = leaves[index.toNat]? ∧
            p.rootHash H = H.hashMerkleTree leaves) ∧
    (Function.Injective (Function.uncurry H.hashPair) →
      Function.Injective (Function.uncurry H.hashMerkleRoot) →
      (∀ leaves : List D, leaves ≠ [] → leaves.length < 2 ^ 64 → ∀ p : IndexedMerkleProof D,
        p.verify = .ok () → p.rootHash H = H.hashMerkleTree leaves →
          p.count.toNat = leaves.length ∧ p.merkleProof.head? = leaves[p.index.toNat]?) ∧
      (Function.Injective H.hash → ∀ (data : List UInt8) (c : ChunkWithProof D),
        chunkSizeBytes < data.length → data.length < 2 ^ 64 →
        c.verify H = .ok () → c.proof.rootHash H = H.hashBytesIntoChunksIfNecessary data →
          c.proof.index.toNat * chunkSizeBytes < data.length ∧
            c.chunk = (data.drop (c.proof.index.toNat * chunkSizeBytes)).take chunkSizeBytes)) := by
  refine ⟨fun leaves hlen index => ⟨⟨?_, fun hi => ?_⟩, fun p hp => ?_⟩,
    fun hpair hroot => ⟨fun leaves hne hlen p hverify hhash => ?_, ?_⟩⟩
  · rintro ⟨p, hp⟩
    exact (IndexedMerkleProof.new_complete H hlen hp).1
  · exact ⟨_, IndexedMerkleProof.new_eq_ok H hlen hi⟩
  · exact (IndexedMerkleProof.new_complete H hlen hp).2
  · obtain ⟨hcount, -, hhead⟩ :=
      IndexedMerkleProof.rootHash_binding H hpair hroot hne hlen hverify hhash
    exact ⟨hcount, hhead⟩
  · intro hinj data c hlong hlen hverify hid
    exact ChunkWithProof.verify_binding H hpair hroot hinj hlong hlen hverify hid

end Claim

theorem indexedMerkleProof_complete_and_binding_unary :
    (∃ p, IndexedMerkleProof.new unaryHasher [[1], [2], [3]] 2 = .ok p ∧ p.verify = .ok () ∧
      p.count.toNat = 3 ∧ p.merkleProof.head? = some [3]) ∧
    ∃ c : ChunkWithProof (List UInt8), c.verify unaryHasher = .ok () ∧
      c.proof.rootHash unaryHasher = unaryHasher.hashBytesIntoChunksIfNecessary chunkAndOneByte ∧
        c.proof.index = 1 ∧ c.chunk = [0] := by
  have hthm := indexedMerkleProof_complete_and_binding unaryHasher
  obtain ⟨hbind, hchunk⟩ :=
    hthm.2 unaryHasher_hashPair_injective unaryHasher_hashMerkleRoot_injective
  have hlong := chunkSizeBytes_lt_chunkAndOneByte
  have hlen := chunkAndOneByte_length_lt
  refine ⟨?_, ?_⟩
  · -- the proof of the third of three leaves, bound to them by its root hash
    obtain ⟨hiff, hok⟩ := hthm.1 [[1], [2], [3]] (by decide) 2
    obtain ⟨p, hp⟩ := hiff.mpr (by decide)
    obtain ⟨hverify, hhead, hroot⟩ := hok p hp
    obtain ⟨hcount, -⟩ := hbind [[1], [2], [3]] (by decide) (by decide) p hverify hroot
    exact ⟨p, hp, hverify, hcount, hhead⟩
  · -- the second chunk of a string of one chunk and one more byte, bound to the string
    have hin : (1 : UInt64).toNat * chunkSizeBytes < chunkAndOneByte.length := by
      rw [chunkAndOneByte_length]
      simp
    obtain ⟨proof, -, hnew⟩ := ChunkWithProof.new_eq_ok unaryHasher hlong hlen hin
    obtain ⟨hverify, hroot, hindex, -⟩ := ChunkWithProof.new_complete unaryHasher hlong hlen hnew
    obtain ⟨-, hslice⟩ := hchunk Function.injective_id chunkAndOneByte _ hlong hlen hverify hroot
    refine ⟨_, hverify, hroot, hindex, ?_⟩
    rw [hslice, hindex]
    simp only [chunkAndOneByte, List.drop_replicate, List.take_replicate]
    rw [show min chunkSizeBytes (chunkSizeBytes + 1 - (1 : UInt64).toNat * chunkSizeBytes) = 1 by
      have := chunkSizeBytes_pos
      simp only [UInt64.toNat_one, Nat.one_mul]
      omega]
    rfl

end CasperNode
