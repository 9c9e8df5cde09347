import CasperNode.Hashing.Digest
import CasperNode.Types.Key

/-!
# Merkle tries

The global state is a Merkle Patricia trie over the `bytesrepr` encodings of the keys, kept
in a content-addressed store: every trie node is stored under its hash.  A node is one of

* a `Leaf`, holding a key and its value;
* a `Node`, a block of 256 child pointers indexed by the next byte of the key;
* an `Extension`, a run of key bytes (`affix`) shared by everything below, and one pointer.

A pointer records the digest of the child and whether it is a leaf.  The hash of a node is
`Trie::trie_hash`, `hash_bytes_into_chunks_if_necessary` of its `bytesrepr` encoding
(`Trie.trieHash` below).  The trie operations only ever use it as a function from nodes to
digests, so they take it as a parameter `hashTrie`; the results about them assume it
collision-free.

A key type is usable as a trie key when its encoding determines the key, is never empty, and
has a length fixed by its first byte, so that no encoding is a proper prefix of another
(`TrieKey`).  `Key` is such a type.
-/

namespace CasperNode

/-! ## Pointers, pointer blocks and nodes -/

/-- `Pointer`. -/
inductive Pointer (D : Type) where
  | leafPointer (hash : D)
  | nodePointer (hash : D)
deriving DecidableEq

namespace Pointer

variable {D : Type}

/-- `Pointer::hash`. -/
def hash : Pointer D → D
  | leafPointer h => h
  | nodePointer h => h

/-- `Pointer::update`: the same kind of pointer to another digest. -/
def update : Pointer D → D → Pointer D
  | leafPointer _, h => leafPointer h
  | nodePointer _, h => nodePointer h

/-- `Pointer::tag`. -/
def tag : Pointer D → UInt8
  | leafPointer _ => 0
  | nodePointer _ => 1

@[simp] theorem hash_leafPointer (h : D) : (leafPointer h).hash = h := rfl
@[simp] theorem hash_nodePointer (h : D) : (nodePointer h).hash = h := rfl
@[simp] theorem update_nodePointer (h h' : D) : (nodePointer h).update h' = nodePointer h' := rfl

end Pointer

/-- `PointerBlock`: the child slot of every byte value. -/
abbrev PointerBlock (D : Type) := UInt8 → Option (Pointer D)

namespace PointerBlock

variable {D : Type}

/-- `PointerBlock::new`: no children. -/
def new : PointerBlock D := fun _ => none

/-- Assignment to one slot, `pointer_block[index] = value`. -/
def set [DecidableEq D] (pb : PointerBlock D) (index : UInt8) (value : Option (Pointer D)) :
    PointerBlock D :=
  Function.update pb index value

/-- `PointerBlock::as_indexed_pointers`: the occupied slots in index order. -/
def asIndexedPointers (pb : PointerBlock D) : List (UInt8 × Pointer D) :=
  (List.range 256).filterMap fun i => (pb (UInt8.ofNat i)).map fun p => (UInt8.ofNat i, p)

/-- `PointerBlock::child_count`. -/
def childCount (pb : PointerBlock D) : Nat := (asIndexedPointers pb).length

/-- `PointerBlock::from_indexed_pointers`. -/
def fromIndexedPointers [DecidableEq D] (indexedPointers : List (UInt8 × Pointer D)) :
    PointerBlock D :=
  indexedPointers.foldl (fun pb e => pb.set e.1 (some e.2)) new

@[simp] theorem new_apply (b : UInt8) : (new : PointerBlock D) b = none := rfl

@[simp] theorem set_apply [DecidableEq D] (pb : PointerBlock D) (index b : UInt8)
    (value : Option (Pointer D)) :
    pb.set index value b = if b = index then value else pb b := by
  simp [set, Function.update_apply]

@[simp] theorem fromIndexedPointers_singleton [DecidableEq D] (index : UInt8) (p : Pointer D) :
    fromIndexedPointers [(index, p)] = new.set index (some p) := rfl

end PointerBlock

/-- `Trie<K, V>`. -/
inductive Trie (K V D : Type) where
  | leaf (key : K) (value : V)
  | node (pointerBlock : PointerBlock D)
  | extension (affix : List UInt8) (pointer : Pointer D)

/-- The store of trie nodes by digest, as `TrieStore::get` reads it. -/
abbrev TrieStore (K V D : Type) := D → Option (Trie K V D)

/-- `Trie::node(&[])`, the root of the empty trie. -/
def Trie.emptyNode {K V D : Type} : Trie K V D := .node PointerBlock.new

/-- Store every element of a list, in order: the loop `store.put(txn, hash, element)`. -/
def TrieStore.putAll {K V D : Type} [DecidableEq D] (store : TrieStore K V D)
    (elements : List (D × Trie K V D)) : TrieStore K V D :=
  elements.foldl (fun s e => Function.update s e.1 (some e.2)) store

/-! ## Encoding and hashing -/

section Encoding

variable {K V D : Type} (H : Hasher D) (keyBytes : K → List UInt8) (valueBytes : V → List UInt8)

/-- `ToBytes for Pointer`: the tag, then the digest. -/
def Pointer.toBytes (p : Pointer D) : List UInt8 := p.tag :: H.value p.hash

/-- `ToBytes for PointerBlock`: the 256 slots as `Option<Pointer>`. -/
def PointerBlock.toBytes (pb : PointerBlock D) : List UInt8 :=
  (List.range 256).flatMap fun i =>
    match pb (UInt8.ofNat i) with
    | none => [0]
    | some p => 1 :: p.toBytes H

/-- `ToBytes for Trie`: the tag, then the fields; the affix is `Bytes`, length-prefixed. -/
def Trie.toBytes : Trie K V D → List UInt8
  | .leaf k v => 0 :: (keyBytes k ++ valueBytes v)
  | .node pb => 1 :: pb.toBytes H
  | .extension affix p => 2 :: (u32ToBytes (UInt32.ofNat affix.length) ++ affix ++ p.toBytes H)

/-- `Trie::trie_hash`. -/
def Trie.trieHash (t : Trie K V D) : D :=
  H.hashBytesIntoChunksIfNecessary (t.toBytes H keyBytes valueBytes)

/-- `create_hashed_empty_trie`: the empty node and `Digest::hash` of its encoding. -/
def createHashedEmptyTrie : D × Trie K V D :=
  (H.hash ((Trie.emptyNode : Trie K V D).toBytes H keyBytes valueBytes), .emptyNode)

/-- The empty node is short, so its digest is also its `trie_hash`: the digest of the empty
root is the hash of a node like any other. -/
theorem createHashedEmptyTrie_fst :
    (createHashedEmptyTrie H keyBytes valueBytes).1 =
      (Trie.emptyNode : Trie K V D).trieHash H keyBytes valueBytes := by
  have hblock : ((PointerBlock.new : PointerBlock D).toBytes H).length = 256 := by
    have hslots : ∀ n, ((List.range n).flatMap fun _ => [(0 : UInt8)]).length = n := by
      intro n
      induction n with
      | zero => rfl
      | succ n ih => rw [List.range_succ, List.flatMap_append, List.length_append, ih]; rfl
    exact hslots 256
  have hlen : ((Trie.emptyNode : Trie K V D).toBytes H keyBytes valueBytes).length = 257 := by
    rw [Trie.emptyNode, Trie.toBytes, List.length_cons, hblock]
  rw [createHashedEmptyTrie, Trie.trieHash, Hasher.hashBytesIntoChunksIfNecessary_of_le]
  rw [hlen]
  decide

end Encoding

/-! ## Keys of a trie -/

/-- What the trie needs of the encoding of its keys, `keyBytes`: it determines the key, it is
never empty, and encodings that start with the same byte have the same length, so that no
encoding is a proper prefix of another. -/
class TrieKey (K : Type) where
  keyBytes : K → List UInt8
  keyBytes_injective : Function.Injective keyBytes
  keyBytes_ne_nil : ∀ k, keyBytes k ≠ []
  length_eq_of_head : ∀ k k', (keyBytes k).head? = (keyBytes k').head? →
    (keyBytes k).length = (keyBytes k').length

namespace TrieKey

variable {K : Type} [TrieKey K]

/-- Two keys below one nonempty path have encodings of one length. -/
theorem length_eq_of_prefixes {p : List UInt8} (hp : p ≠ []) {k k' : K}
    (hk : p <+: keyBytes k) (hk' : p <+: keyBytes k') :
    (keyBytes k).length = (keyBytes k').length := by
  apply length_eq_of_head
  obtain ⟨b, rest, rfl⟩ := List.exists_cons_of_ne_nil hp
  obtain ⟨s, hs⟩ := hk
  obtain ⟨s', hs'⟩ := hk'
  rw [← hs, ← hs']
  rfl

/-- An encoding that is a prefix of another is the same key's. -/
theorem eq_of_prefix {k k' : K} (h : keyBytes k <+: keyBytes k') : k = k' := by
  have hlen := length_eq_of_prefixes (keyBytes_ne_nil k) (List.prefix_refl _) h
  exact keyBytes_injective (h.eq_of_length hlen)

end TrieKey

/-- The payload length of a `Key` of each tag. -/
def Key.payloadLength : UInt8 → Nat
  | 2 => 33
  | 5 | 13 | 14 => 8
  | _ => 32

theorem Key.length_toBytes (k : Key) : k.toBytes.length = 1 + Key.payloadLength k.tag := by
  cases k <;> simp [Key.toBytes, Key.tag, Key.payloadLength, URef.toBytes, bytes32ToBytes]

theorem Key.head?_toBytes (k : Key) : k.toBytes.head? = some k.tag := rfl

theorem bytes32ToBytes_injective : Function.Injective bytes32ToBytes := by
  intro a b h
  exact Vector.toList_inj.mp h

theorem URef.toBytes_injective : Function.Injective URef.toBytes := by
  intro u u' h
  obtain ⟨haddr, hbits⟩ := List.append_inj h (by simp [bytes32ToBytes])
  have hrights : u.accessRights = u'.accessRights := by
    cases hr : u.accessRights
    cases hr' : u'.accessRights
    simp only [hr, hr', List.cons.injEq, and_true] at hbits
    subst hbits
    rfl
  cases u
  cases u'
  simp only at haddr hrights
  rw [bytes32ToBytes_injective haddr, hrights]

/-- Equal encodings are of one key: the tags agree, and each payload encoding is injective. -/
theorem Key.toBytes_injective : Function.Injective Key.toBytes := by
  intro k k' h
  have htag : k.tag = k'.tag := Option.some.inj (by rw [← k.head?_toBytes, h, k'.head?_toBytes])
  have htail := List.cons.inj h |>.2
  cases k <;> cases k' <;> simp only [Key.tag] at htag <;> (try contradiction) <;>
    simp only at htail
  all_goals first
    | rfl
    | rw [bytes32ToBytes_injective htail]
    | rw [u64ToBytes_injective htail]
    | rw [URef.toBytes_injective htail]

/-- `Key` as a trie key. -/
instance : TrieKey Key where
  keyBytes := Key.toBytes
  keyBytes_injective := Key.toBytes_injective
  keyBytes_ne_nil _ := List.cons_ne_nil _ _
  length_eq_of_head k k' h := by
    rw [Key.head?_toBytes, Key.head?_toBytes, Option.some.injEq] at h
    rw [Key.length_toBytes, Key.length_toBytes, h]

end CasperNode
