import CasperNode.Storage.TrieOperations

/-!
# Merkle proofs of trie entries

`operations::read_with_proof` reads a key like `read`, and records on the way down what the
path does not fix: at a node the byte taken (the *hole*) and the other occupied slots, at an
extension its affix.  `TrieMerkleProof` is the entry found with these steps, the deepest
first.  `TrieMerkleProof::compute_state_hash` climbs back: it hashes the leaf with
`Trie::trie_hash`, then rebuilds each step's node or extension around the pointer to the hash
so far (a leaf pointer for the first step, node pointers after it) and hashes its encoding
with `Digest::hash`.
-/

namespace CasperNode

variable {K V D : Type}

/-- `TrieMerkleProofStep`. -/
inductive TrieMerkleProofStep (D : Type) where
  | node (holeIndex : UInt8) (indexedPointersWithHole : List (UInt8 × Pointer D))
  | extension (affix : List UInt8)

/-- `TrieMerkleProof`: an entry and the steps from it up to the root. -/
structure TrieMerkleProof (K V D : Type) where
  key : K
  value : V
  proofSteps : List (TrieMerkleProofStep D)

section Hash

variable [DecidableEq D] (H : Hasher D) (keyBytes : K → List UInt8)
  (valueBytes : V → List UInt8)

/-- The trie a step stands for, around the pointer to the hash computed below it. -/
def TrieMerkleProofStep.toTrie (pointer : Pointer D) : TrieMerkleProofStep D → Trie K V D
  | .node holeIndex indexedPointersWithHole =>
    .node (PointerBlock.fromIndexedPointers (indexedPointersWithHole ++ [(holeIndex, pointer)]))
  | .extension affix => .extension affix pointer

/-- `TrieMerkleProof::compute_state_hash`.  The loop's `hash` is carried as the pointer the
next step wraps it in. -/
def TrieMerkleProof.computeStateHash (p : TrieMerkleProof K V D) : D :=
  let leafHash := (Trie.leaf p.key p.value : Trie K V D).trieHash H keyBytes valueBytes
  (p.proofSteps.foldl
    (fun pointer step =>
      Pointer.nodePointer (H.hash ((step.toTrie pointer : Trie K V D).toBytes H keyBytes valueBytes)))
    (Pointer.leafPointer leafHash)).hash

end Hash

section Read

variable [DecidableEq K] [DecidableEq V] [DecidableEq D] (keyBytes : K → List UInt8)

/-- The loop of `read_with_proof`, with the steps found so far, the latest first. -/
def readWithProofLoop (store : TrieStore K V D) (key : K) (path : List UInt8) :
    Nat → Nat → Trie K V D → List (TrieMerkleProofStep D) →
      Except TrieFault (ReadResult (TrieMerkleProof K V D))
  | 0, _, _, _ => .error .fuelExhausted
  | fuel + 1, depth, current, proofSteps =>
    match current with
    | .leaf leafKey value =>
      .ok (if key ≠ leafKey then .notFound else .found ⟨leafKey, value, proofSteps⟩)
    | .node pointerBlock =>
      match pathIndex path depth with
      | .error e => .error e
      | .ok holeIndex =>
        match pointerBlock holeIndex with
        | none => .ok .notFound
        | some pointer =>
          let indexedPointersWithHole :=
            pointerBlock.asIndexedPointers.filter fun e => e.1 ≠ holeIndex
          match store pointer.hash with
          | none => .ok .notFound
          | some next =>
            readWithProofLoop store key path fuel (depth + 1) next
              (.node holeIndex indexedPointersWithHole :: proofSteps)
    | .extension affix pointer =>
      match pathSlice path depth affix.length with
      | .error e => .error e
      | .ok subPath =>
        if subPath ≠ affix then .ok .notFound
        else
          match store pointer.hash with
          | none => .ok .notFound
          | some next =>
            readWithProofLoop store key path fuel (depth + affix.length) next
              (.extension affix :: proofSteps)

/-- `operations::read_with_proof`. -/
def readWithProof (store : TrieStore K V D) (root : D) (key : K) :
    Except TrieFault (ReadResult (TrieMerkleProof K V D)) :=
  let path := keyBytes key
  match store root with
  | none => .ok .rootNotFound
  | some current => readWithProofLoop store key path (path.length + 1) 0 current []

end Read

end CasperNode
