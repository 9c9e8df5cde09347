import CasperNode.Storage.Trie
import CasperNode.Storage.GlobalState

/-!
# Operations on the trie store

`trie_store::operations`: `read`, `scan`, `write` and `delete` over the store of trie nodes,
and the helpers `write` is built from (`rehash`, `common_prefix`, `get_parents_path`,
`add_node_to_parents`, `reparent_leaf`, `split_extension`).

The key is followed through the trie by the bytes of its encoding, the *path*.  `scan`
walks down as far as the path leads and returns the node it stops at (the *tip*) with the
nodes it passed (the *parents*, root first, each with the byte of the path at which it was
left).  `write` replaces the tip by a small subtrie holding the new leaf and rebuilds the
parents bottom up (`rehash`); `delete` removes the leaf and rebuilds the parents while
collapsing nodes left with one child and merging extensions.

Every `assert!`, `panic!`, `unreachable!`, `expect` and out-of-range index or slice of these
functions is a `TrieFault`: the model returns it where the source would panic.  The loops of
`read` and `scan` follow the path, one byte or one affix per round; the model bounds them by
one round more than the length of the path, enough whenever every extension has a nonempty
affix, and stops with `fuelExhausted` past the bound.  Store errors (LMDB, deserialization)
are not modelled: the store is a function.
-/

namespace CasperNode

/-- How a trie operation of the model stops without a result. -/
inductive TrieFault where
  /-- `assert!(depth < path.len())`. -/
  | depthOutOfRange
  /-- An index past the end of a vector. -/
  | indexOutOfRange
  /-- A slice past the end of a vector. -/
  | sliceOutOfRange
  /-- `panic!`, `unreachable!`, `expect` or `assert_eq!`, with the source's message. -/
  | explicit (message : String)
  /-- The model's bound on the rounds of a loop. -/
  | fuelExhausted
deriving DecidableEq

/-- `DeleteResult`. -/
inductive DeleteResult (D : Type) where
  | deleted (root : D)
  | doesNotExist
  | rootNotFound
deriving DecidableEq

/-- `Parents<K, V>`: the nodes above the tip, root first, each with the byte it was left at. -/
abbrev Parents (K V D : Type) := List (UInt8 × Trie K V D)

/-- `TrieScan`. -/
structure TrieScan (K V D : Type) where
  tip : Trie K V D
  parents : Parents K V D

/-- `path[depth]` after `assert!(depth < path.len())`. -/
def pathIndex (path : List UInt8) (depth : Nat) : Except TrieFault UInt8 :=
  match path[depth]? with
  | some b => .ok b
  | none => .error .depthOutOfRange

/-- `&path[start..start + len]`. -/
def pathSlice (path : List UInt8) (start len : Nat) : Except TrieFault (List UInt8) :=
  if start + len ≤ path.length then .ok ((path.drop start).take len) else .error .sliceOutOfRange

/-- `common_prefix`. -/
def commonPrefix {A : Type} [DecidableEq A] : List A → List A → List A
  | a :: as, b :: bs => if a = b then a :: commonPrefix as bs else []
  | _, _ => []

section Operations

variable {K V D : Type} [DecidableEq K] [DecidableEq V] [DecidableEq D]
variable (keyBytes : K → List UInt8) (hashTrie : Trie K V D → D)

/-! ## `read` -/

/-- The loop of `read`. -/
def readLoop (store : TrieStore K V D) (key : K) (path : List UInt8) :
    Nat → Nat → Trie K V D → Except TrieFault (ReadResult V)
  | 0, _, _ => .error .fuelExhausted
  | fuel + 1, depth, current =>
    match current with
    | .leaf leafKey leafValue =>
      -- keys may differ where a node points directly to a leaf
      .ok (if key = leafKey then .found leafValue else .notFound)
    | .node pointerBlock =>
      match pathIndex path depth with
      | .error e => .error e
      | .ok index =>
        match pointerBlock index with
        | none => .ok .notFound
        | some pointer =>
          match store pointer.hash with
          | some next => readLoop store key path fuel (depth + 1) next
          | none => .ok .notFound
    | .extension affix pointer =>
      match pathSlice path depth affix.length with
      | .error e => .error e
      | .ok subPath =>
        if subPath = affix then
          match store pointer.hash with
          | some next => readLoop store key path fuel (depth + affix.length) next
          | none => .ok .notFound
        else .ok .notFound

/-- `operations::read`. -/
def read (store : TrieStore K V D) (root : D) (key : K) : Except TrieFault (ReadResult V) :=
  let path := keyBytes key
  match store root with
  | none => .ok .rootNotFound
  | some current => readLoop store key path (path.length + 1) 0 current

/-! ## `scan` -/

/-- The loop of `scan`; `acc` is the parents found so far. -/
def scanLoop (store : TrieStore K V D) (path : List UInt8) :
    Nat → Nat → Trie K V D → Parents K V D → Except TrieFault (Option (TrieScan K V D))
  | 0, _, _, _ => .error .fuelExhausted
  | fuel + 1, depth, current, acc =>
    match current with
    | .leaf k v => .ok (some ⟨.leaf k v, acc⟩)
    | .node pointerBlock =>
      match pathIndex path depth with
      | .error e => .error e
      | .ok index =>
        match pointerBlock index with
        | none => .ok (some ⟨.node pointerBlock, acc⟩)
        | some pointer =>
          match store pointer.hash with
          | some next => scanLoop store path fuel (depth + 1) next (acc ++ [(index, .node pointerBlock)])
          | none => .ok none
    | .extension affix pointer =>
      match pathSlice path depth affix.length with
      | .error e => .error e
      | .ok subPath =>
        if subPath ≠ affix then .ok (some ⟨.extension affix pointer, acc⟩)
        else
          match store pointer.hash with
          | some next =>
            match pathIndex path depth with
            | .error e => .error e
            | .ok index =>
              scanLoop store path fuel (depth + affix.length) next
                (acc ++ [(index, .extension affix pointer)])
          | none => .ok none

/-- `scan`: the tip reached along `keyBytes` from `root`, and its parents; `none` if a
pointer on the way leads out of the store. -/
def scan (store : TrieStore K V D) (keyBytes : List UInt8) (root : Trie K V D) :
    Except TrieFault (Option (TrieScan K V D)) :=
  scanLoop store keyBytes (keyBytes.length + 1) 0 root []

/-! ## `rehash` -/

/-- The pointer to a rebuilt child: a leaf pointer to a leaf, a node pointer otherwise. -/
def pointerTo (tip : Trie K V D) (tipHash : D) : Pointer D :=
  match tip with
  | .leaf .. => .leafPointer tipHash
  | _ => .nodePointer tipHash

/-- The loop of `rehash`, over the parents deepest first. -/
def rehashLoop : Trie K V D → List (UInt8 × Trie K V D) → Except TrieFault (List (D × Trie K V D))
  | _, [] => .ok []
  | tip, (index, parent) :: rest =>
    match parent with
    | .leaf .. => .error (.explicit "parents should not contain any leaves")
    | .node pointerBlock =>
      let tip' : Trie K V D := .node (pointerBlock.set index (some (pointerTo tip (hashTrie tip))))
      match rehashLoop tip' rest with
      | .error e => .error e
      | .ok ret => .ok ((hashTrie tip', tip') :: ret)
    | .extension affix pointer =>
      let tip' : Trie K V D := .extension affix (pointer.update (hashTrie tip))
      match rehashLoop tip' rest with
      | .error e => .error e
      | .ok ret => .ok ((hashTrie tip', tip') :: ret)

/-- `rehash`: the tip and every parent rebuilt around it, with their hashes, deepest first. -/
def rehash (tip : Trie K V D) (parents : Parents K V D) :
    Except TrieFault (List (D × Trie K V D)) :=
  match rehashLoop hashTrie tip parents.reverse with
  | .error e => .error e
  | .ok ret => .ok ((hashTrie tip, tip) :: ret)

/-! ## The helpers of `write` -/

/-- `get_parents_path`: the path bytes the parents account for. -/
def getParentsPath (parents : Parents K V D) : List UInt8 :=
  parents.flatMap fun (index, element) =>
    match element with
    | .extension affix _ => affix
    | _ => [index]

/-- `add_node_to_parents`. -/
def addNodeToParents (pathToLeaf : List UInt8) (newParentNode : Trie K V D)
    (parents : Parents K V D) : Except TrieFault (Parents K V D) :=
  match newParentNode with
  | .node _ =>
    let pathToNode := getParentsPath parents
    if commonPrefix pathToLeaf pathToNode ≠ pathToNode then
      .error (.explicit "assertion failed: current_path == path_to_node")
    else
      match pathIndex pathToLeaf pathToNode.length with
      | .error e => .error e
      | .ok index => .ok (parents ++ [(index, newParentNode)])
  | _ => .error (.explicit "new_parent must be a node")

/-- `reparent_leaf`: a new node holding the existing leaf, below a new extension if the
leaves share more of the path than the parents account for. -/
def reparentLeaf (newLeafPath existingLeafPath : List UInt8) (parents : Parents K V D) :
    Except TrieFault (Trie K V D × Parents K V D) :=
  match parents.getLast? with
  | none => .error (.explicit "parents should not be empty")
  | some (childIndex, parent) =>
    match parent with
    | .node pointerBlock =>
      let sharedPath := commonPrefix newLeafPath existingLeafPath
      match existingLeafPath[sharedPath.length]? with
      | none => .error .indexOutOfRange
      | some index =>
        match pointerBlock childIndex with
        | none => .error (.explicit "parent has lost the existing leaf")
        | some existingLeafPointer =>
          let newNode : Trie K V D :=
            .node (PointerBlock.fromIndexedPointers [(index, existingLeafPointer)])
          let parents := parents.dropLast ++ [(childIndex, .node pointerBlock)]
          let parentsPath := getParentsPath parents
          if sharedPath.length < parentsPath.length then .error .sliceOutOfRange
          else
            let affix := sharedPath.drop parentsPath.length
            if affix ≠ [] then
              .ok (newNode, parents ++ [(childIndex, .extension affix (.nodePointer (hashTrie newNode)))])
            else .ok (newNode, parents)
    | _ => .error (.explicit "A leaf should have a node for its parent")

/-- `SplitResult`. -/
structure SplitResult (K V D : Type) where
  newNode : Trie K V D
  parents : Parents K V D
  maybeHashedChildExtension : Option (D × Trie K V D)

/-- `split_extension`: a new node where the new leaf leaves the extension, with the parts of
the affix before and after it as a parent and a child extension where nonempty. -/
def splitExtension (newLeafPath : List UInt8) (existingExtension : Trie K V D)
    (parents : Parents K V D) : Except TrieFault (SplitResult K V D) :=
  match existingExtension with
  | .extension affix pointer =>
    let parentsPath := getParentsPath parents
    let existingExtensionPath := parentsPath ++ affix
    let sharedPath := commonPrefix newLeafPath existingExtensionPath
    if sharedPath.length < parentsPath.length then .error .sliceOutOfRange
    else
      let parentExtensionAffix := sharedPath.drop parentsPath.length
      if affix.length < parentExtensionAffix.length + 1 then .error .sliceOutOfRange
      else
        let childExtensionAffix := affix.drop (parentExtensionAffix.length + 1)
        let maybeHashedChildExtension : Option (D × Trie K V D) :=
          if childExtensionAffix = [] then none
          else
            let childExtension : Trie K V D := .extension childExtensionAffix pointer
            some (hashTrie childExtension, childExtension)
        match existingExtensionPath[sharedPath.length]? with
        | none => .error .indexOutOfRange
        | some index =>
          let newPointer : Pointer D :=
            match maybeHashedChildExtension with
            | none => pointer
            | some (hash, _) => .nodePointer hash
          let newNode : Trie K V D := .node (PointerBlock.fromIndexedPointers [(index, newPointer)])
          match parentExtensionAffix with
          | [] => .ok ⟨newNode, parents, maybeHashedChildExtension⟩
          | first :: rest =>
            let parentExtension : Trie K V D :=
              .extension (first :: rest) (.nodePointer (hashTrie newNode))
            .ok ⟨newNode, parents ++ [(first, parentExtension)], maybeHashedChildExtension⟩
  | _ => .error (.explicit "existing_extension must be an extension")

/-! ## `write` -/

/-- The new trie elements of `write`, by what the scan stopped at. -/
def writeElements (key : K) (value : V) (path : List UInt8) (tip : Trie K V D)
    (parents : Parents K V D) : Except TrieFault (List (D × Trie K V D)) :=
  let newLeaf : Trie K V D := .leaf key value
  match tip with
  | .leaf leafKey leafValue =>
    -- the same leaf is already in the trie
    if key = leafKey ∧ value = leafValue then .ok []
    -- the leaf is updated
    else if key = leafKey then rehash hashTrie newLeaf parents
    -- the new leaf shares a prefix with an existing leaf
    else
      match reparentLeaf hashTrie path (keyBytes leafKey) parents with
      | .error e => .error e
      | .ok (newNode, parents) =>
        match addNodeToParents path newNode parents with
        | .error e => .error e
        | .ok parents => rehash hashTrie newLeaf parents
  | .node pointerBlock =>
    match addNodeToParents path (.node pointerBlock) parents with
    | .error e => .error e
    | .ok parents => rehash hashTrie newLeaf parents
  | .extension affix pointer =>
    match splitExtension hashTrie path (.extension affix pointer) parents with
    | .error e => .error e
    | .ok ⟨newNode, parents, maybeHashedChildExtension⟩ =>
      match addNodeToParents path newNode parents with
      | .error e => .error e
      | .ok parents =>
        match rehash hashTrie newLeaf parents with
        | .error e => .error e
        | .ok ret =>
          match maybeHashedChildExtension with
          | some hashedExtension => .ok (hashedExtension :: ret)
          | none => .ok ret

/-- `operations::write`: the result and the store with the new elements put. -/
def write (store : TrieStore K V D) (root : D) (key : K) (value : V) :
    Except TrieFault (WriteResult D × TrieStore K V D) :=
  match store root with
  | none => .ok (.rootNotFound, store)
  | some currentRoot =>
    let path := keyBytes key
    match scan store path currentRoot with
    | .error e => .error e
    | .ok none => .ok (.rootNotFound, store)
    | .ok (some ⟨tip, parents⟩) =>
      match writeElements keyBytes hashTrie key value path tip parents with
      | .error e => .error e
      | .ok newElements =>
        match newElements.getLast? with
        | none => .ok (.alreadyExists, store)
        | some (rootHash, _) => .ok (.written rootHash, store.putAll newElements)

/-! ## `delete` -/

/-- The loop of `delete`, over the parents as a stack (top first) and the new elements in
the order they were pushed. -/
def deleteLoop (store : TrieStore K V D) :
    List (D × Trie K V D) → List (UInt8 × Trie K V D) → Except TrieFault (List (D × Trie K V D))
  | newElements, [] => .ok newElements
  | newElements, (idx, parent) :: parents =>
    match newElements.getLast?, parent with
    | _, .leaf .. => .error (.explicit "Should not find leaf")
    | none, .extension .. => .error (.explicit "Extension node should never end in leaf")
    | some (_, .leaf ..), _ => .error (.explicit "New elements should never contain a leaf")
    -- the parent of the deleted leaf, with other children
    | none, .node pointerBlock =>
      if 2 < pointerBlock.childCount then
        let trieNode : Trie K V D := .node (pointerBlock.set idx none)
        deleteLoop store (newElements ++ [(hashTrie trieNode, trieNode)]) parents
      else
        match pointerBlock.asIndexedPointers.find? (fun e => idx ≠ e.1) with
        -- no sibling: the parent is the root, which becomes empty
        | none =>
          let trieNode : Trie K V D := .node PointerBlock.new
          .ok (newElements ++ [(hashTrie trieNode, trieNode)])
        | some (siblingIdx, siblingPointer) =>
          match siblingPointer, _hparents : parents with
          | _, (_, .leaf ..) :: _ => .error (.explicit "Should not have leaf in scan")
          -- no grandparent: the parent is the root
          | _, [] =>
            let trieNode : Trie K V D := .node (pointerBlock.set idx none)
            .ok (newElements ++ [(hashTrie trieNode, trieNode)])
          -- reseat the single leaf sibling into the grandparent
          | .leafPointer _, (gidx, .node grandparentBlock) :: rest =>
            let trieNode : Trie K V D := .node (grandparentBlock.set gidx (some siblingPointer))
            deleteLoop store (newElements ++ [(hashTrie trieNode, trieNode)]) rest
          -- reseat it past an extension grandparent into the great-grandparent
          | .leafPointer _, (_, .extension ..) :: rest =>
            match rest with
            | [] => .error (.explicit "Root node cannot be an extension node")
            | (_, .leaf ..) :: _ => .error (.explicit "Should not find leaf")
            | (_, .extension ..) :: _ => .error (.explicit "Extension cannot extend to an extension")
            | (ggidx, .node greatGrandparentBlock) :: rest =>
              let trieNode : Trie K V D :=
                .node (greatGrandparentBlock.set ggidx (some siblingPointer))
              deleteLoop store (newElements ++ [(hashTrie trieNode, trieNode)]) rest
          -- the single sibling is a node or an extension: an extension replaces the parent
          | .nodePointer siblingTrieKey, _ :: _ =>
            match store siblingTrieKey with
            | none => .error (.explicit "should have sibling")
            | some (.leaf ..) => .error (.explicit "Node pointer should not point to leaf")
            | some (.node _) =>
              let newExtension : Trie K V D := .extension [siblingIdx] siblingPointer
              deleteLoop store (newElements ++ [(hashTrie newExtension, newExtension)]) parents
            | some (.extension extensionAffix pointer) =>
              let newExtension : Trie K V D := .extension (siblingIdx :: extensionAffix) pointer
              deleteLoop store (newElements ++ [(hashTrie newExtension, newExtension)]) parents
    -- reseat the node or extension being propagated
    | some (trieKey, _), .node pointerBlock =>
      let trieNode : Trie K V D := .node (pointerBlock.set idx (some (.nodePointer trieKey)))
      deleteLoop store (newElements ++ [(hashTrie trieNode, trieNode)]) parents
    -- an extension below an extension: merge the affixes in place
    | some (_, .extension childAffix pointer), .extension affix _ =>
      let newExtension : Trie K V D := .extension (affix ++ childAffix) pointer
      deleteLoop store (newElements.dropLast ++ [(hashTrie newExtension, newExtension)]) parents
    -- a node below an extension
    | some (trieKey, .node _), .extension affix _ =>
      let trieExtension : Trie K V D := .extension affix (.nodePointer trieKey)
      deleteLoop store (newElements ++ [(hashTrie trieExtension, trieExtension)]) parents
termination_by _ parents => parents.length
decreasing_by all_goals (try subst _hparents); simp only [List.length_cons]; omega

/-- `operations::delete`: the result and the store with the new elements put. -/
def delete (store : TrieStore K V D) (root : D) (keyToDelete : K) :
    Except TrieFault (DeleteResult D × TrieStore K V D) :=
  match store root with
  | none => .ok (.rootNotFound, store)
  | some rootTrie =>
    match scan store (keyBytes keyToDelete) rootTrie with
    | .error e => .error e
    | .ok none => .ok (.doesNotExist, store)
    | .ok (some ⟨tip, parents⟩) =>
      match tip with
      | .leaf key _ =>
        if key = keyToDelete then
          match deleteLoop hashTrie store [] parents.reverse with
          | .error e => .error e
          | .ok newElements =>
            let newRoot := (newElements.getLast?.map Prod.fst).getD root
            .ok (.deleted newRoot, store.putAll newElements)
        else .ok (.doesNotExist, store)
      | _ => .ok (.doesNotExist, store)

end Operations

end CasperNode
