import CasperNode.Storage.TrieOperations

/-!
# `keys_with_prefix`: the keys of a trie below a prefix

`operations::keys_with_prefix` returns a `KeysIterator`, which walks the trie depth first with
an explicit stack of visited tries (`visited`, its top first here).  It first descends along the
prefix (`initial_descend`): through a node by the child of the next byte, through an extension
by as much of the affix as the prefix has left.  Once the prefix is used up, every node on the
stack is revisited for its next occupied child (`maybe_index`), and every leaf reached is a key
to return.  A leaf reached while the prefix is not used up is returned only if its key goes on
with the rest of the prefix.

`KeysIterator::next` pops tries until it returns a key or the stack is empty; `step` is one pop.
The views of the global state collect every key the iterator returns (`collectKeys`).  Both loops
run until the iterator is done; the model bounds them by `fuel` and stops with `fuelExhausted`
past it.  Store errors and key encoding errors, the error states of the iterator, are not
modelled: the store is a function and the key encoding cannot fail.  A pointer that leads out of
the store ends the branch, as in a release build, where the `debug_assert!` is compiled out.
-/

namespace CasperNode

variable {K V D : Type}

/-- `VisitedTrieNode`: a trie on the stack, the next child index to try at a node, and the path
of the trie. -/
structure VisitedTrieNode (K V D : Type) where
  trie : Trie K V D
  maybeIndex : Option Nat
  path : List UInt8

/-- `KeysIterator`: what is left of the prefix to descend along, and the stack. -/
structure KeysIterator (K V D : Type) where
  initialDescend : List UInt8
  visited : List (VisitedTrieNode K V D)

/-- The loop over the child slots of a node from `index`: the first occupied slot, or while
descending only the slot at `index` itself. -/
def childFrom (pb : PointerBlock D) (descending : Bool) (index : Nat) :
    Option (Nat × Pointer D) :=
  if index < 256 then
    match pb (UInt8.ofNat index) with
    | some pointer => some (index, pointer)
    | none => if descending then none else childFrom pb descending (index + 1)
  else none
termination_by 256 - index

section Keys

variable (keyBytes : K → List UInt8) (store : TrieStore K V D)

/-- The trie a pointer leads to, pushed onto the stack with its path, if it is in the store. -/
def pushNext (next : Option (Trie K V D)) (path : List UInt8)
    (visited : List (VisitedTrieNode K V D)) : List (VisitedTrieNode K V D) :=
  match next with
  | some trie => ⟨trie, none, path⟩ :: visited
  | none => visited

/-- One round of the loop of `KeysIterator::next`: pop the top of the stack, and return its key
or push what to visit below it.  `none` when the stack is empty. -/
def KeysIterator.step (it : KeysIterator K V D) : Option (Option K × KeysIterator K V D) :=
  match it.visited with
  | [] => none
  | ⟨trie, maybeIndex, path⟩ :: visited =>
    match trie with
    | .leaf key _ =>
      -- only return the leaf if it matches the initial descend path
      if (path ++ it.initialDescend).isPrefixOf (keyBytes key) then
        some (some key, ⟨it.initialDescend, visited⟩)
      else some (none, ⟨it.initialDescend, visited⟩)
    | .node pb =>
      let index := (it.initialDescend.head?.map UInt8.toNat).getD (maybeIndex.getD 0)
      match childFrom pb (!it.initialDescend.isEmpty) index with
      | none => some (none, ⟨it.initialDescend, visited⟩)
      | some (index, pointer) =>
        match it.initialDescend with
        -- past the descent, the node is revisited for its next child
        | [] =>
          some (none, ⟨[], pushNext (store pointer.hash) (path ++ [UInt8.ofNat index])
            (⟨.node pb, some (index + 1), path⟩ :: visited)⟩)
        | _ :: rest =>
          some (none, ⟨rest, pushNext (store pointer.hash) (path ++ [UInt8.ofNat index]) visited⟩)
    | .extension affix pointer =>
      let descendLen := min it.initialDescend.length affix.length
      let checkPrefix := it.initialDescend.take descendLen
      let initialDescend := it.initialDescend.drop descendLen
      -- while descending, go on only if the affix matches the descend path
      if checkPrefix.isPrefixOf affix then
        some (none, ⟨initialDescend, pushNext (store pointer.hash) (path ++ affix) visited⟩)
      else some (none, ⟨initialDescend, visited⟩)

/-- `KeysIterator::next`: pop until a key is returned or the stack is empty. -/
def KeysIterator.next : Nat → KeysIterator K V D → Except TrieFault (Option (K × KeysIterator K V D))
  | 0, _ => .error .fuelExhausted
  | fuel + 1, it =>
    match it.step keyBytes store with
    | none => .ok none
    | some (some key, it') => .ok (some (key, it'))
    | some (none, it') => KeysIterator.next fuel it'

/-- `operations::keys_with_prefix`: the iterator from the root, if the root is in the store. -/
def keysWithPrefix (root : D) (pfx : List UInt8) : KeysIterator K V D :=
  match store root with
  | none => ⟨pfx, []⟩
  | some currentRoot => ⟨pfx, [⟨currentRoot, none, []⟩]⟩

/-- Every key the iterator returns, in order: the loop `for result in keys_iter` of the views. -/
def collectKeys : Nat → KeysIterator K V D → Except TrieFault (List K)
  | 0, _ => .error .fuelExhausted
  | fuel + 1, it =>
    match it.next keyBytes store fuel with
    | .error e => .error e
    | .ok none => .ok []
    | .ok (some (key, it')) =>
      match collectKeys fuel it' with
      | .error e => .error e
      | .ok keys => .ok (key :: keys)

end Keys

end CasperNode
