import CasperNode.Storage.TrieKeysWalk
import CasperNode.Storage.TrieRuns

/-!
# `keys_with_prefix` returns its keys in ascending order

`KeysIterator` walks the trie depth first and tries the slots of a node in ascending order, so
the keys come out in ascending lexicographic order of their encodings, the order of
`Vec<u8>` (`collectKeys_sorted`).

The proof follows the stack and not the trie.  An entry of the stack stands for the byte
strings below its path (`VisitedTrieNode.Covers`); a node revisited from slot `i` stands only
for those through a slot at `i` or after.  The entries cover ascending ranges, the top lowest
(`StackOrdered`).  A step replaces the top by entries that cover part of what it covered, in
ascending order, and a key it returns is covered by the top, so it is below everything left
on the stack (`KeysIterator.Ordered.step`).  While the prefix is being descended no node on
the stack is revisited, so a node left by the slot of the next prefix byte covers that child.
No canonical form is needed: only the paths on the stack.

With the walk of `TrieKeysWalk` and the runs of `TrieRuns`, this settles `keys_with_prefix`
after any run of writes and deletes from the empty trie (`keysWithPrefix_of_runOps`).
-/

namespace CasperNode

variable {K V D : Type}

/-! ## Lexicographic order of paths -/

/-- Two byte strings that leave a common path by different bytes are ordered by those bytes. -/
theorem lt_of_prefix_append {p x y : List UInt8} {a b : UInt8} (hx : p ++ [a] <+: x)
    (hy : p ++ [b] <+: y) (hab : a < b) : x < y := by
  obtain ⟨s, rfl⟩ := hx
  obtain ⟨t, rfl⟩ := hy
  simp only [List.append_assoc, List.singleton_append]
  induction p with
  | nil => exact List.Lex.rel hab
  | cons q p ih => exact List.Lex.cons ih

/-! ## What an entry of the stack covers -/

/-- The byte strings below an entry of the stack: those that go on from its path, and for a
node revisited from slot `i`, through a slot at `i` or after. -/
def VisitedTrieNode.Covers (entry : VisitedTrieNode K V D) (x : List UInt8) : Prop :=
  match entry.trie, entry.maybeIndex with
  | .node _, some i => ∃ c : UInt8, i ≤ c.toNat ∧ entry.path ++ [c] <+: x
  | _, _ => entry.path <+: x

/-- The entries of a stack cover ascending ranges, the top lowest. -/
def StackOrdered (visited : List (VisitedTrieNode K V D)) : Prop :=
  visited.Pairwise fun e e' => ∀ x y, e.Covers x → e'.Covers y → x < y

/-- A byte string covered by some entry of the stack. -/
def KeysIterator.Covers (it : KeysIterator K V D) (x : List UInt8) : Prop :=
  ∃ e ∈ it.visited, e.Covers x

/-- What the order of the returned keys rests on: the stack is ordered, and while the prefix is
descended no node on it is revisited from a slot. -/
structure KeysIterator.Ordered (it : KeysIterator K V D) : Prop where
  stack : StackOrdered it.visited
  descending : it.initialDescend ≠ [] → ∀ e ∈ it.visited, e.maybeIndex = none

namespace VisitedTrieNode

theorem covers_of_none {entry : VisitedTrieNode K V D} (h : entry.maybeIndex = none)
    {x : List UInt8} : entry.Covers x ↔ entry.path <+: x := by
  obtain ⟨trie, mi, p⟩ := entry
  simp only at h
  subst h
  cases trie <;> rfl

/-- A node covers its child at a slot it has not passed. -/
theorem covers_child {pb : PointerBlock D} {mi : Option Nat} {p : List UInt8} {c : UInt8}
    (hc : mi.getD 0 ≤ c.toNat) {x : List UInt8} (hx : p ++ [c] <+: x) :
    (⟨.node pb, mi, p⟩ : VisitedTrieNode K V D).Covers x := by
  cases mi with
  | none => exact (List.prefix_append p [c]).trans hx
  | some i => exact ⟨c, hc, hx⟩

end VisitedTrieNode

/-! ## Replacing the top of the stack -/

/-- `pushNext` puts the child on top, with no slot, if the store has it. -/
theorem pushNext_eq (next : Option (Trie K V D)) (path : List UInt8)
    (visited : List (VisitedTrieNode K V D)) :
    pushNext next path visited = (next.map fun t => ⟨t, none, path⟩).toList ++ visited := by
  cases next <;> rfl

section Replace

variable {e : VisitedTrieNode K V D} {rest new : List (VisitedTrieNode K V D)}

/-- Entries that each cover part of what the top covered, ordered among themselves, keep the
stack ordered in its place. -/
theorem StackOrdered.replaceTop (h : StackOrdered (e :: rest)) (hnew : StackOrdered new)
    (hsub : ∀ e' ∈ new, ∀ x, e'.Covers x → e.Covers x) : StackOrdered (new ++ rest) := by
  have htop := List.pairwise_cons.mp h
  refine List.pairwise_append.mpr ⟨hnew, htop.2, fun e' he' e'' he'' x y hx hy => ?_⟩
  exact htop.1 e'' he'' x y (hsub e' he' x hx) hy

theorem covers_replaceTop (hsub : ∀ e' ∈ new, ∀ x, e'.Covers x → e.Covers x) {x : List UInt8}
    {d : List UInt8} (hx : KeysIterator.Covers ⟨d, new ++ rest⟩ x) :
    ∃ e'' ∈ e :: rest, e''.Covers x := by
  obtain ⟨e', he', hcov⟩ := hx
  rcases List.mem_append.mp he' with hnew | hrest
  · exact ⟨e, List.mem_cons_self, hsub e' hnew x hcov⟩
  · exact ⟨e', List.mem_cons_of_mem e hrest, hcov⟩

/-- The child that `pushNext` pushes has no slot and covers what goes on from its path. -/
theorem mem_pushed {next : Option (Trie K V D)} {path : List UInt8} {e' : VisitedTrieNode K V D}
    (he' : e' ∈ (next.map fun t => (⟨t, none, path⟩ : VisitedTrieNode K V D)).toList) :
    e'.maybeIndex = none ∧ ∀ x, e'.Covers x → path <+: x := by
  cases next with
  | none => simp at he'
  | some t =>
    simp only [Option.map_some, Option.toList_some, List.mem_singleton] at he'
    subst he'
    exact ⟨rfl, fun x hx => (VisitedTrieNode.covers_of_none rfl).mp hx⟩

theorem stackOrdered_pushed (next : Option (Trie K V D)) (path : List UInt8) :
    StackOrdered (next.map fun t => (⟨t, none, path⟩ : VisitedTrieNode K V D)).toList := by
  cases next <;> simp [StackOrdered]

end Replace

/-! ## One step keeps the order -/

section Step

variable (keyBytes : K → List UInt8) (S : TrieStore K V D)
variable {it it' : KeysIterator K V D}

/-- What one step does to the order: the next iterator is ordered, covers part of what this one
covered, and a key returned is covered here and below everything covered next. -/
def StepOrdered (it : KeysIterator K V D) (o : Option K) (it' : KeysIterator K V D) : Prop :=
  it'.Ordered ∧ (∀ x, it'.Covers x → it.Covers x) ∧
    ∀ k, o = some k → it.Covers (keyBytes k) ∧ ∀ y, it'.Covers y → keyBytes k < y

variable {keyBytes}

/-- Popping the top without returning a key. -/
theorem stepOrdered_pop {e : VisitedTrieNode K V D} {rest : List (VisitedTrieNode K V D)}
    {d d' : List UInt8} (hit : KeysIterator.Ordered ⟨d, e :: rest⟩)
    (hd : d' ≠ [] → d ≠ []) :
    StepOrdered keyBytes ⟨d, e :: rest⟩ none ⟨d', rest⟩ := by
  refine ⟨⟨(List.pairwise_cons.mp hit.stack).2, fun hd' e' he' => ?_⟩, ?_, by simp⟩
  · exact hit.descending (hd hd') e' (List.mem_cons_of_mem e he')
  · rintro x ⟨e', he', hcov⟩
    exact ⟨e', List.mem_cons_of_mem e he', hcov⟩

/-- Replacing the top by a child that it covers, pushed with no slot. -/
theorem stepOrdered_pushNext {e : VisitedTrieNode K V D} {rest : List (VisitedTrieNode K V D)}
    {d d' : List UInt8} (hit : KeysIterator.Ordered ⟨d, e :: rest⟩)
    (hd : d' ≠ [] → d ≠ []) (next : Option (Trie K V D)) {path : List UInt8}
    (hsub : ∀ x, path <+: x → e.Covers x) :
    StepOrdered keyBytes ⟨d, e :: rest⟩ none ⟨d', pushNext next path rest⟩ := by
  have hnew : ∀ e' ∈ (next.map fun t => (⟨t, none, path⟩ : VisitedTrieNode K V D)).toList,
      ∀ x, e'.Covers x → e.Covers x :=
    fun e' he' x hx => hsub x ((mem_pushed he').2 x hx)
  rw [pushNext_eq]
  refine ⟨⟨hit.stack.replaceTop (stackOrdered_pushed next path) hnew, fun hd' e' he' => ?_⟩,
    fun x hx => covers_replaceTop hnew hx, by simp⟩
  rcases List.mem_append.mp he' with hchild | hrest
  · exact (mem_pushed hchild).1
  · exact hit.descending (hd hd') e' (List.mem_cons_of_mem e hrest)

/-- Past the descent, a node pushes itself back from the slot after its child, with the child
above it: both cover part of what the node covered, the child the lower part. -/
theorem stepOrdered_revisit {pb : PointerBlock D} {mi : Option Nat} {p : List UInt8}
    {rest : List (VisitedTrieNode K V D)} (hit : KeysIterator.Ordered ⟨[], ⟨.node pb, mi, p⟩ :: rest⟩)
    {j : Nat} (hij : mi.getD 0 ≤ j) (hj : j < 256) (next : Option (Trie K V D)) :
    StepOrdered keyBytes ⟨[], ⟨.node pb, mi, p⟩ :: rest⟩ none
      ⟨[], pushNext next (p ++ [UInt8.ofNat j]) (⟨.node pb, some (j + 1), p⟩ :: rest)⟩ := by
  have hjc : (UInt8.ofNat j).toNat = j := UInt8.toNat_ofNat_of_lt' hj
  let revisit : VisitedTrieNode K V D := ⟨.node pb, some (j + 1), p⟩
  let new := (next.map fun t => (⟨t, none, p ++ [UInt8.ofNat j]⟩ : VisitedTrieNode K V D)).toList
    ++ [revisit]
  -- the child covers what goes through slot `j`, the node what goes through a later slot
  have hsub : ∀ e' ∈ new, ∀ x, e'.Covers x → (⟨.node pb, mi, p⟩ : VisitedTrieNode K V D).Covers x := by
    intro e' he' x hx
    rcases List.mem_append.mp he' with hchild | hnode
    · exact VisitedTrieNode.covers_child (by omega) ((mem_pushed hchild).2 x hx)
    · rw [List.mem_singleton.mp hnode] at hx
      obtain ⟨c, hc, hpc⟩ := hx
      exact VisitedTrieNode.covers_child (by omega) hpc
  have hnew : StackOrdered new := by
    cases next with
    | none => simp [new, StackOrdered]
    | some t =>
      simp only [new, StackOrdered, Option.map_some, Option.toList_some, List.singleton_append,
        List.pairwise_cons, List.mem_singleton, forall_eq, List.not_mem_nil, IsEmpty.forall_iff,
        implies_true, List.Pairwise.nil, and_true]
      rintro x y hx ⟨c, hc, hy⟩
      refine lt_of_prefix_append ((VisitedTrieNode.covers_of_none rfl).mp hx) hy ?_
      rw [UInt8.lt_iff_toNat_lt, hjc]
      omega
  have hstack : StackOrdered (new ++ rest) := hit.stack.replaceTop hnew hsub
  have heq : pushNext next (p ++ [UInt8.ofNat j]) (revisit :: rest) = new ++ rest := by
    simp [new, pushNext_eq]
  refine ⟨⟨heq ▸ hstack, fun hd => absurd rfl hd⟩, fun x hx => ?_, by simp⟩
  rw [heq] at hx
  exact covers_replaceTop hsub hx

/-- **One step.**  From an ordered iterator, a step leaves an ordered iterator that covers part
of what this one covered; a key it returns is covered here and below everything left. -/
theorem KeysIterator.Ordered.step (hit : it.Ordered) {o : Option K}
    (h : it.step keyBytes S = some (o, it')) : StepOrdered keyBytes it o it' := by
  obtain ⟨d, visited⟩ := it
  cases visited with
  | nil => simp [KeysIterator.step] at h
  | cons e rest =>
  obtain ⟨trie, mi, p⟩ := e
  cases trie with
  | leaf key value =>
    rw [step_leaf] at h
    simp only [Option.some.injEq, Prod.mk.injEq] at h
    obtain ⟨rfl, rfl⟩ := h
    obtain ⟨hord, hcov, -⟩ : StepOrdered keyBytes _ none _ := stepOrdered_pop hit id
    refine ⟨hord, hcov, fun k hk => ?_⟩
    split_ifs at hk with hpd
    cases hk
    -- the leaf is covered by the top, which is below every entry left
    have hleaf : (⟨.leaf key value, mi, p⟩ : VisitedTrieNode K V D).Covers (keyBytes key) :=
      (List.prefix_append p d).trans hpd
    refine ⟨⟨_, List.mem_cons_self, hleaf⟩, ?_⟩
    rintro y ⟨e', he', hy⟩
    exact (List.pairwise_cons.mp hit.stack).1 e' he' _ _ hleaf hy
  | node pb =>
    cases d with
    | nil =>
      rw [step_node_popped] at h
      cases hc : childFrom pb false (mi.getD 0) with
      | none =>
        rw [hc] at h
        simp only [Option.some.injEq, Prod.mk.injEq] at h
        obtain ⟨rfl, rfl⟩ := h
        exact stepOrdered_pop hit id
      | some r =>
        obtain ⟨j, ptr⟩ := r
        rw [hc] at h
        simp only [Option.some.injEq, Prod.mk.injEq] at h
        obtain ⟨rfl, rfl⟩ := h
        obtain ⟨hij, hj, -, -⟩ := childFrom_eq_some hc
        exact stepOrdered_revisit hit hij hj _
    | cons c d =>
      -- while descending the node has no slot, so it covers the child of the next byte
      have hnone : mi = none := hit.descending (List.cons_ne_nil c d) _ List.mem_cons_self
      subst hnone
      rw [step_node_descend] at h
      cases hpb : pb c with
      | none =>
        rw [hpb] at h
        simp only [Option.some.injEq, Prod.mk.injEq] at h
        obtain ⟨rfl, rfl⟩ := h
        exact stepOrdered_pop hit fun _ => List.cons_ne_nil c d
      | some ptr =>
        rw [hpb] at h
        simp only [Option.some.injEq, Prod.mk.injEq] at h
        obtain ⟨rfl, rfl⟩ := h
        exact stepOrdered_pushNext hit (fun _ => List.cons_ne_nil c d) _
          fun x hx => (List.prefix_append p [c]).trans hx
  | extension affix pointer =>
    rw [step_extension] at h
    have hsub : ∀ x, p ++ affix <+: x →
        (⟨.extension affix pointer, mi, p⟩ : VisitedTrieNode K V D).Covers x :=
      fun x hx => (List.prefix_append p affix).trans hx
    -- what is left of the prefix is a part of what was left
    have hd : d.drop (min d.length affix.length) ≠ [] → d ≠ [] := by
      intro hne hnil
      simp [hnil] at hne
    split_ifs at h
    · simp only [Option.some.injEq, Prod.mk.injEq] at h
      obtain ⟨rfl, rfl⟩ := h
      exact stepOrdered_pushNext hit hd _ hsub
    · simp only [Option.some.injEq, Prod.mk.injEq] at h
      obtain ⟨rfl, rfl⟩ := h
      exact stepOrdered_pop hit hd

end Step

/-! ## Runs of the iterator -/

section Run

variable {keyBytes : K → List UInt8} {S : TrieStore K V D}

/-- `next` returns a key covered by the stack, below everything the stack covers afterwards,
and leaves an ordered iterator covering part of what this one covered. -/
theorem KeysIterator.Ordered.next {it it' : KeysIterator K V D} (hit : it.Ordered) {fuel : Nat}
    {k : K} (h : it.next keyBytes S fuel = .ok (some (k, it'))) :
    StepOrdered keyBytes it (some k) it' := by
  -- induction on the fuel, one skipped step at a time
  induction fuel generalizing it with
  | zero => simp [KeysIterator.next] at h
  | succ fuel ih =>
    unfold KeysIterator.next at h
    cases hstep : it.step keyBytes S with
    | none => simp [hstep] at h
    | some r =>
      obtain ⟨o, it₁⟩ := r
      obtain ⟨hord₁, hcov₁, hkey₁⟩ := hit.step S hstep
      cases o with
      | some k₁ =>
        simp only [hstep, Except.ok.injEq, Option.some.injEq, Prod.mk.injEq] at h
        obtain ⟨rfl, rfl⟩ := h
        exact ⟨hord₁, hcov₁, hkey₁⟩
      | none =>
        simp only [hstep] at h
        obtain ⟨hord, hcov, hkey⟩ := ih hord₁ h
        refine ⟨hord, fun x hx => hcov₁ x (hcov x hx), fun k' hk' => ?_⟩
        obtain ⟨hcovk, hbelow⟩ := hkey k' hk'
        exact ⟨hcov₁ _ hcovk, hbelow⟩

/-- **The keys come out in order.**  From an ordered iterator, the keys `collectKeys` returns
are in strictly ascending order of their encodings, each covered by the stack. -/
theorem collectKeys_sorted {it : KeysIterator K V D} (hit : it.Ordered) {fuel : Nat}
    {keys : List K} (h : collectKeys keyBytes S fuel it = .ok keys) :
    keys.Pairwise (fun a b => keyBytes a < keyBytes b) ∧ ∀ k ∈ keys, it.Covers (keyBytes k) := by
  -- induction on the fuel, one returned key at a time
  induction fuel generalizing it keys with
  | zero => simp [collectKeys] at h
  | succ fuel ih =>
    unfold collectKeys at h
    cases hnext : it.next keyBytes S fuel with
    | error e => simp [hnext] at h
    | ok r =>
      cases r with
      | none =>
        simp only [hnext, Except.ok.injEq] at h
        subst h
        simp
      | some r =>
        obtain ⟨k, it'⟩ := r
        obtain ⟨hord, hcov, hkey⟩ := hit.next hnext
        obtain ⟨hcovk, hbelow⟩ := hkey k rfl
        cases hrest : collectKeys keyBytes S fuel it' with
        | error e => simp [hnext, hrest] at h
        | ok rest =>
          simp only [hnext, hrest, Except.ok.injEq] at h
          subst h
          obtain ⟨hsorted, hcovered⟩ := ih hord hrest
          refine ⟨List.pairwise_cons.mpr ⟨fun k' hk' => hbelow _ (hcovered k' hk'), hsorted⟩,
            fun k' hk' => ?_⟩
          rcases List.mem_cons.mp hk' with rfl | hk'
          · exact hcovk
          · exact hcov _ (hcovered k' hk')

/-- The iterator `keys_with_prefix` starts from is ordered: one entry, with no slot. -/
theorem keysWithPrefix_ordered (r : D) (pfx : List UInt8) :
    (keysWithPrefix S r pfx).Ordered := by
  unfold keysWithPrefix
  cases S r with
  | none => exact ⟨List.Pairwise.nil, by simp⟩
  | some t => exact ⟨List.pairwise_singleton _ _, by simp⟩

end Run

/-! ## After any run of writes and deletes -/

section Canonical

open TrieKey

variable [TrieKey K] [DecidableEq K] [DecidableEq V] [DecidableEq D] {hashTrie : Trie K V D → D}

/-- **`keys_with_prefix` after any run.**  With a collision-free hash, after any run of writes
and deletes from the empty trie, the keys iterator from the root it leaves terminates (with
enough fuel) and returns exactly the keys `read` finds whose encoding starts with the prefix,
each once, in strictly ascending lexicographic order of the encodings. -/
theorem keysWithPrefix_of_runOps (hinj : Function.Injective hashTrie) (ops : List (TrieOp K V))
    (pfx : List UInt8) :
    ∃ results S r, runOps keyBytes hashTrie (emptyStore hashTrie) (hashTrie .emptyNode) ops =
        .ok (results, S, r) ∧
      ∃ keys, (∃ n, ∀ fuel, n ≤ fuel →
          collectKeys keyBytes S fuel (keysWithPrefix S r pfx) = .ok keys) ∧
        keys.Nodup ∧
        (∀ k, k ∈ keys ↔ (∃ v, read keyBytes S r k = .ok (.found v)) ∧ pfx <+: keyBytes k) ∧
        keys.Pairwise (fun a b => keyBytes a < keyBytes b) := by
  obtain ⟨hS, hroot⟩ := emptyStore_rootTrie (K := K) (V := V) hashTrie
  obtain ⟨results, S, r, hops, -, -, hroot'⟩ := runOps_of_rootTrie hinj ops hS hroot
  obtain ⟨keys, ⟨n, hn⟩, hnd, hmem⟩ := keysWithPrefix_of_rootTrie hroot' pfx
  have hsorted := (collectKeys_sorted (keysWithPrefix_ordered r pfx) (hn n le_rfl)).1
  refine ⟨results, S, r, hops, keys, ⟨n, hn⟩, hnd, fun k => ?_, hsorted⟩
  -- a key is in the map exactly when `read` on the root finds it
  rw [hmem k, read_of_rootTrie hroot' k]
  cases hk : Entries.empty.run ops k <;> simp [Entries.read, hk]

/-- Two writes of era-info keys, listed under their tag byte, on the digests of `natDigest`. -/
theorem keysWithPrefix_of_runOps_eraInfo :
    Function.Injective natDigest ∧
      ∃ results S r, runOps keyBytes natDigest (emptyStore natDigest) (natDigest .emptyNode)
          [.write (Key.eraInfo 2) 8, .write (Key.eraInfo 1) 7] = .ok (results, S, r) ∧
        ∃ keys, (∃ n, ∀ fuel, n ≤ fuel →
            collectKeys keyBytes S fuel (keysWithPrefix S r [5]) = .ok keys) ∧
          keys.Nodup ∧
          (∀ k, k ∈ keys ↔ (∃ v, read keyBytes S r k = .ok (.found v)) ∧ [5] <+: keyBytes k) ∧
          keys.Pairwise (fun a b => keyBytes a < keyBytes b) :=
  ⟨natDigest_injective, keysWithPrefix_of_runOps natDigest_injective _ _⟩

end Canonical

end CasperNode
