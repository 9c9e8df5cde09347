import CasperNode.Storage.TrieScan

/-!
# `write` keeps the trie canonical

`write` scans for the key, builds a small subtrie where the scan stopped, and rebuilds the
parents bottom up with `rehash`.  The subtrie is

* at a leaf of the same key: the new leaf;
* at a leaf of another key (`reparent_leaf`): a node holding both leaves, below an extension by
  the bytes the two keys share past the parents;
* at a node without a child for the next byte: the node, given the leaf as that child;
* at an extension the path leaves (`split_extension`): a node where the path leaves it, between
  the parts of the affix before and after that byte, each an extension if nonempty.

In each case the parents, with the new nodes appended, are frames (`Frames`) of the new map
around a hole that the new leaf fills.  Rebuilding frames around a canonical tip gives a
canonical root (`rehash_rootTrie`), so from a canonical root `write` returns the canonical root
of the map with the key set to the value (`write_of_rootTrie`), or `AlreadyExists` with the
store unchanged when the map already holds that value.

The new elements are stored under their hashes.  The proofs quantify over any store that holds
them and the old store (`Rebuilds`); putting them is one such store, if the hash is
collision-free.
-/

namespace CasperNode

open TrieKey

variable {K V D : Type}

/-! ## `common_prefix` -/

section CommonPrefix

variable {A : Type} [DecidableEq A]

theorem commonPrefix_prefix_left : ∀ (a b : List A), commonPrefix a b <+: a
  | x :: a, y :: b => by
    simp only [commonPrefix]
    split
    · exact List.cons_prefix_cons.mpr ⟨rfl, commonPrefix_prefix_left a b⟩
    · exact List.nil_prefix
  | [], _ => by simp [commonPrefix]
  | _ :: _, [] => by simp [commonPrefix]

theorem commonPrefix_prefix_right : ∀ (a b : List A), commonPrefix a b <+: b
  | x :: a, y :: b => by
    simp only [commonPrefix]
    split
    · next hxy => exact List.cons_prefix_cons.mpr ⟨hxy, commonPrefix_prefix_right a b⟩
    · exact List.nil_prefix
  | [], _ => by simp [commonPrefix]
  | _ :: _, [] => by simp [commonPrefix]

/-- Every common prefix is a prefix of `common_prefix`. -/
theorem prefix_commonPrefix : ∀ {c a b : List A}, c <+: a → c <+: b → c <+: commonPrefix a b
  | [], _, _, _, _ => List.nil_prefix
  | _ :: _, [], _, ha, _ => absurd ha.length_le (by simp)
  | _ :: _, _ :: _, [], _, hb => absurd hb.length_le (by simp)
  | z :: c, x :: a, y :: b, ha, hb => by
    obtain ⟨rfl, ha'⟩ := List.cons_prefix_cons.mp ha
    obtain ⟨rfl, hb'⟩ := List.cons_prefix_cons.mp hb
    simp only [commonPrefix]
    exact List.cons_prefix_cons.mpr ⟨rfl, prefix_commonPrefix ha' hb'⟩

/-- A prefix of the second list is its own common prefix with it. -/
theorem commonPrefix_of_prefix {q path : List A} (h : q <+: path) : commonPrefix path q = q :=
  (commonPrefix_prefix_right path q).eq_of_length
    (Nat.le_antisymm (commonPrefix_prefix_right path q).length_le
      (prefix_commonPrefix h (List.prefix_refl q)).length_le)

/-- Past `common_prefix`, the two lists differ. -/
theorem commonPrefix_next_ne {a b : List A} {x y : A} (ha : commonPrefix a b ++ [x] <+: a)
    (hb : commonPrefix a b ++ [y] <+: b) : x ≠ y := by
  rintro rfl
  have := (prefix_commonPrefix ha hb).length_le
  simp at this

end CommonPrefix

/-! ## Rebuilding frames -/

section Rehash

variable [DecidableEq D] {hashTrie : Trie K V D → D}

theorem rehashLoop_node {T : Trie K V D} {i : UInt8} {pb : PointerBlock D}
    {rest : List (UInt8 × Trie K V D)} {ret : List (D × Trie K V D)}
    (h : rehashLoop hashTrie T ((i, .node pb) :: rest) = .ok ret) :
    ∃ ret', ret = (hashTrie (.node (pb.set i (some (pointerTo T (hashTrie T))))),
        .node (pb.set i (some (pointerTo T (hashTrie T))))) :: ret' ∧
      rehashLoop hashTrie (.node (pb.set i (some (pointerTo T (hashTrie T))))) rest = .ok ret' := by
  simp only [rehashLoop] at h
  split at h
  · cases h
  · next ret' hret' =>
    cases h
    exact ⟨ret', rfl, hret'⟩

theorem rehashLoop_extension {T : Trie K V D} {i : UInt8} {affix : List UInt8} {ptr : Pointer D}
    {rest : List (UInt8 × Trie K V D)} {ret : List (D × Trie K V D)}
    (h : rehashLoop hashTrie T ((i, .extension affix ptr) :: rest) = .ok ret) :
    ∃ ret', ret = (hashTrie (.extension affix (ptr.update (hashTrie T))),
        .extension affix (ptr.update (hashTrie T))) :: ret' ∧
      rehashLoop hashTrie (.extension affix (ptr.update (hashTrie T))) rest = .ok ret' := by
  simp only [rehashLoop] at h
  split at h
  · cases h
  · next ret' hret' =>
    cases h
    exact ⟨ret', rfl, hret'⟩

variable [TrieKey K] [DecidableEq K] {S : TrieStore K V D} {M : Entries K V}

/-- A node frame with a canonical child in its hole is a canonical block. -/
theorem NodeFrame.blockCanon {p : List UInt8} {pb : PointerBlock D} {i : UInt8} {ptr : Pointer D}
    (hframe : NodeFrame S M p pb i) (hchild : SubTrie S (p ++ [i]) ptr (M.under (p ++ [i]))) :
    BlockCanon S p (pb.set i (some ptr)) (M.under p) := by
  refine ⟨fun b ptr' hb => ?_, fun b k hb hpk => ?_, fun k v hk => ?_⟩
  · rw [Entries.under_under M (List.prefix_append p [b])]
    by_cases hbi : b = i
    · subst hbi
      rw [PointerBlock.set_apply, if_pos rfl, Option.some.injEq] at hb
      subst hb
      exact hchild
    · simp only [PointerBlock.set_apply, if_neg hbi] at hb
      exact hframe.sibling b ptr' hbi hb
  · have hbi : b ≠ i := by
      rintro rfl
      simp at hb
    simp only [PointerBlock.set_apply, if_neg hbi] at hb
    rw [Entries.under_of_prefix M ((List.prefix_append p [b]).trans hpk)]
    exact hframe.empty b k hbi hb hpk
  · simp only [Entries.under_apply] at hk
    split at hk
    · next hpk => exact hframe.cover k v hk hpk
    · cases hk

/-- A node frame with another child, and a canonical child in its hole, is a canonical node. -/
theorem NodeFrame.trieCanon {p : List UInt8} {pb : PointerBlock D} {i : UInt8} {ptr : Pointer D}
    (hframe : NodeFrame S M p pb i) (hsibling : ∃ b, b ≠ i ∧ pb b ≠ none)
    (hchild : SubTrie S (p ++ [i]) ptr (M.under (p ++ [i]))) :
    TrieCanon S p (.node (pb.set i (some ptr))) (M.under p) := by
  obtain ⟨b, hbi, hb⟩ := hsibling
  exact ⟨hframe.blockCanon hchild, b, i, hbi, by simpa [hbi] using hb, by simp⟩

/-- **Rebuilding frames around a canonical tip gives a canonical root.**  If the store holds
the tip and every trie `rehash` rebuilds, the last of them is the canonical root of the map. -/
theorem rehashLoop_rootTrie {q : List UInt8} {rest : Parents K V D} {hole : Bool}
    (hframes : Frames S M q rest hole) :
    ∀ (T : Trie K V D) (ret : List (D × Trie K V D)), (hole = true → ∃ pb, T = .node pb) →
      TrieCanon S q T (M.under q) → rehashLoop hashTrie T rest = .ok ret →
      (∀ e ∈ (hashTrie T, T) :: ret, S e.1 = some e.2) →
      ∃ e, ret.getLast? = some e ∧ RootTrie S e.1 M := by
  induction hframes with
  | @root pb i hframe =>
    intro T ret _ hT hret hstored
    obtain ⟨ret', rfl, hret'⟩ := rehashLoop_node hret
    simp only [rehashLoop, Except.ok.injEq] at hret'
    subst hret'
    have hchild := SubTrie.of_trieCanon (hstored _ List.mem_cons_self) hT
    refine ⟨_, rfl, _, hstored _ (by simp), ?_⟩
    simpa using hframe.blockCanon (by simpa using hchild)
  | @node p pb i rest hole hframe hsibling _ ih =>
    intro T ret _ hT hret hstored
    obtain ⟨ret', rfl, hret'⟩ := rehashLoop_node hret
    have hchild := SubTrie.of_trieCanon (hstored _ List.mem_cons_self) hT
    -- the rebuilt node keeps its other child and fills the hole: it still branches
    obtain ⟨e, he, hroot⟩ := ih _ ret' (fun _ => ⟨_, rfl⟩) (hframe.trieCanon hsibling hchild) hret'
      (fun e he => hstored e (List.mem_cons_of_mem _ he))
    exact ⟨e, by rw [List.getLast?_cons, he]; rfl, hroot⟩
  | @extension p affix i h rest haffix hall _ ih =>
    intro T ret hnode hT hret hstored
    obtain ⟨pbT, rfl⟩ := hnode rfl
    obtain ⟨ret', rfl, hret'⟩ := rehashLoop_extension hret
    have hchild := SubTrie.of_trieCanon (hstored _ List.mem_cons_self) hT
    rw [← Entries.under_eq_under_append M hall] at hchild
    have hcanon : TrieCanon S p (.extension affix (.nodePointer (hashTrie (.node pbT))))
        (M.under p) :=
      ⟨haffix, _, pbT, rfl, hstored _ List.mem_cons_self, hchild⟩
    obtain ⟨e, he, hroot⟩ := ih _ ret' (fun h => by cases h) hcanon hret'
      (fun e he => hstored e (List.mem_cons_of_mem _ he))
    exact ⟨e, by rw [List.getLast?_cons, he]; rfl, hroot⟩

/-- `rehash` of a canonical tip in the hole of frames: the tip, then every parent rebuilt, the
last of them the canonical root. -/
theorem rehash_rootTrie {q : List UInt8} {parents : Parents K V D} {hole : Bool}
    (hframes : Frames S M q parents.reverse hole) {T : Trie K V D}
    (hhole : hole = true → ∃ pb, T = .node pb) (hT : TrieCanon S q T (M.under q))
    {elements : List (D × Trie K V D)} (hrehash : rehash hashTrie T parents = .ok elements)
    (hstored : ∀ e ∈ elements, S e.1 = some e.2) :
    ∃ e, elements.getLast? = some e ∧ RootTrie S e.1 M := by
  simp only [rehash] at hrehash
  split at hrehash
  · cases hrehash
  · next ret hret =>
    cases hrehash
    obtain ⟨e, he, hroot⟩ := rehashLoop_rootTrie hframes T ret hhole hT hret hstored
    exact ⟨e, by rw [List.getLast?_cons, he]; rfl, hroot⟩

omit [TrieKey K] [DecidableEq K] in
/-- `rehash` fails only on a leaf among the parents. -/
theorem rehashLoop_ok (hashTrie : Trie K V D → D) : ∀ (T : Trie K V D) (rest : List (UInt8 × Trie K V D)),
    (∀ e ∈ rest, ∀ k v, e.2 ≠ .leaf k v) → ∃ ret, rehashLoop hashTrie T rest = .ok ret
  | _, [], _ => ⟨[], rfl⟩
  | _, (_, .leaf k v) :: _, hrest => absurd rfl (hrest _ List.mem_cons_self k v)
  | T, (i, .node pb) :: rest, hrest => by
    obtain ⟨ret, hret⟩ := rehashLoop_ok hashTrie (.node (pb.set i (some (pointerTo T (hashTrie T))))) rest
      fun e he => hrest e (List.mem_cons_of_mem _ he)
    simp only [rehashLoop, hret]
    exact ⟨_, rfl⟩
  | T, (i, .extension affix ptr) :: rest, hrest => by
    obtain ⟨ret, hret⟩ := rehashLoop_ok hashTrie (.extension affix (ptr.update (hashTrie T))) rest
      fun e he => hrest e (List.mem_cons_of_mem _ he)
    simp only [rehashLoop, hret]
    exact ⟨_, rfl⟩

omit [DecidableEq D] in
/-- Frames are nodes and extensions. -/
theorem Frames.not_leaf {S : TrieStore K V D} {M : Entries K V} {q : List UInt8}
    {rest : Parents K V D} {hole : Bool} (hframes : Frames S M q rest hole) :
    ∀ e ∈ rest, ∀ k v, e.2 ≠ .leaf k v := by
  induction hframes with
  | root => simp
  | node _ _ _ ih =>
    intro e he k v
    rcases List.mem_cons.mp he with rfl | he
    · simp
    · exact ih e he k v
  | extension _ _ _ ih =>
    intro e he k v
    rcases List.mem_cons.mp he with rfl | he
    · simp
    · exact ih e he k v

omit [TrieKey K] [DecidableEq K] in
/-- Every trie `rehash` rebuilds is paired with its hash. -/
theorem rehashLoop_hashed : ∀ (T : Trie K V D) (rest : List (UInt8 × Trie K V D))
    (ret : List (D × Trie K V D)), rehashLoop hashTrie T rest = .ok ret → Hashed hashTrie ret
  | _, [], ret, h => by
    simp only [rehashLoop, Except.ok.injEq] at h
    subst h
    intro e he
    cases he
  | _, (_, .leaf ..) :: _, _, h => by simp [rehashLoop] at h
  | T, (i, .node pb) :: rest, ret, h => by
    obtain ⟨ret', rfl, hret'⟩ := rehashLoop_node h
    intro e he
    rcases List.mem_cons.mp he with rfl | he
    · rfl
    · exact rehashLoop_hashed _ rest ret' hret' e he
  | T, (i, .extension affix ptr) :: rest, ret, h => by
    obtain ⟨ret', rfl, hret'⟩ := rehashLoop_extension h
    intro e he
    rcases List.mem_cons.mp he with rfl | he
    · rfl
    · exact rehashLoop_hashed _ rest ret' hret' e he

end Rehash

/-! ## The new subtries of `write` -/

/-- `Rebuilds S M elements`: in every store that holds what `S` holds and the elements, the
last element is the canonical root of `M`. -/
def Rebuilds (S : TrieStore K V D) [TrieKey K] [DecidableEq K] (M : Entries K V)
    (elements : List (D × Trie K V D)) : Prop :=
  ∀ S', StoreIncl S S' → (∀ e ∈ elements, S' e.1 = some e.2) →
    ∃ e, elements.getLast? = some e ∧ RootTrie S' e.1 M

section Write

variable [TrieKey K] [DecidableEq K] [DecidableEq V] [DecidableEq D] {hashTrie : Trie K V D → D}
variable {S : TrieStore K V D} {M : Entries K V} {k : K} {v : V}

omit [DecidableEq V] in
/-- The entries below `p` are one entry, if every other entry is elsewhere. -/
theorem Entries.under_eq_single {N : Entries K V} {p : List UInt8} (hN : N k = some v)
    (hp : p <+: keyBytes k) (hothers : ∀ k' v', N k' = some v' → p <+: keyBytes k' → k' = k) :
    N.under p = Entries.single k v := by
  funext k'
  by_cases hk : k' = k
  · subst hk
    simp [hp, hN]
  · simp only [Entries.under_apply, Entries.single_apply, if_neg hk]
    split
    · next hp' =>
      cases hN' : N k' with
      | none => rfl
      | some v' => exact absurd (hothers k' v' hN' hp') hk
    · rfl

omit [DecidableEq V] in
/-- Setting a key changes nothing away from the paths above it. -/
theorem insert_agree {q : List UInt8} (hq : q <+: keyBytes k) (v : V) :
    ∀ k', ¬q <+: keyBytes k' → M.insert k v k' = M k' := by
  intro k' hk'
  have hne : k' ≠ k := by
    rintro rfl
    exact hk' hq
  simp [hne]

omit [TrieKey K] [DecidableEq K] [DecidableEq V] [DecidableEq D] in
theorem addNodeToParents_node {path q : List UInt8} {pb : PointerBlock D} {ps : Parents K V D}
    (hpath : getParentsPath ps = q) (hq : q <+: path) (hlen : q.length < path.length) :
    addNodeToParents path (.node pb) ps = .ok (ps ++ [(path[q.length], .node pb)]) := by
  subst hpath
  simp [addNodeToParents, commonPrefix_of_prefix hq, pathIndex_of_lt hlen]

omit [DecidableEq V] in
/-- The new leaf fills the hole of frames of the new map: `rehash` builds its canonical root. -/
theorem rebuilds_leaf {M' : Entries K V} {q : List UInt8} {parents : Parents K V D}
    (hframes : Frames S M' q parents.reverse false) (hq : q <+: keyBytes k)
    (hunder : M'.under q = Entries.single k v) {elements : List (D × Trie K V D)}
    (hrehash : rehash hashTrie (.leaf k v) parents = .ok elements) : Rebuilds S M' elements :=
  fun _ hincl hstored =>
    rehash_rootTrie (hframes.mono hincl) (fun h => by cases h)
      (show TrieCanon _ q (.leaf k v) _ from ⟨hunder, hq⟩) hrehash hstored

omit [TrieKey K] [DecidableEq K] [DecidableEq V] in
theorem rehash_ok (hashTrie : Trie K V D → D) (parents : Parents K V D) (hparents : ∀ e ∈ parents, ∀ k v, e.2 ≠ .leaf k v)
    (T : Trie K V D) :
    ∃ elements, rehash hashTrie T parents = .ok elements ∧ Hashed hashTrie elements ∧
      elements ≠ [] := by
  obtain ⟨ret, hret⟩ := rehashLoop_ok hashTrie T parents.reverse
    fun e he => hparents e (List.mem_reverse.mp he)
  have hrehash : rehash hashTrie T parents = .ok ((hashTrie T, T) :: ret) := by
    simp only [rehash, hret]
  refine ⟨_, hrehash, ?_, by simp⟩
  intro e he
  rcases List.mem_cons.mp he with rfl | he
  · rfl
  · exact rehashLoop_hashed T _ ret hret e he

/-- **`write` at a node without a child for the next byte.**  The node gets the new leaf as
that child; the key had no entry. -/
theorem writeElements_node (hashTrie : Trie K V D → D) (ps : Parents K V D) {pb : PointerBlock D}
    (hq : getParentsPath ps <+: keyBytes k) (hlen : (getParentsPath ps).length < (keyBytes k).length)
    (hb : BlockCanon S (getParentsPath ps) pb (M.under (getParentsPath ps)))
    (hpb : pb (keyBytes k)[(getParentsPath ps).length] = none)
    (hframes : Frames S M (getParentsPath ps ++ [(keyBytes k)[(getParentsPath ps).length]])
      (((keyBytes k)[(getParentsPath ps).length], .node pb) :: ps.reverse) false) :
    ∃ elements, writeElements keyBytes hashTrie k v (keyBytes k) (.node pb) ps = .ok elements ∧
      Hashed hashTrie elements ∧ elements ≠ [] ∧ Rebuilds S (M.insert k v) elements ∧
      M k = none := by
  have hpre := prefix_append_getElem hq hlen
  have hframes' : Frames S M (getParentsPath ps ++ [(keyBytes k)[(getParentsPath ps).length]])
      (ps ++ [((keyBytes k)[(getParentsPath ps).length], Trie.node pb)]).reverse false := by
    simpa using hframes
  -- no entry below the new child's byte: the hole is the new leaf's alone
  have hnone : ∀ k', getParentsPath ps ++ [(keyBytes k)[(getParentsPath ps).length]] <+: keyBytes k' →
      M k' = none := fun k' hk' => by
    have := hb.empty _ k' hpb hk'
    rwa [Entries.under_of_prefix M ((List.prefix_append _ _).trans hk')] at this
  obtain ⟨elements, hrehash, hhashed, hne⟩ :=
    rehash_ok hashTrie _ (fun e he => hframes'.not_leaf e (List.mem_reverse.mpr he)) (.leaf k v)
  refine ⟨elements, ?_, hhashed, hne,
    rebuilds_leaf (hframes'.congr (insert_agree hpre _)) hpre ?_ hrehash, hnone k hpre⟩
  · simp only [writeElements, addNodeToParents_node rfl hq hlen, hrehash]
  · refine Entries.under_eq_single (by simp) hpre fun k' v' hk' hpk' => ?_
    by_contra hne'
    rw [Entries.insert_apply, if_neg hne', hnone k' hpk'] at hk'
    cases hk'

omit [DecidableEq V] [DecidableEq D] in
/-- Frames extended by an extension down to a longer path that all entries below them share. -/
theorem Frames.extend {q sh : List UInt8} {rest : Parents K V D}
    (hframes : Frames S M q rest false) (hq : q <+: sh) (hne : sh.drop q.length ≠ [])
    (hall : ∀ k v, M k = some v → q <+: keyBytes k → sh <+: keyBytes k) (i : UInt8) (h : D) :
    Frames S M sh ((i, .extension (sh.drop q.length) (.nodePointer h)) :: rest) true := by
  obtain ⟨a, rfl⟩ := hq
  simp only [List.drop_left] at hne ⊢
  exact Frames.extension hne hall hframes

omit [DecidableEq V] in
/-- `reparent_leaf` below a node parent: a node holding the existing leaf at the byte where the
two paths part, and the parents, extended by the bytes the paths share past them if there are
any. -/
theorem reparentLeaf_eq (hashTrie : Trie K V D → D) (ys : Parents K V D) {ci : UInt8} {pb : PointerBlock D}
    {path leafPath : List UInt8} {lp : Pointer D} (hlp : pb ci = some lp)
    (hlen : (commonPrefix path leafPath).length < leafPath.length)
    (hq : getParentsPath (ys ++ [(ci, .node pb)]) <+: commonPrefix path leafPath) :
    ∃ parents hole, reparentLeaf hashTrie path leafPath (ys ++ [(ci, .node pb)]) =
        .ok (.node (PointerBlock.new.set leafPath[(commonPrefix path leafPath).length] (some lp)),
          parents) ∧
      getParentsPath parents = commonPrefix path leafPath ∧
      ∀ {S : TrieStore K V D} {M : Entries K V},
        Frames S M (getParentsPath (ys ++ [(ci, .node pb)])) (ys ++ [(ci, Trie.node pb)]).reverse false →
        (∀ k v, M k = some v → getParentsPath (ys ++ [(ci, .node pb)]) <+: keyBytes k →
          commonPrefix path leafPath <+: keyBytes k) →
        Frames S M (commonPrefix path leafPath) parents.reverse hole := by
  have hle : ¬(commonPrefix path leafPath).length < (getParentsPath (ys ++ [(ci, .node pb)])).length := by
    have := hq.length_le
    omega
  by_cases haffix : (commonPrefix path leafPath).drop (getParentsPath (ys ++ [(ci, .node pb)])).length = []
  · -- the leaves part right below the parents: the new node takes the leaf's place
    have hsh : getParentsPath (ys ++ [(ci, .node pb)]) = commonPrefix path leafPath :=
      hq.eq_of_length (Nat.le_antisymm hq.length_le (List.drop_eq_nil_iff.mp haffix))
    refine ⟨ys ++ [(ci, .node pb)], false, ?_, hsh, fun hframes _ => hsh ▸ hframes⟩
    simp only [reparentLeaf, List.getLast?_concat, List.getElem?_eq_getElem hlen, hlp,
      List.dropLast_concat, hle, if_false, haffix, ne_eq, not_true_eq_false,
      PointerBlock.fromIndexedPointers_singleton]
  · -- the leaves share bytes past the parents: an extension by them leads to the new node
    refine ⟨ys ++ [(ci, .node pb)] ++ [(ci, .extension ((commonPrefix path leafPath).drop
      (getParentsPath (ys ++ [(ci, .node pb)])).length) (.nodePointer (hashTrie
        (.node (PointerBlock.new.set leafPath[(commonPrefix path leafPath).length] (some lp))))))],
      true, ?_, ?_, fun hframes hall => ?_⟩
    · simp only [reparentLeaf, List.getLast?_concat, List.getElem?_eq_getElem hlen, hlp,
        List.dropLast_concat, hle, if_false, haffix, ne_eq, not_false_eq_true, if_true,
        PointerBlock.fromIndexedPointers_singleton]
    · rw [getParentsPath_append, getParentsPath_extension]
      exact List.prefix_iff_eq_append.mp hq
    · rw [List.reverse_append]
      exact hframes.extend hq haffix hall ci _

/-- What `write` makes of the elements it returns: none, when the map already holds the value,
and otherwise elements that rebuild the root of the map with the key set. -/
structure WriteOutcome (S : TrieStore K V D) (M : Entries K V) (k : K) (v : V)
    (hashTrie : Trie K V D → D) (elements : List (D × Trie K V D)) : Prop where
  hashed : Hashed hashTrie elements
  outcome : (elements = [] ∧ M k = some v) ∨
    (elements ≠ [] ∧ M k ≠ some v ∧ Rebuilds S (M.insert k v) elements)

omit [DecidableEq V] [DecidableEq D] in
/-- Above a leaf, the deepest frame is a node. -/
theorem Frames.exists_node {q : List UInt8} {rest : Parents K V D}
    (hframes : Frames S M q rest false) : ∃ ci pb rest', rest = (ci, .node pb) :: rest' := by
  cases hframes <;> exact ⟨_, _, _, rfl⟩

omit [DecidableEq V] [DecidableEq D] in
/-- Below a path that holds the single entry `k'`, the map with `k` set holds `k` and `k'`
only. -/
theorem insert_entries_of_single {q : List UInt8} {k' : K} {v' : V}
    (hMq : M.under q = Entries.single k' v') {k'' : K} {v'' : V}
    (hk'' : M.insert k v k'' = some v'') (hq'' : q <+: keyBytes k'') :
    (k'' = k ∧ v'' = v) ∨ (k'' = k' ∧ v'' = v') := by
  by_cases hk : k'' = k
  · subst hk
    simp only [Entries.insert_apply, if_true, Option.some.injEq] at hk''
    exact .inl ⟨rfl, hk''.symm⟩
  · rw [Entries.insert_apply, if_neg hk, ← Entries.under_of_prefix M hq'', hMq,
      Entries.single_apply] at hk''
    split at hk''
    · next hk' => exact .inr ⟨hk', (Option.some.inj hk'').symm⟩
    · cases hk''

/-- **`write` at a leaf of another key.**  A node at the byte where the two paths part holds
both leaves, below an extension by the bytes they share past the parents; the key had no
entry. -/
theorem writeElements_reparent {ps : Parents K V D} {k' : K} {v' : V} {h : D}
    (hframes : Frames S M (getParentsPath ps) ps.reverse false)
    (hSh : S h = some (.leaf k' v')) (hMq : M.under (getParentsPath ps) = Entries.single k' v')
    (hqk' : getParentsPath ps <+: keyBytes k') (hpoints : PointsTo ps.reverse (.leafPointer h))
    (hq : getParentsPath ps <+: keyBytes k) (hkk : k ≠ k') :
    ∃ elements, writeElements keyBytes hashTrie k v (keyBytes k) (.leaf k' v') ps = .ok elements ∧
      Hashed hashTrie elements ∧ elements ≠ [] ∧ M k = none ∧
      Rebuilds S (M.insert k v) elements := by
  -- the leaf's parent is a node, holding the leaf at the last byte of the parents' path
  obtain ⟨ci, pb, rest, hrev⟩ := hframes.exists_node
  have hps : ps = rest.reverse ++ [(ci, .node pb)] := by
    rw [← List.reverse_reverse ps, hrev]
    simp
  have hlp : pb ci = some (.leafPointer h) := by
    rw [hrev] at hpoints
    exact hpoints
  -- the two paths have one length and part at the byte after `common_prefix`
  set sh := commonPrefix (keyBytes k) (keyBytes k') with hsh
  have hlenPE : (keyBytes k').length = (keyBytes k).length :=
    length_eq_of_prefixes hframes.ne_nil hqk' hq
  have hPE : keyBytes k ≠ keyBytes k' := fun h => hkk (keyBytes_injective h)
  have hshP : sh <+: keyBytes k := commonPrefix_prefix_left _ _
  have hshE : sh <+: keyBytes k' := commonPrefix_prefix_right _ _
  have hqsh : getParentsPath ps <+: sh := prefix_commonPrefix hq hqk'
  have hshlt : sh.length < (keyBytes k').length := by
    by_contra hge
    have heq := hshE.eq_of_length (Nat.le_antisymm hshE.length_le (Nat.le_of_not_lt hge))
    exact hPE ((heq ▸ hshP).eq_of_length hlenPE).symm
  have hshltP : sh.length < (keyBytes k).length := hlenPE ▸ hshlt
  have hE' := prefix_append_getElem hshE hshlt
  have hP' := prefix_append_getElem hshP hshltP
  have hidx := (commonPrefix_next_ne hP' hE').symm
  have hM' : ∀ {k'' : K} {v'' : V}, M.insert k v k'' = some v'' → getParentsPath ps <+: keyBytes k'' →
      (k'' = k ∧ v'' = v) ∨ (k'' = k' ∧ v'' = v') :=
    fun hk'' hq'' => insert_entries_of_single hMq hk'' hq''
  have hMk' : M k' = some v' := by rw [← Entries.under_of_prefix M hqk', hMq]; simp
  -- `reparent_leaf`, then `add_node_to_parents` below the shared path
  obtain ⟨ps₁, hole₁, hrep, hpath₁, hframes₁⟩ :=
    reparentLeaf_eq hashTrie rest.reverse hlp hshlt (hps ▸ hqsh)
  simp only [← hps] at hrep hframes₁
  set newPb : PointerBlock D := PointerBlock.new.set (keyBytes k')[sh.length] (some (.leafPointer h))
    with hnewPb
  have hadd : addNodeToParents (keyBytes k) (.node newPb) ps₁ =
      .ok (ps₁ ++ [((keyBytes k)[sh.length], .node newPb)]) :=
    addNodeToParents_node hpath₁ hshP hshltP
  -- the new node is a frame of the new map: the existing leaf beside the hole
  have hnf : NodeFrame S (M.insert k v) sh newPb (keyBytes k)[sh.length] := by
    refine ⟨fun b ptr hb hptr => ?_, fun b k'' hb hnone hpk => ?_, fun k'' v'' hk'' hpk => ?_⟩
    · have hbE : b = (keyBytes k')[sh.length] := by
        by_contra hne
        simp [hnewPb, hne] at hptr
      subst hbE
      simp only [hnewPb, PointerBlock.set_apply, if_true, Option.some.injEq] at hptr
      subst hptr
      rw [Entries.under_eq_single (k := k') (v := v') (by simp [Ne.symm hkk, hMk']) hE'
        fun k'' v'' hk'' hpk'' => ?_]
      · exact .leaf hSh hE'
      · rcases hM' hk'' ((hqsh.trans (List.prefix_append _ _)).trans hpk'') with ⟨rfl, -⟩ | ⟨rfl, -⟩
        · exact absurd (prefix_append_singleton_inj hpk'' hP') hidx
        · rfl
    · have hbE : b ≠ (keyBytes k')[sh.length] := by
        rintro rfl
        simp [hnewPb] at hnone
      cases hk'' : M.insert k v k'' with
      | none => rfl
      | some v'' =>
        rcases hM' hk'' ((hqsh.trans (List.prefix_append _ _)).trans hpk) with ⟨rfl, -⟩ | ⟨rfl, -⟩
        · exact absurd (prefix_append_singleton_inj hpk hP') hb
        · exact absurd (prefix_append_singleton_inj hpk hE') hbE
    · rcases hM' hk'' (hqsh.trans hpk) with ⟨rfl, -⟩ | ⟨rfl, -⟩
      · exact ⟨_, hP'⟩
      · exact ⟨_, hE'⟩
  have hframes₂ : Frames S (M.insert k v) sh ps₁.reverse hole₁ := by
    refine hframes₁ (hframes.congr (insert_agree hq v)) fun k'' v'' hk'' hpk => ?_
    rcases hM' hk'' hpk with ⟨rfl, -⟩ | ⟨rfl, -⟩
    · exact hshP
    · exact hshE
  have hframes₃ : Frames S (M.insert k v) (sh ++ [(keyBytes k)[sh.length]])
      (ps₁ ++ [((keyBytes k)[sh.length], Trie.node newPb)]).reverse false := by
    rw [List.reverse_append, List.reverse_singleton, List.singleton_append]
    exact Frames.node hnf ⟨_, hidx, by simp [hnewPb]⟩ hframes₂
  obtain ⟨elements, hrehash, hhashed, hne⟩ :=
    rehash_ok hashTrie _ (fun e he => hframes₃.not_leaf e (List.mem_reverse.mpr he)) (.leaf k v)
  refine ⟨elements, ?_, hhashed, hne, ?_, rebuilds_leaf hframes₃ hP' ?_ hrehash⟩
  · simp only [writeElements, hkk, false_and, if_false, hrep, hadd, hrehash]
  · have := congrFun hMq k
    rwa [Entries.under_of_prefix M hq, Entries.single_apply, if_neg hkk] at this
  · refine Entries.under_eq_single (by simp) hP' fun k'' v'' hk'' hpk'' => ?_
    rcases hM' hk'' ((hqsh.trans (List.prefix_append _ _)).trans hpk'') with ⟨rfl, -⟩ | ⟨rfl, -⟩
    · rfl
    · exact absurd (prefix_append_singleton_inj hpk'' hE') (Ne.symm hidx)

omit [DecidableEq V] in
/-- `split_extension` of an extension that the path leaves: a node where the path leaves it,
with the rest of the affix as a child extension if nonempty, and the parents, extended by the
part of the affix before that byte if nonempty. -/
theorem splitExtension_eq (hashTrie : Trie K V D → D) {ps : Parents K V D} {affix path q sh : List UInt8} (h₀ : D)
    (hq_def : getParentsPath ps = q) (hsh : commonPrefix path (q ++ affix) = sh)
    (hq : q <+: sh) (hlt : sh.length < (q ++ affix).length) :
    ∃ newPointer maybeChild parents hole,
      splitExtension hashTrie path (.extension affix (.nodePointer h₀)) ps =
        .ok ⟨.node (PointerBlock.new.set (q ++ affix)[sh.length] (some newPointer)), parents,
          maybeChild⟩ ∧
      (∀ e ∈ maybeChild, e.1 = hashTrie e.2) ∧
      (∀ {S' : TrieStore K V D} {N : Entries K V} {pb₀ : PointerBlock D},
        (∀ e ∈ maybeChild, S' e.1 = some e.2) → S' h₀ = some (.node pb₀) →
        SubTrie S' (q ++ affix) (.nodePointer h₀) N →
        SubTrie S' (sh ++ [(q ++ affix)[sh.length]]) newPointer N) ∧
      getParentsPath parents = sh ∧
      ∀ {S : TrieStore K V D} {M : Entries K V}, Frames S M q ps.reverse false →
        (∀ k v, M k = some v → q <+: keyBytes k → sh <+: keyBytes k) →
        Frames S M sh parents.reverse hole := by
  have hle : ¬sh.length < q.length := by
    have := hq.length_le
    omega
  have hlen : ¬affix.length < (sh.drop q.length).length + 1 := by
    simp only [List.length_append, List.length_drop] at hlt ⊢
    omega
  -- the extension's path is the shared path, the byte where the new path leaves it, and the rest
  have hshX : sh <+: q ++ affix := hsh ▸ commonPrefix_prefix_right _ _
  have hXsplit : sh ++ [(q ++ affix)[sh.length]] ++ (q ++ affix).drop (sh.length + 1) = q ++ affix := by
    have := List.prefix_iff_eq_append.mp (prefix_append_getElem hshX hlt)
    simpa using this
  have hca : affix.drop ((sh.drop q.length).length + 1) = (q ++ affix).drop (sh.length + 1) := by
    have : sh.length + 1 = q.length + ((sh.drop q.length).length + 1) := by
      have := hq.length_le
      simp only [List.length_drop]
      omega
    rw [this, List.drop_append]
    simp
  have hall_nil : ∀ e ∈ (none : Option (D × Trie K V D)), e.1 = hashTrie e.2 := fun _ h => by cases h
  -- below the new node: the extension's node child, or an extension to it by the rest of the affix
  have hchild_nil : (q ++ affix).drop (sh.length + 1) = [] →
      ∀ {S' : TrieStore K V D} {N : Entries K V},
        SubTrie S' (q ++ affix) (.nodePointer h₀) N →
        SubTrie S' (sh ++ [(q ++ affix)[sh.length]]) (.nodePointer h₀) N := by
    intro hc S' N hsub
    rw [hc, List.append_nil] at hXsplit
    rwa [hXsplit]
  have hchild_cons : (q ++ affix).drop (sh.length + 1) ≠ [] →
      ∀ {S' : TrieStore K V D} {N : Entries K V} {pb₀ : PointerBlock D},
        S' (hashTrie (.extension ((q ++ affix).drop (sh.length + 1)) (.nodePointer h₀))) =
          some (.extension ((q ++ affix).drop (sh.length + 1)) (.nodePointer h₀)) →
        S' h₀ = some (.node pb₀) → SubTrie S' (q ++ affix) (.nodePointer h₀) N →
        SubTrie S' (sh ++ [(q ++ affix)[sh.length]])
          (.nodePointer (hashTrie (.extension ((q ++ affix).drop (sh.length + 1)) (.nodePointer h₀)))) N := by
    intro hc S' N pb₀ hce hnode hsub
    exact .extension hce hc hnode (by rwa [hXsplit])
  cases hpa : sh.drop q.length with
  | nil =>
    rw [hpa] at hlen hca
    -- the new path leaves the extension at its first byte: no parent extension
    have hqsh : q = sh := hq.eq_of_length (Nat.le_antisymm hq.length_le
      (List.drop_eq_nil_iff.mp hpa))
    by_cases hc : (q ++ affix).drop (sh.length + 1) = []
    · refine ⟨.nodePointer h₀, none, ps, false, ?_, hall_nil,
        fun _ _ hsub => hchild_nil hc hsub, hq_def.trans hqsh, fun hframes _ => hqsh ▸ hframes⟩
      simp only [splitExtension, hq_def, hsh, hle, if_false, hlen, hca, hc, if_true,
        List.getElem?_eq_getElem hlt, hpa, PointerBlock.fromIndexedPointers_singleton]
    · refine ⟨_, some (_, _), ps, false, ?_, fun e he => by cases he; rfl,
        fun hstored hnode hsub => hchild_cons hc (hstored _ rfl) hnode hsub, hq_def.trans hqsh,
        fun hframes _ => hqsh ▸ hframes⟩
      simp only [splitExtension, hq_def, hsh, hle, if_false, hlen, hca, hc, if_false,
        List.getElem?_eq_getElem hlt, hpa, PointerBlock.fromIndexedPointers_singleton]
  | cons first rest =>
    rw [hpa] at hlen hca
    -- the parts of the affix before that byte become a parent extension
    have hpath : ∀ ptr : Pointer D,
        getParentsPath (ps ++ [(first, (.extension (first :: rest) ptr : Trie K V D))]) = sh := by
      intro ptr
      rw [getParentsPath_append, getParentsPath_extension, hq_def, ← hpa]
      exact List.prefix_iff_eq_append.mp hq
    have hframes' : ∀ {S : TrieStore K V D} {M : Entries K V} (h : D), Frames S M q ps.reverse false →
        (∀ k v, M k = some v → q <+: keyBytes k → sh <+: keyBytes k) →
        Frames S M sh (ps ++ [(first, Trie.extension (first :: rest) (.nodePointer h))]).reverse true := by
      intro S M h hframes hall
      have := hframes.extend hq (by rw [hpa]; simp) hall first h
      rw [hpa] at this
      rwa [List.reverse_append, List.reverse_singleton, List.singleton_append]
    by_cases hc : (q ++ affix).drop (sh.length + 1) = []
    · refine ⟨.nodePointer h₀, none, ps ++ [(first, .extension (first :: rest) (.nodePointer
        (hashTrie (.node (PointerBlock.new.set (q ++ affix)[sh.length] (some (.nodePointer h₀)))))))],
        true, ?_, hall_nil, fun _ _ hsub => hchild_nil hc hsub, hpath _, hframes' _⟩
      simp only [splitExtension, hq_def, hsh, hle, if_false, hlen, hca, hc, if_true,
        List.getElem?_eq_getElem hlt, hpa, PointerBlock.fromIndexedPointers_singleton]
    · refine ⟨.nodePointer (hashTrie (.extension ((q ++ affix).drop (sh.length + 1)) (.nodePointer h₀))),
        some (_, _), ps ++ [(first, .extension (first :: rest) (.nodePointer
        (hashTrie (.node (PointerBlock.new.set (q ++ affix)[sh.length] (some (.nodePointer
          (hashTrie (.extension ((q ++ affix).drop (sh.length + 1)) (.nodePointer h₀))))))))))],
        true, ?_, fun e he => by cases he; rfl,
        fun hstored hnode hsub => hchild_cons hc (hstored _ rfl) hnode hsub, hpath _, hframes' _⟩
      simp only [splitExtension, hq_def, hsh, hle, if_false, hlen, hca, hc, if_false,
        List.getElem?_eq_getElem hlt, hpa, PointerBlock.fromIndexedPointers_singleton]

/-- **`write` at an extension that the path leaves.**  A node where the path leaves the affix
holds the rest of the extension and the new leaf; the key had no entry. -/
theorem writeElements_split (hashTrie : Trie K V D → D) {ps : Parents K V D} {affix : List UInt8} {ptr : Pointer D}
    (hscan : ScanAt S M (keyBytes k) (.extension affix ptr) ps)
    (hstop : ¬getParentsPath ps ++ affix <+: keyBytes k) :
    ∃ elements, writeElements keyBytes hashTrie k v (keyBytes k) (.extension affix ptr) ps =
        .ok elements ∧
      Hashed hashTrie elements ∧ elements ≠ [] ∧ M k = none ∧
      Rebuilds S (M.insert k v) elements := by
  obtain ⟨hole, hframes, hhole⟩ := hscan.frames
  have hfalse : hole = false := by
    cases hole with
    | false => rfl
    | true => obtain ⟨_, h⟩ := hhole rfl; cases h
  subst hfalse
  obtain ⟨-, -, ⟨haffix, h₀, pb₀, rfl, hnode, hchild⟩, -⟩ := hscan.canon
  have hq := hscan.prefix_path
  set q := getParentsPath ps with hq_def
  set sh := commonPrefix (keyBytes k) (q ++ affix) with hsh
  -- every entry below the extension's path continues with the affix
  have hall : ∀ k' v', M k' = some v' → q <+: keyBytes k' → q ++ affix <+: keyBytes k' :=
    fun k' v' hk' hq' => hchild.prefix_of_entry (v := v') (by simpa [hq'] using hk')
  have hshP : sh <+: keyBytes k := commonPrefix_prefix_left _ _
  have hshX : sh <+: q ++ affix := commonPrefix_prefix_right _ _
  have hqsh : q <+: sh := prefix_commonPrefix hq (List.prefix_append q affix)
  have hlt : sh.length < (q ++ affix).length := by
    by_contra hge
    exact hstop ((hshX.eq_of_length (Nat.le_antisymm hshX.length_le (Nat.le_of_not_lt hge))) ▸ hshP)
  have hshltP : sh.length < (keyBytes k).length := by
    obtain ⟨k', -, -, hlt', hpk'⟩ := hchild.exists_longer
    have := length_eq_of_prefixes hframes.ne_nil hq ((List.prefix_append _ _).trans hpk')
    omega
  have hX' := prefix_append_getElem hshX hlt
  have hP' := prefix_append_getElem hshP hshltP
  have hidx := commonPrefix_next_ne hP' hX'
  have hMk : M k = none := by
    cases hk : M k with
    | none => rfl
    | some w => exact absurd (hall k w hk hq) hstop
  -- the entries of the new map below the parents: the new key, or old ones past the affix
  have hent : ∀ {k'' v''}, M.insert k v k'' = some v'' → q <+: keyBytes k'' →
      k'' = k ∨ (M k'' = some v'' ∧ q ++ affix <+: keyBytes k'') := by
    intro k'' v'' hk'' hq''
    by_cases hkk : k'' = k
    · exact .inl hkk
    · rw [Entries.insert_apply, if_neg hkk] at hk''
      exact .inr ⟨hk'', hall k'' v'' hk'' hq''⟩
  obtain ⟨np, mc, ps₁, hole₁, hsplit, hmc, hsub, hpath₁, hframes₁⟩ :=
    splitExtension_eq hashTrie h₀ hq_def.symm hsh.symm hqsh hlt
  set newPb : PointerBlock D := PointerBlock.new.set (q ++ affix)[sh.length] (some np) with hnewPb
  have hadd : addNodeToParents (keyBytes k) (.node newPb) ps₁ =
      .ok (ps₁ ++ [((keyBytes k)[sh.length], .node newPb)]) :=
    addNodeToParents_node hpath₁ hshP hshltP
  have hframes₂ : Frames S (M.insert k v) sh ps₁.reverse hole₁ := by
    refine hframes₁ (hframes.congr (insert_agree hq v)) fun k'' v'' hk'' hpk => ?_
    rcases hent hk'' hpk with rfl | ⟨-, hX''⟩
    · exact hshP
    · exact hshX.trans hX''
  obtain ⟨elements, hrehash, hhashed, hne⟩ := rehash_ok hashTrie
    (ps₁ ++ [((keyBytes k)[sh.length], .node newPb)]) (fun e he k' v' => by
      rcases List.mem_append.mp he with he | he
      · exact hframes₂.not_leaf e (List.mem_reverse.mpr he) k' v'
      · rw [List.mem_singleton.mp he]
        simp) (.leaf k v)
  refine ⟨mc.toList ++ elements, ?_, fun e he => ?_, by simp [hne], hMk, ?_⟩
  · cases mc <;> simp only [writeElements, hsplit, hadd, hrehash] <;> rfl
  · rcases List.mem_append.mp he with he | he
    · exact hmc e (Option.mem_toList.mp he)
    · exact hhashed e he
  -- in a store that holds the new elements, the new node is a frame around the new leaf
  intro S' hincl hstored
  have hmcS' : ∀ e ∈ mc, S' e.1 = some e.2 := fun e he =>
    hstored e (List.mem_append_left _ (Option.mem_toList.mpr he))
  have hunder : (M.insert k v).under (sh ++ [(q ++ affix)[sh.length]]) = M.under q := by
    funext k''
    by_cases hpk : sh ++ [(q ++ affix)[sh.length]] <+: keyBytes k''
    · have hkk : k'' ≠ k := by
        rintro rfl
        exact hidx (prefix_append_singleton_inj hP' hpk)
      have hq'' : q <+: keyBytes k'' := (hqsh.trans (List.prefix_append _ _)).trans hpk
      simp [hpk, hkk, hq'']
    · simp only [Entries.under_apply, if_neg hpk]
      split
      · next hq'' =>
        cases hk'' : M k'' with
        | none => rfl
        | some w => exact absurd (hX'.trans (hall k'' w hk'' hq'')) hpk
      · rfl
  have hsib : SubTrie S' (sh ++ [(q ++ affix)[sh.length]]) np
      ((M.insert k v).under (sh ++ [(q ++ affix)[sh.length]])) := by
    rw [hunder]
    exact hsub hmcS' (hincl hnode) (hchild.mono hincl)
  have hnf : NodeFrame S' (M.insert k v) sh newPb (keyBytes k)[sh.length] := by
    refine ⟨fun b ptr' hb hptr => ?_, fun b k'' hb hnone hpk => ?_, fun k'' v'' hk'' hpk => ?_⟩
    · have hbX : b = (q ++ affix)[sh.length] := by
        by_contra hne'
        simp [hnewPb, hne'] at hptr
      subst hbX
      simp only [hnewPb, PointerBlock.set_apply, if_true, Option.some.injEq] at hptr
      exact hptr ▸ hsib
    · have hbX : b ≠ (q ++ affix)[sh.length] := by
        rintro rfl
        simp [hnewPb] at hnone
      cases hk'' : M.insert k v k'' with
      | none => rfl
      | some v'' =>
        rcases hent hk'' ((hqsh.trans (List.prefix_append _ _)).trans hpk) with rfl | ⟨-, hX''⟩
        · exact absurd (prefix_append_singleton_inj hpk hP') hb
        · exact absurd (prefix_append_singleton_inj hpk (hX'.trans hX'')) hbX
    · rcases hent hk'' (hqsh.trans hpk) with rfl | ⟨-, hX''⟩
      · exact ⟨_, hP'⟩
      · exact ⟨_, hX'.trans hX''⟩
  have hframes₃ : Frames S' (M.insert k v) (sh ++ [(keyBytes k)[sh.length]])
      (ps₁ ++ [((keyBytes k)[sh.length], Trie.node newPb)]).reverse false := by
    rw [List.reverse_append, List.reverse_singleton, List.singleton_append]
    exact Frames.node hnf ⟨_, Ne.symm hidx, by simp [hnewPb]⟩ (hframes₂.mono hincl)
  have hleaf : TrieCanon S' (sh ++ [(keyBytes k)[sh.length]]) (.leaf k v)
      ((M.insert k v).under (sh ++ [(keyBytes k)[sh.length]])) := by
    refine ⟨Entries.under_eq_single (by simp) hP' fun k'' v'' hk'' hpk'' => ?_, hP'⟩
    rcases hent hk'' ((hqsh.trans (List.prefix_append _ _)).trans hpk'') with rfl | ⟨-, hX''⟩
    · rfl
    · exact absurd (prefix_append_singleton_inj hpk'' (hX'.trans hX'')) hidx
  obtain ⟨e, he, hroot⟩ := rehash_rootTrie hframes₃ (fun h => by cases h) hleaf hrehash
    fun e he => hstored e (List.mem_append_right _ he)
  exact ⟨e, by rw [List.getLast?_append_of_ne_nil _ hne]; exact he, hroot⟩

/-- **`write` at a leaf.**  The same leaf: nothing to write.  The same key: the new leaf in its
place.  Another key: `reparent_leaf`. -/
theorem writeElements_leaf (hashTrie : Trie K V D → D) {ps : Parents K V D} {k' : K} {v' : V}
    (hscan : ScanAt S M (keyBytes k) (.leaf k' v') ps) :
    ∃ elements, writeElements keyBytes hashTrie k v (keyBytes k) (.leaf k' v') ps = .ok elements ∧
      WriteOutcome S M k v hashTrie elements := by
  obtain ⟨hole, hframes, hhole⟩ := hscan.frames
  have hfalse : hole = false := by
    cases hole with
    | false => rfl
    | true => obtain ⟨_, h⟩ := hhole rfl; cases h
  subst hfalse
  obtain ⟨h, hSh, ⟨hMq, hqk'⟩, hpoints⟩ := hscan.canon
  have hq := hscan.prefix_path
  have hMk : M k = Entries.single k' v' k := by rw [← hMq, Entries.under_of_prefix M hq]
  by_cases hkk : k = k'
  · subst hkk
    by_cases hvv : v = v'
    · subst hvv
      exact ⟨[], by simp [writeElements], ⟨(fun e he => by cases he), .inl ⟨rfl, by simp [hMk]⟩⟩⟩
    · obtain ⟨elements, hrehash, hhashed, hne⟩ :=
        rehash_ok hashTrie _ (fun e he => hframes.not_leaf e (List.mem_reverse.mpr he)) (.leaf k v)
      refine ⟨elements, by simp [writeElements, hvv, hrehash], hhashed, .inr ⟨hne, ?_, ?_⟩⟩
      · simp [hMk, Ne.symm hvv]
      · refine rebuilds_leaf (hframes.congr (insert_agree hq v)) hq ?_ hrehash
        refine Entries.under_eq_single (by simp) hq fun k'' v'' hk'' hpk => ?_
        rcases insert_entries_of_single hMq hk'' hpk with ⟨rfl, -⟩ | ⟨rfl, -⟩ <;> rfl
  · obtain ⟨elements, hwrite, hhashed, hne, hnone, hreb⟩ :=
      writeElements_reparent hframes hSh hMq hqk' hpoints hq hkk
    exact ⟨elements, hwrite, ⟨hhashed, .inr ⟨hne, by simp [hnone], hreb⟩⟩⟩

/-- **The new elements of `write` from a canonical root.**  Whatever `scan` stops at, the
elements `write` builds rebuild the root of the map with the key set, or are none when the map
already holds the value. -/
theorem writeElements_of_rootTrie (hashTrie : Trie K V D → D) {r : D} {pb : PointerBlock D} (hroot : RootTrie S r M)
    (hSr : S r = some (.node pb)) (k : K) (v : V) :
    ∃ tip parents elements, scan S (keyBytes k) (.node pb) = .ok (some ⟨tip, parents⟩) ∧
      writeElements keyBytes hashTrie k v (keyBytes k) tip parents = .ok elements ∧
      WriteOutcome S M k v hashTrie elements := by
  obtain ⟨tip, parents, hscan, hout⟩ := scan_of_rootTrie hroot hSr k
  refine ⟨tip, parents, ?_⟩
  rcases hout with ⟨rfl, rfl, hlen, hpb⟩ | ⟨hat, hstop⟩
  · -- the root has no child for the first byte: it gets the new leaf there
    obtain ⟨pb', hSr', hb⟩ := hroot
    rw [hSr, Option.some.injEq, Trie.node.injEq] at hSr'
    subst hSr'
    obtain ⟨elements, hwrite, hhashed, hne, hreb, hnone⟩ := writeElements_node hashTrie
      [] (v := v) List.nil_prefix hlen (by simpa using hb) hpb
      (by simpa using Frames.root ((show BlockCanon S [] pb (M.under []) by simpa using hb).nodeFrame
        (keyBytes k)[0]))
    exact ⟨elements, hscan, hwrite, ⟨hhashed, .inr ⟨hne, by simp [hnone], hreb⟩⟩⟩
  · cases tip with
    | leaf k' v' =>
      obtain ⟨elements, hwrite, hw⟩ := writeElements_leaf hashTrie (v := v) hat
      exact ⟨elements, hscan, hwrite, hw⟩
    | node pb' =>
      obtain ⟨hlen, hpb⟩ := hstop
      obtain ⟨hole, hframes, -⟩ := hat.frames
      obtain ⟨h, hSh, ⟨hb, b₁, b₂, hne₁₂, h₁, h₂⟩, -⟩ := hat.canon
      -- the node branches at two other bytes than the path's, so it stays a frame
      have hsibling : ∃ b, b ≠ (keyBytes k)[(getParentsPath parents).length] ∧ pb' b ≠ none :=
        ⟨b₁, fun h => h₁ (h ▸ hpb), h₁⟩
      obtain ⟨elements, hwrite, hhashed, hne, hreb, hnone⟩ := writeElements_node hashTrie
        parents (v := v) hat.prefix_path hlen hb hpb (Frames.node (hb.nodeFrame _) hsibling hframes)
      exact ⟨elements, hscan, hwrite, ⟨hhashed, .inr ⟨hne, by simp [hnone], hreb⟩⟩⟩
    | extension affix ptr =>
      obtain ⟨elements, hwrite, hhashed, hne, hnone, hreb⟩ :=
        writeElements_split hashTrie (v := v) hat hstop
      exact ⟨elements, hscan, hwrite, ⟨hhashed, .inr ⟨hne, by simp [hnone], hreb⟩⟩⟩

end Write

/-! ## `write` -/

section WriteRoot

variable [TrieKey K] [DecidableEq K] [DecidableEq V] [DecidableEq D] {hashTrie : Trie K V D → D}
variable {S : TrieStore K V D} {M : Entries K V}

/-- **`write` keeps the root canonical.**  With a collision-free hash, in a store that holds its
nodes under their hashes, `write` on the canonical root of a map returns without a fault:
`AlreadyExists` with the store unchanged if the map holds the value, and otherwise `Written`
with the canonical root of the map with the key set, in a store that keeps every node and
still holds its nodes under their hashes. -/
theorem write_of_rootTrie (hinj : Function.Injective hashTrie) (hS : StoreOk hashTrie S) {r : D}
    (hroot : RootTrie S r M) (k : K) (v : V) :
    ∃ res S', write keyBytes hashTrie S r k v = .ok (res, S') ∧ StoreOk hashTrie S' ∧
      StoreIncl S S' ∧
      ((res = .alreadyExists ∧ S' = S ∧ M k = some v) ∨
        (∃ r', res = .written r' ∧ M k ≠ some v ∧ RootTrie S' r' (M.insert k v))) := by
  obtain ⟨pb, hSr, -⟩ := id hroot
  obtain ⟨tip, parents, elements, hscan, hwrite, hhashed, hout⟩ :=
    writeElements_of_rootTrie hashTrie hroot hSr k v
  rcases hout with ⟨rfl, hMk⟩ | ⟨hne, hMk, hreb⟩
  · refine ⟨.alreadyExists, S, ?_, hS, StoreIncl.refl S, .inl ⟨rfl, rfl, hMk⟩⟩
    simp [write, hSr, hscan, hwrite]
  · -- the new elements go into the store under their hashes, overwriting nothing
    obtain ⟨hincl, hok⟩ := putAll_incl hinj hS hhashed
    obtain ⟨⟨r', t'⟩, hlast, hroot'⟩ :=
      hreb (S.putAll elements) hincl fun e he => putAll_of_mem hinj hS hhashed he
    refine ⟨.written r', S.putAll elements, ?_, hok, hincl, .inr ⟨r', rfl, hMk, hroot'⟩⟩
    simp [write, hSr, hscan, hwrite, hlast]

end WriteRoot

end CasperNode
