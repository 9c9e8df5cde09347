import CasperNode.Storage.TrieWrite

/-!
# `delete` keeps the trie canonical

`delete` scans for the key and, at a leaf of that key, drops the leaf and rebuilds the parents
bottom up.  The leaf's parent is a node; what takes its place depends on the children it keeps:

* more than two: the node without the leaf;
* none: the parent is the root, and it becomes the empty node;
* one, and no grandparent: the root with that child alone;
* one leaf: the leaf moves up into the grandparent node, or past an extension grandparent into
  the great-grandparent node;
* one node or extension: an extension by the child's byte (with the child's affix after it,
  if the child is an extension) takes the parent's place.

Above that, each parent is rebuilt around the trie below it, and an extension below an
extension is merged into one.  As for `write`, the parents that `scan` passed are frames
(`Frames`) of the new map, and every trie the loop builds is canonical below them
(`deleteLoop_rebuilds`).  So from a canonical root `delete` returns the canonical root of the
map without the key (`delete_of_rootTrie`), or `DoesNotExist` with the store unchanged when the
key has no value.
-/

namespace CasperNode

open TrieKey

variable {K V D : Type}

/-! ## Child counts

`delete` chooses its case by `child_count`, and finds the one other child with `find` over
`as_indexed_pointers`. -/

namespace PointerBlock

theorem mem_asIndexedPointers {pb : PointerBlock D} {b : UInt8} {ptr : Pointer D} :
    (b, ptr) ∈ pb.asIndexedPointers ↔ pb b = some ptr := by
  simp only [asIndexedPointers, List.mem_filterMap, List.mem_range, Option.map_eq_some_iff,
    Prod.mk.injEq]
  constructor
  · rintro ⟨n, -, ptr', hptr', rfl, rfl⟩
    exact hptr'
  · intro h
    exact ⟨b.toNat, UInt8.toNat_lt b, ptr, by simpa using h, by simp, rfl⟩

theorem mem_indices {pb : PointerBlock D} {b : UInt8} :
    b ∈ pb.asIndexedPointers.map Prod.fst ↔ pb b ≠ none := by
  simp [mem_asIndexedPointers, Option.ne_none_iff_exists']

/-- Each occupied slot is listed once: the indices are the bytes below 256, in order. -/
theorem nodup_indices (pb : PointerBlock D) : (pb.asIndexedPointers.map Prod.fst).Nodup := by
  have hbytes : ((List.range 256).map UInt8.ofNat).Nodup := by
    refine List.nodup_range.map_on fun x hx y hy hxy => ?_
    have := congrArg UInt8.toNat hxy
    rwa [UInt8.toNat_ofNat_of_lt' (List.mem_range.mp hx),
      UInt8.toNat_ofNat_of_lt' (List.mem_range.mp hy)] at this
  have hfst : pb.asIndexedPointers.map Prod.fst =
      ((List.range 256).map UInt8.ofNat).filterMap fun b => (pb b).map fun _ => b := by
    simp [asIndexedPointers, List.map_filterMap, List.filterMap_map, Function.comp_def]
  rw [hfst]
  refine hbytes.filterMap fun a a' b ha ha' => ?_
  simp only [Option.mem_def, Option.map_eq_some_iff] at ha ha'
  obtain ⟨_, -, rfl⟩ := ha
  obtain ⟨_, -, h⟩ := ha'
  exact h.symm

theorem length_indices (pb : PointerBlock D) :
    (pb.asIndexedPointers.map Prod.fst).length = pb.childCount := by
  simp [childCount]

/-- Three occupied slots make more than two children. -/
theorem two_lt_childCount {pb : PointerBlock D} {b₁ b₂ b₃ : UInt8} (h₁₂ : b₁ ≠ b₂)
    (h₁₃ : b₁ ≠ b₃) (h₂₃ : b₂ ≠ b₃) (h₁ : pb b₁ ≠ none) (h₂ : pb b₂ ≠ none) (h₃ : pb b₃ ≠ none) :
    2 < pb.childCount := by
  have hnodup : [b₁, b₂, b₃].Nodup := by simp [h₁₂, h₁₃, h₂₃]
  have hsub : [b₁, b₂, b₃] ⊆ pb.asIndexedPointers.map Prod.fst := by
    simp [List.subset_def, mem_indices, h₁, h₂, h₃]
  have hle := hnodup.length_le_of_subset hsub
  rw [length_indices] at hle
  simp only [List.length_cons, List.length_nil] at hle
  omega

/-- More than two children leave two occupied slots besides any byte. -/
theorem exists_two_of_childCount {pb : PointerBlock D} (h : 2 < pb.childCount) (i : UInt8) :
    ∃ b₁ b₂, b₁ ≠ b₂ ∧ b₁ ≠ i ∧ b₂ ≠ i ∧ pb b₁ ≠ none ∧ pb b₂ ≠ none := by
  have hnodup := nodup_indices pb
  have hlen : 2 ≤ ((pb.asIndexedPointers.map Prod.fst).erase i).length := by
    rw [List.length_erase, length_indices]
    split <;> omega
  have hmem : ∀ b ∈ (pb.asIndexedPointers.map Prod.fst).erase i, b ≠ i ∧ pb b ≠ none :=
    fun b hb => by simpa [mem_indices] using hnodup.mem_erase_iff.mp hb
  match hrest : (pb.asIndexedPointers.map Prod.fst).erase i, hlen with
  | b₁ :: b₂ :: _, _ =>
    have hnodup' := hnodup.erase i
    rw [hrest, List.nodup_cons, List.mem_cons, not_or] at hnodup'
    obtain ⟨hi₁, hb₁⟩ := hmem b₁ (by simp [hrest])
    obtain ⟨hi₂, hb₂⟩ := hmem b₂ (by simp [hrest])
    exact ⟨b₁, b₂, hnodup'.1.1, hi₁, hi₂, hb₁, hb₂⟩

/-- The other child that `delete` finds is an occupied slot besides `i`. -/
theorem find?_ne_some {pb : PointerBlock D} {i s : UInt8} {ptr : Pointer D}
    (h : pb.asIndexedPointers.find? (fun e => i ≠ e.1) = some (s, ptr)) :
    s ≠ i ∧ pb s = some ptr :=
  ⟨fun hs => by simpa [hs] using List.find?_some h,
    mem_asIndexedPointers.mp (List.mem_of_find?_eq_some h)⟩

/-- If `delete` finds no other child, every slot besides `i` is empty. -/
theorem find?_ne_none {pb : PointerBlock D} {i : UInt8}
    (h : pb.asIndexedPointers.find? (fun e => i ≠ e.1) = none) : ∀ b, b ≠ i → pb b = none := by
  intro b hb
  cases hpb : pb b with
  | none => rfl
  | some ptr =>
    have := List.find?_eq_none.mp h (b, ptr) (mem_asIndexedPointers.mpr hpb)
    simp [Ne.symm hb] at this

end PointerBlock

/-! ## The rounds of the loop above the new trie -/

section Loop

variable [DecidableEq D] {hashTrie : Trie K V D → D} {S : TrieStore K V D}

theorem deleteLoop_nil (els : List (D × Trie K V D)) : deleteLoop hashTrie S els [] = .ok els := by
  rw [deleteLoop]

/-- A node above the new trie points to it. -/
theorem deleteLoop_node {els : List (D × Trie K V D)} {h : D} {t : Trie K V D}
    (hlast : els.getLast? = some (h, t)) (ht : ∀ k v, t ≠ .leaf k v) (i : UInt8)
    (pb : PointerBlock D) (ps : Parents K V D) :
    deleteLoop hashTrie S els ((i, .node pb) :: ps) =
      deleteLoop hashTrie S (els ++ [(hashTrie (.node (pb.set i (some (.nodePointer h)))),
        .node (pb.set i (some (.nodePointer h))))]) ps := by
  cases t with
  | leaf k v => exact absurd rfl (ht k v)
  | node => rw [deleteLoop.eq_def]; simp only [hlast]
  | extension => rw [deleteLoop.eq_def]; simp only [hlast]

/-- An extension above a new node points to it. -/
theorem deleteLoop_extension_node {els : List (D × Trie K V D)} {h : D} {pbT : PointerBlock D}
    (hlast : els.getLast? = some (h, .node pbT)) (i : UInt8) (affix : List UInt8)
    (ptr : Pointer D) (ps : Parents K V D) :
    deleteLoop hashTrie S els ((i, .extension affix ptr) :: ps) =
      deleteLoop hashTrie S (els ++ [(hashTrie (.extension affix (.nodePointer h)),
        .extension affix (.nodePointer h))]) ps := by
  rw [deleteLoop.eq_def]
  simp only [hlast]

/-- An extension above a new extension takes its place, with the two affixes joined. -/
theorem deleteLoop_extension_merge {els : List (D × Trie K V D)} {h : D} {childAffix : List UInt8}
    {ptr : Pointer D} (hlast : els.getLast? = some (h, .extension childAffix ptr)) (i : UInt8)
    (affix : List UInt8) (ptr' : Pointer D) (ps : Parents K V D) :
    deleteLoop hashTrie S els ((i, .extension affix ptr') :: ps) =
      deleteLoop hashTrie S (els.dropLast ++ [(hashTrie (.extension (affix ++ childAffix) ptr),
        .extension (affix ++ childAffix) ptr)]) ps := by
  rw [deleteLoop.eq_def]
  simp only [hlast]

end Loop

section Hashed

variable {hashTrie : Trie K V D → D} {els : List (D × Trie K V D)}

theorem Hashed.push (hel : Hashed hashTrie els) (t : Trie K V D) :
    Hashed hashTrie (els ++ [(hashTrie t, t)]) := by
  intro e he
  rcases List.mem_append.mp he with he | he
  · exact hel e he
  · rw [List.mem_singleton.mp he]

theorem Hashed.dropLast (hel : Hashed hashTrie els) : Hashed hashTrie els.dropLast :=
  fun e he => hel e (List.dropLast_subset _ he)

theorem hashed_singleton (t : Trie K V D) : Hashed hashTrie [(hashTrie t, t)] := by
  intro e he
  rw [List.mem_singleton.mp he]

end Hashed

/-! ## Canonical subtries after a deletion -/

section Canonical

variable [TrieKey K] [DecidableEq K] {S S' : TrieStore K V D} {M : Entries K V}

/-- Erasing a key changes nothing away from the paths above it. -/
theorem erase_agree {k : K} {q : List UInt8} (hq : q <+: keyBytes k) :
    ∀ k', ¬q <+: keyBytes k' → M.erase k k' = M k' := by
  intro k' hk'
  have hne : k' ≠ k := by
    rintro rfl
    exact hk' hq
  simp [hne]

theorem BlockCanon.mono (hincl : StoreIncl S S') {p : List UInt8} {pb : PointerBlock D}
    (hb : BlockCanon S p pb M) : BlockCanon S' p pb M :=
  ⟨fun b ptr hptr => (hb.child b ptr hptr).mono hincl, hb.empty, hb.cover⟩

/-- A leaf is the canonical subtrie of its one entry at every path above the key. -/
theorem SubTrie.leaf_of_prefix {p p' : List UInt8} {h : D} {N : Entries K V}
    (hsub : SubTrie S p' (.leafPointer h) N) (hp : p <+: p') : SubTrie S p (.leafPointer h) N := by
  cases hsub with
  | leaf hS hp' => exact .leaf hS (hp.trans hp')

omit [TrieKey K] [DecidableEq K] in
theorem pointerTo_of_ne_leaf {t : Trie K V D} (ht : ∀ k v, t ≠ .leaf k v) (h : D) :
    pointerTo t h = .nodePointer h := by
  cases t with
  | leaf k v => exact absurd rfl (ht k v)
  | node => rfl
  | extension => rfl

variable [DecidableEq D]

/-- A node frame with an empty hole is a canonical block with that slot cleared. -/
theorem NodeFrame.blockCanon_clear {p : List UInt8} {pb : PointerBlock D} {i : UInt8}
    (hframe : NodeFrame S M p pb i) (hempty : ∀ k, p ++ [i] <+: keyBytes k → M k = none) :
    BlockCanon S p (pb.set i none) (M.under p) := by
  refine ⟨fun b ptr hb => ?_, fun b k hb hpk => ?_, fun k v hk => ?_⟩
  · have hbi : b ≠ i := by
      rintro rfl
      simp at hb
    simp only [PointerBlock.set_apply, if_neg hbi] at hb
    rw [Entries.under_under M (List.prefix_append p [b])]
    exact hframe.sibling b ptr hbi hb
  · rw [Entries.under_of_prefix M ((List.prefix_append p [b]).trans hpk)]
    by_cases hbi : b = i
    · subst hbi
      exact hempty k hpk
    · simp only [PointerBlock.set_apply, if_neg hbi] at hb
      exact hframe.empty b k hbi hb hpk
  · simp only [Entries.under_apply] at hk
    split at hk
    · next hpk => exact hframe.cover k v hk hpk
    · cases hk

omit [DecidableEq D] in
/-- With an empty hole and one other occupied slot `s`, the entries below the node are those
below `s`. -/
theorem NodeFrame.under_eq_of_sibling {p : List UInt8} {pb : PointerBlock D} {i s : UInt8}
    (hframe : NodeFrame S M p pb i) (hempty : ∀ k, p ++ [i] <+: keyBytes k → M k = none)
    (honly : ∀ b, b ≠ i → b ≠ s → pb b = none) : M.under p = M.under (p ++ [s]) := by
  funext k
  by_cases hsk : p ++ [s] <+: keyBytes k
  · simp [hsk, (List.prefix_append p [s]).trans hsk]
  · simp only [Entries.under_apply, if_neg hsk]
    split
    · next hpk =>
      -- a key below the node, neither in the hole nor below `s`, is below an empty slot
      cases hk : M k with
      | none => rfl
      | some v =>
        obtain ⟨b, hb⟩ := hframe.cover k v hk hpk
        by_cases hbi : b = i
        · subst hbi
          rw [hempty k hb] at hk
          cases hk
        · have hbs : b ≠ s := by
            rintro rfl
            exact hsk hb
          rw [hframe.empty b k hbi (honly b hbi hbs) hb] at hk
          cases hk
    · rfl

end Canonical

/-! ## Rebuilding the parents

Above the trie that replaces the leaf's parent, the loop rebuilds each parent around the trie
below it, as `rehash` does, but for an extension below an extension, which it merges.  The new
trie is canonical in every store that holds the elements pushed before it; it need not be stored
itself, since a merge drops it. -/

section Rebuild

variable [TrieKey K] [DecidableEq K] [DecidableEq D] {hashTrie : Trie K V D → D}
variable {S : TrieStore K V D} {M : Entries K V}

omit [DecidableEq D] in
/-- The last element, stored, is the canonical subtrie below the frames. -/
theorem subTrie_of_last {S' : TrieStore K V D} {els : List (D × Trie K V D)} {t : Trie K V D}
    {q : List UInt8} (hlast : els.getLast? = some (hashTrie t, t)) (ht : ∀ k v, t ≠ .leaf k v)
    (hcanon : TrieCanon S' q t (M.under q)) (hstored : ∀ e ∈ els, S' e.1 = some e.2) :
    SubTrie S' q (.nodePointer (hashTrie t)) (M.under q) := by
  have hchild := SubTrie.of_trieCanon (hstored _ (List.mem_of_getLast? hlast)) hcanon
  rwa [pointerTo_of_ne_leaf ht] at hchild

omit [DecidableEq D] in
/-- A canonical root block, alone, rebuilds the root. -/
theorem rebuilds_root {pb : PointerBlock D} (hb : BlockCanon S [] pb M) :
    Rebuilds S M [(hashTrie (.node pb), .node pb)] :=
  fun _ hincl hstored => ⟨_, rfl, pb, hstored _ List.mem_cons_self, hb.mono hincl⟩

/-- **The loop above the new trie.**  From a trie that is canonical in the hole of frames of the
map, the loop returns, without a fault, hashed elements that rebuild the canonical root. -/
theorem deleteLoop_rebuilds {q : List UInt8} {rest : Parents K V D} {hole : Bool}
    (hframes : Frames S M q rest hole) :
    ∀ (els : List (D × Trie K V D)) (t : Trie K V D), els.getLast? = some (hashTrie t, t) →
      (∀ k v, t ≠ .leaf k v) →
      (∀ S', StoreIncl S S' → (∀ e ∈ els.dropLast, S' e.1 = some e.2) →
        TrieCanon S' q t (M.under q)) →
      Hashed hashTrie els →
      ∃ final, deleteLoop hashTrie S els rest = .ok final ∧ Hashed hashTrie final ∧
        Rebuilds S M final := by
  induction hframes with
  | @root pb i hframe =>
    intro els t hlast ht hcanon hel
    rw [deleteLoop_node hlast ht, deleteLoop_nil]
    refine ⟨_, rfl, hel.push _, fun S' hincl hstored => ?_⟩
    have hels : ∀ e ∈ els, S' e.1 = some e.2 := fun e he => hstored e (List.mem_append_left _ he)
    have hchild := subTrie_of_last hlast ht
      (hcanon S' hincl fun e he => hels e (List.dropLast_subset _ he)) hels
    refine ⟨_, List.getLast?_concat, _, hstored _ (by simp), ?_⟩
    simpa using (hframe.mono hincl).blockCanon hchild
  | @node p pb i rest hole hframe hsibling _ ih =>
    intro els t hlast ht hcanon hel
    rw [deleteLoop_node hlast ht]
    refine ih _ _ List.getLast?_concat (fun _ _ h => by cases h) (fun S' hincl hstored => ?_)
      (hel.push _)
    rw [List.dropLast_concat] at hstored
    have hchild := subTrie_of_last hlast ht
      (hcanon S' hincl fun e he => hstored e (List.dropLast_subset _ he)) hstored
    exact (hframe.mono hincl).trieCanon hsibling hchild
  | @extension p affix i h rest haffix hall _ ih =>
    intro els t hlast ht hcanon hel
    cases t with
    | leaf k v => exact absurd rfl (ht k v)
    | node pbT =>
      -- a node below the extension: the extension points to it
      rw [deleteLoop_extension_node hlast]
      refine ih _ _ List.getLast?_concat (fun _ _ h => by cases h) (fun S' hincl hstored => ?_)
        (hel.push _)
      rw [List.dropLast_concat] at hstored
      have hchild := subTrie_of_last hlast ht
        (hcanon S' hincl fun e he => hstored e (List.dropLast_subset _ he)) hstored
      rw [← Entries.under_eq_under_append M hall] at hchild
      exact ⟨haffix, _, pbT, rfl, hstored _ (List.mem_of_getLast? hlast), hchild⟩
    | extension childAffix ptr =>
      -- an extension below the extension: one extension by both affixes replaces them
      rw [deleteLoop_extension_merge hlast]
      refine ih _ _ List.getLast?_concat (fun _ _ h => by cases h) (fun S' hincl hstored => ?_)
        (hel.dropLast.push _)
      rw [List.dropLast_concat] at hstored
      obtain ⟨hchildAffix, h', pb', rfl, hnode, hchild⟩ := hcanon S' hincl hstored
      rw [← Entries.under_eq_under_append M hall, List.append_assoc] at hchild
      exact ⟨by simp [haffix], h', pb', rfl, hnode, hchild⟩

/-- A leaf that moves up into the nearest node above: that node, rebuilt around it, and the
loop above it rebuild the root. -/
theorem deleteLoop_reseat {p : List UInt8} {g : UInt8} {gpb : PointerBlock D}
    {rest : Parents K V D} {hole : Bool} (hframes : Frames S M p ((g, .node gpb) :: rest) hole)
    {h : D} (hsub : SubTrie S p (.leafPointer h) (M.under p)) :
    ∃ final, deleteLoop hashTrie S [(hashTrie (.node (gpb.set g (some (.leafPointer h)))),
        .node (gpb.set g (some (.leafPointer h))))] rest = .ok final ∧ Hashed hashTrie final ∧
      Rebuilds S M final := by
  cases hframes with
  | root hframe =>
    exact ⟨_, deleteLoop_nil _, hashed_singleton _,
      rebuilds_root (by simpa using hframe.blockCanon hsub)⟩
  | node hframe hsibling hrest =>
    exact deleteLoop_rebuilds hrest _ _ rfl (fun _ _ h => by cases h)
      (fun S' hincl _ => (hframe.mono hincl).trieCanon hsibling (hsub.mono hincl))
      (hashed_singleton _)

/-- **The leaf's parent.**  The parent of the deleted leaf is a node frame of the new map with
an empty hole: the root, or a node with another child below frames.  The loop replaces it as
`delete` chooses by its children, and returns hashed elements that rebuild the root. -/
theorem deleteLoop_leafParent {p : List UInt8} {pb : PointerBlock D} {i : UInt8}
    {ps : Parents K V D} (hframe : NodeFrame S M p pb i) (hi : pb i ≠ none)
    (hempty : ∀ k, p ++ [i] <+: keyBytes k → M k = none)
    (hrest : (p = [] ∧ ps = []) ∨ ((∃ b, b ≠ i ∧ pb b ≠ none) ∧ ∃ hole, Frames S M p ps hole)) :
    ∃ final, deleteLoop hashTrie S [] ((i, .node pb) :: ps) = .ok final ∧ Hashed hashTrie final ∧
      Rebuilds S M final := by
  have hclear := hframe.blockCanon_clear hempty
  by_cases hcount : 2 < pb.childCount
  · -- two other children: the node stays, without the leaf
    have hloop : deleteLoop hashTrie S [] ((i, .node pb) :: ps) =
        deleteLoop hashTrie S [(hashTrie (.node (pb.set i none)), .node (pb.set i none))] ps := by
      rw [deleteLoop.eq_def]
      simp only [List.getLast?_nil, if_pos hcount, List.nil_append]
    rw [hloop]
    rcases hrest with ⟨rfl, rfl⟩ | ⟨-, hole, hframes⟩
    · exact ⟨_, deleteLoop_nil _, hashed_singleton _, rebuilds_root (by simpa using hclear)⟩
    · obtain ⟨b₁, b₂, h₁₂, h₁, h₂, hb₁, hb₂⟩ := pb.exists_two_of_childCount hcount i
      exact deleteLoop_rebuilds hframes _ _ rfl (fun _ _ h => by cases h)
        (fun S' hincl _ => ⟨hclear.mono hincl, b₁, b₂, h₁₂, by simp [h₁, hb₁], by simp [h₂, hb₂]⟩)
        (hashed_singleton _)
  cases hfind : pb.asIndexedPointers.find? (fun e => i ≠ e.1) with
  | none =>
    -- no other child: the parent is the root, and it becomes the empty node
    have hnone := PointerBlock.find?_ne_none hfind
    obtain ⟨rfl, rfl⟩ : p = [] ∧ ps = [] := by
      rcases hrest with h | ⟨⟨b, hbi, hb⟩, -⟩
      · exact h
      · exact absurd (hnone b hbi) hb
    have hnew : pb.set i none = PointerBlock.new := by
      funext b
      by_cases hbi : b = i
      · simp [hbi]
      · simp [hbi, hnone b hbi]
    have hempty' : BlockCanon S [] PointerBlock.new M := by simpa [hnew] using hclear
    refine ⟨_, ?_, hashed_singleton _, rebuilds_root hempty'⟩
    rw [deleteLoop.eq_def]
    simp only [List.getLast?_nil, if_neg hcount, hfind, List.nil_append]
  | some sibling =>
    obtain ⟨s, sPtr⟩ := sibling
    obtain ⟨hsi, hs⟩ := PointerBlock.find?_ne_some hfind
    -- the leaf and `s` are the only children, so the entries below the node are below `s`
    have honly : ∀ b, b ≠ i → b ≠ s → pb b = none := by
      intro b hbi hbs
      by_contra hb
      exact hcount (PointerBlock.two_lt_childCount (Ne.symm hsi) (Ne.symm hbi) (Ne.symm hbs) hi
        (by simp [hs]) hb)
    have hsub : SubTrie S (p ++ [s]) sPtr (M.under p) := by
      rw [hframe.under_eq_of_sibling hempty honly]
      exact hframe.sibling s sPtr hsi hs
    rcases hrest with ⟨rfl, rfl⟩ | ⟨-, hole, hframes⟩
    · -- no grandparent: the root keeps the other child alone
      refine ⟨_, ?_, hashed_singleton _, rebuilds_root (by simpa using hclear)⟩
      rw [deleteLoop.eq_def]
      simp only [List.getLast?_nil, if_neg hcount, hfind, List.nil_append]
    obtain ⟨⟨g, gt⟩, ps, rfl⟩ : ∃ e ps', ps = e :: ps' := by
      cases hframes <;> exact ⟨_, _, rfl⟩
    have hgt : ∀ k v, gt ≠ .leaf k v := hframes.not_leaf _ List.mem_cons_self
    cases sPtr with
    | leafPointer hs' =>
      -- a leaf: it moves up into the nearest node above
      cases gt with
      | leaf k v => exact absurd rfl (hgt k v)
      | node gpb =>
        obtain ⟨final, hloop, hel, hreb⟩ :=
          deleteLoop_reseat hframes (hsub.leaf_of_prefix (List.prefix_append p [s]))
        refine ⟨final, ?_, hel, hreb⟩
        rw [← hloop, deleteLoop.eq_def]
        simp only [List.getLast?_nil, if_neg hcount, hfind, List.nil_append]
      | extension affix eptr =>
        cases hframes with
        | @extension pe _ _ _ _ haffix hall hrest' =>
          obtain ⟨⟨gg, ggt⟩, ps', rfl⟩ : ∃ e ps', ps = e :: ps' := by
            cases hrest' <;> exact ⟨_, _, rfl⟩
          cases ggt with
          | leaf k v => exact absurd rfl (hrest'.not_leaf _ List.mem_cons_self k v)
          | extension => cases hrest'
          | node ggpb =>
            have hsub' : SubTrie S pe (.leafPointer hs') (M.under pe) := by
              rw [Entries.under_eq_under_append M hall]
              exact hsub.leaf_of_prefix ((List.prefix_append pe affix).trans (List.prefix_append _ [s]))
            obtain ⟨final, hloop, hel, hreb⟩ := deleteLoop_reseat hrest' hsub'
            refine ⟨final, ?_, hel, hreb⟩
            rw [← hloop, deleteLoop.eq_def]
            simp only [List.getLast?_nil, if_neg hcount, hfind, List.nil_append]
    | nodePointer sKey =>
      -- a node or an extension: an extension by `s` takes the parent's place
      obtain ⟨ts, hts⟩ := hsub.stored
      obtain ⟨hcanon, hptr⟩ := hsub.trieCanon hts
      simp only [Pointer.hash_nodePointer] at hts
      cases ts with
      | leaf k v => simp [pointerTo] at hptr
      | node pbs =>
        have hloop : deleteLoop hashTrie S [] ((i, .node pb) :: (g, gt) :: ps) =
            deleteLoop hashTrie S [(hashTrie (.extension [s] (.nodePointer sKey)),
              .extension [s] (.nodePointer sKey))] ((g, gt) :: ps) := by
          cases gt with
          | leaf k v => exact absurd rfl (hgt k v)
          | _ =>
            rw [deleteLoop.eq_def]
            simp only [List.getLast?_nil, if_neg hcount, hfind, hts, List.nil_append]
        rw [hloop]
        exact deleteLoop_rebuilds hframes _ _ rfl (fun _ _ h => by cases h)
          (fun S' hincl _ => ⟨by simp, sKey, pbs, rfl, hincl hts, hsub.mono hincl⟩)
          (hashed_singleton _)
      | extension eAffix eptr =>
        obtain ⟨-, h', pb', rfl, hnode, hchild⟩ := hcanon
        have hloop : deleteLoop hashTrie S [] ((i, .node pb) :: (g, gt) :: ps) =
            deleteLoop hashTrie S [(hashTrie (.extension (s :: eAffix) (.nodePointer h')),
              .extension (s :: eAffix) (.nodePointer h'))] ((g, gt) :: ps) := by
          cases gt with
          | leaf k v => exact absurd rfl (hgt k v)
          | _ =>
            rw [deleteLoop.eq_def]
            simp only [List.getLast?_nil, if_neg hcount, hfind, hts, List.nil_append]
        rw [hloop]
        exact deleteLoop_rebuilds hframes _ _ rfl (fun _ _ h => by cases h)
          (fun S' hincl _ => ⟨by simp, h', pb', rfl, hincl hnode, by simpa using hchild.mono hincl⟩)
          (hashed_singleton _)

end Rebuild

/-! ## `delete` -/

section DeleteRoot

variable [TrieKey K] [DecidableEq K] [DecidableEq D] {hashTrie : Trie K V D → D}
variable {S : TrieStore K V D} {M : Entries K V}

omit [DecidableEq D] in
/-- A key whose scan stops anywhere but at its own leaf has no value. -/
theorem eq_none_of_stops {tip : Trie K V D} {parents : Parents K V D} {k : K}
    (hscan : ScanAt S M (keyBytes k) tip parents)
    (hstop : Stops (keyBytes k) (getParentsPath parents) tip) (htip : ∀ v, tip ≠ .leaf k v) :
    M k = none := by
  obtain ⟨h, -, hcanon, -⟩ := hscan.canon
  have hq := hscan.prefix_path
  rw [← Entries.under_of_prefix M hq]
  cases tip with
  | leaf k' v' =>
    have hkk : k ≠ k' := by
      rintro rfl
      exact htip v' rfl
    rw [hcanon.1]
    simp [hkk]
  | node pb =>
    obtain ⟨hlt, hpb⟩ := hstop
    exact hcanon.1.empty _ k hpb (prefix_append_getElem hq hlt)
  | extension affix ptr =>
    obtain ⟨-, h', pb, rfl, -, hsub⟩ := hcanon
    cases hk : M.under (getParentsPath parents) k with
    | none => rfl
    | some v => exact absurd (hsub.prefix_of_entry hk) hstop

/-- **`delete` at the key's leaf.**  The key has a value, and the loop over the leaf's parents
returns hashed elements that rebuild the root of the map without the key. -/
theorem deleteLoop_of_scanAt (hashTrie : Trie K V D → D) {parents : Parents K V D} {k : K} {v' : V}
    (hscan : ScanAt S M (keyBytes k) (.leaf k v') parents) :
    M k = some v' ∧ ∃ final, deleteLoop hashTrie S [] parents.reverse = .ok final ∧
      Hashed hashTrie final ∧ Rebuilds S (M.erase k) final := by
  obtain ⟨hole, hframes, hhole⟩ := hscan.frames
  obtain ⟨h, -, ⟨hMq, hqk⟩, hpoints⟩ := hscan.canon
  have hfalse : hole = false := by
    cases hole with
    | false => rfl
    | true => obtain ⟨_, h⟩ := hhole rfl; cases h
  subst hfalse
  have hMk : M k = some v' := by
    rw [← Entries.under_of_prefix M hscan.prefix_path, hMq]
    simp
  refine ⟨hMk, ?_⟩
  -- without the key, nothing is left below the leaf's path
  have hempty : ∀ k'', getParentsPath parents <+: keyBytes k'' → M.erase k k'' = none := by
    intro k'' hk''
    by_cases hkk : k'' = k
    · simp [hkk]
    · have hnone : M k'' = none := by
        rw [← Entries.under_of_prefix M hk'', hMq]
        simp [hkk]
      simp [hkk, hnone]
  generalize getParentsPath parents = q at hframes hempty hqk
  generalize parents.reverse = rest at hframes hpoints ⊢
  -- the leaf's parent is a node: the root, or a node with another child below frames
  cases hframes with
  | @root pb i hframe =>
    simp only [PointsTo, pointerTo] at hpoints
    exact deleteLoop_leafParent (hframe.congr (List.prefix_refl _) (erase_agree hqk))
      (by simp [hpoints]) hempty (.inl ⟨rfl, rfl⟩)
  | @node p pb i rest hole hframe hsibling hrest =>
    simp only [PointsTo, pointerTo] at hpoints
    have hpk : p <+: keyBytes k := (List.prefix_append p [i]).trans hqk
    exact deleteLoop_leafParent (hframe.congr (List.prefix_refl _) (erase_agree hqk))
      (by simp [hpoints]) hempty (.inr ⟨hsibling, hole, hrest.congr (erase_agree hpk)⟩)

/-- **`delete` keeps the root canonical.**  With a collision-free hash, in a store that holds
its nodes under their hashes, `delete` on the canonical root of a map returns without a fault:
`DoesNotExist` with the store unchanged if the key has no value, and otherwise `Deleted` with the
canonical root of the map without the key, in a store that keeps every node and still holds its
nodes under their hashes. -/
theorem delete_of_rootTrie (hinj : Function.Injective hashTrie) (hS : StoreOk hashTrie S)
    {r : D} (hroot : RootTrie S r M) (k : K) :
    ∃ res S', delete keyBytes hashTrie S r k = .ok (res, S') ∧ StoreOk hashTrie S' ∧
      StoreIncl S S' ∧
      ((res = .doesNotExist ∧ S' = S ∧ M k = none) ∨
        (∃ r', res = .deleted r' ∧ M k ≠ none ∧ RootTrie S' r' (M.erase k))) := by
  have ⟨pb, hSr, hb⟩ := hroot
  obtain ⟨tip, parents, hscan, hout⟩ := scan_of_rootTrie hroot hSr k
  -- anywhere but at the key's leaf, there is nothing to delete
  have habsent : M k = none → (∀ v, tip ≠ .leaf k v) →
      delete keyBytes hashTrie S r k = .ok (.doesNotExist, S) := by
    intro _ htip
    cases tip with
    | leaf k' v' =>
      have hkk : k' ≠ k := by
        rintro rfl
        exact htip v' rfl
      simp [delete, hSr, hscan, hkk]
    | node => simp [delete, hSr, hscan]
    | extension => simp [delete, hSr, hscan]
  rcases hout with ⟨rfl, rfl, hlen, hpb⟩ | ⟨hat, hstop⟩
  · -- the root has no child for the first byte
    have hMk : M k = none := hb.empty _ k hpb (by simpa using prefix_append_getElem List.nil_prefix hlen)
    exact ⟨_, S, habsent hMk (fun _ h => by cases h), hS, StoreIncl.refl S, .inl ⟨rfl, rfl, hMk⟩⟩
  by_cases hleaf : ∃ v', tip = .leaf k v'
  · obtain ⟨v', rfl⟩ := hleaf
    obtain ⟨hMk, final, hloop, hel, hreb⟩ := deleteLoop_of_scanAt hashTrie hat
    -- the new elements go into the store under their hashes, overwriting nothing
    obtain ⟨hincl, hok⟩ := putAll_incl hinj hS hel
    obtain ⟨⟨r', t'⟩, hlast, hroot'⟩ :=
      hreb (S.putAll final) hincl fun e he => putAll_of_mem hinj hS hel he
    refine ⟨.deleted r', S.putAll final, ?_, hok, hincl, .inr ⟨r', rfl, by simp [hMk], hroot'⟩⟩
    simp [delete, hSr, hscan, hloop, hlast]
  · simp only [not_exists] at hleaf
    have hMk := eq_none_of_stops hat hstop hleaf
    exact ⟨_, S, habsent hMk hleaf, hS, StoreIncl.refl S, .inl ⟨rfl, rfl, hMk⟩⟩

end DeleteRoot

end CasperNode
