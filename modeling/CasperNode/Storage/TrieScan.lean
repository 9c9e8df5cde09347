import CasperNode.Storage.TrieCanonical

/-!
# Walking down a canonical trie: `read` and `scan`

`read` and `scan` follow the path of a key from the root: one byte at a node, the whole affix
at an extension.  On a canonical root (`RootTrie`) over keys whose encodings have one length per
first byte, the path never runs out where the walk needs a byte or a slice: below the root,
every key under a node or an extension is as long as the key looked up, and longer than the
node's path.  One round per byte of the path is enough for the loops' bound.  So neither
function returns a fault, and

* `read` returns what the map holds (`read_of_rootTrie`);
* `scan` stops at the root, at a leaf, at a node with no child for the next byte, or at an
  extension that the path leaves; its parents are *frames* (`Frames`): each of them, but for
  the byte or the affix towards the tip, is already canonical (`scan_of_rootTrie`).

`write` and `delete` rebuild the frames around a new tip (`Storage.TrieWrite`,
`Storage.TrieDelete`).
-/

namespace CasperNode

open TrieKey

variable {K V D : Type}

/-! ## Paths -/

theorem pathIndex_of_lt {path : List UInt8} {depth : Nat} (h : depth < path.length) :
    pathIndex path depth = .ok path[depth] := by
  simp [pathIndex, List.getElem?_eq_getElem h]

theorem pathSlice_of_le {path : List UInt8} {start len : Nat} (h : start + len ≤ path.length) :
    pathSlice path start len = .ok ((path.drop start).take len) := by
  simp [pathSlice, h]

/-- Past a prefix `q` of the path, the slice as long as `affix` is `affix` exactly when
`q ++ affix` is a prefix of the path. -/
theorem slice_eq_iff_prefix_path {q path affix : List UInt8} (hq : q <+: path) :
    (path.drop q.length).take affix.length = affix ↔ q ++ affix <+: path := by
  obtain ⟨s, rfl⟩ := hq
  rw [List.drop_left, List.prefix_append_right_inj, List.prefix_iff_eq_take, eq_comm]

/-- The path bytes the parents account for, one parent more. -/
@[simp] theorem getParentsPath_append {K V D : Type} (parents : Parents K V D)
    (e : UInt8 × Trie K V D) :
    getParentsPath (parents ++ [e]) = getParentsPath parents ++ getParentsPath [e] := by
  simp [getParentsPath]

@[simp] theorem getParentsPath_node {K V D : Type} (i : UInt8) (pb : PointerBlock D) :
    getParentsPath [(i, (.node pb : Trie K V D))] = [i] := rfl

@[simp] theorem getParentsPath_extension {K V D : Type} (i : UInt8) (affix : List UInt8)
    (ptr : Pointer D) :
    getParentsPath [(i, (.extension affix ptr : Trie K V D))] = affix := by
  simp [getParentsPath]

@[simp] theorem getParentsPath_nil {K V D : Type} : getParentsPath ([] : Parents K V D) = [] := rfl

variable [TrieKey K] [DecidableEq K]

/-! ## Lengths below the root -/

section Lengths

variable {S : TrieStore K V D}

/-- A node or an extension holds an entry longer than its path. -/
theorem SubTrie.exists_longer {p : List UInt8} {h : D} {M : Entries K V}
    (hsub : SubTrie S p (.nodePointer h) M) :
    ∃ k v, M k = some v ∧ p.length < (keyBytes k).length ∧ p <+: keyBytes k := by
  generalize hptr : Pointer.nodePointer h = ptr at hsub
  induction hsub generalizing h with
  | leaf => cases hptr
  | @node p _ _ _ hS _ _ _ _ =>
    obtain ⟨b, -, -, ⟨k, v, hk, hpk⟩, -⟩ := (SubTrie.node hS ‹_› ‹_› ‹_› ‹_›).branches hS
    have hlen := hpk.length_le
    simp only [List.length_append, List.length_singleton] at hlen
    exact ⟨k, v, hk, by omega, (List.prefix_append _ _).trans hpk⟩
  | @extension p _ _ affix _ _ _ _ _ _ ih =>
    obtain ⟨k, v, hk, hlt, hpk⟩ := ih rfl
    simp only [List.length_append] at hlt
    exact ⟨k, v, hk, by omega, (List.prefix_append _ _).trans hpk⟩

/-- Below a nonempty path, a node or an extension leaves room in the path of every key below
it for a byte past the path. -/
theorem SubTrie.length_lt {p : List UInt8} {h : D} {M : Entries K V}
    (hsub : SubTrie S p (.nodePointer h) M) (hp : p ≠ []) {k : K} (hk : p <+: keyBytes k) :
    p.length < (keyBytes k).length := by
  obtain ⟨k', -, -, hlt, hk'⟩ := hsub.exists_longer
  rw [length_eq_of_prefixes hp hk hk']
  exact hlt

end Lengths

/-! ## `read` -/

section Read

variable {S : TrieStore K V D} {M : Entries K V} {k : K}

/-- `read` at a leaf below the path of the key: the leaf holds the key's entry, if any. -/
theorem readLoop_leaf {fuel : Nat} {q : List UInt8} {k' : K} {v' : V}
    (hcanon : TrieCanon S q (.leaf k' v') (M.under q)) (hq : q <+: keyBytes k) :
    readLoop S k (keyBytes k) (fuel + 1) q.length (.leaf k' v') = .ok (M.read k) := by
  obtain ⟨hM, -⟩ := hcanon
  have hk : M k = Entries.single k' v' k := by rw [← hM, Entries.under_of_prefix M hq]
  by_cases hkk : k = k'
  · have hv : M k = some v' := by rw [hk, hkk]; simp
    rw [Entries.read_of_some hv]
    simp [readLoop, hkk]
  · have hv : M k = none := by rw [hk]; simp [hkk]
    rw [Entries.read_of_none hv]
    simp [readLoop, hkk]

/-- `read` at a node: the child for the next byte of the path, or nothing if there is none. -/
theorem readLoop_node {fuel : Nat} {q : List UInt8} {pb : PointerBlock D}
    (hb : BlockCanon S q pb (M.under q)) (hq : q <+: keyBytes k)
    (hlen : q.length < (keyBytes k).length)
    (hnext : ∀ b ptr t, pb b = some ptr → S ptr.hash = some t → q ++ [b] <+: keyBytes k →
      TrieCanon S (q ++ [b]) t (M.under (q ++ [b])) →
      readLoop S k (keyBytes k) fuel (q.length + 1) t = .ok (M.read k)) :
    readLoop S k (keyBytes k) (fuel + 1) q.length (.node pb) = .ok (M.read k) := by
  have hpre := prefix_append_getElem hq hlen
  simp only [readLoop, pathIndex_of_lt hlen]
  cases hpb : pb (keyBytes k)[q.length] with
  | none =>
    have hnone := hb.empty _ k hpb hpre
    rw [Entries.under_of_prefix M hq] at hnone
    rw [Entries.read_of_none hnone]
  | some ptr =>
    have hchild := hb.child _ ptr hpb
    rw [Entries.under_under M (List.prefix_append _ _)] at hchild
    obtain ⟨t, ht⟩ := hchild.stored
    simp only [ht]
    exact hnext _ ptr t hpb ht hpre (hchild.trieCanon ht).1

/-- `read` at an extension: past the affix if the path continues with it, nothing otherwise. -/
theorem readLoop_extension {fuel : Nat} {q affix : List UInt8} {ptr : Pointer D}
    (hcanon : TrieCanon S q (.extension affix ptr) (M.under q)) (hq : q <+: keyBytes k)
    (hne : q ≠ [])
    (hnext : ∀ pb, S ptr.hash = some (.node pb) → q ++ affix <+: keyBytes k →
      TrieCanon S (q ++ affix) (.node pb) (M.under (q ++ affix)) →
      readLoop S k (keyBytes k) fuel (q.length + affix.length) (.node pb) = .ok (M.read k)) :
    readLoop S k (keyBytes k) (fuel + 1) q.length (.extension affix ptr) = .ok (M.read k) := by
  obtain ⟨-, h, pb, rfl, hnode, hchild⟩ := hcanon
  have hall : ∀ k' v', M k' = some v' → q <+: keyBytes k' → q ++ affix <+: keyBytes k' :=
    fun k' v' hk' hq' => hchild.prefix_of_entry (v := v') (by simpa [hq'] using hk')
  have hlen : q.length + affix.length ≤ (keyBytes k).length := by
    obtain ⟨k', v', hk', hlt, hpk'⟩ := hchild.exists_longer
    have hq' : q <+: keyBytes k' := (List.prefix_append _ _).trans hpk'
    rw [length_eq_of_prefixes hne hq hq', ← List.length_append]
    exact hlt.le
  simp only [readLoop, pathSlice_of_le hlen]
  by_cases hpath : q ++ affix <+: keyBytes k
  · rw [if_pos ((slice_eq_iff_prefix_path hq).mpr hpath), Pointer.hash_nodePointer, hnode]
    have hchild' := hchild
    rw [Entries.under_eq_under_append M hall] at hchild'
    exact hnext pb hnode hpath (hchild'.trieCanon hnode).1
  · rw [if_neg (fun h => hpath ((slice_eq_iff_prefix_path hq).mp h))]
    cases hMk : M k with
    | none => rw [Entries.read_of_none hMk]
    | some v => exact absurd (hall k v hMk hq) hpath

/-- **`read` below the root.**  From a canonical trie at a nonempty path of the key, with one
round for every byte of the path left, the loop of `read` returns what the map holds. -/
theorem readLoop_of_trieCanon :
    ∀ (fuel : Nat) (q : List UInt8) (t : Trie K V D) (h : D), q ≠ [] → q <+: keyBytes k →
      S h = some t → TrieCanon S q t (M.under q) → (keyBytes k).length + 1 ≤ fuel + q.length →
      readLoop S k (keyBytes k) fuel q.length t = .ok (M.read k)
  | 0, q, _, _, _, hq, _, _, hfuel => absurd hq.length_le (by omega)
  | fuel + 1, q, .leaf k' v', _, _, hq, _, hcanon, _ => readLoop_leaf hcanon hq
  | fuel + 1, q, .node pb, h, hne, hq, hS, hcanon, hfuel => by
    have hlen : q.length < (keyBytes k).length :=
      (SubTrie.of_trieCanon hS hcanon).length_lt hne hq
    refine readLoop_node hcanon.1 hq hlen fun b ptr t hpb ht hpre hcanon' => ?_
    have := readLoop_of_trieCanon fuel (q ++ [b]) t ptr.hash (by simp) hpre ht hcanon'
      (by simp only [List.length_append, List.length_singleton]; omega)
    simpa using this
  | fuel + 1, q, .extension affix ptr, _, hne, hq, _, hcanon, hfuel => by
    refine readLoop_extension hcanon hq hne fun pb hnode hpre hcanon' => ?_
    obtain ⟨haffix, -⟩ := hcanon
    have := readLoop_of_trieCanon fuel (q ++ affix) (.node pb) ptr.hash (by simp [hne]) hpre
      hnode hcanon' (by
        have : 0 < affix.length := List.length_pos_iff.mpr haffix
        simp only [List.length_append]
        omega)
    simpa using this

/-- **`read` is the map's lookup.**  On a canonical root, `read` returns, without a fault,
what the map holds for the key. -/
theorem read_of_rootTrie {r : D} (hroot : RootTrie S r M) (k : K) :
    read keyBytes S r k = .ok (M.read k) := by
  obtain ⟨pb, hSr, hb⟩ := hroot
  have hlen : ([] : List UInt8).length < (keyBytes k).length :=
    List.length_pos_iff.mpr (keyBytes_ne_nil k)
  simp only [read, hSr]
  have hb' : BlockCanon S [] pb (M.under []) := by rwa [Entries.under_nil]
  refine readLoop_node (q := []) hb' (List.nil_prefix) hlen fun b ptr t _ ht hpre hcanon => ?_
  exact readLoop_of_trieCanon _ _ t ptr.hash (by simp) hpre ht hcanon (by simp)

end Read

/-! ## Frames

The parents that `scan` returns, and that `write` and `delete` rebuild, are described deepest
first, as the rebuilding loops take them.  Each is canonical for the map except towards the
hole below it, where the tip or a rebuilt child goes. -/

section Frames

variable {S S' : TrieStore K V D} {M M' : Entries K V}

/-- `NodeFrame S M p pb i`: the block `pb` of a node at the path `p` holds the canonical
subtries of `M` below every byte but `i`, the byte towards the hole, and `M` has entries below
`p` only past one more byte. -/
structure NodeFrame (S : TrieStore K V D) (M : Entries K V) (p : List UInt8) (pb : PointerBlock D)
    (i : UInt8) : Prop where
  sibling : ∀ b ptr, b ≠ i → pb b = some ptr → SubTrie S (p ++ [b]) ptr (M.under (p ++ [b]))
  empty : ∀ b k, b ≠ i → pb b = none → p ++ [b] <+: keyBytes k → M k = none
  cover : ∀ k v, M k = some v → p <+: keyBytes k → ∃ b, p ++ [b] <+: keyBytes k

/-- `Frames S M q parents hole`: the parents, deepest first, lead from the root down to a
hole at the path `q`, each canonical for `M` but towards the hole.  The root is a node with
any number of children, a node below it has another child besides the hole, and the hole
below an extension takes a node (`hole = true`). -/
inductive Frames (S : TrieStore K V D) (M : Entries K V) :
    List UInt8 → Parents K V D → Bool → Prop
  | root {pb : PointerBlock D} {i : UInt8} (hframe : NodeFrame S M [] pb i) :
      Frames S M [i] [(i, .node pb)] false
  | node {p : List UInt8} {pb : PointerBlock D} {i : UInt8} {rest : Parents K V D} {hole : Bool}
      (hframe : NodeFrame S M p pb i) (hsibling : ∃ b, b ≠ i ∧ pb b ≠ none)
      (hrest : Frames S M p rest hole) :
      Frames S M (p ++ [i]) ((i, .node pb) :: rest) false
  | extension {p affix : List UInt8} {i : UInt8} {h : D} {rest : Parents K V D}
      (haffix : affix ≠ [])
      (hall : ∀ k v, M k = some v → p <+: keyBytes k → p ++ affix <+: keyBytes k)
      (hrest : Frames S M p rest false) :
      Frames S M (p ++ affix) ((i, .extension affix (.nodePointer h)) :: rest) true

/-- A canonical block, seen from one of its bytes. -/
theorem BlockCanon.nodeFrame {p : List UInt8} {pb : PointerBlock D} (hb : BlockCanon S p pb (M.under p))
    (i : UInt8) : NodeFrame S M p pb i where
  sibling b ptr _ hptr := by
    simpa [Entries.under_under M (List.prefix_append p [b])] using hb.child b ptr hptr
  empty b k _ hnone hpk := by
    simpa [(List.prefix_append p [b]).trans hpk] using hb.empty b k hnone hpk
  cover k v hk hpk := hb.cover k v (by simpa [hpk] using hk)

theorem NodeFrame.mono (hincl : StoreIncl S S') {p : List UInt8} {pb : PointerBlock D} {i : UInt8}
    (hframe : NodeFrame S M p pb i) : NodeFrame S' M p pb i :=
  ⟨fun b ptr hb hptr => (hframe.sibling b ptr hb hptr).mono hincl, hframe.empty, hframe.cover⟩

/-- A node frame is one of every map that agrees with `M` away from the hole. -/
theorem NodeFrame.congr {p q : List UInt8} {pb : PointerBlock D} {i : UInt8}
    (hframe : NodeFrame S M p pb i) (hq : p ++ [i] <+: q)
    (hagree : ∀ k, ¬q <+: keyBytes k → M' k = M k) : NodeFrame S M' p pb i := by
  -- a key below another byte than `i` is not below the hole
  have haway : ∀ b k, b ≠ i → p ++ [b] <+: keyBytes k → M' k = M k := fun b k hb hpk =>
    hagree k fun hqk => hb (prefix_append_singleton_inj hpk (hq.trans hqk))
  refine ⟨fun b ptr hb hptr => ?_, fun b k hb hnone hpk => ?_, fun k v hk hpk => ?_⟩
  · have hunder : M'.under (p ++ [b]) = M.under (p ++ [b]) := by
      funext k
      by_cases hpk : p ++ [b] <+: keyBytes k
      · simp [hpk, haway b k hb hpk]
      · simp [hpk]
    rw [hunder]
    exact hframe.sibling b ptr hb hptr
  · rw [haway b k hb hpk]
    exact hframe.empty b k hb hnone hpk
  · by_cases hqk : q <+: keyBytes k
    · exact ⟨i, hq.trans hqk⟩
    · rw [hagree k hqk] at hk
      exact hframe.cover k v hk hpk

namespace Frames

theorem mono (hincl : StoreIncl S S') {q : List UInt8} {rest : Parents K V D} {hole : Bool}
    (hframes : Frames S M q rest hole) : Frames S' M q rest hole := by
  induction hframes with
  | root hframe => exact .root (hframe.mono hincl)
  | node hframe hsibling _ ih => exact .node (hframe.mono hincl) hsibling ih
  | extension haffix hall _ ih => exact .extension haffix hall ih

/-- The hole of the frames is where the parents' path leads. -/
theorem path {q : List UInt8} {rest : Parents K V D} {hole : Bool}
    (hframes : Frames S M q rest hole) : getParentsPath rest.reverse = q := by
  induction hframes with
  | root => rfl
  | node _ _ _ ih => simp [ih]
  | extension _ _ _ ih => simp [ih]

theorem ne_nil {q : List UInt8} {rest : Parents K V D} {hole : Bool}
    (hframes : Frames S M q rest hole) : q ≠ [] := by
  cases hframes with
  | root => simp
  | node => simp
  | extension haffix => simp [haffix]

/-- Frames are frames of every map that agrees with `M` away from the hole. -/
theorem congr {q : List UInt8} {rest : Parents K V D} {hole : Bool}
    (hframes : Frames S M q rest hole) (hagree : ∀ k, ¬q <+: keyBytes k → M' k = M k) :
    Frames S M' q rest hole := by
  induction hframes with
  | root hframe => exact .root (hframe.congr (List.prefix_refl _) hagree)
  | @node p pb i rest hole hframe hsibling _ ih =>
    refine .node (hframe.congr (List.prefix_refl _) hagree) hsibling (ih fun k hk => ?_)
    exact hagree k fun hq => hk ((List.prefix_append _ _).trans hq)
  | @extension p affix i h rest haffix hall _ ih =>
    refine .extension haffix (fun k v hk hpk => ?_) (ih fun k hk => ?_)
    · by_cases hqk : p ++ affix <+: keyBytes k
      · exact hqk
      · rw [hagree k hqk] at hk
        exact hall k v hk hpk
    · exact hagree k fun hq => hk ((List.prefix_append _ _).trans hq)

end Frames

end Frames

/-! ## `scan` -/

/-- The deepest parent points to `ptr` towards the hole. -/
def PointsTo : Parents K V D → Pointer D → Prop
  | (i, .node pb) :: _, ptr => pb i = some ptr
  | (_, .extension _ ptr') :: _, ptr => ptr' = ptr
  | _, _ => True

/-- Where `scan` stops along `path`, the tip being at `q`: at a leaf, at a node with no child
for the next byte, or at an extension that the path leaves. -/
def Stops (path q : List UInt8) : Trie K V D → Prop
  | .leaf .. => True
  | .node pb => ∃ hlt : q.length < path.length, pb path[q.length] = none
  | .extension affix _ => ¬q ++ affix <+: path

/-- `ScanAt S M path t parents`: the walk along `path` is at the trie `t` below the root, with
the parents it passed as frames of `M` around `t`, which is canonical. -/
structure ScanAt (S : TrieStore K V D) (M : Entries K V) (path : List UInt8) (t : Trie K V D)
    (parents : Parents K V D) : Prop where
  frames : ∃ hole, Frames S M (getParentsPath parents) parents.reverse hole ∧
    (hole = true → ∃ pb, t = .node pb)
  canon : ∃ h, S h = some t ∧
    TrieCanon S (getParentsPath parents) t (M.under (getParentsPath parents)) ∧
    PointsTo parents.reverse (pointerTo t h)
  prefix_path : getParentsPath parents <+: path

section Scan

variable {S : TrieStore K V D} {M : Entries K V} {path : List UInt8}

/-- One round of `scan` from a node below the root, past it: the child for the next byte is
in the store, and the node becomes a frame above it. -/
theorem scanAt_node_child {pb : PointerBlock D} {acc : Parents K V D}
    (hscan : ScanAt S M path (.node pb) acc) (hlen : (getParentsPath acc).length < path.length)
    {ptr : Pointer D} (hptr : pb path[(getParentsPath acc).length] = some ptr) :
    ∃ t, S ptr.hash = some t ∧
      ScanAt S M path t (acc ++ [(path[(getParentsPath acc).length], .node pb)]) := by
  obtain ⟨hole, hframes, -⟩ := hscan.frames
  obtain ⟨h, hSh, ⟨hb, b₁, b₂, hne, h₁, h₂⟩, -⟩ := hscan.canon
  have hchild := hb.child _ ptr hptr
  rw [Entries.under_under M (List.prefix_append _ _)] at hchild
  obtain ⟨t, ht⟩ := hchild.stored
  obtain ⟨hcanon, hptr'⟩ := hchild.trieCanon ht
  have hsibling : ∃ b, b ≠ path[(getParentsPath acc).length] ∧ pb b ≠ none := by
    by_cases hb₁ : b₁ = path[(getParentsPath acc).length]
    · exact ⟨b₂, fun h => hne (hb₁.trans h.symm), h₂⟩
    · exact ⟨b₁, hb₁, h₁⟩
  refine ⟨t, ht, ⟨false, ?_, by simp⟩, ⟨ptr.hash, ht, by simpa using hcanon, ?_⟩, ?_⟩
  · simpa using Frames.node (hb.nodeFrame _) hsibling hframes
  · simp [PointsTo, hptr, ← hptr']
  · simpa using prefix_append_getElem hscan.prefix_path hlen

/-- One round of `scan` from an extension that the path goes through: its child is a node in
the store, and the extension becomes a frame above it. -/
theorem scanAt_extension_child {affix : List UInt8} {ptr : Pointer D} {acc : Parents K V D}
    (hscan : ScanAt S M path (.extension affix ptr) acc)
    (hpath : getParentsPath acc ++ affix <+: path) (i : UInt8) :
    ∃ pb, S ptr.hash = some (.node pb) ∧
      ScanAt S M path (.node pb) (acc ++ [(i, .extension affix ptr)]) := by
  obtain ⟨hole, hframes, hhole⟩ := hscan.frames
  obtain ⟨h, hSh, ⟨haffix, h', pb, rfl, hnode, hchild⟩, -⟩ := hscan.canon
  have hall : ∀ k v, M k = some v → getParentsPath acc <+: keyBytes k →
      getParentsPath acc ++ affix <+: keyBytes k :=
    fun k v hk hpk => hchild.prefix_of_entry (v := v) (by simpa [hpk] using hk)
  rw [Entries.under_eq_under_append M hall] at hchild
  -- the frames above an extension end in a node, so its own hole takes any trie
  have hfalse : hole = false := by
    cases hole with
    | false => rfl
    | true => obtain ⟨_, h⟩ := hhole rfl; cases h
  subst hfalse
  refine ⟨pb, hnode, ⟨true, ?_, fun _ => ⟨pb, rfl⟩⟩, ⟨h', hnode, ?_, ?_⟩, by simpa using hpath⟩
  · simpa using Frames.extension (i := i) (h := h') haffix hall hframes
  · simpa using (hchild.trieCanon hnode).1
  · simp [PointsTo, pointerTo]

/-- **`scan` below the root.**  From a trie below the root, with one round for every byte of
the path left, the loop of `scan` stops, without a fault, at a tip where `Stops` holds. -/
theorem scanLoop_of_scanAt {k : K} :
    ∀ (fuel : Nat) (t : Trie K V D) (acc : Parents K V D), ScanAt S M (keyBytes k) t acc →
      (keyBytes k).length + 1 ≤ fuel + (getParentsPath acc).length →
      ∃ tip parents, scanLoop S (keyBytes k) fuel (getParentsPath acc).length t acc =
          .ok (some ⟨tip, parents⟩) ∧
        ScanAt S M (keyBytes k) tip parents ∧ Stops (keyBytes k) (getParentsPath parents) tip
  | 0, _, _, hscan, hfuel => absurd hscan.prefix_path.length_le (by omega)
  | fuel + 1, .leaf k' v', acc, hscan, _ => ⟨_, acc, by simp [scanLoop], hscan, trivial⟩
  | fuel + 1, .node pb, acc, hscan, hfuel => by
    obtain ⟨hole, hframes, -⟩ := hscan.frames
    obtain ⟨h, hSh, hcanon, -⟩ := hscan.canon
    have hlen : (getParentsPath acc).length < (keyBytes k).length :=
      (SubTrie.of_trieCanon hSh hcanon).length_lt hframes.ne_nil hscan.prefix_path
    cases hpb : pb (keyBytes k)[(getParentsPath acc).length] with
    | none =>
      refine ⟨_, acc, ?_, hscan, hlen, hpb⟩
      simp only [scanLoop, pathIndex_of_lt hlen, hpb]
    | some ptr =>
      obtain ⟨t, ht, hscan'⟩ := scanAt_node_child hscan hlen hpb
      obtain ⟨tip, parents, hloop, hout⟩ := scanLoop_of_scanAt fuel t _ hscan'
        (by simp only [getParentsPath_append, getParentsPath_node, List.length_append,
          List.length_singleton]; omega)
      refine ⟨tip, parents, ?_, hout⟩
      simp only [getParentsPath_append, getParentsPath_node, List.length_append,
        List.length_singleton] at hloop
      simp only [scanLoop, pathIndex_of_lt hlen, hpb, ht, hloop]
  | fuel + 1, .extension affix ptr, acc, hscan, hfuel => by
    obtain ⟨hole, hframes, -⟩ := hscan.frames
    obtain ⟨h, hSh, hcanon, -⟩ := hscan.canon
    obtain ⟨haffix, h', pb, rfl, hnode, hchild⟩ := hcanon
    have hne := hframes.ne_nil
    have hlen : (getParentsPath acc).length + affix.length ≤ (keyBytes k).length := by
      obtain ⟨k', v', hk', hlt, hpk'⟩ := hchild.exists_longer
      have hq' : getParentsPath acc <+: keyBytes k' := (List.prefix_append _ _).trans hpk'
      rw [length_eq_of_prefixes hne hscan.prefix_path hq', ← List.length_append]
      exact hlt.le
    have hpos : 0 < affix.length := List.length_pos_iff.mpr haffix
    by_cases hpath : getParentsPath acc ++ affix <+: keyBytes k
    · have hlt : (getParentsPath acc).length < (keyBytes k).length := by omega
      obtain ⟨pb', hnode', hscan'⟩ :=
        scanAt_extension_child hscan hpath (keyBytes k)[(getParentsPath acc).length]
      obtain ⟨tip, parents, hloop, hout⟩ := scanLoop_of_scanAt fuel _ _ hscan'
        (by simp only [getParentsPath_append, getParentsPath_extension, List.length_append]; omega)
      refine ⟨tip, parents, ?_, hout⟩
      simp only [getParentsPath_append, getParentsPath_extension, List.length_append] at hloop
      have hslice := (slice_eq_iff_prefix_path hscan.prefix_path).mpr hpath
      simp only [scanLoop, pathSlice_of_le hlen, hslice, ne_eq, not_true_eq_false, if_false,
        hnode', pathIndex_of_lt hlt, hloop]
    · refine ⟨_, acc, ?_, hscan, hpath⟩
      have hslice : ¬((keyBytes k).drop (getParentsPath acc).length).take affix.length = affix :=
        fun h => hpath ((slice_eq_iff_prefix_path hscan.prefix_path).mp h)
      simp only [scanLoop, pathSlice_of_le hlen, ne_eq, hslice, not_false_eq_true, if_true]

/-- **`scan` from a canonical root.**  `scan` returns without a fault: the root itself, if it
has no child for the first byte of the path, or a tip below it where `Stops` holds, with its
parents as frames. -/
theorem scan_of_rootTrie {r : D} {pb : PointerBlock D} (hroot : RootTrie S r M)
    (hSr : S r = some (.node pb)) (k : K) :
    ∃ tip parents, scan S (keyBytes k) (.node pb) = .ok (some ⟨tip, parents⟩) ∧
      ((parents = [] ∧ tip = .node pb ∧ Stops (keyBytes k) [] tip) ∨
        (ScanAt S M (keyBytes k) tip parents ∧ Stops (keyBytes k) (getParentsPath parents) tip)) := by
  obtain ⟨pb', hSr', hb⟩ := hroot
  rw [hSr, Option.some.injEq, Trie.node.injEq] at hSr'
  subst hSr'
  have hlen : 0 < (keyBytes k).length := List.length_pos_iff.mpr (keyBytes_ne_nil k)
  cases hpb : pb (keyBytes k)[0] with
  | none =>
    refine ⟨_, [], ?_, .inl ⟨rfl, rfl, hlen, hpb⟩⟩
    simp only [scan, scanLoop, pathIndex_of_lt hlen, hpb]
  | some ptr =>
    -- the root is a frame of its own, with no other child needed
    have hchild := hb.child _ ptr hpb
    obtain ⟨t, ht⟩ := hchild.stored
    obtain ⟨hcanon, hptr'⟩ := hchild.trieCanon ht
    have hscan : ScanAt S M (keyBytes k) t [((keyBytes k)[0], .node pb)] := by
      refine ⟨⟨false, ?_, by simp⟩, ⟨ptr.hash, ht, by simpa using hcanon, ?_⟩, ?_⟩
      · have hb' : BlockCanon S [] pb (M.under []) := by rwa [Entries.under_nil]
        simpa using Frames.root (hb'.nodeFrame (keyBytes k)[0])
      · simp [PointsTo, hpb, ← hptr']
      · simpa using prefix_append_getElem (List.nil_prefix) hlen
    obtain ⟨tip, parents, hloop, hout⟩ := scanLoop_of_scanAt (keyBytes k).length t _ hscan
      (by simp)
    refine ⟨tip, parents, ?_, .inr hout⟩
    simp only [getParentsPath_node, List.length_singleton] at hloop
    simp only [scan, scanLoop, pathIndex_of_lt hlen, hpb, ht, List.nil_append, hloop]

end Scan

end CasperNode
