import CasperNode.Storage.TrieKeys
import CasperNode.Storage.TrieCanonical

/-!
# `keys_with_prefix` on a canonical root

On a canonical root, the keys iterator returns every key of the map below the prefix, each once
(`keysWithPrefix_of_rootTrie`).

The proof follows the iterator's stack.  A run of `KeysIterator.step` is a `Walk`, which returns
keys on the way and composes (`Walk.trans`); a walk that empties the stack is what `collectKeys`
returns, given enough fuel (`Walk.collectsTo`).  Past the descent, a canonical subtrie on top of
any stack is popped, with everything it pushes, after returning exactly its keys
(`PopsWith`); a node does so slot by slot, from the index it is at (`popsWith_node`).  While
descending, a canonical subtrie alone on the stack follows the prefix into the child of its next
byte, or through its affix, and returns exactly its keys below the path followed by the prefix
(`DescendsWith`).  Both are proved for every canonical subtrie by induction on `SubTrie`
(`SubTrie.walks`), and the root, a node without the branching condition, is one more node
step.
-/

namespace CasperNode

open TrieKey

variable {K V D : Type}

/-! ## The slot loop of a node -/

section ChildFrom

variable {pb : PointerBlock D}

/-- While descending, a node is left by the slot of the next byte of the prefix. -/
theorem childFrom_descend (pb : PointerBlock D) (b : UInt8) :
    childFrom pb true b.toNat = (pb b).map fun pointer => (b.toNat, pointer) := by
  rw [childFrom, if_pos (UInt8.toNat_lt b), UInt8.ofNat_toNat]
  cases pb b <;> rfl

/-- Past the descent, the loop finds no slot only if every slot from `i` on is empty. -/
theorem childFrom_eq_none {i : Nat} (h : childFrom pb false i = none) :
    ∀ j, i ≤ j → j < 256 → pb (UInt8.ofNat j) = none := by
  fun_induction childFrom pb false i with
  | case1 index _ ptr _ => simp at h
  | case2 index _ _ hdesc => cases hdesc
  | case3 index _ hnone _ ih =>
    intro j hij hj
    rcases Nat.eq_or_lt_of_le hij with rfl | hlt
    · exact hnone
    · exact ih h j hlt hj
  | case4 index hge =>
    intro j hij hj
    omega

/-- Past the descent, the loop finds the first occupied slot from `i` on. -/
theorem childFrom_eq_some {i j : Nat} {ptr : Pointer D} (h : childFrom pb false i = some (j, ptr)) :
    i ≤ j ∧ j < 256 ∧ pb (UInt8.ofNat j) = some ptr ∧ ∀ l, i ≤ l → l < j → pb (UInt8.ofNat l) = none := by
  fun_induction childFrom pb false i with
  | case1 index hlt ptr' hptr =>
    simp only [Option.some.injEq, Prod.mk.injEq] at h
    obtain ⟨rfl, rfl⟩ := h
    exact ⟨le_rfl, hlt, hptr, fun l hl hl' => by omega⟩
  | case2 index _ _ hdesc => cases hdesc
  | case3 index _ hnone _ ih =>
    obtain ⟨hij, hj, hptr, hbetween⟩ := ih h
    refine ⟨by omega, hj, hptr, fun l hl hl' => ?_⟩
    rcases Nat.eq_or_lt_of_le hl with rfl | hlt
    · exact hnone
    · exact hbetween l hlt hl'
  | case4 index hge => simp at h

end ChildFrom

/-! ## Walks of the iterator -/

section Walk

variable (keyBytes : K → List UInt8) (S : TrieStore K V D)

/-- A run of `KeysIterator.step` from one iterator to another, with the keys it returns. -/
inductive Walk : KeysIterator K V D → List K → KeysIterator K V D → Prop
  | refl (it : KeysIterator K V D) : Walk it [] it
  | emit {it it' it'' : KeysIterator K V D} {key : K} {keys : List K}
      (hstep : it.step keyBytes S = some (some key, it')) (hrest : Walk it' keys it'') :
      Walk it (key :: keys) it''
  | skip {it it' it'' : KeysIterator K V D} {keys : List K}
      (hstep : it.step keyBytes S = some (none, it')) (hrest : Walk it' keys it'') :
      Walk it keys it''

/-- `KeysIterator::next` returns `r` from `it`, with any fuel past some bound. -/
def NextIs (it : KeysIterator K V D) (r : Option (K × KeysIterator K V D)) : Prop :=
  ∃ n, ∀ fuel, n ≤ fuel → it.next keyBytes S fuel = .ok r

/-- `collectKeys` returns `keys` from `it`, with any fuel past some bound. -/
def CollectsTo (it : KeysIterator K V D) (keys : List K) : Prop :=
  ∃ n, ∀ fuel, n ≤ fuel → collectKeys keyBytes S fuel it = .ok keys

variable {keyBytes S} {it it' it'' : KeysIterator K V D}

theorem Walk.trans {keys keys' : List K} (h : Walk keyBytes S it keys it')
    (h' : Walk keyBytes S it' keys' it'') : Walk keyBytes S it (keys ++ keys') it'' := by
  induction h with
  | refl => exact h'
  | emit hstep _ ih => exact .emit hstep (ih h')
  | skip hstep _ ih => exact .skip hstep (ih h')

theorem NextIs.of_done (h : it.step keyBytes S = none) : NextIs keyBytes S it none := by
  refine ⟨1, fun fuel hfuel => ?_⟩
  obtain ⟨f, rfl⟩ : ∃ f, fuel = f + 1 := ⟨fuel - 1, by omega⟩
  simp [KeysIterator.next, h]

theorem NextIs.of_emit {key : K} (h : it.step keyBytes S = some (some key, it')) :
    NextIs keyBytes S it (some (key, it')) := by
  refine ⟨1, fun fuel hfuel => ?_⟩
  obtain ⟨f, rfl⟩ : ∃ f, fuel = f + 1 := ⟨fuel - 1, by omega⟩
  simp [KeysIterator.next, h]

theorem NextIs.of_skip {r : Option (K × KeysIterator K V D)}
    (h : it.step keyBytes S = some (none, it')) (h' : NextIs keyBytes S it' r) :
    NextIs keyBytes S it r := by
  obtain ⟨n, hn⟩ := h'
  refine ⟨n + 1, fun fuel hfuel => ?_⟩
  obtain ⟨f, rfl⟩ : ∃ f, fuel = f + 1 := ⟨fuel - 1, by omega⟩
  simp only [KeysIterator.next, h]
  exact hn f (by omega)

/-- `collectKeys` returns the keys of `it`: none when `next` is done, else the key `next`
returns and the keys after it. -/
theorem CollectsTo.of_next {keys : List K}
    (h : (keys = [] ∧ NextIs keyBytes S it none) ∨
      ∃ key keys' it₁, keys = key :: keys' ∧ NextIs keyBytes S it (some (key, it₁)) ∧
        CollectsTo keyBytes S it₁ keys') :
    CollectsTo keyBytes S it keys := by
  rcases h with ⟨rfl, n, hn⟩ | ⟨key, keys', it₁, rfl, ⟨n, hn⟩, ⟨m, hm⟩⟩
  · refine ⟨n + 1, fun fuel hfuel => ?_⟩
    obtain ⟨f, rfl⟩ : ∃ f, fuel = f + 1 := ⟨fuel - 1, by omega⟩
    simp [collectKeys, hn f (by omega)]
  · refine ⟨n + m + 1, fun fuel hfuel => ?_⟩
    obtain ⟨f, rfl⟩ : ∃ f, fuel = f + 1 := ⟨fuel - 1, by omega⟩
    simp [collectKeys, hn f (by omega), hm f (by omega)]

/-- A walk that empties the stack is what `collectKeys` returns, given enough fuel. -/
theorem Walk.collectsTo {keys : List K} (h : Walk keyBytes S it keys it')
    (hdone : it'.visited = []) : CollectsTo keyBytes S it keys := by
  apply CollectsTo.of_next
  -- cut the walk where it returns its first key: up to there `next` skips
  induction h with
  | refl it => exact .inl ⟨rfl, .of_done (by simp [KeysIterator.step, hdone])⟩
  | emit hstep _ ih => exact .inr ⟨_, _, _, rfl, .of_emit hstep, .of_next (ih hdone)⟩
  | skip hstep _ ih =>
    rcases ih hdone with ⟨rfl, hn⟩ | ⟨key, keys', it₁, rfl, hn, hc⟩
    · exact .inl ⟨rfl, .of_skip hstep hn⟩
    · exact .inr ⟨key, keys', it₁, rfl, .of_skip hstep hn, hc⟩

end Walk

/-! ## One step on each kind of trie -/

section Step

variable (keyBytes : K → List UInt8) (S : TrieStore K V D)

theorem step_leaf (d : List UInt8) (key : K) (value : V) (mi : Option Nat) (p : List UInt8)
    (visited : List (VisitedTrieNode K V D)) :
    KeysIterator.step keyBytes S ⟨d, ⟨.leaf key value, mi, p⟩ :: visited⟩ =
      some (if p ++ d <+: keyBytes key then some key else none, ⟨d, visited⟩) := by
  by_cases h : p ++ d <+: keyBytes key
  · simp [KeysIterator.step, List.isPrefixOf_iff_prefix, h]
  · simp [KeysIterator.step, List.isPrefixOf_iff_prefix, h]

/-- Past the descent, a node pushes its next occupied child above itself, at the slot after. -/
theorem step_node_popped (pb : PointerBlock D) (mi : Option Nat) (p : List UInt8)
    (visited : List (VisitedTrieNode K V D)) :
    KeysIterator.step keyBytes S ⟨[], ⟨.node pb, mi, p⟩ :: visited⟩ =
      match childFrom pb false (mi.getD 0) with
      | none => some (none, ⟨[], visited⟩)
      | some (index, pointer) =>
        some (none, ⟨[], pushNext (S pointer.hash) (p ++ [UInt8.ofNat index])
          (⟨.node pb, some (index + 1), p⟩ :: visited)⟩) := by
  -- split on the child first: whether the two matches are one matcher depends on the file
  rcases hc : childFrom pb false (mi.getD 0) with _ | ⟨index, pointer⟩ <;>
    simp [KeysIterator.step, hc]

/-- While descending, a node is replaced by the child of the next byte. -/
theorem step_node_descend (pb : PointerBlock D) (mi : Option Nat) (p : List UInt8) (c : UInt8)
    (d : List UInt8) (visited : List (VisitedTrieNode K V D)) :
    KeysIterator.step keyBytes S ⟨c :: d, ⟨.node pb, mi, p⟩ :: visited⟩ =
      match pb c with
      | none => some (none, ⟨c :: d, visited⟩)
      | some pointer => some (none, ⟨d, pushNext (S pointer.hash) (p ++ [c]) visited⟩) := by
  simp only [KeysIterator.step, List.head?_cons, Option.map_some, Option.getD_some,
    List.isEmpty_cons, Bool.not_false, childFrom_descend]
  cases pb c <;> simp

theorem step_extension (d affix : List UInt8) (pointer : Pointer D) (mi : Option Nat)
    (p : List UInt8) (visited : List (VisitedTrieNode K V D)) :
    KeysIterator.step keyBytes S ⟨d, ⟨.extension affix pointer, mi, p⟩ :: visited⟩ =
      if d.take (min d.length affix.length) <+: affix then
        some (none, ⟨d.drop (min d.length affix.length),
          pushNext (S pointer.hash) (p ++ affix) visited⟩)
      else some (none, ⟨d.drop (min d.length affix.length), visited⟩) := by
  by_cases h : d.take (min d.length affix.length) <+: affix
  · simp [KeysIterator.step, List.isPrefixOf_iff_prefix, h]
  · simp [KeysIterator.step, List.isPrefixOf_iff_prefix, h]

end Step

/-! ## Prefixes through an extension -/

section Affix

variable {p affix d x : List UInt8}

/-- A path below an extension that goes on with `d` agrees with the affix as far as both go. -/
theorem take_prefix_of_prefixes (ha : p ++ affix <+: x) (hd : p ++ d <+: x) :
    d.take (min d.length affix.length) <+: affix := by
  obtain ⟨s, rfl⟩ := ha
  rw [List.append_assoc, List.prefix_append_right_inj] at hd
  rcases le_total d.length affix.length with hle | hle
  · rw [min_eq_left hle, List.take_length]
    exact List.prefix_of_prefix_length_le hd (List.prefix_append affix s) hle
  · rw [min_eq_right hle]
    have hpre := List.prefix_of_prefix_length_le (List.prefix_append affix s) hd hle
    rw [← List.prefix_iff_eq_take.mp hpre]

/-- Below an extension whose affix agrees with `d`, going on past the affix with what is left of
`d` is going on with `d`. -/
theorem append_drop_prefix_iff (ha : p ++ affix <+: x)
    (hchk : d.take (min d.length affix.length) <+: affix) :
    p ++ affix ++ d.drop (min d.length affix.length) <+: x ↔ p ++ d <+: x := by
  rcases le_total d.length affix.length with hle | hle
  · rw [min_eq_left hle, List.take_length] at hchk
    rw [min_eq_left hle, List.drop_length, List.append_nil]
    exact ⟨fun _ => ((List.prefix_append_right_inj p).mpr hchk).trans ha, fun _ => ha⟩
  · rw [min_eq_right hle] at hchk ⊢
    have htake : d.take affix.length = affix :=
      hchk.eq_of_length (by simp [List.length_take, min_eq_left hle])
    conv_rhs => rw [← List.take_append_drop affix.length d, htake]
    rw [List.append_assoc]

end Affix

/-- A path that goes on from `p` with `c :: d` goes on from `p` with `c`. -/
theorem append_byte_prefix_of_cons {p d x : List UInt8} {c : UInt8} (h : p ++ c :: d <+: x) :
    p ++ [c] <+: x :=
  ((List.prefix_append_right_inj p).mpr (List.prefix_append [c] d)).trans h

/-! ## Subtries on the stack -/

section Canonical

variable [TrieKey K] {S : TrieStore K V D}

/-- The keys of `M` below `p` whose next byte is at least `i`: what a node at `p` has left to
return from the slot `i`. -/
def Entries.FromSlot (M : Entries K V) (p : List UInt8) (i : Nat) (k : K) : Prop :=
  M k ≠ none ∧ ∃ c : UInt8, i ≤ c.toNat ∧ p ++ [c] <+: keyBytes k

/-- Past the descent, with `entry` on top of any stack, the walk pops `entry` and all it
pushes, and returns on the way every key that satisfies `P`, once. -/
def PopsWith (S : TrieStore K V D) (entry : VisitedTrieNode K V D) (P : K → Prop) : Prop :=
  ∀ rest, ∃ keys, Walk keyBytes S ⟨[], entry :: rest⟩ keys ⟨[], rest⟩ ∧ keys.Nodup ∧
    ∀ k, k ∈ keys ↔ P k

/-- Descending along any `d` from a stack of the trie `t` at the path `p` alone, the walk
empties the stack, and returns on the way every key that satisfies `P` and goes on from `p`
with `d`, once. -/
def DescendsWith (S : TrieStore K V D) (t : Trie K V D) (p : List UInt8) (P : K → Prop) : Prop :=
  ∀ d, ∃ keys d', Walk keyBytes S ⟨d, [⟨t, none, p⟩]⟩ keys ⟨d', []⟩ ∧ keys.Nodup ∧
    ∀ k, k ∈ keys ↔ P k ∧ p ++ d <+: keyBytes k

theorem PopsWith.congr {entry : VisitedTrieNode K V D} {P Q : K → Prop} (hPQ : ∀ k, P k ↔ Q k)
    (h : PopsWith S entry P) : PopsWith S entry Q := by
  intro rest
  obtain ⟨keys, hwalk, hnd, hmem⟩ := h rest
  exact ⟨keys, hwalk, hnd, fun k => (hmem k).trans (hPQ k)⟩

variable [DecidableEq K]

/-- The keys a node has left from slot `i`, when the first occupied slot from `i` is `j`: those
of the child at `j`, then those from `j + 1`. -/
theorem fromSlot_iff {p : List UInt8} {pb : PointerBlock D} {M : Entries K V}
    (hblock : BlockCanon S p pb M) {i j : Nat} (hij : i ≤ j) (hj : j < 256)
    (hbetween : ∀ l, i ≤ l → l < j → pb (UInt8.ofNat l) = none) (k : K) :
    M.FromSlot p i k ↔ M.under (p ++ [UInt8.ofNat j]) k ≠ none ∨ M.FromSlot p (j + 1) k := by
  have hj' : (UInt8.ofNat j).toNat = j := UInt8.toNat_ofNat_of_lt' hj
  constructor
  · rintro ⟨hk, c, hic, hc⟩
    rcases Nat.lt_trichotomy c.toNat j with hlt | heq | hgt
    · -- a slot before `j` is empty, so it holds no key
      have hnone : pb c = none := by simpa using hbetween c.toNat hic hlt
      exact absurd (hblock.empty c k hnone hc) hk
    · have hcj : c = UInt8.ofNat j := by rw [← heq, UInt8.ofNat_toNat]
      subst hcj
      exact .inl (by simpa [hc] using hk)
    · exact .inr ⟨hk, c, hgt, hc⟩
  · rintro (hk | ⟨hk, c, hjc, hc⟩)
    · have hpk : p ++ [UInt8.ofNat j] <+: keyBytes k := by
        by_contra hpk
        simp [hpk] at hk
      exact ⟨by simpa [hpk] using hk, UInt8.ofNat j, by omega, hpk⟩
    · exact ⟨hk, c, by omega, hc⟩

omit [DecidableEq K] in
/-- The keys of the child at slot `j` and those from slot `j + 1` are disjoint. -/
theorem fromSlot_disjoint {p : List UInt8} {M : Entries K V} {j : Nat} (hj : j < 256) {k : K}
    (hchild : M.under (p ++ [UInt8.ofNat j]) k ≠ none) : ¬M.FromSlot p (j + 1) k := by
  rintro ⟨-, c, hjc, hc⟩
  have hpk : p ++ [UInt8.ofNat j] <+: keyBytes k := by
    by_contra hpk
    simp [hpk] at hchild
  have hcj : UInt8.ofNat j = c := prefix_append_singleton_inj hpk hc
  have := UInt8.toNat_ofNat_of_lt' hj
  rw [hcj] at this
  omega

/-- **A node on the stack.**  Past the descent, a node whose children pop with their keys pops
with its keys from the slot it is at. -/
theorem popsWith_node {p : List UInt8} {pb : PointerBlock D} {M : Entries K V}
    (hblock : BlockCanon S p pb M)
    (hkids : ∀ b ptr, pb b = some ptr → ∃ t, S ptr.hash = some t ∧
      PopsWith S ⟨t, none, p ++ [b]⟩ fun k => M.under (p ++ [b]) k ≠ none)
    (mi : Option Nat) : PopsWith S ⟨.node pb, mi, p⟩ (M.FromSlot p (mi.getD 0)) := by
  -- induction on the slots left: each round returns one child's keys and moves one slot on
  induction hn : 256 - mi.getD 0 using Nat.strong_induction_on generalizing mi with
  | _ n ih =>
  intro rest
  cases hc : childFrom pb false (mi.getD 0) with
  | none =>
    refine ⟨[], .skip (by rw [step_node_popped, hc]) (.refl _), List.nodup_nil, fun k => ?_⟩
    simp only [List.not_mem_nil, false_iff]
    rintro ⟨hk, c, hic, hc'⟩
    have hnone : pb c = none := by simpa using childFrom_eq_none hc c.toNat hic (UInt8.toNat_lt c)
    exact hk (hblock.empty c k hnone hc')
  | some r =>
    obtain ⟨j, ptr⟩ := r
    obtain ⟨hij, hj, hptr, hbetween⟩ := childFrom_eq_some hc
    obtain ⟨t, ht, hkid⟩ := hkids _ ptr hptr
    obtain ⟨keys₁, hwalk₁, hnd₁, hmem₁⟩ := hkid (⟨.node pb, some (j + 1), p⟩ :: rest)
    obtain ⟨keys₂, hwalk₂, hnd₂, hmem₂⟩ := ih (256 - (j + 1)) (by omega) (some (j + 1)) rfl rest
    have hstep : KeysIterator.step keyBytes S ⟨[], ⟨.node pb, mi, p⟩ :: rest⟩ =
        some (none, ⟨[], ⟨t, none, p ++ [UInt8.ofNat j]⟩ :: ⟨.node pb, some (j + 1), p⟩ :: rest⟩) := by
      rw [step_node_popped, hc]
      simp [pushNext, ht]
    refine ⟨keys₁ ++ keys₂, .skip hstep (hwalk₁.trans hwalk₂), ?_, fun k => ?_⟩
    · refine List.nodup_append.mpr ⟨hnd₁, hnd₂, fun k hk₁ k' hk₂ hkk => ?_⟩
      subst hkk
      exact fromSlot_disjoint hj ((hmem₁ k).mp hk₁) ((hmem₂ k).mp hk₂)
    · rw [List.mem_append, hmem₁, hmem₂, fromSlot_iff hblock hij hj hbetween]
      rfl

theorem fromSlot_zero_iff {p : List UInt8} {pb : PointerBlock D} {M : Entries K V}
    (hblock : BlockCanon S p pb M) (k : K) : M.FromSlot p 0 k ↔ M k ≠ none := by
  refine ⟨fun h => h.1, fun hk => ?_⟩
  obtain ⟨v, hv⟩ := Option.ne_none_iff_exists'.mp hk
  obtain ⟨c, hc⟩ := hblock.cover k v hv
  exact ⟨hk, c, Nat.zero_le _, hc⟩

/-- **A node alone on the stack, descending.**  The node is left by the child of the next byte
of the prefix; past the prefix it is walked slot by slot. -/
theorem descendsWith_node {p : List UInt8} {pb : PointerBlock D} {M : Entries K V}
    (hblock : BlockCanon S p pb M)
    (hkids : ∀ b ptr, pb b = some ptr → ∃ t, S ptr.hash = some t ∧
      PopsWith S ⟨t, none, p ++ [b]⟩ (fun k => M.under (p ++ [b]) k ≠ none) ∧
      DescendsWith S t (p ++ [b]) fun k => M.under (p ++ [b]) k ≠ none) :
    DescendsWith S (.node pb) p fun k => M k ≠ none := by
  intro d
  cases d with
  | nil =>
    have hpops := popsWith_node hblock
      (fun b ptr hb => (hkids b ptr hb).imp fun _ h => ⟨h.1, h.2.1⟩) none
    obtain ⟨keys, hwalk, hnd, hmem⟩ := hpops []
    refine ⟨keys, [], hwalk, hnd, fun k => ?_⟩
    rw [hmem, Option.getD_none, fromSlot_zero_iff hblock, List.append_nil]
    constructor
    · intro hk
      obtain ⟨v, hv⟩ := Option.ne_none_iff_exists'.mp hk
      obtain ⟨c, hc⟩ := hblock.cover k v hv
      exact ⟨hk, (List.prefix_append p [c]).trans hc⟩
    · exact fun h => h.1
  | cons c d =>
    cases hc : pb c with
    | none =>
      -- no key goes on with the byte `c`
      refine ⟨[], c :: d, .skip (by rw [step_node_descend, hc]) (.refl _), List.nodup_nil, ?_⟩
      intro k
      simp only [List.not_mem_nil, false_iff, not_and]
      intro hk hpk
      exact hk (hblock.empty c k hc (append_byte_prefix_of_cons hpk))
    | some ptr =>
      obtain ⟨t, ht, -, hdesc⟩ := hkids c ptr hc
      obtain ⟨keys, d', hwalk, hnd, hmem⟩ := hdesc d
      have hstep : KeysIterator.step keyBytes S ⟨c :: d, [⟨.node pb, none, p⟩]⟩ =
          some (none, ⟨d, [⟨t, none, p ++ [c]⟩]⟩) := by
        rw [step_node_descend, hc]
        simp [pushNext, ht]
      refine ⟨keys, d', .skip hstep hwalk, hnd, fun k => ?_⟩
      rw [hmem k]
      by_cases hpk : p ++ c :: d <+: keyBytes k
      · simp [hpk, append_byte_prefix_of_cons hpk]
      · simp [hpk]

/-- **Every canonical subtrie walks with its keys.**  Past the descent it pops with them from
any stack; descending along any prefix it returns those that go on with the prefix. -/
theorem SubTrie.walks {p : List UInt8} {ptr : Pointer D} {M : Entries K V}
    (hsub : SubTrie S p ptr M) :
    ∃ t, S ptr.hash = some t ∧ PopsWith S ⟨t, none, p⟩ (fun k => M k ≠ none) ∧
      DescendsWith S t p fun k => M k ≠ none := by
  induction hsub with
  | @leaf p h k v hS hp =>
    refine ⟨_, hS, fun rest => ⟨[k], ?_, List.nodup_singleton k, fun k' => ?_⟩, fun d => ?_⟩
    · exact .emit (by rw [step_leaf, List.append_nil, if_pos hp]) (.refl _)
    · by_cases hk : k' = k <;> simp [hk]
    · -- the leaf is returned if its key goes on with the prefix
      by_cases hpd : p ++ d <+: keyBytes k
      · refine ⟨[k], d, .emit (by rw [step_leaf, if_pos hpd]) (.refl _), List.nodup_singleton k,
          fun k' => ?_⟩
        by_cases hk : k' = k <;> simp [hk, hpd]
      · refine ⟨[], d, .skip (by rw [step_leaf, if_neg hpd]) (.refl _), List.nodup_nil,
          fun k' => ?_⟩
        by_cases hk : k' = k <;> simp [hk, hpd]
  | @node p h pb M hS hchild hempty hcover hbranch ih =>
    have hblock : BlockCanon S p pb M := ⟨hchild, hempty, hcover⟩
    have hpops := popsWith_node hblock (fun b ptr hb => (ih b ptr hb).imp fun _ h => ⟨h.1, h.2.1⟩)
    exact ⟨_, hS, (hpops none).congr (fromSlot_zero_iff hblock), descendsWith_node hblock ih⟩
  | @extension p h h' affix pb M hS haffix hnode hchild ih =>
    obtain ⟨t, ht, hpops, hdesc⟩ := ih
    have hstep : ∀ d visited, KeysIterator.step keyBytes S
        ⟨d, ⟨.extension affix (.nodePointer h'), none, p⟩ :: visited⟩ =
          if d.take (min d.length affix.length) <+: affix then
            some (none, ⟨d.drop (min d.length affix.length), ⟨t, none, p ++ affix⟩ :: visited⟩)
          else some (none, ⟨d.drop (min d.length affix.length), visited⟩) := by
      intro d visited
      rw [step_extension]
      simp only [Pointer.hash_nodePointer] at ht
      simp [pushNext, ht]
    refine ⟨_, hS, fun rest => ?_, fun d => ?_⟩
    · obtain ⟨keys, hwalk, hnd, hmem⟩ := hpops rest
      exact ⟨keys, .skip (by rw [hstep]; simp) hwalk, hnd, hmem⟩
    · -- the prefix goes on through the affix, or the keys below it do not go on with it
      by_cases hchk : d.take (min d.length affix.length) <+: affix
      · obtain ⟨keys, d', hwalk, hnd, hmem⟩ := hdesc (d.drop (min d.length affix.length))
        refine ⟨keys, d', .skip (by rw [hstep, if_pos hchk]) hwalk, hnd, fun k => ?_⟩
        rw [hmem k]
        refine and_congr_right fun hk => ?_
        obtain ⟨v, hv⟩ := Option.ne_none_iff_exists'.mp hk
        exact append_drop_prefix_iff (hchild.prefix_of_entry hv) hchk
      · refine ⟨[], _, .skip (by rw [hstep, if_neg hchk]) (.refl _), List.nodup_nil,
          fun k => ?_⟩
        simp only [List.not_mem_nil, false_iff, not_and]
        intro hk hpd
        obtain ⟨v, hv⟩ := Option.ne_none_iff_exists'.mp hk
        exact hchk (take_prefix_of_prefixes (hchild.prefix_of_entry hv) hpd)

/-- **`keys_with_prefix` on a canonical root.**  With enough fuel, the iterator from a canonical
root returns every key of the map below the prefix, each once. -/
theorem keysWithPrefix_of_rootTrie {r : D} {M : Entries K V} (hroot : RootTrie S r M)
    (pfx : List UInt8) :
    ∃ keys, (∃ n, ∀ fuel, n ≤ fuel →
        collectKeys keyBytes S fuel (keysWithPrefix S r pfx) = .ok keys) ∧
      keys.Nodup ∧ ∀ k, k ∈ keys ↔ M k ≠ none ∧ pfx <+: keyBytes k := by
  obtain ⟨pb, hSr, hblock⟩ := hroot
  obtain ⟨keys, d', hwalk, hnd, hmem⟩ :=
    descendsWith_node hblock (fun b ptr hb => (hblock.child b ptr hb).walks) pfx
  have hstart : keysWithPrefix S r pfx = ⟨pfx, [⟨.node pb, none, []⟩]⟩ := by
    simp [keysWithPrefix, hSr]
  refine ⟨keys, hstart ▸ hwalk.collectsTo rfl, hnd, fun k => ?_⟩
  rw [hmem k, List.nil_append]

end Canonical

end CasperNode
