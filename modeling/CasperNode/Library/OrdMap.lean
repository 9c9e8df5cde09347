import Mathlib

/-!
# Ordered maps

An `OrdMap α β` is a finite map stored as an association list sorted strictly by key,
the way a `BTreeMap` iterates.  Sortedness is a field of the structure, so the entry list
of a map is determined by the map's contents: two maps with the same lookups are equal,
and equality is decidable by comparing lists.

`insert` overwrites an existing entry; `append` inserts every entry of the second map into
the first, so the second map wins on common keys (`BTreeMap::append`).
-/

namespace OrdMap

variable {α β : Type} [LinearOrder α]

/-- Insert into a list sorted by key, replacing an entry with the same key. -/
def insertEntry (k : α) (v : β) : List (α × β) → List (α × β)
  | [] => [(k, v)]
  | (k', v') :: rest =>
    if k < k' then (k, v) :: (k', v') :: rest
    else if k = k' then (k, v) :: rest
    else (k', v') :: insertEntry k v rest

/-- Every key of an inserted list is the new key or an old key. -/
theorem mem_keys_insertEntry {k : α} {v : β} {l : List (α × β)} {e : α × β}
    (h : e ∈ insertEntry k v l) : e.1 = k ∨ ∃ e' ∈ l, e.1 = e'.1 := by
  induction l with
  | nil =>
    simp only [insertEntry, List.mem_singleton] at h
    exact .inl (by rw [h])
  | cons hd rest ih =>
    obtain ⟨k', v'⟩ := hd
    simp only [insertEntry] at h
    split at h
    · rcases List.mem_cons.mp h with rfl | h
      · exact .inl rfl
      · exact .inr ⟨e, h, rfl⟩
    · split at h
      · rcases List.mem_cons.mp h with rfl | h
        · exact .inl rfl
        · exact .inr ⟨e, List.mem_cons_of_mem _ h, rfl⟩
      · rcases List.mem_cons.mp h with rfl | h
        · exact .inr ⟨_, List.mem_cons_self, rfl⟩
        · rcases ih h with h | ⟨e', he', hk⟩
          · exact .inl h
          · exact .inr ⟨e', List.mem_cons_of_mem _ he', hk⟩

/-- An entry of an inserted list is the new entry or an old one. -/
theorem mem_insertEntry {k : α} {v : β} {l : List (α × β)} {e : α × β}
    (h : e ∈ insertEntry k v l) : e = (k, v) ∨ e ∈ l := by
  induction l with
  | nil => simpa [insertEntry] using h
  | cons hd rest ih =>
    simp only [insertEntry] at h
    split at h
    · simpa using h
    · split at h
      · rcases List.mem_cons.mp h with h | h
        · exact .inl h
        · exact .inr (List.mem_cons_of_mem _ h)
      · rcases List.mem_cons.mp h with h | h
        · exact .inr (h ▸ List.mem_cons_self)
        · rcases ih h with h | h
          · exact .inl h
          · exact .inr (List.mem_cons_of_mem _ h)

theorem mem_insertEntry_self (k : α) (v : β) (l : List (α × β)) : (k, v) ∈ insertEntry k v l := by
  induction l with
  | nil => simp [insertEntry]
  | cons hd rest ih =>
    simp only [insertEntry]
    split
    · exact List.mem_cons_self
    · split
      · exact List.mem_cons_self
      · exact List.mem_cons_of_mem _ ih

/-- Insertion keeps every key: only the value of the inserted key can change. -/
theorem key_mem_insertEntry (k : α) (v : β) {l : List (α × β)} {e : α × β} (h : e ∈ l) :
    ∃ v', (e.1, v') ∈ insertEntry k v l := by
  by_cases hk : e.1 = k
  · exact ⟨v, hk ▸ mem_insertEntry_self k v l⟩
  induction l with
  | nil => simp at h
  | cons hd rest ih =>
    simp only [insertEntry]
    rcases List.mem_cons.mp h with rfl | h
    · split
      · exact ⟨e.2, List.mem_cons_of_mem _ List.mem_cons_self⟩
      · split
        · next heq => exact absurd heq.symm hk
        · exact ⟨e.2, List.mem_cons_self⟩
    · obtain ⟨v', hv'⟩ := ih h
      split
      · exact ⟨v', List.mem_cons_of_mem _ (List.mem_cons_of_mem _ (by
          rcases mem_insertEntry hv' with h' | h'
          · simp at h'; exact absurd h'.1 hk
          · exact h'))⟩
      · split
        · rcases mem_insertEntry hv' with h' | h'
          · simp at h'; exact absurd h'.1 hk
          · exact ⟨v', List.mem_cons_of_mem _ h'⟩
        · exact ⟨v', List.mem_cons_of_mem _ hv'⟩

/-- Insertion keeps a list strictly sorted by key. -/
theorem insertEntry_sorted (k : α) (v : β) {l : List (α × β)}
    (hl : l.Pairwise (fun a b => a.1 < b.1)) :
    (insertEntry k v l).Pairwise (fun a b => a.1 < b.1) := by
  induction l with
  | nil => simp [insertEntry]
  | cons hd rest ih =>
    obtain ⟨k', v'⟩ := hd
    rw [List.pairwise_cons] at hl
    simp only [insertEntry]
    split
    next hlt =>
      refine List.Pairwise.cons ?_ (List.Pairwise.cons hl.1 hl.2)
      intro e he
      rcases List.mem_cons.mp he with rfl | he
      · exact hlt
      · exact lt_trans hlt (hl.1 e he)
    next hnlt =>
      split
      next heq =>
        subst heq
        exact List.Pairwise.cons hl.1 hl.2
      next hne =>
        refine List.Pairwise.cons ?_ (ih hl.2)
        intro e he
        rcases mem_keys_insertEntry he with h | ⟨e', he', hk⟩
        · rw [h]
          exact lt_of_le_of_ne (not_lt.mp hnlt) (Ne.symm hne)
        · rw [hk]
          exact hl.1 e' he'


/-- Past a key greater than `k`, a sorted list has no entry for `k`. -/
theorem find?_eq_none_of_lt {k k' : α} {v' : β} {rest : List (α × β)}
    (hl : ((k', v') :: rest).Pairwise (fun a b => a.1 < b.1)) (hk : k < k') :
    ((k', v') :: rest).find? (·.1 = k) = none := by
  rw [List.find?_eq_none]
  intro e he
  rw [List.pairwise_cons] at hl
  rcases List.mem_cons.mp he with rfl | he
  · simpa using ne_of_gt hk
  · simpa using ne_of_gt (lt_trans hk (hl.1 e he))

theorem find?_insertEntry (k : α) (v : β) (l : List (α × β)) (k' : α) :
    ((insertEntry k v l).find? (·.1 = k')).map Prod.snd =
      if k' = k then some v else (l.find? (·.1 = k')).map Prod.snd := by
  induction l with
  | nil =>
    by_cases h : k' = k
    · simp [insertEntry, h]
    · simp [insertEntry, Ne.symm h, h]
  | cons hd rest ih =>
    obtain ⟨k₁, v₁⟩ := hd
    simp only [insertEntry]
    split
    · by_cases h : k' = k
      · simp [h]
      · simp [Ne.symm h, h]
    · split
      next heq =>
        subst heq
        by_cases h : k' = k
        · simp [h]
        · simp [Ne.symm h, h]
      next hne =>
        by_cases h₁ : k₁ = k'
        · subst h₁
          simp [Ne.symm hne]
        · simp only [List.find?_cons, h₁, decide_false, ih]

/-- Inserting adds the new value's measure and drops the replaced one's. -/
theorem sum_insertEntry (g : α → β → Nat) (k : α) (v : β) {l : List (α × β)}
    (hl : l.Pairwise (fun a b => a.1 < b.1)) :
    ((insertEntry k v l).map fun e => g e.1 e.2).sum +
        (((l.find? (·.1 = k)).map Prod.snd).map (g k)).getD 0 =
      (l.map fun e => g e.1 e.2).sum + g k v := by
  induction l with
  | nil => simp [insertEntry]
  | cons hd rest ih =>
    obtain ⟨k₁, v₁⟩ := hd
    simp only [insertEntry]
    split
    next hlt =>
      rw [find?_eq_none_of_lt hl hlt]
      simp only [List.map_cons, List.sum_cons, Option.map_none, Option.getD_none]
      omega
    next =>
      split
      next heq =>
        subst heq
        simp only [List.map_cons, List.sum_cons, List.find?_cons, decide_true,
          Option.map_some, Option.getD_some]
        omega
      next hne =>
        have hrest := ih (List.pairwise_cons.mp hl).2
        simp only [List.map_cons, List.sum_cons, List.find?_cons, Ne.symm hne, decide_false]
        omega

/-- Inserting at a key already present replaces its value in place. -/
theorem insertEntry_replace (k : α) (v w : β) (pre suf : List (α × β))
    (hl : (pre ++ (k, w) :: suf).Pairwise (fun a b => a.1 < b.1)) :
    insertEntry k v (pre ++ (k, w) :: suf) = pre ++ (k, v) :: suf := by
  induction pre with
  | nil => simp [insertEntry]
  | cons hd pre ih =>
    obtain ⟨k₁, v₁⟩ := hd
    have hlt : k₁ < k :=
      (List.pairwise_cons.mp hl).1 (k, w) (List.mem_append_right _ List.mem_cons_self)
    simp only [List.cons_append, insertEntry, not_lt_of_gt hlt, if_false, ne_of_gt hlt,
      ih (List.pairwise_cons.mp hl).2]

end OrdMap

/-- A finite map sorted strictly by key. -/
structure OrdMap (α β : Type) [LinearOrder α] where
  entries : List (α × β)
  sorted : entries.Pairwise (fun a b => a.1 < b.1)

namespace OrdMap

variable {α β : Type} [LinearOrder α]

instance [DecidableEq β] : DecidableEq (OrdMap α β) := fun m n =>
  decidable_of_iff (m.entries = n.entries) (by
    cases m; cases n
    simp)

/-- The empty map. -/
def empty : OrdMap α β := ⟨[], List.Pairwise.nil⟩

/-- `BTreeMap::insert`. -/
def insert (m : OrdMap α β) (k : α) (v : β) : OrdMap α β :=
  ⟨insertEntry k v m.entries, insertEntry_sorted k v m.sorted⟩

/-- `BTreeMap::get`. -/
def find? (m : OrdMap α β) (k : α) : Option β := (m.entries.find? (·.1 = k)).map Prod.snd

/-- `BTreeMap::append`: every entry of `n` is inserted into `m`. -/
def append (m n : OrdMap α β) : OrdMap α β := n.entries.foldl (fun acc e => acc.insert e.1 e.2) m

/-- The map with one entry. -/
def singleton (k : α) (v : β) : OrdMap α β := empty.insert k v

/-- `BTreeMap::from_iter`: the entries inserted in order. -/
def ofList (l : List (α × β)) : OrdMap α β := l.foldl (fun acc e => acc.insert e.1 e.2) empty

/-- Every value changed by `f`, as `values_mut` does in place. -/
def mapVal {γ : Type} (m : OrdMap α β) (f : β → γ) : OrdMap α γ :=
  ⟨m.entries.map fun e => (e.1, f e.2), List.Pairwise.map _ (fun _ _ h => h) m.sorted⟩

theorem mem_mapVal {γ : Type} {m : OrdMap α β} {f : β → γ} {e : α × γ}
    (h : e ∈ (m.mapVal f).entries) : ∃ e' ∈ m.entries, e = (e'.1, f e'.2) := by
  obtain ⟨e', he', rfl⟩ := List.mem_map.mp h
  exact ⟨e', he', rfl⟩

theorem entries_insert_ne_nil (m : OrdMap α β) (k : α) (v : β) : (m.insert k v).entries ≠ [] :=
  List.ne_nil_of_mem (mem_insertEntry_self k v m.entries)

theorem mem_foldl_insert {l : List (α × β)} {m : OrdMap α β} {e : α × β}
    (h : e ∈ (l.foldl (fun acc e => acc.insert e.1 e.2) m).entries) : e ∈ m.entries ∨ e ∈ l := by
  induction l generalizing m with
  | nil => exact .inl h
  | cons hd rest ih =>
    rcases ih h with h | h
    · rcases mem_insertEntry h with rfl | h
      · exact .inr List.mem_cons_self
      · exact .inl h
    · exact .inr (List.mem_cons_of_mem _ h)

theorem key_mem_foldl_insert {l : List (α × β)} {m : OrdMap α β} {e : α × β}
    (h : e ∈ m.entries ∨ e ∈ l) :
    ∃ v, (e.1, v) ∈ (l.foldl (fun acc e => acc.insert e.1 e.2) m).entries := by
  induction l generalizing m e with
  | nil =>
    rcases h with h | h
    · exact ⟨e.2, h⟩
    · simp at h
  | cons hd rest ih =>
    rcases h with h | h
    · obtain ⟨v', hv'⟩ := key_mem_insertEntry hd.1 hd.2 h
      exact ih (e := (e.1, v')) (.inl hv')
    · rcases List.mem_cons.mp h with rfl | h
      · exact ih (e := (e.1, e.2)) (.inl (mem_insertEntry_self _ _ _))
      · exact ih (.inr h)


/-- `BTreeMap::remove`. -/
def erase (m : OrdMap α β) (k : α) : OrdMap α β :=
  ⟨m.entries.filter (·.1 ≠ k), m.sorted.filter _⟩

/-- `BTreeMap::retain`: the entries whose key passes `p`. -/
def retain (m : OrdMap α β) (p : α → Bool) : OrdMap α β :=
  ⟨m.entries.filter (p ·.1), m.sorted.filter _⟩

/-- `BTreeMap::keys`, in key order. -/
def keys (m : OrdMap α β) : List α := m.entries.map Prod.fst

/-- The sum of a measure of the entries. -/
def sumBy (m : OrdMap α β) (g : α → β → Nat) : Nat := (m.entries.map fun e => g e.1 e.2).sum

theorem find?_insert (m : OrdMap α β) (k : α) (v : β) (k' : α) :
    (m.insert k v).find? k' = if k' = k then some v else m.find? k' :=
  find?_insertEntry k v m.entries k'

@[simp] theorem find?_insert_self (m : OrdMap α β) (k : α) (v : β) :
    (m.insert k v).find? k = some v := by
  simp [find?_insert]

theorem find?_insert_of_ne (m : OrdMap α β) {k k' : α} (v : β) (h : k' ≠ k) :
    (m.insert k v).find? k' = m.find? k' := by
  simp [find?_insert, h]

/-- Inserting adds the new value's measure and drops the measure of the value it replaces. -/
theorem sumBy_insert (m : OrdMap α β) (k : α) (v : β) (g : α → β → Nat) :
    (m.insert k v).sumBy g + ((m.find? k).map (g k)).getD 0 = m.sumBy g + g k v := by
  have h := sum_insertEntry g k v m.sorted
  unfold sumBy find? insert
  exact h

theorem mem_erase {m : OrdMap α β} {k : α} {e : α × β} (h : e ∈ (m.erase k).entries) :
    e ∈ m.entries ∧ e.1 ≠ k := by
  simpa [erase] using h

/-- Writing back, in key order, a value for each key after `done` replaces the old values. -/
theorem foldl_insert_after (l done : List (α × β)) (m : OrdMap α β)
    (hkeys : l.map Prod.fst = (m.entries.drop done.length).map Prod.fst)
    (hpre : m.entries.take done.length = done) :
    (l.foldl (fun acc e => acc.insert e.1 e.2) m).entries = done ++ l := by
  induction l generalizing done m with
  | nil =>
    have hdrop : m.entries.drop done.length = [] := List.map_eq_nil_iff.mp hkeys.symm
    rw [List.drop_eq_nil_iff] at hdrop
    rw [List.foldl_nil, List.append_nil, ← hpre, List.take_of_length_le hdrop]
  | cons e l ih =>
    obtain ⟨k, v⟩ := e
    obtain ⟨w, suf, hsplit, hsuf⟩ : ∃ w suf, m.entries.drop done.length = (k, w) :: suf ∧
        l.map Prod.fst = suf.map Prod.fst := by
      cases hd : m.entries.drop done.length with
      | nil => simp [hd] at hkeys
      | cons e' suf =>
        rw [hd, List.map_cons, List.map_cons, List.cons.injEq] at hkeys
        exact ⟨e'.2, suf, congrArg (· :: suf) (Prod.ext hkeys.1.symm rfl), hkeys.2⟩
    have hentries : m.entries = done ++ (k, w) :: suf := by
      rw [← List.take_append_drop done.length m.entries, hpre, hsplit]
    have hins : (m.insert k v).entries = (done ++ [(k, v)]) ++ suf := by
      simp only [insert, hentries, insertEntry_replace k v w done suf (hentries ▸ m.sorted),
        List.append_assoc, List.singleton_append]
    rw [List.foldl_cons, ih (done ++ [(k, v)]) (m.insert k v), List.append_assoc,
      List.singleton_append]
    · rw [hins, List.drop_left' rfl]
      exact hsuf
    · rw [hins, List.take_left' rfl]

/-- Writing back a value for every key, in key order, leaves exactly the written entries. -/
theorem foldl_insert_of_keys (m : OrdMap α β) (l : List (α × β))
    (h : l.map Prod.fst = m.entries.map Prod.fst) :
    (l.foldl (fun acc e => acc.insert e.1 e.2) m).entries = l :=
  foldl_insert_after l [] m h rfl


/-- Erasing drops the measure of the erased value. -/
theorem sumBy_erase (m : OrdMap α β) (k : α) (g : α → β → Nat) :
    (m.erase k).sumBy g + ((m.find? k).map (g k)).getD 0 = m.sumBy g := by
  obtain ⟨l, hl⟩ := m
  unfold sumBy erase find?
  dsimp only
  induction hl with
  | nil => rfl
  | @cons hd rest hhead hrest ih =>
    obtain ⟨k₁, v₁⟩ := hd
    by_cases h : k₁ = k
    · -- the head is the erased entry; every later key is greater, so nothing else goes
      subst h
      have hkeep : rest.filter (fun e => decide (e.1 ≠ k₁)) = rest := by
        rw [List.filter_eq_self]
        intro e he
        simpa using ne_of_gt (hhead e he)
      simp only [List.filter_cons, ne_eq, not_true_eq_false, decide_false, hkeep,
        List.find?_cons, decide_true, Option.map_some, Option.getD_some, List.map_cons,
        List.sum_cons, Bool.false_eq_true, if_false]
      omega
    · simp only [List.filter_cons, ne_eq, h, not_false_eq_true, decide_true, if_true,
        List.map_cons, List.sum_cons, List.find?_cons, decide_false]
      simp only [ne_eq] at ih
      omega

/-- What `find?` returns is the value of an entry. -/
theorem mem_of_find?_eq_some {m : OrdMap α β} {k : α} {v : β} (h : m.find? k = some v) :
    (k, v) ∈ m.entries := by
  simp only [find?, Option.map_eq_some_iff] at h
  obtain ⟨e, he, rfl⟩ := h
  have hk : e.1 = k := by simpa using List.find?_some he
  exact hk ▸ List.mem_of_find?_eq_some he

/-- The keys of a map are distinct. -/
theorem keys_nodup (m : OrdMap α β) : m.keys.Nodup :=
  (List.pairwise_map.mpr m.sorted).imp ne_of_lt

/-- A key has one entry. -/
theorem eq_of_mem_of_fst_eq (m : OrdMap α β) {e e' : α × β} (he : e ∈ m.entries)
    (he' : e' ∈ m.entries) (hk : e.1 = e'.1) : e = e' :=
  List.inj_on_of_nodup_map m.keys_nodup he he' hk

/-- What `find?` returns for the key of an entry is its value. -/
theorem find?_of_mem {m : OrdMap α β} {k : α} {v : β} (h : (k, v) ∈ m.entries) :
    m.find? k = some v := by
  obtain ⟨e, he⟩ : ∃ e, m.entries.find? (·.1 = k) = some e :=
    Option.isSome_iff_exists.mp (List.find?_isSome.mpr ⟨_, h, by simp⟩)
  have hk : e.1 = k := by simpa using List.find?_some he
  have heq : e = (k, v) := m.eq_of_mem_of_fst_eq (List.mem_of_find?_eq_some he) h hk
  simp [find?, he, heq]

theorem mem_keys_iff {m : OrdMap α β} {k : α} : k ∈ m.keys ↔ ∃ v, m.find? k = some v := by
  constructor
  · intro hk
    obtain ⟨e, he, rfl⟩ := List.mem_map.mp hk
    exact ⟨e.2, find?_of_mem he⟩
  · rintro ⟨v, hv⟩
    exact List.mem_map.mpr ⟨_, mem_of_find?_eq_some hv, rfl⟩

/-- Looking up the keys of some entries finds their values. -/
theorem filterMap_find?_map_fst (m : OrdMap α β) {l : List (α × β)}
    (hl : ∀ e ∈ l, e ∈ m.entries) : (l.map Prod.fst).filterMap m.find? = l.map Prod.snd := by
  induction l with
  | nil => rfl
  | cons e rest ih =>
    rw [List.map_cons, List.filterMap_cons, find?_of_mem (hl e List.mem_cons_self),
      ih fun e' he' => hl e' (List.mem_cons_of_mem _ he')]
    rfl

theorem keys_retain (m : OrdMap α β) (p : α → Bool) : (m.retain p).keys = m.keys.filter p := by
  simp [retain, keys, List.filter_map, Function.comp_def]

/-- Inserting at a key already present keeps the keys. -/
theorem keys_insert_of_find? {m : OrdMap α β} {k : α} {w : β} (h : m.find? k = some w) (v : β) :
    (m.insert k v).entries.map Prod.fst = m.entries.map Prod.fst := by
  obtain ⟨pre, suf, hsplit⟩ := List.append_of_mem (mem_of_find?_eq_some h)
  have hsorted := m.sorted
  rw [hsplit] at hsorted
  simp [insert, hsplit, insertEntry_replace k v w pre suf hsorted]

/-- Inserting at a key already present a value that `g` does not tell from the old one keeps
the entries as `g` sees them. -/
theorem map_insert_of_find? {γ : Type} {m : OrdMap α β} {k : α} {w : β} (h : m.find? k = some w)
    (v : β) (g : α × β → γ) (hg : g (k, v) = g (k, w)) :
    (m.insert k v).entries.map g = m.entries.map g := by
  obtain ⟨pre, suf, hsplit⟩ := List.append_of_mem (mem_of_find?_eq_some h)
  have hsorted := m.sorted
  rw [hsplit] at hsorted
  simp [insert, hsplit, insertEntry_replace k v w pre suf hsorted, hg]

/-- Every entry of a map built from a list is an entry of the list. -/
theorem mem_ofList {l : List (α × β)} {e : α × β} (h : e ∈ (ofList l).entries) : e ∈ l := by
  rcases mem_foldl_insert h with h | h
  · simp [empty] at h
  · exact h

/-- Every key of the list is a key of the map built from it. -/
theorem key_mem_ofList {l : List (α × β)} {e : α × β} (h : e ∈ l) :
    ∃ v, (e.1, v) ∈ (ofList l).entries :=
  key_mem_foldl_insert (.inr h)

/-- `retain` with a test that reads the value too, as `HashMap::retain` and `BTreeMap::retain`
do. -/
def filter (m : OrdMap α β) (p : α → β → Bool) : OrdMap α β :=
  ⟨m.entries.filter (fun e => p e.1 e.2), m.sorted.filter _⟩

theorem find?_eq_some_iff {m : OrdMap α β} {k : α} {v : β} :
    m.find? k = some v ↔ (k, v) ∈ m.entries :=
  ⟨mem_of_find?_eq_some, find?_of_mem⟩

/-- An entry after an insertion is the inserted one or an entry of another key. -/
theorem mem_insert {m : OrdMap α β} {k : α} {v : β} {e : α × β} :
    e ∈ (m.insert k v).entries ↔ e = (k, v) ∨ (e ∈ m.entries ∧ e.1 ≠ k) := by
  obtain ⟨k', v'⟩ := e
  rw [← find?_eq_some_iff, ← find?_eq_some_iff, find?_insert]
  by_cases hk : k' = k
  · subst hk
    simp [eq_comm]
  · simp [hk]

theorem mem_erase_iff {m : OrdMap α β} {k : α} {e : α × β} :
    e ∈ (m.erase k).entries ↔ e ∈ m.entries ∧ e.1 ≠ k := by
  simp [erase]

theorem mem_filter {m : OrdMap α β} {p : α → β → Bool} {e : α × β} :
    e ∈ (m.filter p).entries ↔ e ∈ m.entries ∧ p e.1 e.2 = true := by
  simp [filter]

theorem mem_mapVal_iff {γ : Type} {m : OrdMap α β} {f : β → γ} {k : α} {w : γ} :
    (k, w) ∈ (m.mapVal f).entries ↔ ∃ v, (k, v) ∈ m.entries ∧ f v = w := by
  simp [mapVal, and_comm]

/-- Removing the first key leaves the rest of the entries. -/
theorem entries_erase_of_head {m : OrdMap α β} {k : α} {v : β} {rest : List (α × β)}
    (h : m.entries = (k, v) :: rest) : (m.erase k).entries = rest := by
  have hs := m.sorted
  rw [h, List.pairwise_cons] at hs
  simp only [erase, h, List.filter_cons, ne_eq, not_true_eq_false, decide_false,
    Bool.false_eq_true, if_false]
  rw [List.filter_eq_self]
  intro e he
  simpa using ne_of_gt (hs.1 e he)

/-- Overwriting the first key keeps it first. -/
theorem entries_insert_of_head {m : OrdMap α β} {k : α} {v w : β} {rest : List (α × β)}
    (h : m.entries = (k, v) :: rest) : (m.insert k w).entries = (k, w) :: rest := by
  simp [insert, h, insertEntry]

/-- Removing keys one after another leaves the entries of the other keys. -/
theorem mem_foldl_erase {m : OrdMap α β} {l : List α} {e : α × β} :
    e ∈ (l.foldl (·.erase ·) m).entries ↔ e ∈ m.entries ∧ e.1 ∉ l := by
  induction l generalizing m with
  | nil => simp
  | cons k l ih =>
    simp only [List.foldl_cons, ih, mem_erase_iff, List.mem_cons, not_or]
    constructor
    · rintro ⟨⟨he, hk⟩, hl⟩
      exact ⟨he, hk, hl⟩
    · rintro ⟨he, hk, hl⟩
      exact ⟨⟨he, hk⟩, hl⟩

end OrdMap
