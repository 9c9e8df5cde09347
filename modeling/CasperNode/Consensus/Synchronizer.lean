import CasperNode.Library.OrdMap

/-!
# The Highway synchronizer

`Synchronizer` holds the vertices a node has received but not yet added to its protocol state,
in three queues: `vertices_no_deps` (ready to try), `vertices_to_be_added_later` (keyed by the
time they may be added) and `vertices_awaiting_deps` (keyed by the dependency each one
misses).  A queue is a `PendingVertices`: for each vertex, the peers who sent it and when.

The model is generic in the vertices `V`, the dependencies `D` and the peers `N`, as the code is
generic in its `Context`; it reads what it needs of the protocol state through a `HighwayView`
(`has_vertex`, `has_dependency`, `missing_dependency`) and of a vertex through its id.  Both
the `BTreeMap`s and the `HashMap`s are `OrdMap`s: iteration over a `HashMap`, whose order the
code leaves to the hasher, is taken in key order.  The `while` and `loop` of the code run on
fuel and return `none` when it runs out.

Part of what the code writes is only logged (`oldest_seen_panorama`, the unit hashes that
`remove_expired` returns) and is left out; the random id of a dependency request is left out
of the request.
-/

namespace CasperNode.Highway

variable {V D N : Type} [LinearOrder V] [LinearOrder D] [LinearOrder N]

/-- `PendingVertex`: a vertex, the peer who sent it and when it arrived. -/
structure PendingVertex (V N : Type) where
  sender : N
  pvv : V
  timeReceived : Nat
deriving DecidableEq, Repr

/-- `PendingVertices`: each vertex with the time it arrived from each peer that sent it. -/
structure PendingVertices (V N : Type) [LinearOrder V] [LinearOrder N] where
  map : OrdMap V (OrdMap N Nat)
deriving DecidableEq

/-- The part of `Highway`, the protocol state, that the synchronizer reads. -/
structure HighwayView (V D : Type) where
  hasVertex : V → Bool
  hasDependency : D → Bool
  missingDependency : V → Option D

/-- `ProtocolOutcome`s the synchronizer returns: `QueueAction(ACTION_ID_VERTEX)`, and a
`CreatedTargetedMessage` carrying `RequestDependency(_, dep)` to `peer`. -/
inductive ProtocolOutcome (D N : Type)
  | queueAction
  | requestDependency (dep : D) (peer : N)
deriving DecidableEq, Repr

namespace PendingVertices

/-- `remove_expired`: drops each sender whose copy arrived before `oldest`, then each vertex
left with no sender. -/
def removeExpired (oldest : Nat) (pvs : PendingVertices V N) : PendingVertices V N :=
  ⟨(pvs.map.mapVal fun timeBySender => timeBySender.filter fun _ t => oldest ≤ t).filter
    fun _ timeByPeer => !timeByPeer.entries.isEmpty⟩

/-- `add`: `pvv` from `sender`, keeping the later time if the sender sent it before. -/
def add (sender : N) (pvv : V) (timeReceived : Nat) (pvs : PendingVertices V N) :
    PendingVertices V N :=
  let timeBySender := (pvs.map.find? pvv).getD .empty
  ⟨pvs.map.insert pvv (timeBySender.insert sender
    (match timeBySender.find? sender with
      | some timestamp => max timestamp timeReceived
      | none => timeReceived))⟩

/-- `add_holder`: the first vertex whose id is `dep` gets `sender` as a holder, unless it has
it already. -/
def addHolder (id : V → D) (dep : D) (sender : N) (timeReceived : Nat)
    (pvs : PendingVertices V N) : PendingVertices V N :=
  match pvs.map.entries.find? (fun e => id e.1 = dep) with
  | none => pvs
  | some (pvv, holders) =>
    ⟨pvs.map.insert pvv (holders.insert sender ((holders.find? sender).getD timeReceived))⟩

/-- `push`. -/
def push (pv : PendingVertex V N) (pvs : PendingVertices V N) : PendingVertices V N :=
  pvs.add pv.sender pv.pvv pv.timeReceived

/-- `pop`: the first sender of the first vertex, removed; the vertex goes when it has no
sender left. -/
def pop (pvs : PendingVertices V N) : Option (PendingVertex V N × PendingVertices V N) :=
  match pvs.map.entries with
  | [] => none
  | (pvv, timeBySender) :: _ =>
    match timeBySender.entries with
    | [] => none
    | (sender, timestamp) :: _ =>
      let rest := timeBySender.erase sender
      some (⟨sender, pvv, timestamp⟩,
        ⟨if rest.entries.isEmpty then pvs.map.erase pvv else pvs.map.insert pvv rest⟩)

/-- `contains_dependency`: some vertex has id `d`. -/
def containsDependency (id : V → D) (d : D) (pvs : PendingVertices V N) : Bool :=
  pvs.map.keys.any fun pvv => id pvv = d

/-- `is_empty`. -/
def isEmpty (pvs : PendingVertices V N) : Bool := pvs.map.entries.isEmpty

/-- `retain_evidence_only`: the vertices that are evidence stay, as `Vertex::is_evidence`
tells them apart. -/
def retainEvidenceOnly (isEvidence : V → Bool) (pvs : PendingVertices V N) :
    PendingVertices V N :=
  ⟨pvs.map.retain isEvidence⟩

/-- The pending vertices of some entries, in the order repeated `pop` gives them. -/
def drainEntries : List (V × OrdMap N Nat) → List (PendingVertex V N)
  | [] => []
  | (pvv, timeBySender) :: m =>
    if timeBySender.entries.isEmpty then []
    else timeBySender.entries.map (fun e => ⟨e.1, pvv, e.2⟩) ++ drainEntries m

/-- The `Iterator` of `PendingVertices`, whose `next` is `pop`, run to its end. -/
def drain (pvs : PendingVertices V N) : List (PendingVertex V N) := drainEntries pvs.map.entries

end PendingVertices

/-- The empty queue. -/
def PendingVertices.empty : PendingVertices V N := ⟨.empty⟩

/-- `Synchronizer`, without the fields that are only logged. -/
structure Synchronizer (V D N : Type) [LinearOrder V] [LinearOrder D] [LinearOrder N] where
  verticesAwaitingDeps : OrdMap D (PendingVertices V N)
  verticesToBeAddedLater : OrdMap Nat (PendingVertices V N)
  verticesNoDeps : PendingVertices V N
  requestsSent : OrdMap D (List N)
deriving DecidableEq

namespace Synchronizer

/-- `Synchronizer::new`. -/
def new : Synchronizer V D N := ⟨.empty, .empty, .empty, .empty⟩

/-- `remove_expired` on a map of queues: expired copies go, and then the queues left empty. -/
def removeExpired {T : Type} [LinearOrder T] (map : OrdMap T (PendingVertices V N))
    (oldest : Nat) : OrdMap T (PendingVertices V N) :=
  (map.mapVal (·.removeExpired oldest)).filter fun _ pvs => !pvs.isEmpty

/-- `purge_vertices`. -/
def purgeVertices (oldest : Nat) (s : Synchronizer V D N) : Synchronizer V D N :=
  { verticesNoDeps := s.verticesNoDeps.removeExpired oldest
    requestsSent := .empty
    verticesToBeAddedLater := removeExpired s.verticesToBeAddedLater oldest
    verticesAwaitingDeps := removeExpired s.verticesAwaitingDeps oldest }

/-- `Synchronizer::is_empty`: no queue holds a vertex. -/
def isEmpty (s : Synchronizer V D N) : Bool :=
  s.verticesAwaitingDeps.entries.isEmpty && s.verticesNoDeps.isEmpty &&
    s.verticesToBeAddedLater.entries.isEmpty

/-- `Synchronizer::retain_evidence_only`: every queue but `vertices_no_deps` is cleared, that one
keeps only evidence, and the request records are cleared. -/
def retainEvidenceOnly (isEvidence : V → Bool) (s : Synchronizer V D N) : Synchronizer V D N :=
  { verticesAwaitingDeps := .empty
    verticesToBeAddedLater := .empty
    verticesNoDeps := s.verticesNoDeps.retainEvidenceOnly isEvidence
    requestsSent := .empty }

/-- `schedule_add_vertices`: the vertices go to `vertices_no_deps`, and a `QueueAction` is
returned if that queue was empty and is not any more. -/
def scheduleAddVertices (pendingVertices : List (PendingVertex V N)) (s : Synchronizer V D N) :
    Synchronizer V D N × List (ProtocolOutcome D N) :=
  let noDeps := pendingVertices.foldl (fun pvs pv => pvs.push pv) s.verticesNoDeps
  ({ s with verticesNoDeps := noDeps },
    if s.verticesNoDeps.isEmpty && !noDeps.isEmpty then [.queueAction] else [])

/-- `store_vertex_for_addition_later`. -/
def storeVertexForAdditionLater (futureTimestamp now : Nat) (sender : N) (pvv : V)
    (s : Synchronizer V D N) : Synchronizer V D N :=
  let pvs := (s.verticesToBeAddedLater.find? futureTimestamp).getD .empty
  { s with
    verticesToBeAddedLater := s.verticesToBeAddedLater.insert futureTimestamp
      (pvs.add sender pvv now) }

/-- One past-due timestamp of `add_past_due_stored_vertices`: its queue is removed and
scheduled. -/
def addStoredAt (acc : Synchronizer V D N × List (ProtocolOutcome D N)) (pastDue : Nat) :
    Synchronizer V D N × List (ProtocolOutcome D N) :=
  match acc.1.verticesToBeAddedLater.find? pastDue with
  | none => acc
  | some verticesToAdd =>
    let r := scheduleAddVertices verticesToAdd.drain
      { acc.1 with verticesToBeAddedLater := acc.1.verticesToBeAddedLater.erase pastDue }
    (r.1, acc.2 ++ r.2)

/-- `add_past_due_stored_vertices`: the queues at timestamps up to `timestamp`, in order. -/
def addPastDueStoredVertices (timestamp : Nat) (s : Synchronizer V D N) :
    Synchronizer V D N × List (ProtocolOutcome D N) :=
  (s.verticesToBeAddedLater.keys.filter (· ≤ timestamp)).foldl addStoredAt (s, [])

/-- `schedule_add_vertex` (its `update_last_seen` is only logged). -/
def scheduleAddVertex (sender : N) (pvv : V) (now : Nat) (s : Synchronizer V D N) :
    Synchronizer V D N × List (ProtocolOutcome D N) :=
  scheduleAddVertices [⟨sender, pvv, now⟩] s

/-- `remove_satisfied_deps`: the queues of the dependencies the protocol state has are
scheduled, and their request records go.  The `unwrap` cannot fail: the keys are read from the
map. -/
def removeSatisfiedDeps (highway : HighwayView V D) (s : Synchronizer V D N) :
    Synchronizer V D N × List (ProtocolOutcome D N) :=
  let satisfiedDeps := s.verticesAwaitingDeps.keys.filter highway.hasDependency
  let pvs := satisfiedDeps.flatMap fun dep =>
    ((s.verticesAwaitingDeps.find? dep).getD .empty).drain
  scheduleAddVertices pvs
    { s with
      verticesAwaitingDeps := satisfiedDeps.foldl (·.erase ·) s.verticesAwaitingDeps
      requestsSent := satisfiedDeps.foldl (·.erase ·) s.requestsSent }

/-- `add_missing_dependency`. -/
def addMissingDependency (dep : D) (pv : PendingVertex V N) (s : Synchronizer V D N) :
    Synchronizer V D N :=
  let pvs := (s.verticesAwaitingDeps.find? dep).getD .empty
  { s with verticesAwaitingDeps := s.verticesAwaitingDeps.insert dep (pvs.push pv) }

section Pop

variable (id : V → D)

/-- `find_transitive_dependency`: while a queue of `vertices_awaiting_deps` holds a vertex
with the missing dependency's id, the sender becomes one of its holders and the chain goes on
to that queue's key. -/
def findTransitiveDependency :
    Nat → OrdMap D (PendingVertices V N) → D → N → Nat →
      Option (D × OrdMap D (PendingVertices V N))
  | 0, _, _, _, _ => none
  | fuel + 1, awaiting, missingDependency, sender, timeReceived =>
    match awaiting.entries.find? (fun e => e.2.containsDependency id missingDependency) with
    | none => some (missingDependency, awaiting)
    | some (nextMissing, pvs) =>
      findTransitiveDependency fuel
        (awaiting.insert nextMissing (pvs.addHolder id missingDependency sender timeReceived))
        nextMissing sender timeReceived

/-- A `QueueAction` when `vertices_no_deps` is not empty. -/
def queueIfNonempty (s : Synchronizer V D N) : List (ProtocolOutcome D N) :=
  if s.verticesNoDeps.isEmpty then [] else [.queueAction]

/-- How one turn of the `loop` of `pop_vertex_to_add` ends: `again` at `continue`, `stop` at
`return`, `stuck` when `find_transitive_dependency` runs out of fuel. -/
inductive Turn (V D N : Type) [LinearOrder V] [LinearOrder D] [LinearOrder N]
  | again (s : Synchronizer V D N) (outcomes : List (ProtocolOutcome D N))
  | stop (pv : Option (PendingVertex V N)) (outcomes : List (ProtocolOutcome D N))
      (s : Synchronizer V D N)
  | stuck

/-- One turn of the `loop` of `pop_vertex_to_add`: the next vertex of `vertices_no_deps` is
skipped if the protocol state has it, returned if it misses nothing, and otherwise filed under
its missing dependency, with the end of that dependency's chain requested from its sender (or,
if it is a proposal the block validator holds, returned in its place). -/
def popTurn (highway : HighwayView V D) (pendingValues : List (V × N))
    (maxRequestsForVertex fuel : Nat) (s : Synchronizer V D N)
    (outcomes : List (ProtocolOutcome D N)) : Turn V D N :=
  match s.verticesNoDeps.pop with
  | none => .stop none outcomes s
  | some (pv, noDeps) =>
    let s := { s with verticesNoDeps := noDeps }
    if highway.hasVertex pv.pvv then .again s outcomes
    else
      match highway.missingDependency pv.pvv with
      | none => .stop (some pv) (outcomes ++ queueIfNonempty s) s
      | some dep =>
        match findTransitiveDependency id fuel s.verticesAwaitingDeps dep pv.sender
            pv.timeReceived with
        | none => .stuck
        | some (transitiveDependency, awaiting) =>
          let s := { s with verticesAwaitingDeps := awaiting }
          if s.verticesNoDeps.containsDependency id transitiveDependency then
            .again (s.addMissingDependency dep pv) outcomes
          else
            let s := s.addMissingDependency dep pv
            if pendingValues.any (fun e => id e.1 = transitiveDependency ∧ e.2 = pv.sender) then
              .again s outcomes
            else
              match pendingValues.find? (fun e => id e.1 = transitiveDependency) with
              | some (vv, _) =>
                .stop (some ⟨pv.sender, vv, pv.timeReceived⟩) (outcomes ++ queueIfNonempty s) s
              | none =>
                let entry := (s.requestsSent.find? transitiveDependency).getD []
                if maxRequestsForVertex ≤ entry.length ∨ entry.contains pv.sender then
                  .again { s with requestsSent := s.requestsSent.insert transitiveDependency entry }
                    outcomes
                else
                  .again
                    { s with requestsSent :=
                        s.requestsSent.insert transitiveDependency (entry.insert pv.sender) }
                    (outcomes ++ [.requestDependency transitiveDependency pv.sender])

/-- `pop_vertex_to_add`: its `loop` on fuel, from the outcomes so far; the vertex to add, the
outcomes, and the synchronizer after. -/
def popVertexToAdd (highway : HighwayView V D) (pendingValues : List (V × N))
    (maxRequestsForVertex : Nat) :
    Nat → Synchronizer V D N → List (ProtocolOutcome D N) →
      Option (Option (PendingVertex V N) × List (ProtocolOutcome D N) × Synchronizer V D N)
  | 0, _, _ => none
  | fuel + 1, s, outcomes =>
    match popTurn id highway pendingValues maxRequestsForVertex fuel s outcomes with
    | .again s outcomes => popVertexToAdd highway pendingValues maxRequestsForVertex fuel s outcomes
    | .stop pv outcomes s => some (pv, outcomes, s)
    | .stuck => none

/-- One dependency of `do_drop_dependent_vertices`: its queue, if there is one, is removed
and its vertices are collected. -/
def dropQueue (acc : List (PendingVertex V N) × OrdMap D (PendingVertices V N)) (vertex : D) :
    List (PendingVertex V N) × OrdMap D (PendingVertices V N) :=
  match acc.2.find? vertex with
  | none => acc
  | some pvs => (acc.1 ++ pvs.drain, acc.2.erase vertex)

variable (isUnit : D → Bool)

/-- `do_drop_dependent_vertices`: the queues of the given unit dependencies are removed; the
ids and senders of their vertices are returned. -/
def doDropDependentVertices (vertices : List D) (awaiting : OrdMap D (PendingVertices V N)) :
    List D × List N × OrdMap D (PendingVertices V N) :=
  let r := (vertices.filter isUnit).foldl dropQueue ([], awaiting)
  (r.1.map fun pv => id pv.pvv, r.1.map (·.sender), r.2)

/-- `invalid_vertices`, its `while` on fuel: drops every vertex that depends, directly or
through other dropped vertices, on the given ones, and returns their senders. -/
def invalidVertices : Nat → List D → Synchronizer V D N → Option (List N × Synchronizer V D N)
  | 0, _, _ => none
  | fuel + 1, vertices, s =>
    if vertices.isEmpty then some ([], s)
    else
      let (newVertices, newSenders, awaiting) :=
        doDropDependentVertices id isUnit vertices s.verticesAwaitingDeps
      (invalidVertices fuel newVertices { s with verticesAwaitingDeps := awaiting }).map
        fun r => (newSenders ++ r.1, r.2)

end Pop

end Synchronizer

/-! ## Queues -/

namespace PendingVertices

/-- `pv` is in the queue: its vertex is there, with its sender at its time. -/
def Mem (pvs : PendingVertices V N) (pv : PendingVertex V N) : Prop :=
  ∃ timeBySender, (pv.pvv, timeBySender) ∈ pvs.map.entries ∧
    (pv.sender, pv.timeReceived) ∈ timeBySender.entries

instance : Membership (PendingVertex V N) (PendingVertices V N) := ⟨Mem⟩

theorem mem_iff {pvs : PendingVertices V N} {pv : PendingVertex V N} :
    pv ∈ pvs ↔ ∃ timeBySender, (pv.pvv, timeBySender) ∈ pvs.map.entries ∧
      (pv.sender, pv.timeReceived) ∈ timeBySender.entries := Iff.rfl

/-- A copy of `v` from `n` received at `t` or later. -/
def HasFrom (pvs : PendingVertices V N) (v : V) (n : N) (t : Nat) : Prop :=
  ∃ t' ≥ t, (⟨n, v, t'⟩ : PendingVertex V N) ∈ pvs

/-- Every vertex of the queue has a sender. -/
def WF (pvs : PendingVertices V N) : Prop := ∀ e ∈ pvs.map.entries, e.2.entries ≠ []

theorem HasFrom.mono {pvs : PendingVertices V N} {v : V} {n : N} {t t' : Nat}
    (h : pvs.HasFrom v n t) (ht : t' ≤ t) : pvs.HasFrom v n t' := by
  obtain ⟨t₁, ht₁, hmem⟩ := h
  exact ⟨t₁, le_trans ht ht₁, hmem⟩

theorem hasFrom_of_mem {pvs : PendingVertices V N} {pv : PendingVertex V N} (h : pv ∈ pvs) :
    pvs.HasFrom pv.pvv pv.sender pv.timeReceived :=
  ⟨pv.timeReceived, le_refl _, h⟩

theorem mem_keys_of_mem {pvs : PendingVertices V N} {pv : PendingVertex V N} (h : pv ∈ pvs) :
    pv.pvv ∈ pvs.map.keys := by
  obtain ⟨timeBySender, hmem, -⟩ := h
  exact List.mem_map.mpr ⟨_, hmem, rfl⟩

theorem not_mem_empty (pv : PendingVertex V N) : pv ∉ (PendingVertices.empty : PendingVertices V N) := by
  rintro ⟨_, h, -⟩
  cases h

theorem wf_empty : (PendingVertices.empty : PendingVertices V N).WF := by
  intro e he
  cases he

/-! ### `add` -/

/-- The copy `add` files has the later of the two times. -/
theorem hasFrom_add_self (pvs : PendingVertices V N) (n : N) (v : V) (t : Nat) :
    (pvs.add n v t).HasFrom v n t := by
  set timeBySender := (pvs.map.find? v).getD .empty
  refine ⟨match timeBySender.find? n with
    | some timestamp => max timestamp t
    | none => t, ?_, ?_⟩
  · split
    · exact le_max_right _ _
    · exact le_refl t
  · exact ⟨_, OrdMap.mem_insert.mpr (Or.inl rfl), OrdMap.mem_insert.mpr (Or.inl rfl)⟩

/-- `add` keeps every copy, its time raised at most. -/
theorem HasFrom.add {pvs : PendingVertices V N} {v' : V} {n' : N} {t' : Nat}
    (h : pvs.HasFrom v' n' t') (n : N) (v : V) (t : Nat) : (pvs.add n v t).HasFrom v' n' t' := by
  obtain ⟨t₁, ht₁, timeBySender, hv, hn⟩ := h
  by_cases hvv : v' = v
  · subst hvv
    have hfind : pvs.map.find? v' = some timeBySender := OrdMap.find?_of_mem hv
    by_cases hnn : n' = n
    · subst hnn
      refine ⟨max t₁ t, le_trans ht₁ (le_max_left _ _), _, OrdMap.mem_insert.mpr (Or.inl rfl), ?_⟩
      simp only [hfind, Option.getD_some, OrdMap.find?_of_mem hn]
      exact OrdMap.mem_insert.mpr (Or.inl rfl)
    · refine ⟨t₁, ht₁, _, OrdMap.mem_insert.mpr (Or.inl rfl), ?_⟩
      simp only [hfind, Option.getD_some]
      exact OrdMap.mem_insert.mpr (Or.inr ⟨hn, hnn⟩)
  · exact ⟨t₁, ht₁, timeBySender, OrdMap.mem_insert.mpr (Or.inr ⟨hv, hvv⟩), hn⟩

/-- What `add` holds was there, or is the copy it files. -/
theorem mem_of_mem_add {pvs : PendingVertices V N} {n : N} {v : V} {t : Nat}
    {pv : PendingVertex V N} (h : pv ∈ pvs.add n v t) :
    pv ∈ pvs ∨ (pv.pvv = v ∧ pv.sender = n) := by
  obtain ⟨timeBySender, hv, hn⟩ := h
  rcases OrdMap.mem_insert.mp hv with heq | ⟨hv, -⟩
  · obtain ⟨hpv, rfl⟩ := Prod.mk.inj heq
    rcases OrdMap.mem_insert.mp hn with heq' | ⟨hn, -⟩
    · exact Or.inr ⟨hpv, (Prod.mk.inj heq').1⟩
    · left
      cases hfind : pvs.map.find? v with
      | none =>
        rw [hfind] at hn
        cases hn
      | some old =>
        rw [hfind] at hn
        exact ⟨old, hpv ▸ OrdMap.mem_of_find?_eq_some hfind, hn⟩
  · exact Or.inl ⟨timeBySender, hv, hn⟩

theorem mem_keys_add {pvs : PendingVertices V N} {n : N} {v x : V} {t : Nat} :
    x ∈ (pvs.add n v t).map.keys ↔ x = v ∨ x ∈ pvs.map.keys := by
  simp only [OrdMap.keys, List.mem_map, Prod.exists, exists_and_right, exists_eq_right, add,
    OrdMap.mem_insert, Prod.mk.injEq]
  constructor
  · rintro ⟨w, ⟨rfl, -⟩ | ⟨hw, -⟩⟩
    · exact Or.inl rfl
    · exact Or.inr ⟨w, hw⟩
  · rintro (rfl | ⟨w, hw⟩)
    · exact ⟨_, Or.inl ⟨rfl, rfl⟩⟩
    · by_cases hx : x = v
      · exact ⟨_, Or.inl ⟨hx, rfl⟩⟩
      · exact ⟨w, Or.inr ⟨hw, hx⟩⟩

theorem WF.add {pvs : PendingVertices V N} (h : pvs.WF) (n : N) (v : V) (t : Nat) :
    (pvs.add n v t).WF := by
  intro e he
  rcases OrdMap.mem_insert.mp he with rfl | ⟨he, -⟩
  · exact OrdMap.entries_insert_ne_nil _ _ _
  · exact h e he

/-! ### `pop` and the iterator -/

omit [LinearOrder V] in
/-- With a sender for every vertex, the iterator lists exactly the copies of the queue. -/
theorem mem_drainEntries {l : List (V × OrdMap N Nat)} (hwf : ∀ e ∈ l, e.2.entries ≠ [])
    {pv : PendingVertex V N} :
    pv ∈ drainEntries l ↔ ∃ timeBySender, (pv.pvv, timeBySender) ∈ l ∧
      (pv.sender, pv.timeReceived) ∈ timeBySender.entries := by
  induction l with
  | nil => simp [drainEntries]
  | cons e l ih =>
    obtain ⟨v, timeBySender⟩ := e
    have hne : timeBySender.entries.isEmpty = false :=
      List.isEmpty_eq_false_iff.mpr (hwf _ List.mem_cons_self)
    simp only [drainEntries, hne, Bool.false_eq_true, if_false, List.mem_append, List.mem_map,
      ih fun e he => hwf e (List.mem_cons_of_mem _ he), List.mem_cons]
    constructor
    · rintro (⟨⟨n, t⟩, hnt, rfl⟩ | ⟨tbs, htbs, hmem⟩)
      · exact ⟨timeBySender, Or.inl rfl, hnt⟩
      · exact ⟨tbs, Or.inr htbs, hmem⟩
    · rintro ⟨tbs, heq | htbs, hmem⟩
      · obtain ⟨hv, rfl⟩ := Prod.mk.inj heq
        exact Or.inl ⟨(pv.sender, pv.timeReceived), hmem, by rw [← hv]⟩
      · exact Or.inr ⟨tbs, htbs, hmem⟩

theorem mem_drain {pvs : PendingVertices V N} (hwf : pvs.WF) {pv : PendingVertex V N} :
    pv ∈ pvs.drain ↔ pv ∈ pvs :=
  mem_drainEntries hwf

/-- What `pop` does to the entries: the first copy goes, and the first vertex with it if that
was its last sender. -/
theorem pop_eq_some {pvs pvs' : PendingVertices V N} {pv : PendingVertex V N}
    (h : pvs.pop = some (pv, pvs')) :
    ∃ timeBySender m, pvs.map.entries = (pv.pvv, timeBySender) :: m ∧
      timeBySender.entries = (pv.sender, pv.timeReceived) :: (timeBySender.erase pv.sender).entries ∧
      pvs'.map.entries = if (timeBySender.erase pv.sender).entries.isEmpty then m
        else (pv.pvv, timeBySender.erase pv.sender) :: m := by
  unfold pop at h
  split at h
  · cases h
  · next v timeBySender m hentries =>
    split at h
    · cases h
    · next n t rest hsenders =>
      obtain ⟨rfl, rfl⟩ := Prod.mk.inj (Option.some.inj h)
      refine ⟨timeBySender, m, hentries, ?_, ?_⟩
      · rw [OrdMap.entries_erase_of_head hsenders]
        exact hsenders
      · dsimp only
        split
        · exact OrdMap.entries_erase_of_head hentries
        · exact OrdMap.entries_insert_of_head hentries

/-- The iterator is `pop` run to its end. -/
theorem drain_of_pop {pvs pvs' : PendingVertices V N} {pv : PendingVertex V N}
    (h : pvs.pop = some (pv, pvs')) : pvs.drain = pv :: pvs'.drain := by
  obtain ⟨timeBySender, m, hentries, hsenders, hrest⟩ := pop_eq_some h
  have hhead : drainEntries ((pv.pvv, timeBySender) :: m) =
      pv :: ((timeBySender.erase pv.sender).entries.map (fun e => ⟨e.1, pv.pvv, e.2⟩) ++
        drainEntries m) := by
    rw [drainEntries, hsenders]
    rfl
  rw [drain, drain, hentries, hhead, hrest]
  split
  · next hempty =>
    rw [List.isEmpty_iff.mp hempty]
    rfl
  · next hne => simp only [drainEntries, hne, Bool.false_eq_true, if_false]

theorem WF.pop {pvs pvs' : PendingVertices V N} {pv : PendingVertex V N} (hwf : pvs.WF)
    (h : pvs.pop = some (pv, pvs')) : pvs'.WF := by
  obtain ⟨timeBySender, m, hentries, -, hrest⟩ := pop_eq_some h
  have hm : ∀ e ∈ m, e.2.entries ≠ [] := fun e he => hwf e (hentries ▸ List.mem_cons_of_mem _ he)
  intro e he
  rw [hrest] at he
  split at he
  · exact hm e he
  · next hne =>
    rcases List.mem_cons.mp he with rfl | he
    · simpa using hne
    · exact hm e he

/-- `pop` takes out one copy and keeps the others. -/
theorem mem_pop {pvs pvs' : PendingVertices V N} {pv : PendingVertex V N} (hwf : pvs.WF)
    (h : pvs.pop = some (pv, pvs')) {q : PendingVertex V N} : q ∈ pvs ↔ q = pv ∨ q ∈ pvs' := by
  rw [← mem_drain hwf, ← mem_drain (hwf.pop h), drain_of_pop h, List.mem_cons]

/-- The queue shrinks by one copy at each `pop`. -/
theorem length_drain_pop {pvs pvs' : PendingVertices V N} {pv : PendingVertex V N}
    (h : pvs.pop = some (pv, pvs')) : pvs'.drain.length + 1 = pvs.drain.length := by
  rw [drain_of_pop h, List.length_cons]

theorem pop_eq_none {pvs : PendingVertices V N} (hwf : pvs.WF) :
    pvs.pop = none ↔ pvs.isEmpty = true := by
  unfold pop isEmpty
  split
  · next h => simp [h]
  · next v timeBySender m hentries =>
    have hne := hwf _ (hentries ▸ List.mem_cons_self)
    split
    · next hsenders => exact absurd hsenders hne
    · simp [hentries]

/-- An empty queue holds nothing. -/
theorem not_mem_of_isEmpty {pvs : PendingVertices V N} (h : pvs.isEmpty = true)
    (pv : PendingVertex V N) : pv ∉ pvs := by
  rintro ⟨_, hv, -⟩
  rw [isEmpty, List.isEmpty_iff] at h
  rw [h] at hv
  cases hv

theorem isEmpty_eq_false_of_mem {pvs : PendingVertices V N} {pv : PendingVertex V N}
    (h : pv ∈ pvs) : pvs.isEmpty = false := by
  cases hempty : pvs.isEmpty with
  | false => rfl
  | true => exact absurd h (not_mem_of_isEmpty hempty pv)

theorem mem_keys_of_pop {pvs pvs' : PendingVertices V N} {pv : PendingVertex V N}
    (h : pvs.pop = some (pv, pvs')) : pv.pvv ∈ pvs.map.keys := by
  obtain ⟨timeBySender, m, hentries, -, -⟩ := pop_eq_some h
  simp [OrdMap.keys, hentries]

theorem keys_pop_subset {pvs pvs' : PendingVertices V N} {pv : PendingVertex V N}
    (h : pvs.pop = some (pv, pvs')) {x : V} (hx : x ∈ pvs'.map.keys) : x ∈ pvs.map.keys := by
  obtain ⟨timeBySender, m, hentries, -, hrest⟩ := pop_eq_some h
  simp only [OrdMap.keys, hrest, hentries] at hx ⊢
  split at hx
  · exact List.mem_cons_of_mem _ hx
  · simpa using hx

/-! ### `remove_expired`, `add_holder`, `contains_dependency` -/

/-- `remove_expired` keeps exactly the copies received at `oldest` or later. -/
theorem mem_removeExpired {pvs : PendingVertices V N} {oldest : Nat} {pv : PendingVertex V N} :
    pv ∈ pvs.removeExpired oldest ↔ pv ∈ pvs ∧ oldest ≤ pv.timeReceived := by
  constructor
  · rintro ⟨kept, hkept, hn⟩
    obtain ⟨hmapped, -⟩ := OrdMap.mem_filter.mp hkept
    obtain ⟨timeBySender, hv, rfl⟩ := OrdMap.mem_mapVal_iff.mp hmapped
    obtain ⟨hn', ht⟩ := OrdMap.mem_filter.mp hn
    exact ⟨⟨timeBySender, hv, hn'⟩, of_decide_eq_true ht⟩
  · rintro ⟨⟨timeBySender, hv, hn⟩, ht⟩
    have hkept : (pv.sender, pv.timeReceived) ∈
        (timeBySender.filter fun _ t => decide (oldest ≤ t)).entries :=
      OrdMap.mem_filter.mpr ⟨hn, decide_eq_true ht⟩
    refine ⟨_, OrdMap.mem_filter.mpr ⟨OrdMap.mem_mapVal_iff.mpr ⟨timeBySender, hv, rfl⟩, ?_⟩, hkept⟩
    simpa using List.ne_nil_of_mem hkept

theorem wf_removeExpired (pvs : PendingVertices V N) (oldest : Nat) :
    (pvs.removeExpired oldest).WF := by
  intro e he
  simpa using (OrdMap.mem_filter.mp he).2

theorem keys_removeExpired_subset {pvs : PendingVertices V N} {oldest : Nat} {x : V}
    (hx : x ∈ (pvs.removeExpired oldest).map.keys) : x ∈ pvs.map.keys := by
  obtain ⟨e, he, rfl⟩ := List.mem_map.mp hx
  obtain ⟨he, -⟩ := OrdMap.mem_filter.mp he
  obtain ⟨timeBySender, hv, -⟩ := OrdMap.mem_mapVal_iff.mp he
  exact List.mem_map.mpr ⟨_, hv, rfl⟩

/-- `add_holder` keeps every copy as it was. -/
theorem mem_addHolder_of_mem {id : V → D} {dep : D} {n : N} {t : Nat}
    {pvs : PendingVertices V N} {pv : PendingVertex V N} (h : pv ∈ pvs) :
    pv ∈ pvs.addHolder id dep n t := by
  unfold addHolder
  split
  · exact h
  · next pvv holders hfind =>
    obtain ⟨timeBySender, hv, hn⟩ := h
    have hholders : (pvv, holders) ∈ pvs.map.entries := List.mem_of_find?_eq_some hfind
    by_cases hpv : pv.pvv = pvv
    · have heq : timeBySender = holders :=
        (Prod.mk.inj (pvs.map.eq_of_mem_of_fst_eq hv hholders hpv)).2
      subst heq
      refine ⟨_, OrdMap.mem_insert.mpr (Or.inl (by rw [hpv])), ?_⟩
      by_cases hnn : pv.sender = n
      · rw [OrdMap.mem_insert]
        left
        rw [← hnn, OrdMap.find?_of_mem hn, Option.getD_some]
      · exact OrdMap.mem_insert.mpr (Or.inr ⟨hn, hnn⟩)
    · exact ⟨timeBySender, OrdMap.mem_insert.mpr (Or.inr ⟨hv, hpv⟩), hn⟩

theorem keys_addHolder {id : V → D} {dep : D} {n : N} {t : Nat} (pvs : PendingVertices V N) :
    (pvs.addHolder id dep n t).map.keys = pvs.map.keys := by
  unfold addHolder
  split
  · rfl
  · next pvv holders hfind =>
    exact OrdMap.keys_insert_of_find?
      (OrdMap.find?_of_mem (List.mem_of_find?_eq_some hfind)) _

theorem WF.addHolder {id : V → D} {dep : D} {n : N} {t : Nat} {pvs : PendingVertices V N}
    (h : pvs.WF) : (pvs.addHolder id dep n t).WF := by
  unfold PendingVertices.addHolder
  split
  · exact h
  · intro e he
    rcases OrdMap.mem_insert.mp he with rfl | ⟨he, -⟩
    · exact OrdMap.entries_insert_ne_nil _ _ _
    · exact h e he

theorem containsDependency_iff {id : V → D} {d : D} {pvs : PendingVertices V N} :
    pvs.containsDependency id d = true ↔ ∃ v ∈ pvs.map.keys, id v = d := by
  simp [containsDependency]

/-! ### `push` in a loop -/

theorem HasFrom.foldl_push {pvs : PendingVertices V N} {v : V} {n : N} {t : Nat}
    (h : pvs.HasFrom v n t) (l : List (PendingVertex V N)) :
    (l.foldl (fun pvs pv => pvs.push pv) pvs).HasFrom v n t := by
  induction l generalizing pvs with
  | nil => exact h
  | cons pv l ih => exact ih (h.add _ _ _)

theorem hasFrom_foldl_push {l : List (PendingVertex V N)} {pv : PendingVertex V N} (hpv : pv ∈ l)
    (pvs : PendingVertices V N) :
    (l.foldl (fun pvs pv => pvs.push pv) pvs).HasFrom pv.pvv pv.sender pv.timeReceived := by
  induction l generalizing pvs with
  | nil => cases hpv
  | cons q l ih =>
    rcases List.mem_cons.mp hpv with rfl | hpv
    · exact (hasFrom_add_self pvs pv.sender pv.pvv pv.timeReceived).foldl_push l
    · exact ih hpv _

theorem WF.foldl_push {pvs : PendingVertices V N} (h : pvs.WF) (l : List (PendingVertex V N)) :
    (l.foldl (fun pvs pv => pvs.push pv) pvs).WF := by
  induction l generalizing pvs with
  | nil => exact h
  | cons pv l ih => exact ih (h.add _ _ _)

/-- Pushing copies keeps the queue's copies and adds copies of the pushed vertices only. -/
theorem mem_of_mem_foldl_push {pvs : PendingVertices V N} {l : List (PendingVertex V N)}
    {pv : PendingVertex V N} (h : pv ∈ l.foldl (fun pvs pv => pvs.push pv) pvs) :
    pv ∈ pvs ∨ ∃ q ∈ l, q.pvv = pv.pvv ∧ q.sender = pv.sender := by
  induction l generalizing pvs with
  | nil => exact Or.inl h
  | cons q l ih =>
    rcases ih h with h | ⟨q', hq', hq''⟩
    · rcases mem_of_mem_add h with h | ⟨hv, hn⟩
      · exact Or.inl h
      · exact Or.inr ⟨q, List.mem_cons_self, hv.symm, hn.symm⟩
    · exact Or.inr ⟨q', List.mem_cons_of_mem _ hq', hq''⟩

end PendingVertices

/-- `pvs'` has the vertices of `pvs` and at least its copies. -/
structure PendingVertices.Covers (pvs pvs' : PendingVertices V N) : Prop where
  keys : pvs'.map.keys = pvs.map.keys
  mem : ∀ pv ∈ pvs, pv ∈ pvs'
  wf : pvs.WF → pvs'.WF

namespace Synchronizer

/-- The synchronizer holds a copy of `v` from `n`, received at `t` or later, in one of its
queues. -/
def Holds (s : Synchronizer V D N) (v : V) (n : N) (t : Nat) : Prop :=
  s.verticesNoDeps.HasFrom v n t ∨ (∃ e ∈ s.verticesToBeAddedLater.entries, e.2.HasFrom v n t) ∨
    ∃ e ∈ s.verticesAwaitingDeps.entries, e.2.HasFrom v n t

/-- Every queue has a sender for each of its vertices. -/
structure WF (s : Synchronizer V D N) : Prop where
  noDeps : s.verticesNoDeps.WF
  later : ∀ e ∈ s.verticesToBeAddedLater.entries, e.2.WF
  awaiting : ∀ e ∈ s.verticesAwaitingDeps.entries, e.2.WF

/-- Every vertex awaiting a dependency waits under one that `R` relates it to. -/
def Filed (R : V → D → Prop) (s : Synchronizer V D N) : Prop :=
  ∀ e ∈ s.verticesAwaitingDeps.entries, ∀ v ∈ e.2.map.keys, R v e.1

theorem wf_new : (new : Synchronizer V D N).WF :=
  ⟨PendingVertices.wf_empty, fun _ he => (by cases he), fun _ he => (by cases he)⟩

theorem filed_new (R : V → D → Prop) : (new : Synchronizer V D N).Filed R := by
  intro e he
  cases he

/-- Where a held copy is: a case split on the three queues. -/
theorem Holds.elim {s s' : Synchronizer V D N} {v : V} {n : N} {t : Nat} (h : s.Holds v n t)
    (hnoDeps : s.verticesNoDeps.HasFrom v n t → s'.Holds v n t)
    (hlater : ∀ e ∈ s.verticesToBeAddedLater.entries, e.2.HasFrom v n t → s'.Holds v n t)
    (hawaiting : ∀ e ∈ s.verticesAwaitingDeps.entries, e.2.HasFrom v n t → s'.Holds v n t) :
    s'.Holds v n t := by
  rcases h with h | ⟨e, he, h⟩ | ⟨e, he, h⟩
  · exact hnoDeps h
  · exact hlater e he h
  · exact hawaiting e he h

theorem Holds.mono {s : Synchronizer V D N} {v : V} {n : N} {t t' : Nat} (h : s.Holds v n t)
    (ht : t' ≤ t) : s.Holds v n t' := by
  rcases h with h | ⟨e, he, h⟩ | ⟨e, he, h⟩
  · exact Or.inl (h.mono ht)
  · exact Or.inr (Or.inl ⟨e, he, h.mono ht⟩)
  · exact Or.inr (Or.inr ⟨e, he, h.mono ht⟩)

/-! ### `schedule_add_vertices` and `store_vertex_for_addition_later` -/

section Schedule

variable {s : Synchronizer V D N} {v : V} {n : N} {t : Nat}

@[simp] theorem scheduleAddVertices_awaiting (l : List (PendingVertex V N)) :
    (scheduleAddVertices l s).1.verticesAwaitingDeps = s.verticesAwaitingDeps := rfl

@[simp] theorem scheduleAddVertices_later (l : List (PendingVertex V N)) :
    (scheduleAddVertices l s).1.verticesToBeAddedLater = s.verticesToBeAddedLater := rfl

theorem Holds.scheduleAddVertices (h : s.Holds v n t) (l : List (PendingVertex V N)) :
    (scheduleAddVertices l s).1.Holds v n t :=
  h.elim (fun h => Or.inl (h.foldl_push l)) (fun e he h => Or.inr (Or.inl ⟨e, he, h⟩))
    (fun e he h => Or.inr (Or.inr ⟨e, he, h⟩))

theorem holds_scheduleAddVertices {l : List (PendingVertex V N)} {pv : PendingVertex V N}
    (hpv : pv ∈ l) (s : Synchronizer V D N) :
    (scheduleAddVertices l s).1.Holds pv.pvv pv.sender pv.timeReceived :=
  Or.inl (PendingVertices.hasFrom_foldl_push hpv _)

theorem WF.scheduleAddVertices (h : s.WF) (l : List (PendingVertex V N)) :
    (scheduleAddVertices l s).1.WF :=
  ⟨h.noDeps.foldl_push l, h.later, h.awaiting⟩

theorem holds_storeVertexForAdditionLater (futureTimestamp now : Nat) (sender : N) (pvv : V)
    (s : Synchronizer V D N) :
    (s.storeVertexForAdditionLater futureTimestamp now sender pvv).Holds pvv sender now :=
  Or.inr (Or.inl ⟨_, OrdMap.mem_insert.mpr (Or.inl rfl),
    PendingVertices.hasFrom_add_self _ sender pvv now⟩)

theorem Holds.storeVertexForAdditionLater (h : s.Holds v n t) (futureTimestamp now : Nat)
    (sender : N) (pvv : V) :
    (s.storeVertexForAdditionLater futureTimestamp now sender pvv).Holds v n t := by
  refine h.elim (fun h => Or.inl h) (fun e he h => ?_) (fun e he h => Or.inr (Or.inr ⟨e, he, h⟩))
  by_cases hk : e.1 = futureTimestamp
  · have hfind : s.verticesToBeAddedLater.find? futureTimestamp = some e.2 :=
      OrdMap.find?_of_mem (hk ▸ he)
    refine Or.inr (Or.inl ⟨_, OrdMap.mem_insert.mpr (Or.inl rfl), ?_⟩)
    simp only [hfind, Option.getD_some]
    exact h.add _ _ _
  · exact Or.inr (Or.inl ⟨e, OrdMap.mem_insert.mpr (Or.inr ⟨he, hk⟩), h⟩)

theorem WF.storeVertexForAdditionLater (h : s.WF) (futureTimestamp now : Nat) (sender : N)
    (pvv : V) : (s.storeVertexForAdditionLater futureTimestamp now sender pvv).WF := by
  refine ⟨h.noDeps, fun e he => ?_, h.awaiting⟩
  rcases OrdMap.mem_insert.mp he with rfl | ⟨he, -⟩
  · apply PendingVertices.WF.add
    cases hfind : s.verticesToBeAddedLater.find? futureTimestamp with
    | none => exact PendingVertices.wf_empty
    | some pvs => exact h.later _ (OrdMap.mem_of_find?_eq_some hfind)
  · exact h.later e he

end Schedule

end Synchronizer

namespace Synchronizer

/-! ### Moving queues to `vertices_no_deps` -/

section Move

variable {v : V} {n : N} {t : Nat}

theorem Holds.addStoredAt {acc : Synchronizer V D N × List (ProtocolOutcome D N)}
    (hwf : acc.1.WF) (h : acc.1.Holds v n t) (pastDue : Nat) :
    (addStoredAt acc pastDue).1.Holds v n t := by
  unfold Synchronizer.addStoredAt
  split
  · exact h
  · next verticesToAdd hfind =>
    have hmem := OrdMap.mem_of_find?_eq_some hfind
    dsimp only
    refine h.elim (fun h => ?_) (fun e he h => ?_) (fun e he h => ?_)
    · apply Holds.scheduleAddVertices
      exact Or.inl h
    rotate_left
    · apply Holds.scheduleAddVertices
      exact Or.inr (Or.inr ⟨e, he, h⟩)
    by_cases hk : e.1 = pastDue
    · -- the queue that is due goes, copy by copy, to `vertices_no_deps`
      have heq : e = (pastDue, verticesToAdd) :=
        acc.1.verticesToBeAddedLater.eq_of_mem_of_fst_eq he hmem hk
      subst heq
      obtain ⟨t', ht', hpv⟩ := h
      have hdrain := (PendingVertices.mem_drain (hwf.later _ hmem)).mpr hpv
      apply Holds.mono _ ht'
      exact holds_scheduleAddVertices hdrain _
    · apply Holds.scheduleAddVertices
      exact Or.inr (Or.inl ⟨e, OrdMap.mem_erase_iff.mpr ⟨he, hk⟩, h⟩)

theorem WF.addStoredAt {acc : Synchronizer V D N × List (ProtocolOutcome D N)} (hwf : acc.1.WF)
    (pastDue : Nat) : (addStoredAt acc pastDue).1.WF := by
  unfold Synchronizer.addStoredAt
  split
  · exact hwf
  · dsimp only
    apply WF.scheduleAddVertices
    exact ⟨hwf.noDeps, fun e he => hwf.later e (OrdMap.mem_erase_iff.mp he).1, hwf.awaiting⟩

@[simp] theorem addStoredAt_awaiting (acc : Synchronizer V D N × List (ProtocolOutcome D N))
    (pastDue : Nat) :
    (addStoredAt acc pastDue).1.verticesAwaitingDeps = acc.1.verticesAwaitingDeps := by
  unfold addStoredAt
  split <;> rfl

theorem addPastDueStoredVertices_spec {s : Synchronizer V D N} (hwf : s.WF) (timestamp : Nat) :
    (s.addPastDueStoredVertices timestamp).1.WF ∧
      (s.addPastDueStoredVertices timestamp).1.verticesAwaitingDeps = s.verticesAwaitingDeps ∧
      ∀ v n t, s.Holds v n t → (s.addPastDueStoredVertices timestamp).1.Holds v n t := by
  unfold addPastDueStoredVertices
  generalize s.verticesToBeAddedLater.keys.filter (· ≤ timestamp) = pastDue
  -- the accumulator keeps the invariant at each timestamp of the loop
  suffices ∀ acc : Synchronizer V D N × List (ProtocolOutcome D N), acc.1.WF →
      (pastDue.foldl addStoredAt acc).1.WF ∧
        (pastDue.foldl addStoredAt acc).1.verticesAwaitingDeps = acc.1.verticesAwaitingDeps ∧
        ∀ v n t, acc.1.Holds v n t → (pastDue.foldl addStoredAt acc).1.Holds v n t from
    this (s, []) hwf
  induction pastDue with
  | nil => exact fun acc hacc => ⟨hacc, rfl, fun _ _ _ h => h⟩
  | cons k pastDue ih =>
    intro acc hacc
    obtain ⟨hwf', hawaiting, hholds⟩ := ih (addStoredAt acc k) (hacc.addStoredAt k)
    exact ⟨hwf', hawaiting.trans (addStoredAt_awaiting acc k),
      fun v n t h => hholds v n t (h.addStoredAt hacc k)⟩

/-- The dependencies `remove_satisfied_deps` finds satisfied. -/
theorem mem_removeSatisfiedDeps_awaiting {highway : HighwayView V D} {s : Synchronizer V D N}
    {e : D × PendingVertices V N} :
    e ∈ (s.removeSatisfiedDeps highway).1.verticesAwaitingDeps.entries ↔
      e ∈ s.verticesAwaitingDeps.entries ∧ highway.hasDependency e.1 = false := by
  simp only [removeSatisfiedDeps, scheduleAddVertices_awaiting, OrdMap.mem_foldl_erase,
    List.mem_filter, not_and, Bool.not_eq_true]
  constructor
  · rintro ⟨he, hk⟩
    exact ⟨he, hk (List.mem_map.mpr ⟨e, he, rfl⟩)⟩
  · rintro ⟨he, hk⟩
    exact ⟨he, fun _ => hk⟩

theorem Holds.removeSatisfiedDeps {highway : HighwayView V D} {s : Synchronizer V D N}
    (hwf : s.WF) (h : s.Holds v n t) : (s.removeSatisfiedDeps highway).1.Holds v n t := by
  unfold Synchronizer.removeSatisfiedDeps
  dsimp only
  refine h.elim (fun h => ?_) (fun e he h => ?_) (fun e he h => ?_)
  · apply Holds.scheduleAddVertices
    exact Or.inl h
  · apply Holds.scheduleAddVertices
    exact Or.inr (Or.inl ⟨e, he, h⟩)
  cases hsat : highway.hasDependency e.1 with
  | false =>
    refine Or.inr (Or.inr ⟨e, OrdMap.mem_foldl_erase.mpr ⟨he, fun hk => ?_⟩, h⟩)
    rw [(List.mem_filter.mp hk).2] at hsat
    cases hsat
  | true =>
    -- a satisfied queue goes, copy by copy, to `vertices_no_deps`
    obtain ⟨t', ht', hpv⟩ := h
    have hdrain : (⟨n, v, t'⟩ : PendingVertex V N) ∈
        (s.verticesAwaitingDeps.keys.filter highway.hasDependency).flatMap
          fun dep => ((s.verticesAwaitingDeps.find? dep).getD .empty).drain := by
      refine List.mem_flatMap.mpr ⟨e.1, List.mem_filter.mpr ⟨List.mem_map.mpr ⟨e, he, rfl⟩, hsat⟩, ?_⟩
      rw [OrdMap.find?_of_mem he, Option.getD_some]
      exact (PendingVertices.mem_drain (hwf.awaiting e he)).mpr hpv
    apply Holds.mono _ ht'
    exact Or.inl (PendingVertices.hasFrom_foldl_push hdrain _)

theorem WF.removeSatisfiedDeps {highway : HighwayView V D} {s : Synchronizer V D N}
    (hwf : s.WF) : (s.removeSatisfiedDeps highway).1.WF := by
  unfold Synchronizer.removeSatisfiedDeps
  dsimp only
  apply WF.scheduleAddVertices
  exact ⟨hwf.noDeps, hwf.later, fun e he => hwf.awaiting e (OrdMap.mem_foldl_erase.mp he).1⟩

theorem Filed.removeSatisfiedDeps {R : V → D → Prop} {highway : HighwayView V D}
    {s : Synchronizer V D N} (h : s.Filed R) : (s.removeSatisfiedDeps highway).1.Filed R :=
  fun e he => h e (mem_removeSatisfiedDeps_awaiting.mp he).1

end Move

/-! ### `add_missing_dependency` -/

section Missing

variable {s : Synchronizer V D N} {dep : D} {pv : PendingVertex V N}

@[simp] theorem addMissingDependency_noDeps :
    (s.addMissingDependency dep pv).verticesNoDeps = s.verticesNoDeps := rfl

@[simp] theorem addMissingDependency_requestsSent :
    (s.addMissingDependency dep pv).requestsSent = s.requestsSent := rfl

theorem holds_addMissingDependency :
    (s.addMissingDependency dep pv).Holds pv.pvv pv.sender pv.timeReceived :=
  Or.inr (Or.inr ⟨_, OrdMap.mem_insert.mpr (Or.inl rfl),
    PendingVertices.hasFrom_add_self _ pv.sender pv.pvv pv.timeReceived⟩)

theorem Holds.addMissingDependency {v : V} {n : N} {t : Nat} (h : s.Holds v n t) :
    (s.addMissingDependency dep pv).Holds v n t := by
  refine h.elim (fun h => Or.inl h) (fun e he h => Or.inr (Or.inl ⟨e, he, h⟩)) (fun e he h => ?_)
  by_cases hk : e.1 = dep
  · have hfind : s.verticesAwaitingDeps.find? dep = some e.2 := OrdMap.find?_of_mem (hk ▸ he)
    refine Or.inr (Or.inr ⟨_, OrdMap.mem_insert.mpr (Or.inl rfl), ?_⟩)
    simp only [hfind, Option.getD_some]
    exact h.add _ _ _
  · exact Or.inr (Or.inr ⟨e, OrdMap.mem_insert.mpr (Or.inr ⟨he, hk⟩), h⟩)

theorem WF.addMissingDependency (h : s.WF) : (s.addMissingDependency dep pv).WF := by
  refine ⟨h.noDeps, h.later, fun e he => ?_⟩
  rcases OrdMap.mem_insert.mp he with rfl | ⟨he, -⟩
  · apply PendingVertices.WF.add
    cases hfind : s.verticesAwaitingDeps.find? dep with
    | none => exact PendingVertices.wf_empty
    | some pvs => exact h.awaiting _ (OrdMap.mem_of_find?_eq_some hfind)
  · exact h.awaiting e he

/-- A vertex filed under a dependency `R` relates it to keeps the awaiting queues filed. -/
theorem Filed.addMissingDependency {R : V → D → Prop} (h : s.Filed R) (hR : R pv.pvv dep) :
    (s.addMissingDependency dep pv).Filed R := by
  intro e he v hv
  rcases OrdMap.mem_insert.mp he with rfl | ⟨he, -⟩
  · rcases PendingVertices.mem_keys_add.mp hv with rfl | hv
    · exact hR
    · cases hfind : s.verticesAwaitingDeps.find? dep with
      | none =>
        rw [hfind] at hv
        cases hv
      | some pvs =>
        rw [hfind] at hv
        exact h _ (OrdMap.mem_of_find?_eq_some hfind) v hv
  · exact h e he v hv

end Missing

end Synchronizer

/-! ### `find_transitive_dependency` -/

theorem PendingVertices.Covers.refl (pvs : PendingVertices V N) : pvs.Covers pvs :=
  ⟨rfl, fun _ h => h, id⟩

theorem PendingVertices.Covers.trans {pvs pvs' pvs'' : PendingVertices V N} (h : pvs.Covers pvs')
    (h' : pvs'.Covers pvs'') : pvs.Covers pvs'' :=
  ⟨h'.keys.trans h.keys, fun pv hpv => h'.mem pv (h.mem pv hpv), fun hwf => h'.wf (h.wf hwf)⟩

theorem PendingVertices.covers_addHolder (id : V → D) (dep : D) (n : N) (t : Nat)
    (pvs : PendingVertices V N) : pvs.Covers (pvs.addHolder id dep n t) :=
  ⟨keys_addHolder pvs, fun _ h => mem_addHolder_of_mem h, WF.addHolder⟩

theorem PendingVertices.Covers.containsDependency {pvs pvs' : PendingVertices V N}
    (h : pvs.Covers pvs') (id : V → D) (d : D) :
    pvs'.containsDependency id d = pvs.containsDependency id d := by
  unfold PendingVertices.containsDependency
  rw [h.keys]

namespace Synchronizer

/-- Each queue of `awaiting'` covers the queue at its key in `awaiting`, and the keys are the
same: what `find_transitive_dependency` does to `vertices_awaiting_deps`. -/
structure CoversQueues (awaiting awaiting' : OrdMap D (PendingVertices V N)) : Prop where
  keys : awaiting'.keys = awaiting.keys
  covers : ∀ k pvs pvs', (k, pvs) ∈ awaiting.entries → (k, pvs') ∈ awaiting'.entries →
    pvs.Covers pvs'

section Covers

variable {awaiting awaiting' awaiting'' : OrdMap D (PendingVertices V N)}

theorem CoversQueues.refl (awaiting : OrdMap D (PendingVertices V N)) :
    CoversQueues awaiting awaiting := by
  refine ⟨rfl, fun k pvs pvs' h h' => ?_⟩
  rw [(Prod.mk.inj (awaiting.eq_of_mem_of_fst_eq h h' rfl)).2]
  exact PendingVertices.Covers.refl pvs'

/-- A key of one map has its queue in the other. -/
theorem exists_mem_of_keys_eq {m m' : OrdMap D (PendingVertices V N)} (hkeys : m'.keys = m.keys)
    {k : D} {pvs : PendingVertices V N} (h : (k, pvs) ∈ m.entries) :
    ∃ pvs', (k, pvs') ∈ m'.entries := by
  have hk : k ∈ m'.keys := hkeys ▸ List.mem_map.mpr ⟨_, h, rfl⟩
  obtain ⟨pvs', hfind⟩ := OrdMap.mem_keys_iff.mp hk
  exact ⟨pvs', OrdMap.mem_of_find?_eq_some hfind⟩

theorem CoversQueues.trans (h : CoversQueues awaiting awaiting')
    (h' : CoversQueues awaiting' awaiting'') : CoversQueues awaiting awaiting'' := by
  refine ⟨h'.keys.trans h.keys, fun k pvs pvs'' hmem hmem'' => ?_⟩
  obtain ⟨pvs', hmem'⟩ := exists_mem_of_keys_eq h.keys hmem
  exact (h.covers k pvs pvs' hmem hmem').trans (h'.covers k pvs' pvs'' hmem' hmem'')

theorem coversQueues_insert {k : D} {pvs pvs' : PendingVertices V N}
    (hmem : (k, pvs) ∈ awaiting.entries) (hc : pvs.Covers pvs') :
    CoversQueues awaiting (awaiting.insert k pvs') := by
  refine ⟨OrdMap.keys_insert_of_find? (OrdMap.find?_of_mem hmem) pvs', fun k' q q' hq hq' => ?_⟩
  rcases OrdMap.mem_insert.mp hq' with heq | ⟨hq', -⟩
  · obtain ⟨rfl, rfl⟩ := Prod.mk.inj heq
    rw [(Prod.mk.inj (awaiting.eq_of_mem_of_fst_eq hq hmem rfl)).2]
    exact hc
  · rw [(Prod.mk.inj (awaiting.eq_of_mem_of_fst_eq hq hq' rfl)).2]
    exact PendingVertices.Covers.refl q'

/-- Whatever holds of the vertices of each queue and its key still holds. -/
theorem CoversQueues.forall_keys (h : CoversQueues awaiting awaiting') {P : V → D → Prop}
    (hP : ∀ e ∈ awaiting.entries, ∀ v ∈ e.2.map.keys, P v e.1) :
    ∀ e ∈ awaiting'.entries, ∀ v ∈ e.2.map.keys, P v e.1 := by
  intro e he v hv
  obtain ⟨pvs, hmem⟩ := exists_mem_of_keys_eq h.keys.symm he
  rw [(h.covers e.1 pvs e.2 hmem he).keys] at hv
  exact hP _ hmem v hv

theorem CoversQueues.wf (h : CoversQueues awaiting awaiting')
    (hwf : ∀ e ∈ awaiting.entries, e.2.WF) : ∀ e ∈ awaiting'.entries, e.2.WF := by
  intro e he
  obtain ⟨pvs, hmem⟩ := exists_mem_of_keys_eq h.keys.symm he
  exact (h.covers e.1 pvs e.2 hmem he).wf (hwf _ hmem)

theorem CoversQueues.hasFrom (h : CoversQueues awaiting awaiting') {e : D × PendingVertices V N}
    (he : e ∈ awaiting.entries) {v : V} {n : N} {t : Nat} (hv : e.2.HasFrom v n t) :
    ∃ e' ∈ awaiting'.entries, e'.2.HasFrom v n t := by
  obtain ⟨pvs', hmem'⟩ := exists_mem_of_keys_eq h.keys he
  obtain ⟨t', ht', hpv⟩ := hv
  exact ⟨_, hmem', t', ht', (h.covers e.1 e.2 pvs' he hmem').mem _ hpv⟩

theorem CoversQueues.exists_containsDependency (h : CoversQueues awaiting awaiting')
    {id : V → D} {d : D} (hd : ∃ e ∈ awaiting.entries, e.2.containsDependency id d = true) :
    ∃ e ∈ awaiting'.entries, e.2.containsDependency id d = true := by
  obtain ⟨e, he, hc⟩ := hd
  obtain ⟨pvs', hmem'⟩ := exists_mem_of_keys_eq h.keys he
  refine ⟨_, hmem', ?_⟩
  rw [(h.covers e.1 e.2 pvs' he hmem').containsDependency]
  exact hc

/-- A queue that holds a vertex with id `d` held one before, under the same key. -/
theorem CoversQueues.containsDependency_of (h : CoversQueues awaiting awaiting') {id : V → D}
    {d : D} {e' : D × PendingVertices V N} (he' : e' ∈ awaiting'.entries)
    (hc : e'.2.containsDependency id d = true) :
    ∃ pvs, (e'.1, pvs) ∈ awaiting.entries ∧ pvs.containsDependency id d = true := by
  obtain ⟨pvs, hmem⟩ := exists_mem_of_keys_eq h.keys.symm he'
  refine ⟨pvs, hmem, ?_⟩
  rw [← (h.covers e'.1 pvs e'.2 hmem he').containsDependency]
  exact hc

end Covers

variable (id : V → D)

/-- The chain walk only adds holders: every queue keeps its vertices and copies. -/
theorem findTransitiveDependency_covers :
    ∀ {fuel : Nat} {awaiting awaiting' : OrdMap D (PendingVertices V N)} {d td : D} {n : N}
      {t : Nat}, findTransitiveDependency id fuel awaiting d n t = some (td, awaiting') →
      CoversQueues awaiting awaiting'
  | 0, _, _, _, _, _, _, h => by cases h
  | fuel + 1, awaiting, awaiting', d, td, n, t, h => by
    unfold findTransitiveDependency at h
    split at h
    · obtain ⟨-, rfl⟩ := Prod.mk.inj (Option.some.inj h)
      exact CoversQueues.refl awaiting
    · next k pvs hfind =>
      exact (coversQueues_insert (List.mem_of_find?_eq_some hfind)
        (PendingVertices.covers_addHolder id d n t pvs)).trans
        (findTransitiveDependency_covers h)

/-- **The chain walk ends** when every awaiting vertex waits under a dependency of lower rank
than its own id: each step goes to a queue whose key ranks below the dependency it looked for,
so fuel above the rank of the first dependency suffices. -/
theorem findTransitiveDependency_isSome {rank : D → Nat} :
    ∀ {fuel : Nat} {awaiting : OrdMap D (PendingVertices V N)} {d : D} (n : N) (t : Nat),
      (∀ e ∈ awaiting.entries, ∀ v ∈ e.2.map.keys, rank e.1 < rank (id v)) → rank d < fuel →
      ∃ r, findTransitiveDependency id fuel awaiting d n t = some r
  | 0, _, _, _, _, _, hd => absurd hd (Nat.not_lt_zero _)
  | fuel + 1, awaiting, d, n, t, hrank, hd => by
    unfold findTransitiveDependency
    split
    · exact ⟨_, rfl⟩
    · next k pvs hfind =>
      have hmem := List.mem_of_find?_eq_some hfind
      have hcontains : pvs.containsDependency id d = true := by
        have h := List.find?_some hfind
        exact h
      obtain ⟨v, hv, hvd⟩ := PendingVertices.containsDependency_iff.mp hcontains
      -- the next key ranks below the vertex that waits under it, whose id is `d`
      have hk : rank k < fuel :=
        Nat.lt_of_lt_of_le (hvd ▸ hrank _ hmem v hv) (Nat.lt_succ_iff.mp hd)
      exact findTransitiveDependency_isSome n t
        ((coversQueues_insert hmem (PendingVertices.covers_addHolder id d n t pvs)).forall_keys
          (P := fun v k => rank k < rank (id v)) hrank) hk

/-- **The chain walk never ends** once it looks for a dependency of a set `S` in which every
dependency is the id of an awaiting vertex, and every queue holding such a vertex waits under a
dependency of `S`: the walk only adds holders, so it goes from `S` to `S` for ever. -/
theorem findTransitiveDependency_eq_none_of_closed (S : D → Prop) :
    ∀ {fuel : Nat} {awaiting : OrdMap D (PendingVertices V N)} {d : D} (n : N) (t : Nat),
      (∀ d, S d → ∃ e ∈ awaiting.entries, e.2.containsDependency id d = true) →
      (∀ d, S d → ∀ e ∈ awaiting.entries, e.2.containsDependency id d = true → S e.1) →
      S d → findTransitiveDependency id fuel awaiting d n t = none
  | 0, _, _, _, _, _, _, _ => rfl
  | fuel + 1, awaiting, d, n, t, hheld, hclosed, hd => by
    unfold findTransitiveDependency
    split
    · next hfind =>
      obtain ⟨e, he, hc⟩ := hheld d hd
      exact absurd hc (List.find?_eq_none.mp hfind e he)
    · next k pvs hfind =>
      have hmem := List.mem_of_find?_eq_some hfind
      have hcontains : pvs.containsDependency id d = true := by
        have h := List.find?_some hfind
        exact h
      have hk : S k := hclosed d hd _ hmem hcontains
      -- the step adds a holder, which keeps every queue's vertices
      have hcov := coversQueues_insert hmem (PendingVertices.covers_addHolder id d n t pvs)
      refine findTransitiveDependency_eq_none_of_closed S n t
        (fun d' hd' => hcov.exists_containsDependency (hheld d' hd')) (fun d' hd' e' he' hc => ?_) hk
      obtain ⟨q, hq, hcq⟩ := hcov.containsDependency_of he' hc
      exact hclosed d' hd' (e'.1, q) hq hcq

end Synchronizer

/-! ### One turn of `pop_vertex_to_add` -/

namespace Synchronizer

variable (id : V → D)

section Turn

variable {highway : HighwayView V D} {pendingValues : List (V × N)}
  {maxRequestsForVertex fuel : Nat} {s s' : Synchronizer V D N}
  {outcomes outcomes' : List (ProtocolOutcome D N)}

/-- A turn that goes on popped a vertex and either skipped it, since the protocol state has it,
or filed it under its missing dependency, recording a request for the end of its chain or
sending one. -/
theorem popTurn_eq_again
    (h : popTurn id highway pendingValues maxRequestsForVertex fuel s outcomes =
      .again s' outcomes') :
    ∃ pv noDeps, s.verticesNoDeps.pop = some (pv, noDeps) ∧
      ((highway.hasVertex pv.pvv = true ∧ s' = { s with verticesNoDeps := noDeps } ∧
          outcomes' = outcomes) ∨
        ∃ dep td awaiting, highway.hasVertex pv.pvv = false ∧
          highway.missingDependency pv.pvv = some dep ∧
          findTransitiveDependency id fuel s.verticesAwaitingDeps dep pv.sender pv.timeReceived =
            some (td, awaiting) ∧
          ((s' = { s with verticesNoDeps := noDeps, verticesAwaitingDeps := awaiting }.addMissingDependency
                dep pv ∧ outcomes' = outcomes) ∨
            (s' = { ({ s with verticesNoDeps := noDeps, verticesAwaitingDeps := awaiting
                  }.addMissingDependency dep pv) with
                requestsSent := s.requestsSent.insert td ((s.requestsSent.find? td).getD []) } ∧
              outcomes' = outcomes) ∨
            (((s.requestsSent.find? td).getD []).length < maxRequestsForVertex ∧
              pv.sender ∉ (s.requestsSent.find? td).getD [] ∧
              s' = { ({ s with verticesNoDeps := noDeps, verticesAwaitingDeps := awaiting
                  }.addMissingDependency dep pv) with
                requestsSent :=
                  s.requestsSent.insert td (((s.requestsSent.find? td).getD []).insert pv.sender) } ∧
              outcomes' = outcomes ++ [.requestDependency td pv.sender]))) := by
  unfold popTurn at h
  split at h
  · cases h
  · next pv noDeps hpop =>
    refine ⟨pv, noDeps, hpop, ?_⟩
    split at h
    · next hv =>
      cases h
      exact Or.inl ⟨hv, rfl, rfl⟩
    · next hv =>
      split at h
      · cases h
      · next dep hdep =>
        dsimp only at h
        split at h
        · cases h
        · next td awaiting hfind =>
          refine Or.inr ⟨dep, td, awaiting, by simpa using hv, hdep, hfind, ?_⟩
          -- the branches of the code that `continue`: already downloaded, already a known
          -- source of a pending proposal, request limit reached, request sent
          split at h
          · cases h
            exact Or.inl ⟨rfl, rfl⟩
          · split at h
            · cases h
              exact Or.inl ⟨rfl, rfl⟩
            · split at h
              · cases h
              · split at h
                · cases h
                  exact Or.inr (Or.inl ⟨rfl, rfl⟩)
                · next hlimit =>
                  cases h
                  rw [not_or, not_le] at hlimit
                  exact Or.inr (Or.inr ⟨hlimit.1, by simpa using hlimit.2, rfl, rfl⟩)

/-- A turn that stops found `vertices_no_deps` empty, or returns a vertex that misses
nothing, or a proposal the block validator holds at the end of the popped vertex's chain. -/
theorem popTurn_eq_stop {r : Option (PendingVertex V N)}
    (h : popTurn id highway pendingValues maxRequestsForVertex fuel s outcomes =
      .stop r outcomes' s') :
    (s.verticesNoDeps.pop = none ∧ r = none ∧ outcomes' = outcomes ∧ s' = s) ∨
      ∃ pv noDeps, s.verticesNoDeps.pop = some (pv, noDeps) ∧ highway.hasVertex pv.pvv = false ∧
        outcomes' = outcomes ++ queueIfNonempty s' ∧
        ((highway.missingDependency pv.pvv = none ∧ r = some pv ∧
            s' = { s with verticesNoDeps := noDeps }) ∨
          ∃ dep td awaiting vv n, highway.missingDependency pv.pvv = some dep ∧
            findTransitiveDependency id fuel s.verticesAwaitingDeps dep pv.sender
              pv.timeReceived = some (td, awaiting) ∧
            (vv, n) ∈ pendingValues ∧ id vv = td ∧ r = some ⟨pv.sender, vv, pv.timeReceived⟩ ∧
            s' = { s with verticesNoDeps := noDeps, verticesAwaitingDeps := awaiting
              }.addMissingDependency dep pv) := by
  unfold popTurn at h
  split at h
  · next hpop =>
    cases h
    exact Or.inl ⟨hpop, rfl, rfl, rfl⟩
  · next pv noDeps hpop =>
    refine Or.inr ⟨pv, noDeps, hpop, ?_⟩
    split at h
    · cases h
    · next hv =>
      split at h
      · next hdep =>
        cases h
        exact ⟨by simpa using hv, rfl, Or.inl ⟨hdep, rfl, rfl⟩⟩
      · next dep hdep =>
        dsimp only at h
        split at h
        · cases h
        · next td awaiting hfind =>
          split at h
          · cases h
          · split at h
            · cases h
            · split at h
              · next vv n hpending =>
                cases h
                have hmem := List.mem_of_find?_eq_some hpending
                have hid : id vv = td := by simpa using List.find?_some hpending
                exact ⟨by simpa using hv, rfl,
                  Or.inr ⟨dep, td, awaiting, vv, n, hdep, hfind, hmem, hid, rfl, rfl⟩⟩
              · split at h <;> cases h

/-- A turn is stuck only when the chain walk runs out of fuel. -/
theorem popTurn_eq_stuck
    (h : popTurn id highway pendingValues maxRequestsForVertex fuel s outcomes = .stuck) :
    ∃ pv noDeps dep, s.verticesNoDeps.pop = some (pv, noDeps) ∧
      highway.missingDependency pv.pvv = some dep ∧
      findTransitiveDependency id fuel s.verticesAwaitingDeps dep pv.sender pv.timeReceived =
        none := by
  unfold popTurn at h
  split at h
  · cases h
  · next pv noDeps hpop =>
    split at h
    · cases h
    · split at h
      · cases h
      · next dep hdep =>
        dsimp only at h
        split at h
        · next hfind => exact ⟨pv, noDeps, dep, hpop, hdep, hfind⟩
        · split at h
          · cases h
          · split at h
            · cases h
            · split at h
              · cases h
              · split at h <;> cases h

/-- A turn whose chain walk runs out of fuel is stuck. -/
theorem popTurn_eq_stuck_of {pv : PendingVertex V N} {noDeps : PendingVertices V N} {dep : D}
    (hpop : s.verticesNoDeps.pop = some (pv, noDeps)) (hv : highway.hasVertex pv.pvv = false)
    (hdep : highway.missingDependency pv.pvv = some dep)
    (hfind : findTransitiveDependency id fuel s.verticesAwaitingDeps dep pv.sender
      pv.timeReceived = none) :
    popTurn id highway pendingValues maxRequestsForVertex fuel s outcomes = .stuck := by
  unfold popTurn
  simp only [hpop, hv, hdep, hfind, Bool.false_eq_true, if_false]

end Turn

end Synchronizer

/-! ### The invariants through `pop_vertex_to_add` -/

namespace Synchronizer

section PopInvariants

variable {s : Synchronizer V D N} {v : V} {n : N} {t : Nat}

/-- Popping from `vertices_no_deps` keeps every copy but the popped one. -/
theorem Holds.of_pop {pv : PendingVertex V N} {noDeps : PendingVertices V N} (hwf : s.WF)
    (hpop : s.verticesNoDeps.pop = some (pv, noDeps)) (h : s.Holds v n t) :
    { s with verticesNoDeps := noDeps }.Holds v n t ∨
      (pv.pvv = v ∧ pv.sender = n ∧ t ≤ pv.timeReceived) := by
  rcases h with ⟨t', ht', hmem⟩ | hlater | hawaiting
  · rcases (PendingVertices.mem_pop hwf.noDeps hpop).mp hmem with heq | hmem
    · subst heq
      exact Or.inr ⟨rfl, rfl, ht'⟩
    · exact Or.inl (Or.inl ⟨t', ht', hmem⟩)
  · exact Or.inl (Or.inr (Or.inl hlater))
  · exact Or.inl (Or.inr (Or.inr hawaiting))

theorem WF.of_pop {pv : PendingVertex V N} {noDeps : PendingVertices V N} (hwf : s.WF)
    (hpop : s.verticesNoDeps.pop = some (pv, noDeps)) : { s with verticesNoDeps := noDeps }.WF :=
  ⟨hwf.noDeps.pop hpop, hwf.later, hwf.awaiting⟩

theorem Holds.coversQueues {awaiting : OrdMap D (PendingVertices V N)}
    (hc : CoversQueues s.verticesAwaitingDeps awaiting) (h : s.Holds v n t) :
    { s with verticesAwaitingDeps := awaiting }.Holds v n t :=
  h.elim (fun h => Or.inl h) (fun e he h => Or.inr (Or.inl ⟨e, he, h⟩))
    (fun _ he h => Or.inr (Or.inr (hc.hasFrom he h)))

theorem WF.coversQueues {awaiting : OrdMap D (PendingVertices V N)}
    (hc : CoversQueues s.verticesAwaitingDeps awaiting) (hwf : s.WF) :
    { s with verticesAwaitingDeps := awaiting }.WF :=
  ⟨hwf.noDeps, hwf.later, hc.wf hwf.awaiting⟩

/-- The request record is read by no invariant. -/
theorem WF.requestsSent (hwf : s.WF) (requestsSent : OrdMap D (List N)) :
    { s with requestsSent := requestsSent }.WF :=
  ⟨hwf.noDeps, hwf.later, hwf.awaiting⟩

theorem Filed.coversQueues {R : V → D → Prop} {awaiting : OrdMap D (PendingVertices V N)}
    (hc : CoversQueues s.verticesAwaitingDeps awaiting) (h : s.Filed R) :
    { s with verticesAwaitingDeps := awaiting }.Filed R :=
  hc.forall_keys h

variable (id : V → D) {R : V → D → Prop} {highway : HighwayView V D}
  {pendingValues : List (V × N)} {maxRequestsForVertex fuel : Nat}
  {outcomes outcomes' : List (ProtocolOutcome D N)} {s' : Synchronizer V D N}

/-- Filing the popped vertex under its missing dependency, after the chain walk: the state
the filing branches of a turn share. -/
theorem filed_turn_spec (hR : ∀ v d, highway.missingDependency v = some d → R v d)
    {pv : PendingVertex V N} {noDeps : PendingVertices V N} {dep td : D}
    {awaiting : OrdMap D (PendingVertices V N)} (hwf : s.WF) (hfiled : s.Filed R)
    (hpop : s.verticesNoDeps.pop = some (pv, noDeps))
    (hdep : highway.missingDependency pv.pvv = some dep)
    (hfind : findTransitiveDependency id fuel s.verticesAwaitingDeps dep pv.sender
      pv.timeReceived = some (td, awaiting)) :
    let s₁ := { s with verticesNoDeps := noDeps, verticesAwaitingDeps := awaiting
      }.addMissingDependency dep pv
    s₁.WF ∧ s₁.Filed R ∧ ∀ v n t, s.Holds v n t → s₁.Holds v n t := by
  have hc := findTransitiveDependency_covers id hfind
  have hwf₁ : { s with verticesNoDeps := noDeps }.WF := hwf.of_pop hpop
  refine ⟨(WF.coversQueues (s := { s with verticesNoDeps := noDeps }) hc hwf₁).addMissingDependency,
    (Filed.coversQueues (s := { s with verticesNoDeps := noDeps }) hc hfiled).addMissingDependency
      (hR _ _ hdep), fun v n t h => ?_⟩
  rcases h.of_pop hwf hpop with h | ⟨rfl, rfl, ht⟩
  · exact (Holds.coversQueues (s := { s with verticesNoDeps := noDeps }) hc h).addMissingDependency
  · exact holds_addMissingDependency.mono ht

/-- A turn that goes on keeps the invariants, and loses a copy only if the protocol state has
its vertex; it takes one copy out of `vertices_no_deps`. -/
theorem popTurn_again_spec (hR : ∀ v d, highway.missingDependency v = some d → R v d)
    (hwf : s.WF) (hfiled : s.Filed R)
    (h : popTurn id highway pendingValues maxRequestsForVertex fuel s outcomes =
      .again s' outcomes') :
    s'.WF ∧ s'.Filed R ∧ (∃ pv, s.verticesNoDeps.pop = some (pv, s'.verticesNoDeps)) ∧
      ∀ v n t, s.Holds v n t → s'.Holds v n t ∨ highway.hasVertex v = true := by
  obtain ⟨pv, noDeps, hpop, ⟨hv, rfl, -⟩ | ⟨dep, td, awaiting, -, hdep, hfind, hs'⟩⟩ :=
    popTurn_eq_again id h
  · refine ⟨hwf.of_pop hpop, hfiled, ⟨pv, hpop⟩, fun v n t h => ?_⟩
    rcases h.of_pop hwf hpop with h | ⟨rfl, -, -⟩
    · exact Or.inl h
    · exact Or.inr hv
  · obtain ⟨hwf₁, hfiled₁, hholds₁⟩ := filed_turn_spec id hR hwf hfiled hpop hdep hfind
    -- the request record is all that differs between the branches, and no invariant reads it
    rcases hs' with ⟨rfl, -⟩ | ⟨rfl, -⟩ | ⟨-, -, rfl, -⟩
    · exact ⟨hwf₁, hfiled₁, ⟨pv, hpop⟩, fun v n t h => Or.inl (hholds₁ v n t h)⟩
    all_goals exact ⟨hwf₁.requestsSent _, hfiled₁, ⟨pv, hpop⟩, fun v n t h => Or.inl (hholds₁ v n t h)⟩

/-- A turn that stops keeps the invariants and loses a copy only if it returns it; what it
returns misses nothing, or is a proposal the block validator holds. -/
theorem popTurn_stop_spec (hR : ∀ v d, highway.missingDependency v = some d → R v d)
    (hwf : s.WF) (hfiled : s.Filed R) {r : Option (PendingVertex V N)}
    (h : popTurn id highway pendingValues maxRequestsForVertex fuel s outcomes =
      .stop r outcomes' s') :
    s'.WF ∧ s'.Filed R ∧
      (∀ v n t, s.Holds v n t → s'.Holds v n t ∨ ∃ pv, r = some pv ∧ pv.pvv = v ∧ pv.sender = n) ∧
      (∀ pv, r = some pv →
        highway.missingDependency pv.pvv = none ∨ ∃ n, (pv.pvv, n) ∈ pendingValues) ∧
      (r = none → s'.verticesNoDeps.isEmpty = true ∧ outcomes' = outcomes) ∧
      (r ≠ none → outcomes' = outcomes ++ queueIfNonempty s') ∧
      s'.requestsSent = s.requestsSent := by
  rcases popTurn_eq_stop id h with ⟨hpop, rfl, rfl, rfl⟩ |
    ⟨pv, noDeps, hpop, -, rfl, ⟨hdep, rfl, rfl⟩ | ⟨dep, td, awaiting, vv, n, hdep, hfind, hmem, -, rfl, rfl⟩⟩
  · exact ⟨hwf, hfiled, fun v n t h => Or.inl h, fun pv h => (by cases h),
      fun _ => ⟨(PendingVertices.pop_eq_none hwf.noDeps).mp hpop, rfl⟩,
      fun h => absurd rfl h, rfl⟩
  · refine ⟨hwf.of_pop hpop, hfiled, fun v n t h => ?_, fun pv' hpv' => ?_, fun h => (by cases h),
      fun _ => rfl, rfl⟩
    · rcases h.of_pop hwf hpop with h | ⟨rfl, rfl, -⟩
      · exact Or.inl h
      · exact Or.inr ⟨pv, rfl, rfl, rfl⟩
    · cases hpv'
      exact Or.inl hdep
  · obtain ⟨hwf₁, hfiled₁, hholds₁⟩ := filed_turn_spec id hR hwf hfiled hpop hdep hfind
    refine ⟨hwf₁, hfiled₁, fun v n t h => Or.inl (hholds₁ v n t h), fun pv' hpv' => ?_,
      fun h => (by cases h), fun _ => rfl, rfl⟩
    cases hpv'
    exact Or.inr ⟨n, hmem⟩

end PopInvariants

end Synchronizer

/-! ### The loop of `pop_vertex_to_add` -/

namespace Synchronizer

section PopLoop

variable (id : V → D) {R : V → D → Prop} {highway : HighwayView V D}
  {pendingValues : List (V × N)} {maxRequestsForVertex : Nat}

/-- `pop_vertex_to_add` keeps the invariants.  A copy it loses was of a vertex the protocol
state has, or is the one it returns; what it returns misses no dependency, or is a proposal the
block validator holds; and if `vertices_no_deps` is left non-empty, a `QueueAction` is among the
outcomes. -/
theorem popVertexToAdd_spec (hR : ∀ v d, highway.missingDependency v = some d → R v d) :
    ∀ {fuel : Nat} {s s' : Synchronizer V D N} {outcomes outcomes' : List (ProtocolOutcome D N)}
      {r : Option (PendingVertex V N)}, s.WF → s.Filed R →
      popVertexToAdd id highway pendingValues maxRequestsForVertex fuel s outcomes =
        some (r, outcomes', s') →
      s'.WF ∧ s'.Filed R ∧
        (∀ v n t, s.Holds v n t → s'.Holds v n t ∨ highway.hasVertex v = true ∨
          ∃ pv, r = some pv ∧ pv.pvv = v ∧ pv.sender = n) ∧
        (∀ pv, r = some pv →
          highway.missingDependency pv.pvv = none ∨ ∃ n, (pv.pvv, n) ∈ pendingValues) ∧
        (s'.verticesNoDeps.isEmpty = false → .queueAction ∈ outcomes')
  | 0, _, _, _, _, _, _, _, h => by cases h
  | fuel + 1, s, s', outcomes, outcomes', r, hwf, hfiled, h => by
    unfold popVertexToAdd at h
    split at h
    · next s₁ outcomes₁ hturn =>
      obtain ⟨hwf₁, hfiled₁, -, hholds₁⟩ := popTurn_again_spec id hR hwf hfiled hturn
      obtain ⟨hwf', hfiled', hholds', hret, hqueue⟩ := popVertexToAdd_spec hR hwf₁ hfiled₁ h
      refine ⟨hwf', hfiled', fun v n t hv => ?_, hret, hqueue⟩
      rcases hholds₁ v n t hv with hv | hv
      · exact hholds' v n t hv
      · exact Or.inr (Or.inl hv)
    · next r₁ outcomes₁ s₁ hturn =>
      cases h
      obtain ⟨hwf', hfiled', hholds', hret, hnone, hsome, -⟩ :=
        popTurn_stop_spec id hR hwf hfiled hturn
      refine ⟨hwf', hfiled', fun v n t hv => ?_, hret, fun hne => ?_⟩
      · rcases hholds' v n t hv with hv | hv
        · exact Or.inl hv
        · exact Or.inr (Or.inr hv)
      · cases r with
        | none => rw [(hnone rfl).1] at hne; cases hne
        | some pv =>
          rw [hsome (Option.some_ne_none pv), queueIfNonempty, hne]
          exact List.mem_append_right _ List.mem_cons_self
    · cases h

/-- **`pop_vertex_to_add` returns** when every vertex waits under, and the protocol state
reports, dependencies of lower rank than the vertex's id: the loop takes out a copy at each
turn, and the chain walk of a turn stays below the rank of the popped vertex, at most `B`. -/
theorem popVertexToAdd_isSome {rank : D → Nat} (hrank : ∀ v d, R v d → rank d < rank (id v))
    (hR : ∀ v d, highway.missingDependency v = some d → R v d) (B : Nat) :
    ∀ {fuel : Nat} {s : Synchronizer V D N} {outcomes : List (ProtocolOutcome D N)},
      s.WF → s.Filed R → (∀ v ∈ s.verticesNoDeps.map.keys, rank (id v) ≤ B) →
      s.verticesNoDeps.drain.length + B < fuel →
      ∃ res, popVertexToAdd id highway pendingValues maxRequestsForVertex fuel s outcomes =
        some res
  | 0, _, _, _, _, _, hfuel => absurd hfuel (Nat.not_lt_zero _)
  | fuel + 1, s, outcomes, hwf, hfiled, hB, hfuel => by
    unfold popVertexToAdd
    split
    · next s₁ outcomes₁ hturn =>
      obtain ⟨hwf₁, hfiled₁, ⟨pv, hpop⟩, -⟩ := popTurn_again_spec id hR hwf hfiled hturn
      have hlen := PendingVertices.length_drain_pop hpop
      exact popVertexToAdd_isSome hrank hR B hwf₁ hfiled₁
        (fun v hv => hB v (PendingVertices.keys_pop_subset hpop hv)) (by omega)
    · exact ⟨_, rfl⟩
    · next hturn =>
      -- a stuck turn would need a chain longer than the rank of the popped vertex
      obtain ⟨pv, noDeps, dep, hpop, hdep, hfind⟩ := popTurn_eq_stuck id hturn
      have hlen := PendingVertices.length_drain_pop hpop
      have hpv : rank (id pv.pvv) ≤ B := hB _ (PendingVertices.mem_keys_of_pop hpop)
      have hdep' : rank dep < fuel := by
        have := hrank _ _ (hR _ _ hdep)
        omega
      obtain ⟨res, hres⟩ := findTransitiveDependency_isSome id (N := N) pv.sender pv.timeReceived
        (fun e he v hv => hrank _ _ (hfiled e he v hv)) hdep'
      rw [hfind] at hres
      cases hres

end PopLoop

end Synchronizer

/-! ### `invalid_vertices` and `purge_vertices` -/

namespace Synchronizer

section Drop

/-- A dropped queue leaves the entries of the other keys. -/
theorem dropQueue_entries (acc : List (PendingVertex V N) × OrdMap D (PendingVertices V N))
    (k : D) : (dropQueue acc k).2.entries = acc.2.entries.filter fun e => e.1 ≠ k := by
  unfold dropQueue
  split
  · next hfind =>
    refine (List.filter_eq_self.mpr fun e he => ?_).symm
    have hne : e.1 ≠ k := fun hk => by
      rw [← hk, OrdMap.find?_of_mem he] at hfind
      cases hfind
    simpa using hne
  · rfl

/-- What a dropped queue collects are the copies it held. -/
theorem mem_dropQueue {acc : List (PendingVertex V N) × OrdMap D (PendingVertices V N)} {k : D}
    {pv : PendingVertex V N} :
    pv ∈ (dropQueue acc k).1 ↔ pv ∈ acc.1 ∨ ∃ e ∈ acc.2.entries, e.1 = k ∧ pv ∈ e.2.drain := by
  unfold dropQueue
  split
  · next hfind =>
    refine ⟨Or.inl, fun h => h.elim id fun ⟨e, he, hk, _⟩ => ?_⟩
    rw [← hk, OrdMap.find?_of_mem he] at hfind
    cases hfind
  · next pvs hfind =>
    have hmem := OrdMap.mem_of_find?_eq_some hfind
    simp only [List.mem_append]
    constructor
    · rintro (h | h)
      · exact Or.inl h
      · exact Or.inr ⟨(k, pvs), hmem, rfl, h⟩
    · rintro (h | ⟨e, he, hk, h⟩)
      · exact Or.inl h
      · rw [acc.2.eq_of_mem_of_fst_eq he hmem hk] at h
        exact Or.inr h

/-- The queues removed by a run of drops are those of the listed keys, and what it collects
are their copies. -/
theorem foldl_dropQueue (l : List D) :
    ∀ acc : List (PendingVertex V N) × OrdMap D (PendingVertices V N),
      (l.foldl dropQueue acc).2.entries = acc.2.entries.filter (fun e => e.1 ∉ l) ∧
      ∀ pv, pv ∈ (l.foldl dropQueue acc).1 ↔
        pv ∈ acc.1 ∨ ∃ e ∈ acc.2.entries, e.1 ∈ l ∧ pv ∈ e.2.drain := by
  induction l with
  | nil =>
    intro acc
    refine ⟨(List.filter_eq_self.mpr fun e _ => by simp).symm, fun pv => ?_⟩
    simp
  | cons k l ih =>
    intro acc
    obtain ⟨hentries, hmem⟩ := ih (dropQueue acc k)
    refine ⟨?_, fun pv => ?_⟩
    · rw [List.foldl_cons, hentries, dropQueue_entries, List.filter_filter]
      congr 1
      funext e
      simp [Bool.and_comm]
    · rw [List.foldl_cons, hmem, mem_dropQueue, dropQueue_entries]
      simp only [List.mem_filter, decide_eq_true_eq, List.mem_cons]
      constructor
      · rintro ((h | ⟨e, he, hk, h⟩) | ⟨e, ⟨he, -⟩, hl, h⟩)
        · exact Or.inl h
        · exact Or.inr ⟨e, he, Or.inl hk, h⟩
        · exact Or.inr ⟨e, he, Or.inr hl, h⟩
      · rintro (h | ⟨e, he, hk | hl, h⟩)
        · exact Or.inl (Or.inl h)
        · exact Or.inl (Or.inr ⟨e, he, hk, h⟩)
        · by_cases hk : e.1 = k
          · exact Or.inl (Or.inr ⟨e, he, hk, h⟩)
          · exact Or.inr ⟨e, ⟨he, hk⟩, hl, h⟩

variable (id : V → D) (isUnit : D → Bool)

/-- `v` depends on one of the units `vertices`: it cites one of them, or a unit that does.
These are the vertices `invalid_vertices` drops with the given ones. -/
inductive DependsOn (R : V → D → Prop) (vertices : List D) : V → Prop
  | cites {v : V} {d : D} : R v d → d ∈ vertices → isUnit d = true → DependsOn R vertices v
  | citesDependent {u v : V} : DependsOn R vertices u → R v (id u) → isUnit (id u) = true →
      DependsOn R vertices v

omit [LinearOrder V] [LinearOrder D] [LinearOrder N] in
/-- The vertices of a later pass are ids of dependents of the given ones, so what depends on
them depends on the given ones. -/
theorem DependsOn.of_ids {R : V → D → Prop} {vertices vertices' : List D}
    (h : ∀ d ∈ vertices', ∃ u, id u = d ∧ DependsOn id isUnit R vertices u) {v : V}
    (hv : DependsOn id isUnit R vertices' v) : DependsOn id isUnit R vertices v := by
  induction hv with
  | cites hR hd hunit =>
    obtain ⟨u, rfl, hu⟩ := h _ hd
    exact .citesDependent hu hR hunit
  | citesDependent _ hR hunit ih => exact .citesDependent ih hR hunit

/-- `invalid_vertices` only removes awaiting queues. -/
theorem invalidVertices_spec :
    ∀ {fuel : Nat} {vertices : List D} {s s' : Synchronizer V D N} {senders : List N},
      invalidVertices id isUnit fuel vertices s = some (senders, s') →
      s'.verticesNoDeps = s.verticesNoDeps ∧
        s'.verticesToBeAddedLater = s.verticesToBeAddedLater ∧
        s'.requestsSent = s.requestsSent ∧
        ∀ e ∈ s'.verticesAwaitingDeps.entries, e ∈ s.verticesAwaitingDeps.entries
  | 0, _, _, _, _, h => by cases h
  | fuel + 1, vertices, s, s', senders, h => by
    unfold invalidVertices at h
    split at h
    · cases h
      exact ⟨rfl, rfl, rfl, fun e he => he⟩
    · obtain ⟨hentries, -⟩ := foldl_dropQueue (vertices.filter isUnit) ([], s.verticesAwaitingDeps)
      simp only [doDropDependentVertices, Option.map_eq_some_iff] at h
      obtain ⟨⟨senders', s''⟩, hrec, hr⟩ := h
      obtain ⟨rfl, rfl⟩ := Prod.mk.inj hr
      obtain ⟨hnoDeps, hlater, hrequests, hsub⟩ := invalidVertices_spec hrec
      refine ⟨hnoDeps, hlater, hrequests, fun e he => ?_⟩
      have he' := hsub e he
      rw [hentries] at he'
      exact (List.mem_filter.mp he').1

/-- A copy `invalid_vertices` drops is of a dependent of the given vertices, and its sender is
among the senders it returns. -/
theorem invalidVertices_holds {R : V → D → Prop} :
    ∀ {fuel : Nat} {vertices : List D} {s s' : Synchronizer V D N} {senders : List N},
      invalidVertices id isUnit fuel vertices s = some (senders, s') → s.WF → s.Filed R →
      ∀ {v n t}, s.Holds v n t → s'.Holds v n t ∨ n ∈ senders ∧ DependsOn id isUnit R vertices v
  | 0, _, _, _, _, h => by cases h
  | fuel + 1, vertices, s, s', senders, h => by
    intro hwf hfiled v n t hv
    unfold invalidVertices at h
    split at h
    · cases h
      exact Or.inl hv
    · obtain ⟨hentries, hdropped⟩ :=
        foldl_dropQueue (vertices.filter isUnit) ([], s.verticesAwaitingDeps)
      simp only [doDropDependentVertices, Option.map_eq_some_iff] at h
      obtain ⟨⟨senders', s''⟩, hrec, hr⟩ := h
      obtain ⟨rfl, rfl⟩ := Prod.mk.inj hr
      set dropped := (vertices.filter isUnit).foldl dropQueue ([], s.verticesAwaitingDeps)
      have hkept : ∀ e ∈ dropped.2.entries, e ∈ s.verticesAwaitingDeps.entries := fun e he => by
        rw [hentries] at he
        exact (List.mem_filter.mp he).1
      have hwf' : { s with verticesAwaitingDeps := dropped.2 }.WF :=
        ⟨hwf.noDeps, hwf.later, fun e he => hwf.awaiting e (hkept e he)⟩
      have hfiled' : Filed R { s with verticesAwaitingDeps := dropped.2 } :=
        fun e he => hfiled e (hkept e he)
      -- a copy this pass collects was filed under one of the given units
      have hdep : ∀ pv ∈ dropped.1, DependsOn id isUnit R vertices pv.pvv := fun pv hpv => by
        obtain ⟨e, he, hk, hpv⟩ := ((hdropped pv).mp hpv).resolve_left List.not_mem_nil
        obtain ⟨hkv, hunit⟩ := List.mem_filter.mp hk
        have hpv' := (PendingVertices.mem_drain (hwf.awaiting e he)).mp hpv
        exact .cites (hfiled e he _ (PendingVertices.mem_keys_of_mem hpv')) hkv
          (by simpa using hunit)
      -- what the later passes drop depends on the ids this pass collected
      have hlift : { s with verticesAwaitingDeps := dropped.2 }.Holds v n t → s''.Holds v n t ∨
          n ∈ dropped.1.map (·.sender) ++ senders' ∧ DependsOn id isUnit R vertices v := by
        intro h'
        refine (invalidVertices_holds hrec hwf' hfiled' h').imp_right fun ⟨hn, hv⟩ =>
          ⟨List.mem_append_right _ hn, DependsOn.of_ids id isUnit (fun d hd => ?_) hv⟩
        obtain ⟨pv, hpv, rfl⟩ := List.mem_map.mp hd
        exact ⟨pv.pvv, rfl, hdep pv hpv⟩
      rcases hv with h | ⟨e, he, h⟩ | ⟨e, he, h⟩
      · exact hlift (Or.inl h)
      · exact hlift (Or.inr (Or.inl ⟨e, he, h⟩))
      · by_cases hk : e.1 ∈ vertices.filter isUnit
        · -- the queue of an invalid unit: its copies are dropped, their senders returned
          obtain ⟨t', -, hpv⟩ := h
          have hdrop := (hdropped _).mpr (Or.inr ⟨e, he, hk,
            (PendingVertices.mem_drain (hwf.awaiting e he)).mpr hpv⟩)
          exact Or.inr ⟨List.mem_append_left _ (List.mem_map.mpr ⟨_, hdrop, rfl⟩), hdep _ hdrop⟩
        · have he' : e ∈ dropped.2.entries := by
            rw [hentries]
            exact List.mem_filter.mpr ⟨he, decide_eq_true hk⟩
          exact hlift (Or.inr (Or.inr ⟨e, he', h⟩))

end Drop

end Synchronizer

namespace Synchronizer

section Purge

variable {s : Synchronizer V D N} {oldest : Nat}

/-- A copy the synchronizer holds, in one of its queues. -/
def HoldsCopy (s : Synchronizer V D N) (pv : PendingVertex V N) : Prop :=
  pv ∈ s.verticesNoDeps ∨ (∃ e ∈ s.verticesToBeAddedLater.entries, pv ∈ e.2) ∨
    ∃ e ∈ s.verticesAwaitingDeps.entries, pv ∈ e.2

theorem holds_iff {v : V} {n : N} {t : Nat} :
    s.Holds v n t ↔ ∃ t' ≥ t, s.HoldsCopy ⟨n, v, t'⟩ := by
  constructor
  · rintro (⟨t', ht', h⟩ | ⟨e, he, t', ht', h⟩ | ⟨e, he, t', ht', h⟩)
    · exact ⟨t', ht', Or.inl h⟩
    · exact ⟨t', ht', Or.inr (Or.inl ⟨e, he, h⟩)⟩
    · exact ⟨t', ht', Or.inr (Or.inr ⟨e, he, h⟩)⟩
  · rintro ⟨t', ht', h | ⟨e, he, h⟩ | ⟨e, he, h⟩⟩
    · exact Or.inl ⟨t', ht', h⟩
    · exact Or.inr (Or.inl ⟨e, he, t', ht', h⟩)
    · exact Or.inr (Or.inr ⟨e, he, t', ht', h⟩)

/-- `remove_expired` on a map of queues keeps exactly the copies received at `oldest` or
later. -/
theorem exists_mem_removeExpired {T : Type} [LinearOrder T] {map : OrdMap T (PendingVertices V N)}
    {pv : PendingVertex V N} :
    (∃ e ∈ (removeExpired map oldest).entries, pv ∈ e.2) ↔
      (∃ e ∈ map.entries, pv ∈ e.2) ∧ oldest ≤ pv.timeReceived := by
  constructor
  · rintro ⟨⟨k, kept⟩, he, hpv⟩
    obtain ⟨he, -⟩ := OrdMap.mem_filter.mp he
    obtain ⟨pvs, hmem, rfl⟩ := OrdMap.mem_mapVal_iff.mp he
    obtain ⟨hpv, ht⟩ := PendingVertices.mem_removeExpired.mp hpv
    exact ⟨⟨_, hmem, hpv⟩, ht⟩
  · rintro ⟨⟨e, he, hpv⟩, ht⟩
    have hkept : pv ∈ e.2.removeExpired oldest := PendingVertices.mem_removeExpired.mpr ⟨hpv, ht⟩
    refine ⟨(e.1, e.2.removeExpired oldest), OrdMap.mem_filter.mpr ⟨?_, ?_⟩, hkept⟩
    · exact OrdMap.mem_mapVal_iff.mpr ⟨e.2, he, rfl⟩
    · simp [PendingVertices.isEmpty_eq_false_of_mem hkept]

/-- `purge_vertices` keeps exactly the copies received at `oldest` or later. -/
theorem holdsCopy_purgeVertices {pv : PendingVertex V N} :
    (s.purgeVertices oldest).HoldsCopy pv ↔ s.HoldsCopy pv ∧ oldest ≤ pv.timeReceived := by
  simp only [HoldsCopy, purgeVertices, PendingVertices.mem_removeExpired, exists_mem_removeExpired]
  constructor
  · rintro (⟨h, ht⟩ | ⟨h, ht⟩ | ⟨h, ht⟩)
    · exact ⟨Or.inl h, ht⟩
    · exact ⟨Or.inr (Or.inl h), ht⟩
    · exact ⟨Or.inr (Or.inr h), ht⟩
  · rintro ⟨h | h | h, ht⟩
    · exact Or.inl ⟨h, ht⟩
    · exact Or.inr (Or.inl ⟨h, ht⟩)
    · exact Or.inr (Or.inr ⟨h, ht⟩)

theorem Holds.purgeVertices {v : V} {n : N} {t : Nat} (h : s.Holds v n t) :
    (s.purgeVertices oldest).Holds v n t ∨ t < oldest := by
  obtain ⟨t', ht', hcopy⟩ := holds_iff.mp h
  by_cases ht : oldest ≤ t
  · exact Or.inl (holds_iff.mpr ⟨t', ht', holdsCopy_purgeVertices.mpr ⟨hcopy, le_trans ht ht'⟩⟩)
  · exact Or.inr (Nat.lt_of_not_le ht)

theorem wf_removeExpired {T : Type} [LinearOrder T] (map : OrdMap T (PendingVertices V N))
    (oldest : Nat) : ∀ e ∈ (removeExpired map oldest).entries, e.2.WF := by
  rintro ⟨k, kept⟩ he
  obtain ⟨he, -⟩ := OrdMap.mem_filter.mp he
  obtain ⟨pvs, -, rfl⟩ := OrdMap.mem_mapVal_iff.mp he
  exact PendingVertices.wf_removeExpired pvs oldest

/-- Purging leaves no vertex without a sender, whatever the queues were. -/
theorem wf_purgeVertices (s : Synchronizer V D N) (oldest : Nat) :
    (s.purgeVertices oldest).WF :=
  ⟨PendingVertices.wf_removeExpired _ _, wf_removeExpired _ _, wf_removeExpired _ _⟩

theorem Filed.purgeVertices {R : V → D → Prop} (h : s.Filed R) :
    (s.purgeVertices oldest).Filed R := by
  rintro ⟨k, kept⟩ he v hv
  obtain ⟨he, -⟩ := OrdMap.mem_filter.mp he
  obtain ⟨pvs, hmem, rfl⟩ := OrdMap.mem_mapVal_iff.mp he
  exact h _ hmem v (PendingVertices.keys_removeExpired_subset hv)

end Purge

end Synchronizer

/-! ### The outcomes of scheduling, and what `add_past_due_stored_vertices` moves -/

namespace PendingVertices

/-- A queue with a sender for each vertex holds a copy of each of its vertices. -/
theorem exists_mem_of_mem_keys {pvs : PendingVertices V N} (hwf : pvs.WF) {v : V}
    (hv : v ∈ pvs.map.keys) : ∃ pv ∈ pvs, pv.pvv = v := by
  obtain ⟨timeBySender, hfind⟩ := OrdMap.mem_keys_iff.mp hv
  have hmem := OrdMap.mem_of_find?_eq_some hfind
  obtain ⟨⟨n, t⟩, hnt⟩ := List.exists_mem_of_ne_nil _ (hwf _ hmem)
  exact ⟨⟨n, v, t⟩, ⟨timeBySender, hmem, hnt⟩, rfl⟩

/-- A queue with a sender for each vertex is empty only when it holds no copy. -/
theorem exists_mem_of_isEmpty_eq_false {pvs : PendingVertices V N} (hwf : pvs.WF)
    (h : pvs.isEmpty = false) : ∃ pv, pv ∈ pvs := by
  cases hpop : pvs.pop with
  | none =>
    rw [(pop_eq_none hwf).mp hpop] at h
    cases h
  | some r =>
    obtain ⟨pv, pvs'⟩ := r
    exact ⟨pv, (mem_pop hwf hpop).mpr (Or.inl rfl)⟩

theorem isEmpty_eq_false_of_removeExpired {pvs : PendingVertices V N} {oldest : Nat}
    (h : (pvs.removeExpired oldest).isEmpty = false) : pvs.isEmpty = false := by
  obtain ⟨pv, hpv⟩ := exists_mem_of_isEmpty_eq_false (wf_removeExpired pvs oldest) h
  exact isEmpty_eq_false_of_mem (mem_removeExpired.mp hpv).1

end PendingVertices

namespace Synchronizer

section Outcomes

/-- `schedule_add_vertices` returns at most a `QueueAction`, and one when it fills an empty
`vertices_no_deps`. -/
theorem scheduleAddVertices_outcomes (l : List (PendingVertex V N)) (s : Synchronizer V D N) :
    (∀ o ∈ (scheduleAddVertices l s).2, o = .queueAction) ∧
      ((scheduleAddVertices l s).1.verticesNoDeps.isEmpty = false →
        s.verticesNoDeps.isEmpty = false ∨ .queueAction ∈ (scheduleAddVertices l s).2) := by
  unfold scheduleAddVertices
  dsimp only
  refine ⟨fun o ho => ?_, fun hne => ?_⟩
  · split at ho
    · exact List.mem_singleton.mp ho
    · cases ho
  · cases hs : s.verticesNoDeps.isEmpty with
    | false => exact Or.inl rfl
    | true => exact Or.inr (by simp [hne])

/-- One past-due timestamp appends at most a `QueueAction` to the outcomes, and one when it
fills an empty `vertices_no_deps`; it leaves the request records. -/
theorem addStoredAt_outcomes (acc : Synchronizer V D N × List (ProtocolOutcome D N))
    (pastDue : Nat) :
    (∀ o ∈ (addStoredAt acc pastDue).2, o ∈ acc.2 ∨ o = .queueAction) ∧
      (∀ o ∈ acc.2, o ∈ (addStoredAt acc pastDue).2) ∧
      ((addStoredAt acc pastDue).1.verticesNoDeps.isEmpty = false →
        acc.1.verticesNoDeps.isEmpty = false ∨ .queueAction ∈ (addStoredAt acc pastDue).2) ∧
      (addStoredAt acc pastDue).1.requestsSent = acc.1.requestsSent := by
  unfold addStoredAt
  split
  · exact ⟨fun o ho => Or.inl ho, fun o ho => ho, Or.inl, rfl⟩
  · next verticesToAdd _ =>
    dsimp only
    obtain ⟨hout, hfill⟩ := scheduleAddVertices_outcomes verticesToAdd.drain
      { acc.1 with verticesToBeAddedLater := acc.1.verticesToBeAddedLater.erase pastDue }
    refine ⟨fun o ho => ?_, fun o ho => List.mem_append_left _ ho, fun hne => ?_, rfl⟩
    · rcases List.mem_append.mp ho with ho | ho
      · exact Or.inl ho
      · exact Or.inr (hout o ho)
    · exact (hfill hne).imp_right (List.mem_append_right _)

/-- `add_past_due_stored_vertices` returns at most `QueueAction`s, one if it fills an empty
`vertices_no_deps`, and leaves the request records. -/
theorem addPastDueStoredVertices_outcomes (s : Synchronizer V D N) (timestamp : Nat) :
    (∀ o ∈ (s.addPastDueStoredVertices timestamp).2, o = .queueAction) ∧
      ((s.addPastDueStoredVertices timestamp).1.verticesNoDeps.isEmpty = false →
        s.verticesNoDeps.isEmpty = false ∨
          .queueAction ∈ (s.addPastDueStoredVertices timestamp).2) ∧
      (s.addPastDueStoredVertices timestamp).1.requestsSent = s.requestsSent := by
  unfold addPastDueStoredVertices
  generalize s.verticesToBeAddedLater.keys.filter (· ≤ timestamp) = pastDue
  -- carried through the loop: every outcome is an earlier one or a `QueueAction`
  suffices ∀ acc : Synchronizer V D N × List (ProtocolOutcome D N),
      (∀ o ∈ (pastDue.foldl addStoredAt acc).2, o ∈ acc.2 ∨ o = .queueAction) ∧
      (∀ o ∈ acc.2, o ∈ (pastDue.foldl addStoredAt acc).2) ∧
      ((pastDue.foldl addStoredAt acc).1.verticesNoDeps.isEmpty = false →
        acc.1.verticesNoDeps.isEmpty = false ∨
          .queueAction ∈ (pastDue.foldl addStoredAt acc).2) ∧
      (pastDue.foldl addStoredAt acc).1.requestsSent = acc.1.requestsSent by
    obtain ⟨hout, -, hfill, hreq⟩ := this (s, [])
    exact ⟨fun o ho => (hout o ho).resolve_left (by simp), hfill, hreq⟩
  induction pastDue with
  | nil => exact fun acc => ⟨fun o ho => Or.inl ho, fun o ho => ho, Or.inl, rfl⟩
  | cons k pastDue ih =>
    intro acc
    obtain ⟨hout₁, hkeep₁, hfill₁, hreq₁⟩ := addStoredAt_outcomes acc k
    obtain ⟨hout, hkeep, hfill, hreq⟩ := ih (addStoredAt acc k)
    refine ⟨fun o ho => ?_, fun o ho => hkeep o (hkeep₁ o ho), fun hne => ?_, hreq.trans hreq₁⟩
    · rcases hout o ho with ho | ho
      · exact hout₁ o ho
      · exact Or.inr ho
    · rcases hfill hne with hne₁ | hq
      · exact (hfill₁ hne₁).imp_right (hkeep _)
      · exact Or.inr hq

end Outcomes

section PastDue

variable {v : V} {n : N} {t : Nat}

theorem addStoredAt_later_entries (acc : Synchronizer V D N × List (ProtocolOutcome D N))
    (pastDue : Nat) :
    (addStoredAt acc pastDue).1.verticesToBeAddedLater.entries =
      acc.1.verticesToBeAddedLater.entries.filter fun e => e.1 ≠ pastDue := by
  unfold addStoredAt
  split
  · next hfind =>
    refine (List.filter_eq_self.mpr fun e he => ?_).symm
    have hne : e.1 ≠ pastDue := fun hk => by
      rw [← hk, OrdMap.find?_of_mem he] at hfind
      cases hfind
    simpa using hne
  · rfl

theorem hasFrom_noDeps_addStoredAt {acc : Synchronizer V D N × List (ProtocolOutcome D N)}
    (h : acc.1.verticesNoDeps.HasFrom v n t) (pastDue : Nat) :
    (addStoredAt acc pastDue).1.verticesNoDeps.HasFrom v n t := by
  unfold Synchronizer.addStoredAt
  split
  · exact h
  · exact h.foldl_push _

/-- The copies of the queue that is due reach `vertices_no_deps`. -/
theorem hasFrom_addStoredAt {acc : Synchronizer V D N × List (ProtocolOutcome D N)}
    {pastDue : Nat} {pvs : PendingVertices V N}
    (hmem : (pastDue, pvs) ∈ acc.1.verticesToBeAddedLater.entries) (hwf : pvs.WF)
    {pv : PendingVertex V N} (hpv : pv ∈ pvs) :
    (addStoredAt acc pastDue).1.verticesNoDeps.HasFrom pv.pvv pv.sender pv.timeReceived := by
  unfold addStoredAt
  rw [OrdMap.find?_of_mem hmem]
  exact PendingVertices.hasFrom_foldl_push ((PendingVertices.mem_drain hwf).mpr hpv) _

/-- The past-due loop over any timestamps: their queues leave `vertices_to_be_added_later`,
each copy they held reaches `vertices_no_deps`, and what that queue held stays. -/
theorem foldl_addStoredAt (l : List Nat) :
    ∀ acc : Synchronizer V D N × List (ProtocolOutcome D N), acc.1.WF →
      (l.foldl addStoredAt acc).1.verticesToBeAddedLater.entries =
        acc.1.verticesToBeAddedLater.entries.filter (fun e => e.1 ∉ l) ∧
      (∀ e ∈ acc.1.verticesToBeAddedLater.entries, e.1 ∈ l → ∀ pv ∈ e.2,
        (l.foldl addStoredAt acc).1.verticesNoDeps.HasFrom pv.pvv pv.sender pv.timeReceived) ∧
      ∀ v n t, acc.1.verticesNoDeps.HasFrom v n t →
        (l.foldl addStoredAt acc).1.verticesNoDeps.HasFrom v n t := by
  induction l with
  | nil =>
    intro acc _
    exact ⟨(List.filter_eq_self.mpr fun e _ => by simp).symm, fun e _ he => (by cases he),
      fun _ _ _ h => h⟩
  | cons k l ih =>
    intro acc hwf
    obtain ⟨hentries, hmoved, hkeep⟩ := ih (addStoredAt acc k) (hwf.addStoredAt k)
    refine ⟨?_, fun e he hk pv hpv => ?_, fun v n t h => hkeep v n t (hasFrom_noDeps_addStoredAt h k)⟩
    · rw [List.foldl_cons, hentries, addStoredAt_later_entries, List.filter_filter]
      congr 1
      funext e
      simp [Bool.and_comm]
    · rw [List.foldl_cons]
      by_cases hek : e.1 = k
      · -- the queue due at `k` is moved by this step and kept by the rest of the loop
        have hmem : (k, e.2) ∈ acc.1.verticesToBeAddedLater.entries := hek ▸ he
        exact hkeep _ _ _ (hasFrom_addStoredAt hmem (hwf.later e he) hpv)
      · have he' : e ∈ (addStoredAt acc k).1.verticesToBeAddedLater.entries := by
          rw [addStoredAt_later_entries]
          exact List.mem_filter.mpr ⟨he, by simpa using hek⟩
        exact hmoved e he' ((List.mem_cons.mp hk).resolve_left hek) pv hpv

end PastDue

/-! ### `invalid_vertices` ends, and drops every dependent -/

section Invalid

variable (id : V → D) (isUnit : D → Bool)

/-- **`invalid_vertices` returns**: each pass of its `while` removes an awaiting queue, or
collects nothing and so ends the loop at the next pass. -/
theorem invalidVertices_isSome :
    ∀ {fuel : Nat} {vertices : List D} {s : Synchronizer V D N},
      s.verticesAwaitingDeps.entries.length + 2 ≤ fuel →
      ∃ r, invalidVertices id isUnit fuel vertices s = some r
  | 0, _, _, hfuel => absurd hfuel (by omega)
  | fuel + 1, vertices, s, hfuel => by
    unfold invalidVertices
    split
    · exact ⟨_, rfl⟩
    · obtain ⟨hentries, hcollected⟩ :=
        foldl_dropQueue (vertices.filter isUnit) ([], s.verticesAwaitingDeps)
      simp only [doDropDependentVertices]
      by_cases hnil : ((vertices.filter isUnit).foldl dropQueue ([], s.verticesAwaitingDeps)).1 = []
      · obtain ⟨fuel, rfl⟩ : ∃ f, fuel = f + 1 := ⟨fuel - 1, by omega⟩
        rw [hnil]
        exact ⟨_, rfl⟩
      · obtain ⟨pv, hpv⟩ := List.exists_mem_of_ne_nil _ hnil
        obtain ⟨e, he, hk, -⟩ := ((hcollected pv).mp hpv).resolve_left (by simp)
        have hlt : ((vertices.filter isUnit).foldl dropQueue
            ([], s.verticesAwaitingDeps)).2.entries.length <
            s.verticesAwaitingDeps.entries.length := by
          rw [hentries]
          exact List.length_filter_lt_length_iff_exists.mpr ⟨e, he, by simpa using hk⟩
        obtain ⟨r, hr⟩ : ∃ r, invalidVertices id isUnit fuel
            (((vertices.filter isUnit).foldl dropQueue ([], s.verticesAwaitingDeps)).1.map
              fun pv => id pv.pvv)
            { s with verticesAwaitingDeps := ((vertices.filter isUnit).foldl dropQueue
              ([], s.verticesAwaitingDeps)).2 } = some r :=
          invalidVertices_isSome (by dsimp only; omega)
        rw [hr]
        exact ⟨_, rfl⟩

/-- What each pass of `invalid_vertices` leaves: no queue under a given unit, nor under the id
of a unit whose queue a pass dropped. -/
theorem invalidVertices_closed :
    ∀ {fuel : Nat} {vertices : List D} {s s' : Synchronizer V D N} {senders : List N},
      (∀ e ∈ s.verticesAwaitingDeps.entries, e.2.WF) →
      invalidVertices id isUnit fuel vertices s = some (senders, s') →
      ∀ e ∈ s'.verticesAwaitingDeps.entries, ¬ (e.1 ∈ vertices ∧ isUnit e.1 = true) ∧
        ∀ e₀ ∈ s.verticesAwaitingDeps.entries, e₀ ∉ s'.verticesAwaitingDeps.entries →
          ∀ v ∈ e₀.2.map.keys, isUnit (id v) = true → id v ≠ e.1
  | 0, _, _, _, _, _, h => by cases h
  | fuel + 1, vertices, s, s', senders, hwf, h => by
    unfold invalidVertices at h
    split at h
    · next hempty =>
      cases h
      intro e _
      refine ⟨fun hk => ?_, fun e₀ he₀ hnot => absurd he₀ hnot⟩
      rw [List.isEmpty_iff.mp hempty] at hk
      exact List.not_mem_nil hk.1
    · simp only [doDropDependentVertices, Option.map_eq_some_iff] at h
      obtain ⟨⟨senders', s''⟩, hrec, hr⟩ := h
      obtain ⟨rfl, rfl⟩ := Prod.mk.inj hr
      obtain ⟨hentries, hcollected⟩ :=
        foldl_dropQueue (vertices.filter isUnit) ([], s.verticesAwaitingDeps)
      have hkept : ∀ e ∈ ((vertices.filter isUnit).foldl dropQueue
          ([], s.verticesAwaitingDeps)).2.entries,
          e ∈ s.verticesAwaitingDeps.entries ∧ e.1 ∉ vertices.filter isUnit := fun e he => by
        rw [hentries] at he
        exact ⟨(List.mem_filter.mp he).1, of_decide_eq_true (List.mem_filter.mp he).2⟩
      have ih := invalidVertices_closed (fun e he => hwf e (hkept e he).1) hrec
      obtain ⟨-, -, -, hsub⟩ := invalidVertices_spec id isUnit hrec
      intro e he
      obtain ⟨hnext, hdropped⟩ := ih e he
      refine ⟨fun hk => (hkept e (hsub e he)).2 (List.mem_filter.mpr hk), ?_⟩
      intro e₀ he₀ hnot v hv hunit hid
      by_cases he₀' : e₀ ∈ ((vertices.filter isUnit).foldl dropQueue
          ([], s.verticesAwaitingDeps)).2.entries
      · exact hdropped e₀ he₀' hnot v hv hunit hid
      · -- the queue of `e₀` went in this pass, so the id of its vertex `v` is among the next
        -- vertices, whose queues the next passes drop
        have hk₀ : e₀.1 ∈ vertices.filter isUnit := by
          by_contra hk₀
          rw [hentries] at he₀'
          exact he₀' (List.mem_filter.mpr ⟨he₀, decide_eq_true hk₀⟩)
        obtain ⟨pv, hpv, rfl⟩ := PendingVertices.exists_mem_of_mem_keys (hwf e₀ he₀) hv
        have hpv' := (hcollected pv).mpr
          (Or.inr ⟨e₀, he₀, hk₀, (PendingVertices.mem_drain (hwf e₀ he₀)).mpr hpv⟩)
        refine hnext ⟨?_, hid ▸ hunit⟩
        rw [← hid]
        exact List.mem_map_of_mem hpv'

end Invalid

end Synchronizer

/-! ### `retain_evidence_only` -/

namespace PendingVertices

variable {isEvidence : V → Bool} {pvs : PendingVertices V N}

theorem mem_retainEvidenceOnly {pv : PendingVertex V N} :
    pv ∈ pvs.retainEvidenceOnly isEvidence ↔ pv ∈ pvs ∧ isEvidence pv.pvv = true := by
  constructor
  · rintro ⟨timeBySender, hv, hn⟩
    obtain ⟨hv, he⟩ := List.mem_filter.mp hv
    exact ⟨⟨timeBySender, hv, hn⟩, he⟩
  · rintro ⟨⟨timeBySender, hv, hn⟩, he⟩
    exact ⟨timeBySender, List.mem_filter.mpr ⟨hv, he⟩, hn⟩

theorem WF.retainEvidenceOnly (h : pvs.WF) (isEvidence : V → Bool) :
    (pvs.retainEvidenceOnly isEvidence).WF :=
  fun e he => h e (List.mem_filter.mp he).1

theorem isEmpty_eq_false_of_retainEvidenceOnly
    (h : (pvs.retainEvidenceOnly isEvidence).isEmpty = false) : pvs.isEmpty = false := by
  unfold isEmpty retainEvidenceOnly OrdMap.retain at h
  unfold isEmpty
  cases hl : pvs.map.entries with
  | nil => simp [hl] at h
  | cons e l => rfl

end PendingVertices

namespace Synchronizer

variable {isEvidence : V → Bool} {s : Synchronizer V D N}

theorem wf_retainEvidenceOnly (hwf : s.WF) (isEvidence : V → Bool) :
    (s.retainEvidenceOnly isEvidence).WF :=
  ⟨hwf.noDeps.retainEvidenceOnly isEvidence, fun _ he => (by cases he), fun _ he => (by cases he)⟩

theorem filed_retainEvidenceOnly (R : V → D → Prop) (s : Synchronizer V D N)
    (isEvidence : V → Bool) : (s.retainEvidenceOnly isEvidence).Filed R :=
  fun _ he => (by cases he)

/-- `retain_evidence_only` keeps exactly the evidence of `vertices_no_deps`. -/
theorem holdsCopy_retainEvidenceOnly {pv : PendingVertex V N} :
    (s.retainEvidenceOnly isEvidence).HoldsCopy pv ↔
      pv ∈ s.verticesNoDeps ∧ isEvidence pv.pvv = true := by
  constructor
  · rintro (h | ⟨e, he, -⟩ | ⟨e, he, -⟩)
    · exact PendingVertices.mem_retainEvidenceOnly.mp h
    · cases he
    · cases he
  · intro h
    exact Or.inl (PendingVertices.mem_retainEvidenceOnly.mpr h)

end Synchronizer

/-! ### No map keeps an empty queue -/

namespace PendingVertices

theorem Covers.isEmpty {pvs pvs' : PendingVertices V N} (h : pvs.Covers pvs') :
    pvs'.isEmpty = pvs.isEmpty := by
  unfold PendingVertices.isEmpty
  rw [← List.isEmpty_map (f := Prod.fst), ← List.isEmpty_map (f := Prod.fst) (l := pvs.map.entries)]
  exact congrArg List.isEmpty h.keys

theorem isEmpty_add (n : N) (v : V) (t : Nat) (pvs : PendingVertices V N) :
    (pvs.add n v t).isEmpty = false := by
  unfold add isEmpty
  dsimp only
  rw [List.isEmpty_eq_false_iff]
  exact OrdMap.entries_insert_ne_nil _ _ _

end PendingVertices

namespace Synchronizer

/-- Every queue of a map holds a vertex. -/
def QueuesNonempty {T : Type} [LinearOrder T] (map : OrdMap T (PendingVertices V N)) : Prop :=
  ∀ e ∈ map.entries, e.2.isEmpty = false

section NonemptyQueues

variable {T : Type} [LinearOrder T] {map map' : OrdMap T (PendingVertices V N)}

theorem QueuesNonempty.mono (h : QueuesNonempty map) (hsub : ∀ e ∈ map'.entries, e ∈ map.entries) :
    QueuesNonempty map' :=
  fun e he => h e (hsub e he)

theorem queuesNonempty_removeExpired (map : OrdMap T (PendingVertices V N)) (oldest : Nat) :
    QueuesNonempty (removeExpired map oldest) := by
  intro e he
  simpa using (OrdMap.mem_filter.mp he).2

theorem queuesNonempty_insert_add (h : QueuesNonempty map) (k : T) (n : N) (v : V) (t : Nat)
    (pvs : PendingVertices V N) : QueuesNonempty (map.insert k (pvs.add n v t)) := by
  intro e he
  rcases OrdMap.mem_insert.mp he with rfl | ⟨he, -⟩
  · exact PendingVertices.isEmpty_add n v t pvs
  · exact h e he

theorem CoversQueues.queuesNonempty {awaiting awaiting' : OrdMap D (PendingVertices V N)}
    (h : CoversQueues awaiting awaiting') (hne : QueuesNonempty awaiting) :
    QueuesNonempty awaiting' := by
  intro e he
  obtain ⟨pvs, hmem⟩ := exists_mem_of_keys_eq h.keys.symm he
  rw [(h.covers e.1 pvs e.2 hmem he).isEmpty]
  exact hne _ hmem

end NonemptyQueues

section PopNonempty

variable (id : V → D) {highway : HighwayView V D} {pendingValues : List (V × N)}
  {maxRequestsForVertex : Nat} {s s' : Synchronizer V D N}
  {outcomes outcomes' : List (ProtocolOutcome D N)}

/-- A turn of `pop_vertex_to_add` files vertices only into queues that hold a vertex. -/
theorem popTurn_queuesNonempty {fuel : Nat} (hne : QueuesNonempty s.verticesAwaitingDeps)
    (h : popTurn id highway pendingValues maxRequestsForVertex fuel s outcomes =
      .again s' outcomes') :
    QueuesNonempty s'.verticesAwaitingDeps := by
  obtain ⟨pv, noDeps, -, ⟨-, rfl, -⟩ | ⟨dep, td, awaiting, -, -, hfind, hturn⟩⟩ :=
    popTurn_eq_again id h
  · exact hne
  -- each filing branch files the popped vertex after the chain walk, which only adds holders
  have hfiled : QueuesNonempty (addMissingDependency dep pv
      ⟨awaiting, s.verticesToBeAddedLater, noDeps, s.requestsSent⟩).verticesAwaitingDeps :=
    queuesNonempty_insert_add ((findTransitiveDependency_covers id hfind).queuesNonempty hne)
      dep pv.sender pv.pvv pv.timeReceived _
  rcases hturn with ⟨rfl, -⟩ | ⟨rfl, -⟩ | ⟨-, -, rfl, -⟩ <;> exact hfiled

theorem popVertexToAdd_queuesNonempty :
    ∀ {fuel : Nat} {s s' : Synchronizer V D N} {outcomes outcomes' : List (ProtocolOutcome D N)}
      {r : Option (PendingVertex V N)}, QueuesNonempty s.verticesAwaitingDeps →
      popVertexToAdd id highway pendingValues maxRequestsForVertex fuel s outcomes =
        some (r, outcomes', s') →
      QueuesNonempty s'.verticesAwaitingDeps ∧
        s'.verticesToBeAddedLater = s.verticesToBeAddedLater
  | 0, _, _, _, _, _, _, h => by cases h
  | fuel + 1, s, s', outcomes, outcomes', r, hne, h => by
    unfold popVertexToAdd at h
    split at h
    · next s₁ outcomes₁ hturn =>
      obtain ⟨hne', hlater⟩ := popVertexToAdd_queuesNonempty (popTurn_queuesNonempty id hne hturn) h
      refine ⟨hne', hlater.trans ?_⟩
      obtain ⟨pv, noDeps, -, ⟨-, rfl, -⟩ | ⟨dep, td, awaiting, -, -, -, hturn'⟩⟩ :=
        popTurn_eq_again id hturn
      · rfl
      · rcases hturn' with ⟨rfl, -⟩ | ⟨rfl, -⟩ | ⟨-, -, rfl, -⟩ <;> rfl
    · next r₁ outcomes₁ s₁ hturn =>
      cases h
      rcases popTurn_eq_stop id hturn with ⟨-, -, -, rfl⟩ |
          ⟨pv, noDeps, -, -, -, ⟨-, -, rfl⟩ | ⟨dep, td, awaiting, vv, n, -, hfind, -, -, -, rfl⟩⟩
      · exact ⟨hne, rfl⟩
      · exact ⟨hne, rfl⟩
      · exact ⟨queuesNonempty_insert_add
          ((findTransitiveDependency_covers id hfind).queuesNonempty hne) dep pv.sender pv.pvv
          pv.timeReceived _, rfl⟩
    · cases h

end PopNonempty

end Synchronizer

end CasperNode.Highway
