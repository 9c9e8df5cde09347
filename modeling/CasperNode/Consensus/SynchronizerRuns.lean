import CasperNode.Consensus.Synchronizer

/-!
# Runs of the Highway synchronizer

The node calls the synchronizer to hand it vertices (`schedule_add_vertex`,
`store_vertex_for_addition_later`), to move vertices whose time or dependency has come
(`add_past_due_stored_vertices`, `remove_satisfied_deps`), to take the next vertex to add
(`pop_vertex_to_add`), and to drop vertices (`invalid_vertices`, `purge_vertices`,
`retain_evidence_only`).  A run is a list of such calls from `Synchronizer::new`; each call
reads the protocol state as it is at that call, through its own `HighwayView`.

What the protocol state reports as missing is related to the vertex by a relation `R`, in
the code the dependencies a vertex cites.  Along every run, each vertex waiting for a
dependency waits under one `R` relates it to, no queue keeps a vertex without a sender, and a
copy of a vertex leaves the synchronizer only through the exits the code has for it.  Whether
the chain walk of `pop_vertex_to_add` ends depends on `R`: with a rank that every reported
dependency lowers, as when ids are content hashes, it does (`synchronizer_keeps_vertices`); a
cycle of citations, which content hashes cannot form, would keep it walking for ever.
-/

namespace CasperNode.Highway

variable {V D N : Type} [LinearOrder V] [LinearOrder D] [LinearOrder N]

/-- The calls the node makes on the synchronizer. -/
inductive SyncCall (V D N : Type)
  | scheduleAddVertex (sender : N) (pvv : V) (now : Nat)
  | storeVertexForAdditionLater (futureTimestamp now : Nat) (sender : N) (pvv : V)
  | addPastDueStoredVertices (timestamp : Nat)
  | popVertexToAdd (highway : HighwayView V D) (pendingValues : List (V × N))
      (maxRequestsForVertex : Nat)
  | removeSatisfiedDeps (highway : HighwayView V D)
  | invalidVertices (vertices : List D)
  | purgeVertices (oldest : Nat)
  | retainEvidenceOnly (isEvidence : V → Bool)

/-- What a call returns: the vertex `pop_vertex_to_add` gives, the outcomes, and the senders
`invalid_vertices` finds faulty. -/
structure SyncReturn (V D N : Type) where
  vertex : Option (PendingVertex V N)
  outcomes : List (ProtocolOutcome D N)
  senders : List N

namespace SyncCall

/-- The protocol state a call reads reports only dependencies `R` relates the vertex to. -/
def ReportsWithin (R : V → D → Prop) : SyncCall V D N → Prop
  | .popVertexToAdd highway _ _ => ∀ v d, highway.missingDependency v = some d → R v d
  | _ => True

/-- The ways a copy of `v` from `n` received at `t` may leave in a call: `pop_vertex_to_add`
skips it as the protocol state has `v`, or returns it; `invalid_vertices` drops it, as `v`
cites one of the invalid units or a unit that does (the citations are those `R` relates), and
returns its sender; `purge_vertices` finds it expired; `retain_evidence_only` may drop any copy
(it keeps only the evidence of `vertices_no_deps`, `holdsCopy_retainEvidenceOnly`). -/
def Releases (id : V → D) (isUnit : D → Bool) (R : V → D → Prop) :
    SyncCall V D N → SyncReturn V D N → V → N → Nat → Prop
  | .popVertexToAdd highway _ _, r, v, n, _ =>
    highway.hasVertex v = true ∨ ∃ pv, r.vertex = some pv ∧ pv.pvv = v ∧ pv.sender = n
  | .invalidVertices vertices, r, v, n, _ =>
    n ∈ r.senders ∧ Synchronizer.DependsOn id isUnit R vertices v
  | .purgeVertices oldest, _, _, _, t => t < oldest
  | .retainEvidenceOnly _, _, _, _, _ => True
  | _, _, _, _, _ => False

/-- The copy a call hands to the synchronizer. -/
def Hands : SyncCall V D N → V → N → Nat → Prop
  | .scheduleAddVertex sender pvv now, v, n, t => v = pvv ∧ n = sender ∧ t = now
  | .storeVertexForAdditionLater _ now sender pvv, v, n, t => v = pvv ∧ n = sender ∧ t = now
  | _, _, _, _ => False

omit [LinearOrder V] [LinearOrder D] [LinearOrder N] in
theorem reportsWithin_true (call : SyncCall V D N) : call.ReportsWithin (fun _ _ => True) := by
  cases call <;> simp [ReportsWithin]

end SyncCall

namespace Synchronizer

variable (id : V → D) (isUnit : D → Bool)

/-- One call, with fuel for the loops of `pop_vertex_to_add` and `invalid_vertices`. -/
def step (fuel : Nat) :
    SyncCall V D N → Synchronizer V D N → Option (Synchronizer V D N × SyncReturn V D N)
  | .scheduleAddVertex sender pvv now, s =>
    let r := s.scheduleAddVertex sender pvv now
    some (r.1, ⟨none, r.2, []⟩)
  | .storeVertexForAdditionLater futureTimestamp now sender pvv, s =>
    some (s.storeVertexForAdditionLater futureTimestamp now sender pvv, ⟨none, [], []⟩)
  | .addPastDueStoredVertices timestamp, s =>
    let r := s.addPastDueStoredVertices timestamp
    some (r.1, ⟨none, r.2, []⟩)
  | .popVertexToAdd highway pendingValues maxRequestsForVertex, s =>
    (popVertexToAdd id highway pendingValues maxRequestsForVertex fuel s []).map
      fun r => (r.2.2, ⟨r.1, r.2.1, []⟩)
  | .removeSatisfiedDeps highway, s =>
    let r := s.removeSatisfiedDeps highway
    some (r.1, ⟨none, r.2, []⟩)
  | .invalidVertices vertices, s =>
    (invalidVertices id isUnit fuel vertices s).map fun r => (r.2, ⟨none, [], r.1⟩)
  | .purgeVertices oldest, s => some (s.purgeVertices oldest, ⟨none, [], []⟩)
  | .retainEvidenceOnly isEvidence, s => some (s.retainEvidenceOnly isEvidence, ⟨none, [], []⟩)

/-- A run of calls, each with the same fuel: the state after, and what each call returned. -/
def runCalls (fuel : Nat) :
    List (SyncCall V D N) → Synchronizer V D N →
      Option (Synchronizer V D N × List (SyncReturn V D N))
  | [], s => some (s, [])
  | call :: calls, s => do
    let (s₁, r) ← step id isUnit fuel call s
    let (s', rs) ← runCalls fuel calls s₁
    pure (s', r :: rs)

/-- The states runs from `Synchronizer::new` reach, each call reading a protocol state that
reports dependencies within `R`. -/
inductive Reachable (R : V → D → Prop) : Synchronizer V D N → Prop
  | new : Reachable R new
  | call {s s' : Synchronizer V D N} {call : SyncCall V D N} {fuel : Nat}
      {r : SyncReturn V D N} :
      Reachable R s → call.ReportsWithin R → step id isUnit fuel call s = some (s', r) →
      Reachable R s'

section Step

variable {id isUnit} {R : V → D → Prop} {s s' : Synchronizer V D N} {call : SyncCall V D N}
  {fuel : Nat} {r : SyncReturn V D N}

/-- **One call.**  It keeps the invariants, loses a copy only through one of its exits, and
holds the copy it is handed. -/
theorem step_spec (hwf : s.WF) (hfiled : s.Filed R) (hR : call.ReportsWithin R)
    (h : step id isUnit fuel call s = some (s', r)) :
    s'.WF ∧ s'.Filed R ∧
      (∀ v n t, s.Holds v n t → s'.Holds v n t ∨ call.Releases id isUnit R r v n t) ∧
      ∀ v n t, call.Hands v n t → s'.Holds v n t := by
  cases call with
  | scheduleAddVertex sender pvv now =>
    cases h
    refine ⟨hwf.scheduleAddVertices _, hfiled, fun v n t h => Or.inl (h.scheduleAddVertices _), ?_⟩
    rintro v n t ⟨rfl, rfl, rfl⟩
    exact holds_scheduleAddVertices (l := [⟨n, v, t⟩]) List.mem_cons_self s
  | storeVertexForAdditionLater futureTimestamp now sender pvv =>
    cases h
    refine ⟨hwf.storeVertexForAdditionLater _ _ _ _, hfiled,
      fun v n t h => Or.inl (h.storeVertexForAdditionLater _ _ _ _), ?_⟩
    rintro v n t ⟨rfl, rfl, rfl⟩
    exact holds_storeVertexForAdditionLater _ _ _ _ s
  | addPastDueStoredVertices timestamp =>
    cases h
    obtain ⟨hwf', hawaiting, hholds⟩ := addPastDueStoredVertices_spec hwf timestamp
    refine ⟨hwf', ?_, fun v n t h => Or.inl (hholds v n t h), fun _ _ _ h => h.elim⟩
    unfold Filed
    rw [hawaiting]
    exact hfiled
  | popVertexToAdd highway pendingValues maxRequestsForVertex =>
    simp only [step, Option.map_eq_some_iff] at h
    obtain ⟨⟨r', outcomes', s''⟩, hpop, hr⟩ := h
    obtain ⟨rfl, rfl⟩ := Prod.mk.inj hr
    obtain ⟨hwf', hfiled', hholds, -⟩ := popVertexToAdd_spec id hR hwf hfiled hpop
    exact ⟨hwf', hfiled', hholds, fun _ _ _ h => h.elim⟩
  | removeSatisfiedDeps highway =>
    cases h
    exact ⟨hwf.removeSatisfiedDeps, hfiled.removeSatisfiedDeps,
      fun v n t h => Or.inl (h.removeSatisfiedDeps hwf), fun _ _ _ h => h.elim⟩
  | invalidVertices vertices =>
    simp only [step, Option.map_eq_some_iff] at h
    obtain ⟨⟨senders, s''⟩, hinvalid, hr⟩ := h
    obtain ⟨rfl, rfl⟩ := Prod.mk.inj hr
    obtain ⟨hnoDeps, hlater, -, hsub⟩ := invalidVertices_spec id isUnit hinvalid
    refine ⟨⟨hnoDeps ▸ hwf.noDeps, hlater ▸ hwf.later, fun e he => hwf.awaiting e (hsub e he)⟩,
      fun e he => hfiled e (hsub e he),
      fun v n t h => invalidVertices_holds id isUnit hinvalid hwf hfiled h, fun _ _ _ h => h.elim⟩
  | purgeVertices oldest =>
    cases h
    exact ⟨wf_purgeVertices s oldest, hfiled.purgeVertices, fun v n t h => h.purgeVertices,
      fun _ _ _ h => h.elim⟩
  | retainEvidenceOnly isEvidence =>
    cases h
    exact ⟨wf_retainEvidenceOnly hwf isEvidence, filed_retainEvidenceOnly R s isEvidence,
      fun _ _ _ _ => Or.inr trivial, fun _ _ _ h => h.elim⟩

end Step

/-- Every reachable state keeps a sender for each of its vertices, and files each awaiting
vertex under a dependency `R` relates it to. -/
theorem Reachable.invariant {R : V → D → Prop} {s : Synchronizer V D N}
    (hs : Reachable id isUnit R s) : s.WF ∧ s.Filed R := by
  induction hs with
  | new => exact ⟨wf_new, filed_new R⟩
  | call _ hR hstep ih =>
    obtain ⟨hwf, hfiled, -⟩ := step_spec ih.1 ih.2 hR hstep
    exact ⟨hwf, hfiled⟩

/-! ### Runs -/

section Runs

variable {id isUnit} {R : V → D → Prop} {fuel : Nat}

/-- A run is its first call and the run after it. -/
theorem runCalls_cons_eq_some {call : SyncCall V D N} {calls : List (SyncCall V D N)}
    {s s' : Synchronizer V D N} {rs : List (SyncReturn V D N)}
    (h : runCalls id isUnit fuel (call :: calls) s = some (s', rs)) :
    ∃ s₁ r rs', step id isUnit fuel call s = some (s₁, r) ∧
      runCalls id isUnit fuel calls s₁ = some (s', rs') ∧ rs = r :: rs' := by
  simp only [runCalls, Option.bind_eq_bind, Option.bind_eq_some_iff] at h
  obtain ⟨⟨s₁, r⟩, hstep, ⟨s'', rs'⟩, hrest, heq⟩ := h
  cases heq
  exact ⟨s₁, r, rs', hstep, hrest, rfl⟩

/-- A run from a reachable state, each call reporting within `R`, ends in one. -/
theorem Reachable.run {s : Synchronizer V D N} (hs : Reachable id isUnit R s)
    {calls : List (SyncCall V D N)} {s' : Synchronizer V D N} {rs : List (SyncReturn V D N)}
    (hR : ∀ c ∈ calls, c.ReportsWithin R) (h : runCalls id isUnit fuel calls s = some (s', rs)) :
    Reachable id isUnit R s' := by
  induction calls generalizing s rs with
  | nil =>
    cases h
    exact hs
  | cons call calls ih =>
    obtain ⟨s₁, r, rs', hstep, hrest, -⟩ := runCalls_cons_eq_some h
    exact ih (hs.call (hR call List.mem_cons_self) hstep)
      (fun c hc => hR c (List.mem_cons_of_mem _ hc)) hrest

/-- **Nothing is lost along a run.**  A copy held at the start of a run from a reachable state
is held at its end, or one of the run's calls released it. -/
theorem Reachable.holds_run {s : Synchronizer V D N} (hs : Reachable id isUnit R s)
    {calls : List (SyncCall V D N)} {s' : Synchronizer V D N} {rs : List (SyncReturn V D N)}
    (hR : ∀ c ∈ calls, c.ReportsWithin R) (h : runCalls id isUnit fuel calls s = some (s', rs))
    {v : V} {n : N} {t : Nat} (hv : s.Holds v n t) :
    s'.Holds v n t ∨ ∃ cr ∈ calls.zip rs, cr.1.Releases id isUnit R cr.2 v n t := by
  induction calls generalizing s rs with
  | nil =>
    cases h
    exact Or.inl hv
  | cons call calls ih =>
    obtain ⟨s₁, r, rs', hstep, hrest, rfl⟩ := runCalls_cons_eq_some h
    have hR₁ := hR call List.mem_cons_self
    obtain ⟨-, -, hkeep, -⟩ := step_spec hs.invariant.1 hs.invariant.2 hR₁ hstep
    rw [List.zip_cons_cons]
    rcases hkeep v n t hv with hv₁ | hrel
    · rcases ih (hs.call hR₁ hstep) (fun c hc => hR c (List.mem_cons_of_mem _ hc)) hrest hv₁ with
        h' | ⟨cr, hcr, hrel⟩
      · exact Or.inl h'
      · exact Or.inr ⟨cr, List.mem_cons_of_mem _ hcr, hrel⟩
    · exact Or.inr ⟨(call, r), List.mem_cons_self, hrel⟩

/-- A copy the `i`-th call of a run hands over is held at the end of the run, or a later call
released it. -/
theorem Reachable.hands_run {s : Synchronizer V D N} (hs : Reachable id isUnit R s)
    {calls : List (SyncCall V D N)} {s' : Synchronizer V D N} {rs : List (SyncReturn V D N)}
    (hR : ∀ c ∈ calls, c.ReportsWithin R) (h : runCalls id isUnit fuel calls s = some (s', rs))
    {i : Nat} {c : SyncCall V D N} (hc : calls[i]? = some c) {v : V} {n : N} {t : Nat}
    (hv : c.Hands v n t) :
    s'.Holds v n t ∨ ∃ cr ∈ (calls.zip rs).drop (i + 1), cr.1.Releases id isUnit R cr.2 v n t := by
  induction calls generalizing s rs i with
  | nil => cases hc
  | cons call calls ih =>
    obtain ⟨s₁, r, rs', hstep, hrest, rfl⟩ := runCalls_cons_eq_some h
    have hR₁ := hR call List.mem_cons_self
    have hR' : ∀ c ∈ calls, c.ReportsWithin R := fun c hc => hR c (List.mem_cons_of_mem _ hc)
    rw [List.zip_cons_cons]
    cases i with
    | zero =>
      -- the call that hands the copy over holds it; the rest of the run keeps it
      cases hc
      obtain ⟨-, -, -, hhands⟩ := step_spec hs.invariant.1 hs.invariant.2 hR₁ hstep
      exact (hs.call hR₁ hstep).holds_run hR' hrest (hhands v n t hv)
    | succ i =>
      exact ih (hs.call hR₁ hstep) hR' hrest hc

end Runs

/-! ### What a reachable state guarantees -/

/-- **The synchronizer keeps its vertices** when ids are content hashes: a unit's hash covers
the hashes it cites, so each unit it cites was hashed before it, and `rank`, the order in which
ids were computed, puts every dependency reported for a vertex below the vertex's own id.  From
a reachable state, (a) the chain walk from any dependency ends, and so does
`pop_vertex_to_add`; (b) what `pop_vertex_to_add` returns misses no dependency, or is a proposal
the block validator holds; (c) every awaiting vertex waits under a dependency reported for it,
and along every run a copy held, or handed over by a call, stays held unless a call releases
it: `invalid_vertices` only the copies of vertices that depend on the invalid units; (d) after
`remove_satisfied_deps`, no vertex waits for a dependency the protocol state has. -/
theorem synchronizer_keeps_vertices {R : V → D → Prop} {rank : D → Nat}
    (hrank : ∀ v d, R v d → rank d < rank (id v)) {s : Synchronizer V D N}
    (hs : Reachable id isUnit R s) :
    (∀ d n t, ∃ fuel r,
        findTransitiveDependency id fuel s.verticesAwaitingDeps d n t = some r) ∧
    (∀ highway pendingValues maxRequestsForVertex,
        (SyncCall.popVertexToAdd highway pendingValues maxRequestsForVertex).ReportsWithin R →
        ∃ fuel res, step id isUnit fuel
          (.popVertexToAdd highway pendingValues maxRequestsForVertex) s = some res) ∧
    (∀ highway pendingValues maxRequestsForVertex fuel s' r pv,
        step id isUnit fuel (.popVertexToAdd highway pendingValues maxRequestsForVertex) s =
          some (s', r) → r.vertex = some pv →
        highway.missingDependency pv.pvv = none ∨ ∃ n, (pv.pvv, n) ∈ pendingValues) ∧
    s.Filed R ∧
    (∀ fuel calls s' rs, (∀ c ∈ calls, c.ReportsWithin R) →
        runCalls id isUnit fuel calls s = some (s', rs) →
        (∀ v n t, s.Holds v n t →
          s'.Holds v n t ∨ ∃ cr ∈ calls.zip rs, cr.1.Releases id isUnit R cr.2 v n t) ∧
        ∀ i c, calls[i]? = some c → ∀ v n t, c.Hands v n t →
          s'.Holds v n t ∨ ∃ cr ∈ (calls.zip rs).drop (i + 1), cr.1.Releases id isUnit R cr.2 v n t) ∧
    (∀ highway fuel s' r, step id isUnit fuel (.removeSatisfiedDeps highway) s = some (s', r) →
        ∀ e ∈ s'.verticesAwaitingDeps.entries, highway.hasDependency e.1 = false) := by
  obtain ⟨hwf, hfiled⟩ := hs.invariant
  have hranked : ∀ e ∈ s.verticesAwaitingDeps.entries, ∀ v ∈ e.2.map.keys, rank e.1 < rank (id v) :=
    fun e he v hv => hrank _ _ (hfiled e he v hv)
  refine ⟨fun d n t => ?_, fun highway pendingValues maxRequestsForVertex hR => ?_,
    fun highway pendingValues maxRequestsForVertex fuel s' r pv h hpv => ?_, hfiled,
    fun fuel calls s' rs hR h => ⟨fun v n t hv => hs.holds_run hR h hv,
      fun i c hc v n t hv => hs.hands_run hR h hc hv⟩,
    fun highway fuel s' r h e he => ?_⟩
  · exact ⟨rank d + 1, findTransitiveDependency_isSome id n t hranked (Nat.lt_succ_self _)⟩
  · -- every popped vertex ranks at most the sum of the ranks in `vertices_no_deps`
    let B := (s.verticesNoDeps.map.keys.map fun v => rank (id v)).sum
    have hB : ∀ v ∈ s.verticesNoDeps.map.keys, rank (id v) ≤ B := fun v hv =>
      List.le_sum_of_mem (List.mem_map_of_mem hv)
    obtain ⟨res, hres⟩ : ∃ res, popVertexToAdd id highway pendingValues maxRequestsForVertex
        (s.verticesNoDeps.drain.length + B + 1) s [] = some res :=
      popVertexToAdd_isSome id hrank hR B hwf hfiled hB (Nat.lt_succ_self _)
    exact ⟨_, _, by rw [step, hres]; rfl⟩
  · simp only [step, Option.map_eq_some_iff] at h
    obtain ⟨⟨r', outcomes', s''⟩, hpop, hr⟩ := h
    obtain ⟨rfl, rfl⟩ := Prod.mk.inj hr
    -- no relation is needed for what is returned: take the one that relates everything
    exact (popVertexToAdd_spec id (R := fun _ _ => True) (fun _ _ _ => trivial) hwf
      (fun _ _ _ _ => trivial) hpop).2.2.2.1 pv hpv
  · cases h
    exact (mem_removeSatisfiedDeps_awaiting.mp he).2

/-- Peer `0` sends vertex `2`, which cites `1`; popped, it waits under `1`, and the chain walk
from `2` ends. -/
theorem synchronizer_keeps_vertices_citing :
    ∃ s rs, runCalls (fun v : ℕ => v) (fun _ => true) 3
        [.scheduleAddVertex 0 2 0,
          .popVertexToAdd ⟨fun _ => false, fun _ => false, fun v => if v = 2 then some 1 else none⟩
            [] 3] new = some (s, rs) ∧
      s.Filed (fun v d => d < v) ∧
      ∃ fuel r, findTransitiveDependency (fun v : ℕ => v) fuel s.verticesAwaitingDeps 2 (0 : ℕ) 0 =
        some r := by
  obtain ⟨⟨s, rs⟩, hrun⟩ := Option.isSome_iff_exists.mp
    (show (runCalls (fun v : ℕ => v) (fun _ => true) 3
      [.scheduleAddVertex 0 2 0,
        .popVertexToAdd ⟨fun _ => false, fun _ => false, fun v => if v = 2 then some 1 else none⟩
          [] 3] (new : Synchronizer ℕ ℕ ℕ)).isSome by decide)
  have hR : ∀ c ∈ [.scheduleAddVertex 0 2 0,
      .popVertexToAdd ⟨fun _ => false, fun _ => false, fun v => if v = 2 then some 1 else none⟩
        [] 3], SyncCall.ReportsWithin (V := ℕ) (N := ℕ) (fun v d => d < v) c := by
    simp only [List.mem_cons, List.not_mem_nil, or_false]
    rintro c (rfl | rfl)
    · trivial
    · intro v d hd
      dsimp only at hd
      split_ifs at hd with hv
      cases hd
      omega
  have hs := (Reachable.new : Reachable (fun v : ℕ => v) (fun _ => true) (fun v d => d < v)
    new).run hR hrun
  have hrank : ∀ v d : ℕ, d < v → d < v := fun _ _ h => h
  obtain ⟨hwalk, -, -, hfiled, -⟩ :=
    synchronizer_keeps_vertices (fun v : ℕ => v) (fun _ => true) (R := fun v d => d < v) hrank hs
  exact ⟨s, rs, hrun, hfiled, hwalk 2 0 0⟩

/-! ### A citation cycle -/

/-- A protocol state that has neither vertex `1` nor vertex `2`, where `1` cites `2` and `2`
cites `1`. -/
def citationCycle : HighwayView ℕ ℕ :=
  ⟨fun _ => false, fun _ => false, fun v => if v = 1 then some 2 else if v = 2 then some 1 else none⟩

/-- Peer `0` sends `1`, which is filed under `2`; then `2`, which is filed under `1`; then peer
`1` sends `1` again. -/
def citationCycleCalls : List (SyncCall ℕ ℕ ℕ) :=
  [.scheduleAddVertex 0 1 0, .popVertexToAdd citationCycle [] 3, .scheduleAddVertex 0 2 0,
    .popVertexToAdd citationCycle [] 3, .scheduleAddVertex 1 1 0]

/-- The rank of `synchronizer_keeps_vertices` is needed: injective ids alone allow the cycle,
round which the chain walk of the next `pop_vertex_to_add` goes `2, 1, 2, …` for ever, so that
the call never returns, whatever its fuel.  Content hashes exclude it, as each of the two units
would have to be hashed before the other. -/
theorem popVertexToAdd_diverges_on_citation_cycle :
    Function.Injective (fun v : ℕ => v) ∧
      ∃ s rs, runCalls (fun v : ℕ => v) (fun _ => true) 3 citationCycleCalls new = some (s, rs) ∧
        (∀ fuel, findTransitiveDependency (fun v : ℕ => v) fuel s.verticesAwaitingDeps 2 (1 : ℕ) 0 =
          none) ∧
        ∀ fuel, step (fun v : ℕ => v) (fun _ => true) fuel
          (.popVertexToAdd citationCycle [] 3) s = none := by
  obtain ⟨⟨s, rs⟩, hrun⟩ := Option.isSome_iff_exists.mp
    (show (runCalls (fun v : ℕ => v) (fun _ => true) 3 citationCycleCalls new).isSome by decide)
  -- what the run leaves: `1` waits under `2`, `2` under `1`, and peer `1`'s copy of `1` is next
  have hstate : ∀ r ∈ runCalls (fun v : ℕ => v) (fun _ => true) 3 citationCycleCalls new,
      (∀ d ∈ [1, 2], ∃ e ∈ r.1.verticesAwaitingDeps.entries,
        e.2.containsDependency (fun v : ℕ => v) d = true) ∧
      (∀ d ∈ [1, 2], ∀ e ∈ r.1.verticesAwaitingDeps.entries,
        e.2.containsDependency (fun v : ℕ => v) d = true → e.1 ∈ [1, 2]) ∧
      r.1.verticesNoDeps.pop = some (⟨1, 1, 0⟩, .empty) := by
    decide
  obtain ⟨hheld, hclosed, hpop⟩ := hstate (s, rs) hrun
  have hwalk : ∀ fuel, findTransitiveDependency (fun v : ℕ => v) fuel s.verticesAwaitingDeps 2
      (1 : ℕ) 0 = none := fun fuel =>
    findTransitiveDependency_eq_none_of_closed (fun v : ℕ => v) (· ∈ [1, 2]) 1 0 hheld hclosed
      (by decide)
  refine ⟨fun _ _ h => h, s, rs, hrun, hwalk, fun fuel => ?_⟩
  cases fuel with
  | zero => rfl
  | succ fuel =>
    have hturn : popTurn (fun v : ℕ => v) citationCycle [] 3 fuel s [] = .stuck :=
      popTurn_eq_stuck_of (fun v : ℕ => v) hpop rfl rfl (hwalk fuel)
    simp only [step, popVertexToAdd, hturn, Option.map_none]

/-! ### No ready vertex is forgotten -/

/-- Runs in which the node calls `pop_vertex_to_add` only to handle a `QueueAction` it was
given earlier; `pending` counts the `QueueAction`s given and not yet handled. -/
inductive Scheduled : Nat → Synchronizer V D N → Prop
  | new : Scheduled 0 new
  | call {pending : Nat} {s s' : Synchronizer V D N} {call : SyncCall V D N} {fuel : Nat}
      {r : SyncReturn V D N} :
      Scheduled pending s →
      (∀ highway pendingValues maxRequestsForVertex,
        call ≠ .popVertexToAdd highway pendingValues maxRequestsForVertex) →
      step id isUnit fuel call s = some (s', r) →
      Scheduled (pending + r.outcomes.count .queueAction) s'
  | pop {pending : Nat} {s s' : Synchronizer V D N} {highway : HighwayView V D}
      {pendingValues : List (V × N)} {maxRequestsForVertex fuel : Nat} {r : SyncReturn V D N} :
      Scheduled (pending + 1) s →
      step id isUnit fuel (.popVertexToAdd highway pendingValues maxRequestsForVertex) s =
        some (s', r) →
      Scheduled (pending + r.outcomes.count .queueAction) s'

section Queue

variable {id isUnit} {s s' : Synchronizer V D N} {fuel : Nat} {r : SyncReturn V D N}

theorem Scheduled.reachable {pending : Nat} (h : Scheduled id isUnit pending s) :
    Reachable id isUnit (fun _ _ => True) s := by
  induction h with
  | new => exact .new
  | call _ _ hstep ih => exact ih.call (SyncCall.reportsWithin_true _) hstep
  | pop _ hstep ih => exact ih.call (SyncCall.reportsWithin_true _) hstep

/-- A call other than `pop_vertex_to_add` leaves `vertices_no_deps` non-empty only if it was,
or if it returns a `QueueAction`. -/
theorem step_queueAction {call : SyncCall V D N}
    (hcall : ∀ highway pendingValues maxRequestsForVertex,
      call ≠ .popVertexToAdd highway pendingValues maxRequestsForVertex)
    (h : step id isUnit fuel call s = some (s', r)) (hne : s'.verticesNoDeps.isEmpty = false) :
    s.verticesNoDeps.isEmpty = false ∨ .queueAction ∈ r.outcomes := by
  cases call with
  | scheduleAddVertex sender pvv now =>
    cases h
    exact (scheduleAddVertices_outcomes _ s).2 hne
  | storeVertexForAdditionLater futureTimestamp now sender pvv =>
    cases h
    exact Or.inl hne
  | addPastDueStoredVertices timestamp =>
    cases h
    exact (addPastDueStoredVertices_outcomes s timestamp).2.1 hne
  | popVertexToAdd highway pendingValues maxRequestsForVertex =>
    exact absurd rfl (hcall highway pendingValues maxRequestsForVertex)
  | removeSatisfiedDeps highway =>
    cases h
    exact (scheduleAddVertices_outcomes _ _).2 hne
  | invalidVertices vertices =>
    simp only [step, Option.map_eq_some_iff] at h
    obtain ⟨⟨senders, s''⟩, hinvalid, hr⟩ := h
    obtain ⟨rfl, rfl⟩ := Prod.mk.inj hr
    obtain ⟨hnoDeps, -⟩ := invalidVertices_spec id isUnit hinvalid
    exact Or.inl (hnoDeps ▸ hne)
  | purgeVertices oldest =>
    cases h
    exact Or.inl (PendingVertices.isEmpty_eq_false_of_removeExpired hne)
  | retainEvidenceOnly isEvidence =>
    cases h
    exact Or.inl (PendingVertices.isEmpty_eq_false_of_retainEvidenceOnly hne)

/-- **A vertex ready to add is never forgotten.**  Along every run in which the node calls
`pop_vertex_to_add` only to handle a `QueueAction` it was given, whenever `vertices_no_deps` is
not empty, a `QueueAction` is given and not yet handled, so the node will call
`pop_vertex_to_add` again. -/
theorem Scheduled.queueAction_pending {pending : Nat} (h : Scheduled id isUnit pending s) :
    s.verticesNoDeps.isEmpty = false → 0 < pending := by
  induction h with
  | new =>
    intro hne
    cases hne
  | call hprev hcall hstep ih =>
    intro hne
    rcases step_queueAction hcall hstep hne with hne₀ | hq
    · exact Nat.lt_add_right _ (ih hne₀)
    · exact Nat.lt_add_left _ (List.count_pos_iff.mpr hq)
  | pop hprev hstep _ =>
    intro hne
    -- the loop of `pop_vertex_to_add` queues another action when it leaves vertices behind
    simp only [step, Option.map_eq_some_iff] at hstep
    obtain ⟨⟨r', outcomes', s''⟩, hpop, hr⟩ := hstep
    obtain ⟨rfl, rfl⟩ := Prod.mk.inj hr
    have hq := (popVertexToAdd_spec id (R := fun _ _ => True) (fun _ _ _ => trivial)
      hprev.reachable.invariant.1 (fun _ _ _ _ => trivial) hpop).2.2.2.2 hne
    exact Nat.lt_add_left _ (List.count_pos_iff.mpr hq)

end Queue

/-- Peer `0` hands over vertex `1`; a `QueueAction` is owed. -/
theorem queueAction_pending_after_schedule :
    ∃ s : Synchronizer ℕ ℕ ℕ, Scheduled (fun v : ℕ => v) (fun _ => true) 1 s ∧ s.verticesNoDeps.isEmpty = false ∧
      0 < 1 := by
  have hs : Scheduled (fun v : ℕ => v) (fun _ => true) (0 + [ProtocolOutcome.queueAction].count
      (ProtocolOutcome.queueAction : ProtocolOutcome ℕ ℕ))
      (scheduleAddVertex (0 : ℕ) (1 : ℕ) 0 new).1 :=
    have hstep : step (fun v : ℕ => v) (fun _ => true) 0 (.scheduleAddVertex (0 : ℕ) (1 : ℕ) 0)
        (new : Synchronizer ℕ ℕ ℕ) = some ((scheduleAddVertex 0 1 0 new).1,
          ⟨none, [ProtocolOutcome.queueAction], []⟩) := rfl
    Scheduled.call .new (fun _ _ _ h => by cases h) hstep
  exact ⟨_, hs, by decide, hs.queueAction_pending (by decide)⟩

/-! ### Requests are rate-limited -/

section Requests

variable {id isUnit} {d : D} {M : Nat}

end Requests

/-- No map of the synchronizer keeps an empty queue. -/
structure NoEmptyQueues (s : Synchronizer V D N) : Prop where
  later : QueuesNonempty s.verticesToBeAddedLater
  awaiting : QueuesNonempty s.verticesAwaitingDeps

section Nonempty

variable {id isUnit} {s s' : Synchronizer V D N} {call : SyncCall V D N} {fuel : Nat}
  {r : SyncReturn V D N}

/-- One call leaves no empty queue in a map: what it inserts holds a vertex, and otherwise it
only removes queues or leaves them. -/
theorem step_noEmptyQueues (hwf : s.WF) (hne : s.NoEmptyQueues)
    (h : step id isUnit fuel call s = some (s', r)) : s'.NoEmptyQueues := by
  cases call with
  | scheduleAddVertex sender pvv now =>
    cases h
    exact ⟨hne.later, hne.awaiting⟩
  | storeVertexForAdditionLater futureTimestamp now sender pvv =>
    cases h
    exact ⟨queuesNonempty_insert_add hne.later _ _ _ _ _, hne.awaiting⟩
  | addPastDueStoredVertices timestamp =>
    cases h
    obtain ⟨hentries, -⟩ :=
      foldl_addStoredAt (s.verticesToBeAddedLater.keys.filter (· ≤ timestamp)) (s, []) hwf
    refine ⟨hne.later.mono fun e he => ?_, ?_⟩
    · rw [addPastDueStoredVertices, hentries] at he
      exact (List.mem_filter.mp he).1
    · rw [(addPastDueStoredVertices_spec hwf timestamp).2.1]
      exact hne.awaiting
  | popVertexToAdd highway pendingValues maxRequestsForVertex =>
    simp only [step, Option.map_eq_some_iff] at h
    obtain ⟨⟨r', outcomes', s''⟩, hpop, hr⟩ := h
    obtain ⟨rfl, rfl⟩ := Prod.mk.inj hr
    obtain ⟨hawaiting, hlater⟩ := popVertexToAdd_queuesNonempty id hne.awaiting hpop
    exact ⟨hlater ▸ hne.later, hawaiting⟩
  | removeSatisfiedDeps highway =>
    cases h
    exact ⟨hne.later, hne.awaiting.mono fun e he => (mem_removeSatisfiedDeps_awaiting.mp he).1⟩
  | invalidVertices vertices =>
    simp only [step, Option.map_eq_some_iff] at h
    obtain ⟨⟨senders, s''⟩, hinvalid, hr⟩ := h
    obtain ⟨rfl, rfl⟩ := Prod.mk.inj hr
    obtain ⟨-, hlater, -, hsub⟩ := invalidVertices_spec id isUnit hinvalid
    exact ⟨hlater ▸ hne.later, hne.awaiting.mono hsub⟩
  | purgeVertices oldest =>
    cases h
    exact ⟨queuesNonempty_removeExpired _ _, queuesNonempty_removeExpired _ _⟩
  | retainEvidenceOnly isEvidence =>
    cases h
    exact ⟨fun _ he => (by cases he), fun _ he => (by cases he)⟩

theorem Reachable.noEmptyQueues {R : V → D → Prop} (hs : Reachable id isUnit R s) :
    s.NoEmptyQueues := by
  induction hs with
  | new => exact ⟨fun _ he => (by cases he), fun _ he => (by cases he)⟩
  | call hprev _ hstep ih => exact step_noEmptyQueues hprev.invariant.1 ih hstep

end Nonempty

/-- **`is_empty` is exact.**  In every reachable state, `Synchronizer::is_empty` holds exactly
when the synchronizer holds no copy of any vertex: no map keeps an empty queue, and no queue
keeps a vertex without a sender. -/
theorem isEmpty_iff_holds_nothing {R : V → D → Prop} {s : Synchronizer V D N}
    (hs : Reachable id isUnit R s) : s.isEmpty = true ↔ ∀ pv, ¬ s.HoldsCopy pv := by
  obtain ⟨hwf, -⟩ := hs.invariant
  have hne := hs.noEmptyQueues
  constructor
  · intro hempty pv hpv
    simp only [isEmpty, Bool.and_eq_true, List.isEmpty_iff] at hempty
    obtain ⟨⟨hawaiting, hnoDeps⟩, hlater⟩ := hempty
    rcases hpv with h | ⟨e, he, -⟩ | ⟨e, he, -⟩
    · exact PendingVertices.not_mem_of_isEmpty hnoDeps _ h
    · rw [hlater] at he
      cases he
    · rw [hawaiting] at he
      cases he
  · intro hnone
    -- a queue that is not empty holds a copy
    cases hawaiting : s.verticesAwaitingDeps.entries with
    | cons e l =>
      have he : e ∈ s.verticesAwaitingDeps.entries := hawaiting ▸ List.mem_cons_self
      obtain ⟨pv, hpv⟩ :=
        PendingVertices.exists_mem_of_isEmpty_eq_false (hwf.awaiting e he) (hne.awaiting e he)
      exact absurd (Or.inr (Or.inr ⟨e, he, hpv⟩)) (hnone pv)
    | nil =>
      cases hnoDeps : s.verticesNoDeps.isEmpty with
      | false =>
        obtain ⟨pv, hpv⟩ := PendingVertices.exists_mem_of_isEmpty_eq_false hwf.noDeps hnoDeps
        exact absurd (Or.inl hpv) (hnone pv)
      | true =>
        cases hlater : s.verticesToBeAddedLater.entries with
        | cons e l =>
          have he : e ∈ s.verticesToBeAddedLater.entries := hlater ▸ List.mem_cons_self
          obtain ⟨pv, hpv⟩ :=
            PendingVertices.exists_mem_of_isEmpty_eq_false (hwf.later e he) (hne.later e he)
          exact absurd (Or.inr (Or.inl ⟨e, he, hpv⟩)) (hnone pv)
        | nil => simp [isEmpty, hawaiting, hnoDeps, hlater]

/-- Peer `0` stores vertex `1` for time `5`, and the queues are purged at time `9`. -/
theorem isEmpty_iff_holds_nothing_purged :
    ∃ s rs, runCalls (fun v : ℕ => v) (fun _ => true) 0
        [.storeVertexForAdditionLater 5 0 0 1, .purgeVertices 9] new = some (s, rs) ∧
      (s.isEmpty = true ↔ ∀ pv : PendingVertex ℕ ℕ, ¬ s.HoldsCopy pv) := by
  obtain ⟨⟨s, rs⟩, hrun⟩ := Option.isSome_iff_exists.mp
    (show (runCalls (fun v : ℕ => v) (fun _ => true) 0
      [.storeVertexForAdditionLater 5 0 0 1, .purgeVertices 9] (new : Synchronizer ℕ ℕ ℕ)).isSome by
      decide)
  have hs := (Reachable.new : Reachable (fun v : ℕ => v) (fun _ => true) (fun _ _ => True)
    new).run (fun c _ => c.reportsWithin_true) hrun
  exact ⟨s, rs, hrun, isEmpty_iff_holds_nothing (fun v : ℕ => v) (fun _ => true) hs⟩

/-! ### `invalid_vertices` and `add_past_due_stored_vertices` from a reachable state -/

/-- **`invalid_vertices` returns, and drops every dependent.**  From a reachable state its
`while` ends within two passes more than there are awaiting queues; afterwards no vertex waits
under one of the given units, nor under the id of a unit whose queue it dropped. -/
theorem invalidVertices_drops_dependents {R : V → D → Prop} {s : Synchronizer V D N}
    (hs : Reachable id isUnit R s) (vertices : List D) :
    (∃ r, step id isUnit (s.verticesAwaitingDeps.entries.length + 2) (.invalidVertices vertices) s =
        some r) ∧
      ∀ fuel s' r, step id isUnit fuel (.invalidVertices vertices) s = some (s', r) →
        ∀ e ∈ s'.verticesAwaitingDeps.entries, ¬ (e.1 ∈ vertices ∧ isUnit e.1 = true) ∧
          ∀ e₀ ∈ s.verticesAwaitingDeps.entries, e₀ ∉ s'.verticesAwaitingDeps.entries →
            ∀ v ∈ e₀.2.map.keys, isUnit (id v) = true → id v ≠ e.1 := by
  refine ⟨?_, fun fuel s' r h => ?_⟩
  · obtain ⟨r, hr⟩ : ∃ r, invalidVertices id isUnit (s.verticesAwaitingDeps.entries.length + 2)
        vertices s = some r := invalidVertices_isSome id isUnit (le_refl _)
    exact ⟨_, by rw [step, hr]; rfl⟩
  · simp only [step, Option.map_eq_some_iff] at h
    obtain ⟨⟨senders, s''⟩, hinvalid, hr⟩ := h
    obtain ⟨rfl, rfl⟩ := Prod.mk.inj hr
    exact invalidVertices_closed id isUnit hs.invariant.1.awaiting hinvalid

/-- Vertex `2` waits under `1`; `invalid_vertices [1]` returns within the bound. -/
theorem invalidVertices_drops_dependents_chain :
    ∃ s rs, runCalls (fun v : ℕ => v) (fun _ => true) 3
        [.scheduleAddVertex 0 2 0,
          .popVertexToAdd ⟨fun _ => false, fun _ => false, fun v => if v = 2 then some 1 else none⟩
            [] 3] new = some (s, rs) ∧
      ∃ r, step (fun v : ℕ => v) (fun _ => true) (s.verticesAwaitingDeps.entries.length + 2)
        (.invalidVertices [1]) s = some r := by
  obtain ⟨⟨s, rs⟩, hrun⟩ := Option.isSome_iff_exists.mp
    (show (runCalls (fun v : ℕ => v) (fun _ => true) 3
      [.scheduleAddVertex 0 2 0,
        .popVertexToAdd ⟨fun _ => false, fun _ => false, fun v => if v = 2 then some 1 else none⟩
          [] 3] (new : Synchronizer ℕ ℕ ℕ)).isSome by decide)
  have hs := (Reachable.new : Reachable (fun v : ℕ => v) (fun _ => true) (fun _ _ => True)
    new).run (fun c _ => c.reportsWithin_true) hrun
  exact ⟨s, rs, hrun, (invalidVertices_drops_dependents (fun v : ℕ => v) (fun _ => true) hs [1]).1⟩

/-- **`add_past_due_stored_vertices` moves exactly what is due.**  From a reachable state it
leaves in `vertices_to_be_added_later` exactly the queues stamped after `timestamp`; every copy
stored at or before `timestamp` reaches `vertices_no_deps`, which keeps what it held. -/
theorem addPastDueStoredVertices_moves_due {R : V → D → Prop} {s : Synchronizer V D N}
    (hs : Reachable id isUnit R s) (timestamp : Nat) :
    (s.addPastDueStoredVertices timestamp).1.verticesToBeAddedLater.entries =
        s.verticesToBeAddedLater.entries.filter (fun e => timestamp < e.1) ∧
      (∀ e ∈ s.verticesToBeAddedLater.entries, e.1 ≤ timestamp → ∀ pv ∈ e.2,
        (s.addPastDueStoredVertices timestamp).1.verticesNoDeps.HasFrom pv.pvv pv.sender
          pv.timeReceived) ∧
      ∀ v n t, s.verticesNoDeps.HasFrom v n t →
        (s.addPastDueStoredVertices timestamp).1.verticesNoDeps.HasFrom v n t := by
  obtain ⟨hentries, hmoved, hkeep⟩ :=
    foldl_addStoredAt (s.verticesToBeAddedLater.keys.filter (· ≤ timestamp)) (s, [])
      hs.invariant.1
  refine ⟨?_, fun e he hle pv hpv => hmoved e he ?_ pv hpv, hkeep⟩
  · rw [addPastDueStoredVertices, hentries]
    apply List.filter_congr
    intro e he
    have hk : e.1 ∈ s.verticesToBeAddedLater.keys := List.mem_map_of_mem he
    simp [hk]
  · exact List.mem_filter.mpr ⟨List.mem_map_of_mem he, decide_eq_true hle⟩

/-- Peer `0` stores vertex `1` for time `5` and vertex `2` for time `9`; at time `6` only the
queue stamped `9` stays. -/
theorem addPastDueStoredVertices_moves_due_six :
    ∃ s rs, runCalls (fun v : ℕ => v) (fun _ => true) 0
        [.storeVertexForAdditionLater 5 0 0 1, .storeVertexForAdditionLater 9 0 0 2] new =
        some (s, rs) ∧
      (s.addPastDueStoredVertices 6).1.verticesToBeAddedLater.entries =
        s.verticesToBeAddedLater.entries.filter (fun e => 6 < e.1) := by
  obtain ⟨⟨s, rs⟩, hrun⟩ := Option.isSome_iff_exists.mp
    (show (runCalls (fun v : ℕ => v) (fun _ => true) 0
      [.storeVertexForAdditionLater 5 0 0 1, .storeVertexForAdditionLater 9 0 0 2]
      (new : Synchronizer ℕ ℕ ℕ)).isSome by decide)
  have hs := (Reachable.new : Reachable (fun v : ℕ => v) (fun _ => true) (fun _ _ => True)
    new).run (fun c _ => c.reportsWithin_true) hrun
  exact ⟨s, rs, hrun, (addPastDueStoredVertices_moves_due (fun v : ℕ => v) (fun _ => true) hs 6).1⟩

end Synchronizer

end CasperNode.Highway
