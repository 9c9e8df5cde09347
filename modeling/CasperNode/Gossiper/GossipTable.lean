import Mathlib

/-!
# The gossip table

The gossiper spreads data ids over the network.  Its `GossipTable` keeps one `State` for each id
it is still gossiping (`current`) and remembers for a while the ids it has finished gossiping
(`finished`, with `timeouts` saying when each is forgotten).  Each call takes the table and the
time it is made at, `now`, and returns the `GossipAction` the gossiper should take.

A state counts the peers known to hold the data, the peers we infected, and the gossip requests
we have in flight.  `State::action` asks for `count` more requests when we hold the data, so
that the requests in flight and the peers infected reach `infection_target`.  Each request is
meant to be resolved once: by `we_infected` or `already_infected` when the peer answers, by
`check_timeout` when it does not, or by `reduce_in_flight_count` when no peer could be
selected.  An entry finishes when enough peers are infected or known to hold the data, or when
its in-flight count drops to zero with no more peers to select.

`State::action` panics where it expects a holder (`expect`); it is modelled as `none`, and so is
every call of the table that can reach it.  No call panics (`step_isSome`), and an id is never
current and finished at once (`Disjoint.run`).

`check_timeout` assumes that a peer already counted as a holder has answered our request.  A
peer can become a holder another way: by gossiping the data to us (`new_complete_data` with the
sender).  When that peer then does not answer, its request is resolved by `check_timeout` with
no change to the in-flight count, and the entry keeps a request in flight that will never be
resolved: it stays current and does not finish (`entry_stuck_after_peer_gossips_back`).
-/

namespace CasperNode

namespace Gossiper

/-- `GossipAction`; the peers to exclude are the holders, as a list without duplicates. -/
inductive GossipAction (N : Type) where
  | getRemainder (holder : N)
  | awaitingRemainder
  | shouldGossip (count : ℕ) (excludePeers : List N) (isAlreadyHeld : Bool)
  | noop
  | announceFinished
deriving DecidableEq

/-- `State`.  The `HashSet`s of peers are lists without duplicates, grown by `List.insert`. -/
structure State (N : Type) where
  holders : List N
  heldByUs : Bool
  infectedByUs : List N
  inFlightCount : ℕ
deriving DecidableEq

namespace State

variable {N : Type}

/-- `State::default`. -/
def default : State N := ⟨[], false, [], 0⟩

/-- `State::is_finished`. -/
def isFinished (state : State N) (infectionTarget holdersLimit : ℕ) : Bool :=
  decide (infectionTarget ≤ state.infectedByUs.length) ||
    decide (holdersLimit ≤ state.holders.length)

/-- `State::action`, with the updated state; `none` where `expect` panics on empty holders.
`holders.iter().next()` is the first holder of the list. -/
def action (state : State N) (infectionTarget holdersLimit : ℕ) (isNew : Bool) :
    Option (GossipAction N × State N) :=
  if state.isFinished infectionTarget holdersLimit then some (.noop, state)
  else if state.heldByUs then
    let count := infectionTarget - (state.inFlightCount + state.infectedByUs.length)
    if 0 < count then
      some (.shouldGossip count state.holders !isNew,
        { state with inFlightCount := state.inFlightCount + count })
    else some (.noop, state)
  else if isNew then
    match state.holders with
    | [] => none
    | holder :: _ => some (.getRemainder holder, state)
  else some (.awaitingRemainder, state)

/-- `action` panics only for a new entry we do not hold and know no holder of. -/
theorem action_isSome {state : State N} {infectionTarget holdersLimit : ℕ} {isNew : Bool}
    (h : state.heldByUs = true ∨ state.holders ≠ [] ∨ isNew = false) :
    (state.action infectionTarget holdersLimit isNew).isSome := by
  unfold action
  split
  · rfl
  split
  · dsimp only
    split <;> rfl
  next hheld =>
  split
  · next hnew =>
    split
    · next hnil => simp [hheld, hnil, hnew] at h
    · rfl
  · rfl

end State

/-- `Config` of the gossiper: `saturation_limit_percent` is at most
`MAX_SATURATION_LIMIT_PERCENT`, 99, as its deserializer checks.  Durations are in
milliseconds. -/
structure Config where
  infectionTarget : ℕ
  saturationLimitPercent : ℕ
  saturationLimitPercent_le : saturationLimitPercent ≤ 99
  finishedEntryDuration : ℕ

/-- `Config::default`: infection target 3, saturation limit 80%, finished entries kept 60 s. -/
def Config.default : Config := ⟨3, 80, by decide, 60000⟩

/-- `GossipTable`: the `HashMap` of current states is a function, the `HashSet` of finished
ids a `Finset`, and `timeouts.values` a list of expiry times and ids. -/
structure GossipTable (T N : Type) where
  current : T → Option (State N)
  finished : Finset T
  timeouts : List (ℕ × T)
  infectionTarget : ℕ
  holdersLimit : ℕ
  finishedEntryDuration : ℕ

namespace GossipTable

variable {T N : Type} [DecidableEq T]

/-- `GossipTable::new`. -/
def new (config : Config) : GossipTable T N where
  current := fun _ => none
  finished := ∅
  timeouts := []
  infectionTarget := config.infectionTarget
  holdersLimit := 100 * config.infectionTarget / (100 - config.saturationLimitPercent)
  finishedEntryDuration := config.finishedEntryDuration

/-- `Timeouts::purge`: the ids of the leading entries that expired before `now`, and the
entries left.  The binary search over the sorted entries stops at the first that has not
expired. -/
def purgeTimeouts (values : List (ℕ × T)) (now : ℕ) : List T × List (ℕ × T) :=
  ((values.takeWhile fun value => decide (value.1 < now)).map Prod.snd,
    values.dropWhile fun value => decide (value.1 < now))

/-- `purge_finished`. -/
def purgeFinished (table : GossipTable T N) (now : ℕ) : GossipTable T N :=
  let purged := purgeTimeouts table.timeouts now
  { table with
    finished := purged.1.foldl (fun finished dataId => finished.erase dataId) table.finished
    timeouts := purged.2 }

/-- `insert_to_finished`. -/
def insertToFinished (table : GossipTable T N) (dataId : T) (now : ℕ) : GossipTable T N :=
  { table with
    finished := insert dataId table.finished
    timeouts := table.timeouts ++ [(now + table.finishedEntryDuration, dataId)] }

/-- The entry of `dataId` set to `state`. -/
def setCurrent (table : GossipTable T N) (dataId : T) (state : Option (State N)) :
    GossipTable T N :=
  { table with current := Function.update table.current dataId state }

/-- Insert `state` under `dataId` after asking it for its action. -/
def insertWithAction (table : GossipTable T N) (dataId : T) (state : State N) (isNew : Bool) :
    Option (GossipAction N × GossipTable T N) :=
  (state.action table.infectionTarget table.holdersLimit isNew).map fun result =>
    (result.1, table.setCurrent dataId (some result.2))

/-- `update_current`: the inner `none` is the source's `None`, for no entry; the outer one
would be a panic. -/
def updateCurrent (table : GossipTable T N) (dataId : T) (update : State N → State N) (now : ℕ) :
    Option (Option (GossipAction N) × GossipTable T N) :=
  match table.current dataId with
  | none => some (none, table)
  | some state =>
    let state := update state
    let table := table.setCurrent dataId none
    if state.isFinished table.infectionTarget table.holdersLimit then
      some (some .announceFinished, table.insertToFinished dataId now)
    else
      (table.insertWithAction dataId state false).map fun result => (some result.1, result.2)

/-- What `new_partial_data` and `new_complete_data` share: purge, stop at a finished id, update
a current entry, or insert a new one made from `State::default`. -/
def newData (table : GossipTable T N) (dataId : T) (update : State N → State N) (now : ℕ) :
    Option (GossipAction N × GossipTable T N) :=
  let table := table.purgeFinished now
  if dataId ∈ table.finished then some (.noop, table)
  else
    match table.updateCurrent dataId update now with
    | none => none
    | some (some action, table) => some (action, table)
    | some (none, table) => table.insertWithAction dataId (update State.default) true

/-- `new_partial_data`. -/
def newPartialData [DecidableEq N] (table : GossipTable T N) (dataId : T) (holder : N)
    (now : ℕ) :
    Option (GossipAction N × GossipTable T N) :=
  table.newData dataId (fun state => { state with holders := state.holders.insert holder }) now

/-- `new_complete_data`. -/
def newCompleteData [DecidableEq N] (table : GossipTable T N) (dataId : T)
    (maybeHolder : Option N) (now : ℕ) :
    Option (GossipAction N × GossipTable T N) :=
  table.newData dataId
    (fun state =>
      { state with
        holders := match maybeHolder with
          | some holder => state.holders.insert holder
          | none => state.holders
        heldByUs := true })
    now

/-- `infected`: a response for data we do not hold changes nothing (the source warns). -/
def infected [DecidableEq N] (table : GossipTable T N) (dataId : T) (peer : N) (byUs : Bool)
    (now : ℕ) :
    Option (GossipAction N × GossipTable T N) :=
  (table.updateCurrent dataId
    (fun state =>
      if !state.heldByUs then state
      else
        { state with
          holders := state.holders.insert peer
          infectedByUs := if byUs then state.infectedByUs.insert peer else state.infectedByUs
          inFlightCount := state.inFlightCount - 1 })
    now).map fun result => (result.1.getD .noop, result.2)

/-- `we_infected`. -/
def weInfected [DecidableEq N] (table : GossipTable T N) (dataId : T) (peer : N) (now : ℕ) :
    Option (GossipAction N × GossipTable T N) :=
  table.infected dataId peer true now

/-- `already_infected`. -/
def alreadyInfected [DecidableEq N] (table : GossipTable T N) (dataId : T) (peer : N) (now : ℕ) :
    Option (GossipAction N × GossipTable T N) :=
  table.infected dataId peer false now

/-- `check_timeout`: a peer not yet a holder is made one, and its request counted as resolved.
The `debug_assert!` is left out (release builds), its `error!` branch is kept. -/
def checkTimeout [DecidableEq N] (table : GossipTable T N) (dataId : T) (peer : N) (now : ℕ) :
    Option (GossipAction N × GossipTable T N) :=
  (table.updateCurrent dataId
    (fun state =>
      if !state.heldByUs then state
      else if peer ∉ state.holders then
        { state with
          holders := state.holders.insert peer
          inFlightCount := state.inFlightCount - 1 }
      else state)
    now).map fun result => (result.1.getD .noop, result.2)

/-- `force_finish`. -/
def forceFinish (table : GossipTable T N) (dataId : T) (now : ℕ) : Bool × GossipTable T N :=
  match table.current dataId with
  | some _ => (true, (table.setCurrent dataId none).insertToFinished dataId now)
  | none => (false, table)

/-- `reduce_in_flight_count`. -/
def reduceInFlightCount (table : GossipTable T N) (dataId : T) (reduceBy : ℕ) (now : ℕ) :
    Bool × GossipTable T N :=
  match table.current dataId with
  | none => (false, table)
  | some state =>
    let state := { state with inFlightCount := state.inFlightCount - reduceBy }
    let table := table.setCurrent dataId (some state)
    if state.inFlightCount = 0 then table.forceFinish dataId now else (false, table)

/-- `remove_holder_if_unresponsive`. -/
def removeHolderIfUnresponsive [DecidableEq N] (table : GossipTable T N) (dataId : T) (peer : N) :
    Option (GossipAction N × GossipTable T N) :=
  match table.current dataId with
  | none => some (.noop, table)
  | some state =>
    let table := table.setCurrent dataId none
    if state.heldByUs then table.insertWithAction dataId state false
    else
      let state := { state with holders := state.holders.erase peer }
      if state.holders.isEmpty then some (.noop, table)
      else table.insertWithAction dataId state true

/-- A call on the table. -/
inductive Call (T N : Type) where
  | newPartialData (dataId : T) (holder : N)
  | newCompleteData (dataId : T) (maybeHolder : Option N)
  | weInfected (dataId : T) (peer : N)
  | alreadyInfected (dataId : T) (peer : N)
  | checkTimeout (dataId : T) (peer : N)
  | reduceInFlightCount (dataId : T) (reduceBy : ℕ)
  | removeHolderIfUnresponsive (dataId : T) (peer : N)
  | forceFinish (dataId : T)

/-- The table after a call made at time `now`; `none` if the call panics. -/
def step [DecidableEq N] (table : GossipTable T N) (now : ℕ) :
    Call T N → Option (GossipTable T N)
  | .newPartialData dataId holder => (table.newPartialData dataId holder now).map Prod.snd
  | .newCompleteData dataId maybeHolder =>
    (table.newCompleteData dataId maybeHolder now).map Prod.snd
  | .weInfected dataId peer => (table.weInfected dataId peer now).map Prod.snd
  | .alreadyInfected dataId peer => (table.alreadyInfected dataId peer now).map Prod.snd
  | .checkTimeout dataId peer => (table.checkTimeout dataId peer now).map Prod.snd
  | .reduceInFlightCount dataId reduceBy => some (table.reduceInFlightCount dataId reduceBy now).2
  | .removeHolderIfUnresponsive dataId peer =>
    (table.removeHolderIfUnresponsive dataId peer).map Prod.snd
  | .forceFinish dataId => some (table.forceFinish dataId now).2

/-- A run of calls, each with the time it is made at. -/
def run [DecidableEq N] (table : GossipTable T N) :
    List (ℕ × Call T N) → Option (GossipTable T N)
  | [] => some table
  | (now, call) :: calls => (table.step now call).bind fun table => table.run calls

/-! ## No call panics -/

theorem insertWithAction_isSome {table : GossipTable T N} {dataId : T} {state : State N}
    {isNew : Bool} (h : state.heldByUs = true ∨ state.holders ≠ [] ∨ isNew = false) :
    (table.insertWithAction dataId state isNew).isSome := by
  simpa [insertWithAction] using State.action_isSome h

theorem insertWithAction_eq_some {table table' : GossipTable T N} {dataId : T}
    {state : State N} {isNew : Bool} {action : GossipAction N}
    (h : table.insertWithAction dataId state isNew = some (action, table')) :
    ∃ state', table' = table.setCurrent dataId (some state') := by
  obtain ⟨result, -, hresult⟩ := Option.map_eq_some_iff.mp h
  exact ⟨result.2, (Prod.mk.inj hresult).2.symm⟩

/-- `update_current` asks for the action of an entry that is not new, which never panics. -/
theorem updateCurrent_isSome (table : GossipTable T N) (dataId : T) (update : State N → State N)
    (now : ℕ) : (table.updateCurrent dataId update now).isSome := by
  unfold updateCurrent
  split
  · rfl
  · dsimp only
    split
    · rfl
    · simpa using insertWithAction_isSome (.inr (.inr rfl))

/-- A new entry is asked for its action as a new one; it panics unless the update gives it a
holder or marks it held. -/
theorem newData_isSome (table : GossipTable T N) (dataId : T) {update : State N → State N}
    (hupdate : (update State.default).heldByUs = true ∨ (update State.default).holders ≠ [])
    (now : ℕ) : (table.newData dataId update now).isSome := by
  unfold newData
  dsimp only
  split
  · rfl
  obtain ⟨result, hresult⟩ :=
    Option.isSome_iff_exists.mp ((table.purgeFinished now).updateCurrent_isSome dataId update now)
  rw [hresult]
  rcases result with ⟨_ | action, table'⟩
  · exact insertWithAction_isSome (hupdate.elim .inl fun h => .inr (.inl h))
  · rfl

theorem removeHolderIfUnresponsive_isSome [DecidableEq N] (table : GossipTable T N) (dataId : T)
    (peer : N) :
    (table.removeHolderIfUnresponsive dataId peer).isSome := by
  unfold removeHolderIfUnresponsive
  split
  · rfl
  · dsimp only
    split
    · exact insertWithAction_isSome (.inr (.inr rfl))
    · split
      · rfl
      · next hempty =>
        exact insertWithAction_isSome (.inr (.inl fun hnil => hempty (List.isEmpty_iff.mpr hnil)))

/-- No call of the table panics. -/
theorem step_isSome [DecidableEq N] (table : GossipTable T N) (now : ℕ) (call : Call T N) :
    (table.step now call).isSome := by
  cases call with
  | newPartialData dataId holder =>
    simpa [step, newPartialData] using table.newData_isSome dataId (by simp [State.default]) now
  | newCompleteData dataId maybeHolder =>
    simpa [step, newCompleteData] using table.newData_isSome dataId (by simp [State.default]) now
  | weInfected dataId peer =>
    simpa [step, weInfected, infected] using table.updateCurrent_isSome dataId _ now
  | alreadyInfected dataId peer =>
    simpa [step, alreadyInfected, infected] using table.updateCurrent_isSome dataId _ now
  | checkTimeout dataId peer =>
    simpa [step, checkTimeout] using table.updateCurrent_isSome dataId _ now
  | reduceInFlightCount dataId reduceBy => rfl
  | removeHolderIfUnresponsive dataId peer =>
    simpa [step] using table.removeHolderIfUnresponsive_isSome dataId peer
  | forceFinish dataId => rfl

/-! ## No id is current and finished -/

/-- Every current id is absent from `finished`. -/
def CurrentNotFinished (table : GossipTable T N) : Prop :=
  ∀ dataId, table.current dataId ≠ none → dataId ∉ table.finished

namespace CurrentNotFinished

variable {table : GossipTable T N}

omit [DecidableEq T] in
theorem new (config : Config) : CurrentNotFinished (GossipTable.new config : GossipTable T N) :=
  fun _ hcurrent => absurd rfl hcurrent

theorem purgeFinished (h : CurrentNotFinished table) (now : ℕ) :
    CurrentNotFinished (table.purgeFinished now) := by
  intro dataId hcurrent hfinished
  -- purging only erases ids from `finished`
  have hsub : ∀ (ids : List T) (finished : Finset T),
      ids.foldl (fun finished dataId => finished.erase dataId) finished ⊆ finished := by
    intro ids
    induction ids with
    | nil => exact fun finished => subset_rfl
    | cons id ids ih => exact fun finished => (ih _).trans (Finset.erase_subset _ _)
  exact h dataId hcurrent (hsub _ _ hfinished)

theorem setCurrent_none (h : CurrentNotFinished table) (dataId : T) :
    CurrentNotFinished (table.setCurrent dataId none) := by
  intro id hcurrent
  by_cases hid : id = dataId
  · subst hid
    simp [setCurrent] at hcurrent
  · exact h id (by simpa [setCurrent, hid] using hcurrent)

theorem setCurrent_some (h : CurrentNotFinished table) {dataId : T}
    (hfinished : dataId ∉ table.finished) (state : State N) :
    CurrentNotFinished (table.setCurrent dataId (some state)) := by
  intro id hcurrent
  by_cases hid : id = dataId
  · subst hid
    exact hfinished
  · exact h id (by simpa [setCurrent, hid] using hcurrent)

theorem insertToFinished (h : CurrentNotFinished table) {dataId : T}
    (hnone : table.current dataId = none) (now : ℕ) :
    CurrentNotFinished (table.insertToFinished dataId now) := by
  intro id hcurrent hfinished
  rcases Finset.mem_insert.mp hfinished with rfl | hfinished
  · exact hcurrent hnone
  · exact h id hcurrent hfinished

theorem insertWithAction (h : CurrentNotFinished table) {dataId : T}
    (hfinished : dataId ∉ table.finished) {state : State N} {isNew : Bool}
    {action : GossipAction N} {table' : GossipTable T N}
    (hinsert : table.insertWithAction dataId state isNew = some (action, table')) :
    CurrentNotFinished table' := by
  obtain ⟨state', rfl⟩ := insertWithAction_eq_some hinsert
  exact h.setCurrent_some hfinished state'

theorem updateCurrent (h : CurrentNotFinished table) {dataId : T} {update : State N → State N}
    {now : ℕ} {result : Option (GossipAction N)} {table' : GossipTable T N}
    (hupdate : table.updateCurrent dataId update now = some (result, table')) :
    CurrentNotFinished table' := by
  unfold GossipTable.updateCurrent at hupdate
  split at hupdate
  · cases hupdate
    exact h
  · next state hstate =>
    -- the entry was current, so it was not finished
    have hfinished : dataId ∉ table.finished := h dataId (by simp [hstate])
    dsimp only at hupdate
    split at hupdate
    · cases hupdate
      exact (h.setCurrent_none dataId).insertToFinished (by simp [setCurrent]) now
    · obtain ⟨inserted, hinsert, hresult⟩ := Option.map_eq_some_iff.mp hupdate
      cases hresult
      exact (h.setCurrent_none dataId).insertWithAction hfinished hinsert

theorem newData (h : CurrentNotFinished table) {dataId : T} {update : State N → State N}
    {now : ℕ} {action : GossipAction N} {table' : GossipTable T N}
    (hnew : table.newData dataId update now = some (action, table')) :
    CurrentNotFinished table' := by
  have hpurged := h.purgeFinished now
  unfold GossipTable.newData at hnew
  dsimp only at hnew
  split at hnew
  · cases hnew
    exact hpurged
  · next hfinished =>
    split at hnew
    · cases hnew
    · next table'' hupdate =>
      cases hnew
      exact hpurged.updateCurrent hupdate
    · next table'' hupdate =>
      -- no entry: `update_current` left the purged table as it was
      have hsame : table'' = table.purgeFinished now := by
        unfold GossipTable.updateCurrent at hupdate
        split at hupdate
        · cases hupdate
          rfl
        · dsimp only at hupdate
          split at hupdate
          · cases hupdate
          · obtain ⟨_, -, hresult⟩ := Option.map_eq_some_iff.mp hupdate
            cases hresult
      subst hsame
      exact hpurged.insertWithAction hfinished hnew

theorem forceFinish (h : CurrentNotFinished table) (dataId : T) (now : ℕ) :
    CurrentNotFinished (table.forceFinish dataId now).2 := by
  unfold GossipTable.forceFinish
  split
  · exact (h.setCurrent_none dataId).insertToFinished (by simp [setCurrent]) now
  · exact h

theorem reduceInFlightCount (h : CurrentNotFinished table) (dataId : T) (reduceBy now : ℕ) :
    CurrentNotFinished (table.reduceInFlightCount dataId reduceBy now).2 := by
  unfold GossipTable.reduceInFlightCount
  split
  · exact h
  · next state hstate =>
    have hset := h.setCurrent_some (h dataId (by simp [hstate]))
      { state with inFlightCount := state.inFlightCount - reduceBy }
    dsimp only
    split
    · exact hset.forceFinish dataId now
    · exact hset

theorem removeHolderIfUnresponsive [DecidableEq N] (h : CurrentNotFinished table) {dataId : T}
    {peer : N} {action : GossipAction N} {table' : GossipTable T N}
    (hremove : table.removeHolderIfUnresponsive dataId peer = some (action, table')) :
    CurrentNotFinished table' := by
  unfold GossipTable.removeHolderIfUnresponsive at hremove
  split at hremove
  · cases hremove
    exact h
  · next state hstate =>
    have hfinished : dataId ∉ (table.setCurrent dataId none).finished :=
      h dataId (by simp [hstate])
    have hremoved := h.setCurrent_none dataId
    dsimp only at hremove
    split at hremove
    · exact hremoved.insertWithAction hfinished hremove
    · split at hremove
      · cases hremove
        exact hremoved
      · exact hremoved.insertWithAction hfinished hremove

/-- One call keeps every current id out of `finished`. -/
theorem step [DecidableEq N] (h : CurrentNotFinished table) {now : ℕ} {call : Call T N}
    {table' : GossipTable T N} (hstep : table.step now call = some table') :
    CurrentNotFinished table' := by
  cases call with
  | newPartialData dataId holder =>
    obtain ⟨result, hresult, rfl⟩ := Option.map_eq_some_iff.mp hstep
    exact h.newData hresult
  | newCompleteData dataId maybeHolder =>
    obtain ⟨result, hresult, rfl⟩ := Option.map_eq_some_iff.mp hstep
    exact h.newData hresult
  | weInfected dataId peer =>
    obtain ⟨result, hresult, rfl⟩ := Option.map_eq_some_iff.mp hstep
    obtain ⟨updated, hupdated, rfl⟩ := Option.map_eq_some_iff.mp hresult
    exact h.updateCurrent hupdated
  | alreadyInfected dataId peer =>
    obtain ⟨result, hresult, rfl⟩ := Option.map_eq_some_iff.mp hstep
    obtain ⟨updated, hupdated, rfl⟩ := Option.map_eq_some_iff.mp hresult
    exact h.updateCurrent hupdated
  | checkTimeout dataId peer =>
    obtain ⟨result, hresult, rfl⟩ := Option.map_eq_some_iff.mp hstep
    obtain ⟨updated, hupdated, rfl⟩ := Option.map_eq_some_iff.mp hresult
    exact h.updateCurrent hupdated
  | reduceInFlightCount dataId reduceBy =>
    cases hstep
    exact h.reduceInFlightCount dataId reduceBy now
  | removeHolderIfUnresponsive dataId peer =>
    obtain ⟨result, hresult, rfl⟩ := Option.map_eq_some_iff.mp hstep
    exact h.removeHolderIfUnresponsive hresult
  | forceFinish dataId =>
    cases hstep
    exact h.forceFinish dataId now

end CurrentNotFinished

/-- Over every run of calls from a new table, in any order and at any times, no call panics and
no id is ever both current and finished. -/
theorem run_safe [DecidableEq N] (config : Config) (calls : List (ℕ × Call T N)) :
    ∃ table, (GossipTable.new config : GossipTable T N).run calls = some table ∧
      CurrentNotFinished table := by
  -- the run from any table with the invariant
  suffices hrun : ∀ (table : GossipTable T N), CurrentNotFinished table →
      ∃ table', table.run calls = some table' ∧ CurrentNotFinished table' from
    hrun _ (CurrentNotFinished.new config)
  induction calls with
  | nil => exact fun table h => ⟨table, rfl, h⟩
  | cons timedCall calls ih =>
    intro table h
    obtain ⟨now, call⟩ := timedCall
    obtain ⟨table', hstep⟩ := Option.isSome_iff_exists.mp (table.step_isSome now call)
    obtain ⟨table'', hrun, hinv⟩ := ih table' (h.step hstep)
    exact ⟨table'', by simp [run, hstep, hrun], hinv⟩

/-! ## A request that is never resolved -/

/-- The failing run, with the default configuration, data id 0 and peers 1, 2 and 3.  We get the
data at time 0 and are told to send three gossip requests; they go to peers 1, 2 and 3.  Peer 1
gossips the data to us at time 1, peers 2 and 3 answer that we infected them, and at time 4 the
request to peer 1 times out.  Each request has been resolved once, yet the entry is still
current with one request in flight, and its action asks for nothing more, so it never
finishes. -/
theorem entry_stuck_after_peer_gossips_back :
    ∃ t₁ t₂ t₃ t₄ t₅ state,
      (new Config.default : GossipTable ℕ ℕ).newCompleteData 0 none 0 =
        some (.shouldGossip 3 [] false, t₁) ∧
      t₁.newCompleteData 0 (some 1) 1 = some (.noop, t₂) ∧
      t₂.weInfected 0 2 2 = some (.noop, t₃) ∧
      t₃.weInfected 0 3 3 = some (.noop, t₄) ∧
      t₄.checkTimeout 0 1 4 = some (.noop, t₅) ∧
      t₅.current 0 = some state ∧ state.heldByUs = true ∧ state.inFlightCount = 1 ∧
      0 ∉ t₅.finished ∧
      state.action t₅.infectionTarget t₅.holdersLimit false = some (.noop, state) :=
  ⟨_, _, _, _, _, _, rfl, rfl, rfl, rfl, rfl, rfl, rfl, rfl, by decide, rfl⟩

end GossipTable

end Gossiper

end CasperNode
