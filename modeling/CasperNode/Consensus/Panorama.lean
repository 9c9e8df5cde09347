import CasperNode.Consensus.SkipLists

/-!
# Panoramas

A panorama records, for each validator, what a unit or the node has seen of it: nothing, its
latest unit, or that it is faulty.  `Observation::geq` and `Panorama::geq` decide whether one
panorama can come later than another, `Panorama::merge` joins two, and `Panorama::cutoff` keeps
of each swimlane the units up to a timestamp.  All of them look units up and search swimlanes
(`Panorama::sees_correct` through `find_in_swimlane`, and the `swimlane` iterator), which panic
on a missing unit.  The searches take fuel here, and `none` is a panic or the fuel running out.

`Panorama::validate` checks that each correct entry is a unit of that validator whose panorama
the panorama can come after.  On a state built from units that passed `validate_unit`'s checks
of their panoramas, timestamps and sequence numbers (`ValidReachable`), every unit's panorama is
valid, cites its creator's previous unit and no unit later than itself (`State.Coherent`).
There, with fuel above every sequence number, the code decides the order of the abstract layer,
`State.ObsGeq`: an observation can come after another when it is faulty, the other is empty, or
the other's unit is in its swimlane.

* `merge` is the join of two valid panoramas: it is commutative, above both and valid, and it
  marks a validator faulty only where one of them does, or where their units lie on two forks.
* The cutoff of a valid panorama is below it and valid, and holds of each swimlane its latest
  unit with a timestamp up to the cutoff.  Its validity rests on units citing no later units.
-/

namespace CasperNode.Highway

variable {H S I CV : Type}

/-- `Unit::previous`: the first entry of the skip list, the creator's previous unit. -/
def Unit.previous (u : Unit H) : Option H := u.skipIdx.head?

/-! ## Panoramas in the code -/

section Code

variable [DecidableEq H]

/-- `Panorama::sees_correct`: whether the panorama's entry for the creator of `hash` is a unit
whose swimlane holds `hash`. -/
def seesCorrect (s : State H CV) (fuel : Nat) (panorama : List (Observation H)) (hash : H) :
    Option Bool := do
  let unit ← s.units hash
  match panorama[unit.creator]?.bind Observation.correct? with
  | none => pure false
  | some latest => do
    let found ← s.findInSwimlane fuel latest unit.seqNumber
    pure (found == some hash)

/-- `Observation::geq`: whether `obs₀` can come later in time than `obs₁`. -/
def Observation.geq (s : State H CV) (fuel : Nat) : Observation H → Observation H → Option Bool
  | .faulty, _ => some true
  | _, .none => some true
  | .correct hash₀, .correct hash₁ =>
    if hash₀ = hash₁ then some true
    else (s.units hash₀).bind fun unit => seesCorrect s fuel unit.panorama hash₁
  | _, _ => some false

/-- `Panorama::geq`: every entry the two panoramas both have (`zip`) can come later than the
other's, checked in order up to the first that cannot. -/
def Panorama.geq (s : State H CV) (fuel : Nat) :
    List (Observation H) → List (Observation H) → Option Bool
  | obs₀ :: pan₀, obs₁ :: pan₁ =>
    (Observation.geq s fuel obs₀ obs₁).bind fun later =>
      if later then Panorama.geq s fuel pan₀ pan₁ else some false
  | _, _ => some true

/-- The closure `merge_obs` of `Panorama::merge(pan, other)`. -/
def Panorama.mergeObs (s : State H CV) (fuel : Nat) (pan other : List (Observation H)) :
    Observation H → Observation H → Option (Observation H)
  | .faulty, _ | _, .faulty => some .faulty
  | .none, obs | obs, .none => some obs
  | .correct vh₀, .correct vh₁ => do
    let seen₁ ← seesCorrect s fuel pan vh₁
    if seen₁ then pure (.correct vh₀)
    else do
      let seen₀ ← seesCorrect s fuel other vh₀
      if seen₀ then pure (.correct vh₁) else pure .faulty

/-- `Panorama::merge`. -/
def Panorama.merge (s : State H CV) (fuel : Nat) (pan other : List (Observation H)) :
    Option (List (Observation H)) :=
  (pan.zip other).mapM fun obs => Panorama.mergeObs s fuel pan other obs.1 obs.2

/-- `state.swimlane(vhash).find(|(_, unit)| unit.timestamp <= timestamp)`: back from `vhash`
through the creator's previous units, the first no later than `timestamp`. -/
def State.swimlaneFind (s : State H CV) (timestamp : Nat) : Nat → H → Option (Option H)
  | 0, _ => none
  | fuel + 1, hash => do
    let unit ← s.units hash
    if unit.timestamp ≤ timestamp then pure (some hash)
    else
      match unit.previous with
      | none => pure none
      | some prev => s.swimlaneFind timestamp fuel prev

/-- The closure `obs_cutoff` of `Panorama::cutoff`. -/
def Panorama.cutoffObs (s : State H CV) (fuel timestamp : Nat) :
    Observation H → Option (Observation H)
  | .correct vhash =>
    (s.swimlaneFind timestamp fuel vhash).map fun found =>
      match found with
      | some vh => .correct vh
      | none => .none
  | .none => some .none
  | .faulty => some .faulty

/-- `Panorama::cutoff`. -/
def Panorama.cutoff (s : State H CV) (fuel : Nat) (pan : List (Observation H))
    (timestamp : Nat) : Option (List (Observation H)) :=
  pan.mapM (Panorama.cutoffObs s fuel timestamp)

/-- The errors that `Panorama::validate` returns. -/
inductive UnitError
  | panoramaIndex (creator idx : Nat)
  | inconsistentPanorama (idx : Nat)
  deriving DecidableEq, Repr

/-- The loop of `Panorama::validate` over the entries of `pan` from index `idx` on. -/
def Panorama.validateFrom (s : State H CV) (fuel : Nat) (pan : List (Observation H)) :
    Nat → List (Observation H) → Option (Except UnitError PUnit.{1})
  | _, [] => some (.ok ())
  | idx, obs :: rest =>
    match obs.correct? with
    | none => Panorama.validateFrom s fuel pan (idx + 1) rest
    | some hash => do
      let unit ← s.units hash
      if unit.creator ≠ idx then pure (.error (.panoramaIndex unit.creator idx))
      else do
        let consistent ← Panorama.geq s fuel pan unit.panorama
        if !consistent then pure (.error (.inconsistentPanorama idx))
        else Panorama.validateFrom s fuel pan (idx + 1) rest

/-- `Panorama::validate`. -/
def Panorama.validate (s : State H CV) (fuel : Nat) (pan : List (Observation H)) :
    Option (Except UnitError PUnit.{1}) :=
  Panorama.validateFrom s fuel pan 0 pan

end Code

/-! ## Swimlanes and the order of observations -/

section Order

variable (s : State H CV)

/-- `h₁` is in the swimlane from `h₀`: walking back through previous units reaches it. -/
def State.InSwimlane (h₀ h₁ : H) : Prop :=
  ∃ k, SkipList.follow s.units Unit.skipIdx k h₀ = some h₁

/-- The order that `Observation::geq` decides on valid panoramas: `obs₀` can come later than
`obs₁`. -/
def State.ObsGeq : Observation H → Observation H → Prop
  | .faulty, _ => True
  | _, .none => True
  | .correct h₀, .correct h₁ => s.InSwimlane h₀ h₁
  | _, _ => False

/-- Every entry that both panoramas have is in that order. -/
def State.PanGeq (pan₀ pan₁ : List (Observation H)) : Prop :=
  ∀ (j : Nat) obs₀ obs₁, pan₀[j]? = some obs₀ → pan₁[j]? = some obs₁ → s.ObsGeq obs₀ obs₁

/-- The entries from index `i` on name units of their validators. -/
def State.EntriesOk (i : Nat) (pan : List (Observation H)) : Prop :=
  ∀ (j : Nat) h, pan[j]? = some (.correct h) → ∃ u, s.units h = some u ∧ u.creator = i + j

/-- What `Panorama::validate` checks: every correct entry is a unit of its validator whose
panorama the panorama can come after. -/
def State.PanValid (pan : List (Observation H)) : Prop :=
  ∀ (j : Nat) h, pan[j]? = some (.correct h) →
    ∃ u, s.units h = some u ∧ u.creator = j ∧ s.PanGeq pan u.panorama

/-- `y` is the latest unit of the swimlane from `vh` with a timestamp up to `t`. -/
def State.LatestBy (t : Nat) (vh y : H) : Prop :=
  s.InSwimlane vh y ∧ (∃ u, s.units y = some u ∧ u.timestamp ≤ t) ∧
    ∀ y' u', s.InSwimlane vh y' → s.units y' = some u' → u'.timestamp ≤ t → s.InSwimlane y y'

/-- What the cutoff at `t` makes of an entry: the latest unit up to `t` of its swimlane, or
nothing if there is none; the other entries stay. -/
def State.CutoffOf (t : Nat) : Observation H → Observation H → Prop
  | .correct vh, .correct y => s.LatestBy t vh y
  | .correct vh, .none => ∀ y u, s.InSwimlane vh y → s.units y = some u → t < u.timestamp
  | .correct _, .faulty => False
  | .none, obs => obs = .none
  | .faulty, obs => obs = .faulty

open Classical in
/-- The join of two observations of one validator: the later of two units on one swimlane, and
faulty for two forks. -/
noncomputable def State.mergeSpec : Observation H → Observation H → Observation H
  | .faulty, _ | _, .faulty => .faulty
  | .none, obs | obs, .none => obs
  | .correct h₀, .correct h₁ =>
    if s.InSwimlane h₀ h₁ then .correct h₀
    else if s.InSwimlane h₁ h₀ then .correct h₁ else .faulty

end Order

/-! ## Lists -/

/-- A `mapM` whose every call returns the function's value is the map. -/
theorem mapM_eq_some_map {α β : Type} {f : α → Option β} {g : α → β} :
    ∀ {l : List α}, (∀ x ∈ l, f x = some (g x)) → l.mapM f = some (l.map g)
  | [], _ => rfl
  | x :: l, h => by
    rw [List.mapM_cons, h x List.mem_cons_self,
      mapM_eq_some_map fun y hy => h y (List.mem_cons_of_mem x hy)]
    rfl

/-- A `mapM` whose every call succeeds with a result related to its argument succeeds with a
list related entry by entry. -/
theorem mapM_forall₂ {α β : Type} {f : α → Option β} {R : α → β → Prop} :
    ∀ {l : List α}, (∀ x ∈ l, ∃ y, f x = some y ∧ R x y) →
      ∃ l', l.mapM f = some l' ∧ List.Forall₂ R l l'
  | [], _ => ⟨[], rfl, .nil⟩
  | x :: l, h => by
    obtain ⟨y, hy, hR⟩ := h x List.mem_cons_self
    obtain ⟨l', hl', hRs⟩ := mapM_forall₂ fun z hz => h z (List.mem_cons_of_mem x hz)
    exact ⟨y :: l', by rw [List.mapM_cons, hy, hl']; rfl, .cons hR hRs⟩

theorem forall₂_getElem? {α β : Type} {R : α → β → Prop} :
    ∀ {l₁ : List α} {l₂ : List β}, List.Forall₂ R l₁ l₂ →
      ∀ {j : Nat} {x : α}, l₁[j]? = some x → ∃ y, l₂[j]? = some y ∧ R x y
  | _, _, .nil, _, _, h => by cases h
  | _, _, .cons hR hrest, j, _, h => by
    cases j with
    | zero => exact ⟨_, rfl, (Option.some.inj h) ▸ hR⟩
    | succ j => exact forall₂_getElem? hrest h

namespace State

variable {s s' : State H CV}

theorem InSwimlane.refl (h : H) : s.InSwimlane h h := ⟨0, rfl⟩

theorem InSwimlane.trans {a b c : H} (hab : s.InSwimlane a b) (hbc : s.InSwimlane b c) :
    s.InSwimlane a c := by
  obtain ⟨j, hj⟩ := hab
  obtain ⟨k, hk⟩ := hbc
  exact ⟨j + k, by rw [SkipList.follow_add, hj, Option.bind_some, hk]⟩

/-- What is in the swimlane of a unit's previous unit is in the unit's. -/
theorem InSwimlane.of_previous {h p c : H} {u : Unit H} (hu : s.units h = some u)
    (hp : u.previous = some p) (hc : s.InSwimlane p c) : s.InSwimlane h c := by
  obtain ⟨k, hk⟩ := hc
  refine ⟨k + 1, ?_⟩
  rw [SkipList.follow_succ, hu, Option.bind_some]
  show u.previous.bind _ = _
  rw [hp, Option.bind_some]
  exact hk

/-- The swimlane of a unit is the unit and the swimlane of its previous unit. -/
theorem InSwimlane.cases {h c : H} (hc : s.InSwimlane h c) :
    c = h ∨ ∃ u p, s.units h = some u ∧ u.previous = some p ∧ s.InSwimlane p c := by
  obtain ⟨k, hk⟩ := hc
  cases k with
  | zero => exact .inl (Option.some.inj hk).symm
  | succ k =>
    rw [SkipList.follow_succ] at hk
    obtain ⟨u, hu, hk⟩ := Option.bind_eq_some_iff.mp hk
    obtain ⟨p, hp, hk⟩ := Option.bind_eq_some_iff.mp hk
    exact .inr ⟨u, p, hu, hp, k, hk⟩

/-- Two units of one swimlane are one in the other's. -/
theorem InSwimlane.total {v a b : H} (ha : s.InSwimlane v a) (hb : s.InSwimlane v b) :
    s.InSwimlane a b ∨ s.InSwimlane b a := by
  obtain ⟨j, hj⟩ := ha
  obtain ⟨k, hk⟩ := hb
  rcases le_total j k with hjk | hkj
  · refine .inl ⟨k - j, ?_⟩
    rw [← Nat.add_sub_cancel' hjk, SkipList.follow_add, hj, Option.bind_some] at hk
    exact hk
  · refine .inr ⟨j - k, ?_⟩
    rw [← Nat.add_sub_cancel' hkj, SkipList.follow_add, hk, Option.bind_some] at hj
    exact hj

/-- A state that keeps every unit of `s`. -/
def Extends (s s' : State H CV) : Prop := ∀ h u, s.units h = some u → s'.units h = some u

theorem InSwimlane.mono (hext : Extends s s') {a b : H} (hab : s.InSwimlane a b) :
    s'.InSwimlane a b := by
  obtain ⟨k, hk⟩ := hab
  exact ⟨k, SkipList.follow_mono hext hk⟩

theorem ObsGeq.refl (obs : Observation H) : s.ObsGeq obs obs := by
  cases obs with
  | none => trivial
  | correct h => exact InSwimlane.refl h
  | faulty => trivial

theorem ObsGeq.trans {obs₀ obs₁ obs₂ : Observation H} (h₀₁ : s.ObsGeq obs₀ obs₁)
    (h₁₂ : s.ObsGeq obs₁ obs₂) : s.ObsGeq obs₀ obs₂ := by
  cases obs₀ <;> cases obs₁ <;> cases obs₂ <;> simp only [ObsGeq] at h₀₁ h₁₂ ⊢
  case correct.correct.correct => exact h₀₁.trans h₁₂

theorem ObsGeq.mono (hext : Extends s s') {obs₀ obs₁ : Observation H}
    (h : s.ObsGeq obs₀ obs₁) : s'.ObsGeq obs₀ obs₁ := by
  cases obs₀ <;> cases obs₁ <;> simp only [ObsGeq] at h ⊢
  case correct.correct => exact h.mono hext

theorem PanGeq.refl (pan : List (Observation H)) : s.PanGeq pan pan := by
  intro j obs₀ obs₁ h₀ h₁
  obtain rfl : obs₀ = obs₁ := Option.some.inj (h₀.symm.trans h₁)
  exact ObsGeq.refl obs₀

/-- The order is transitive through a panorama that has every entry the two outer ones share. -/
theorem PanGeq.trans {a b c : List (Observation H)} (hab : s.PanGeq a b) (hbc : s.PanGeq b c)
    (hlen : a.length ≤ b.length ∨ c.length ≤ b.length) : s.PanGeq a c := by
  intro j obs₀ obs₂ ha hc
  obtain ⟨hja, -⟩ := List.getElem?_eq_some_iff.mp ha
  obtain ⟨hjc, -⟩ := List.getElem?_eq_some_iff.mp hc
  have hjb : j < b.length := by omega
  exact (hab j obs₀ b[j] ha (List.getElem?_eq_getElem hjb)).trans
    (hbc j b[j] obs₂ (List.getElem?_eq_getElem hjb) hc)

theorem PanGeq.mono (hext : Extends s s') {pan₀ pan₁ : List (Observation H)}
    (h : s.PanGeq pan₀ pan₁) : s'.PanGeq pan₀ pan₁ :=
  fun j obs₀ obs₁ h₀ h₁ => (h j obs₀ obs₁ h₀ h₁).mono hext

theorem panGeq_cons {obs₀ obs₁ : Observation H} {pan₀ pan₁ : List (Observation H)} :
    s.PanGeq (obs₀ :: pan₀) (obs₁ :: pan₁) ↔ s.ObsGeq obs₀ obs₁ ∧ s.PanGeq pan₀ pan₁ := by
  constructor
  · intro h
    exact ⟨h 0 obs₀ obs₁ rfl rfl, fun j o₀ o₁ h₀ h₁ => h (j + 1) o₀ o₁ h₀ h₁⟩
  · rintro ⟨hobs, hpan⟩ j o₀ o₁ h₀ h₁
    cases j with
    | zero =>
      obtain rfl := Option.some.inj h₀
      obtain rfl := Option.some.inj h₁
      exact hobs
    | succ j => exact hpan j o₀ o₁ h₀ h₁

theorem panGeq_nil_left (pan : List (Observation H)) : s.PanGeq [] pan :=
  fun _ _ _ h => by cases h

theorem panGeq_nil_right (pan : List (Observation H)) : s.PanGeq pan [] :=
  fun _ _ _ _ h => by cases h

theorem PanValid.mono (hext : Extends s s') {pan : List (Observation H)} (h : s.PanValid pan) :
    s'.PanValid pan := by
  intro j vh hj
  obtain ⟨u, hu, hcreator, hgeq⟩ := h j vh hj
  exact ⟨u, hext vh u hu, hcreator, hgeq.mono hext⟩

theorem PanValid.entriesOk {pan : List (Observation H)} (h : s.PanValid pan) :
    s.EntriesOk 0 pan := by
  intro j vh hj
  obtain ⟨u, hu, hcreator, -⟩ := h j vh hj
  exact ⟨u, hu, by omega⟩

theorem entriesOk_cons {i : Nat} {obs : Observation H} {pan : List (Observation H)}
    (h : s.EntriesOk i (obs :: pan)) :
    (∀ vh, obs = .correct vh → ∃ u, s.units vh = some u ∧ u.creator = i) ∧
      s.EntriesOk (i + 1) pan := by
  refine ⟨fun vh hvh => ?_, fun j vh hj => ?_⟩
  · obtain ⟨u, hu, hcreator⟩ := h 0 vh (by rw [hvh]; rfl)
    exact ⟨u, hu, hcreator⟩
  · obtain ⟨u, hu, hcreator⟩ := h (j + 1) vh hj
    exact ⟨u, hu, by omega⟩

theorem bind_correct?_eq_some {obs : Option (Observation H)} {p : H} :
    obs.bind Observation.correct? = some p ↔ obs = some (.correct p) := by
  constructor
  · intro h
    obtain ⟨o, rfl, ho⟩ := Option.bind_eq_some_iff.mp h
    cases o <;> simp_all [Observation.correct?]
  · rintro rfl
    rfl

/-- The cutoff's entry for a unit's swimlane is the one for its previous unit's, when the unit
itself is later than the cutoff. -/
theorem CutoffOf.of_previous {t : Nat} {vh p : H} {u : Unit H} {obs : Observation H}
    (hu : s.units vh = some u) (hp : u.previous = some p) (hlate : t < u.timestamp)
    (hobs : s.CutoffOf t (.correct p) obs) : s.CutoffOf t (.correct vh) obs := by
  -- the swimlane from `vh` is `vh` itself, too late, and the one from `p`
  have hsplit : ∀ y, s.InSwimlane vh y → y = vh ∨ s.InSwimlane p y := by
    intro y hsw
    rcases hsw.cases with rfl | ⟨u', p', hu', hp', hsw'⟩
    · exact .inl rfl
    · obtain rfl : u' = u := Option.some.inj (hu'.symm.trans hu)
      obtain rfl : p' = p := Option.some.inj (hp'.symm.trans hp)
      exact .inr hsw'
  cases obs with
  | correct y =>
    obtain ⟨hsw, hts, hlatest⟩ := hobs
    refine ⟨InSwimlane.of_previous hu hp hsw, hts, fun y' u' hsw' hu' hts' => ?_⟩
    rcases hsplit y' hsw' with rfl | hsw''
    · obtain rfl : u' = u := Option.some.inj (hu'.symm.trans hu)
      omega
    · exact hlatest y' u' hsw'' hu' hts'
  | none =>
    intro y u' hsw' hu'
    rcases hsplit y hsw' with rfl | hsw''
    · obtain rfl : u' = u := Option.some.inj (hu'.symm.trans hu)
      exact hlate
    · exact hobs y u' hsw'' hu'
  | faulty => exact hobs

/-! ## Coherent states -/

/-- What every unit of a reachable state keeps: its panorama has an entry per validator, cites
its creator's previous unit, is valid, and cites no unit later than itself. -/
structure Coherent (n : Nat) (s : State H CV) : Prop where
  wellFormed : s.WellFormed
  length : ∀ h u, s.units h = some u → u.panorama.length = n
  previous : ∀ h u, s.units h = some u →
    u.previous = (u.panorama[u.creator]?).bind Observation.correct?
  valid : ∀ h u, s.units h = some u → s.PanValid u.panorama
  timestamps : ∀ h u, s.units h = some u → ∀ (j : Nat) h' u',
    u.panorama[j]? = some (.correct h') → s.units h' = some u' → u'.timestamp ≤ u.timestamp

/-- Fuel above every sequence number, enough for every search. -/
def FuelBound (s : State H CV) (fuel : Nat) : Prop :=
  ∀ h u, s.units h = some u → u.seqNumber < fuel

section Coherent

variable {n : Nat} (hc : s.Coherent n)
include hc

/-- A unit's previous unit is of the same creator, one sequence number below, no later, and
has a panorama that the unit's can come after. -/
theorem Coherent.previous_spec {h p : H} {u : Unit H} (hu : s.units h = some u)
    (hp : u.previous = some p) :
    ∃ up, s.units p = some up ∧ up.creator = u.creator ∧ up.seqNumber + 1 = u.seqNumber ∧
      up.timestamp ≤ u.timestamp ∧ s.PanGeq u.panorama up.panorama := by
  have hentry : u.panorama[u.creator]? = some (.correct p) := by
    rw [← bind_correct?_eq_some, ← hc.previous h u hu, hp]
  obtain ⟨up, hup, hcreator, hgeq⟩ := hc.valid h u hu u.creator p hentry
  obtain ⟨b, hb, hlevel⟩ := (hc.wellFormed.units_wf h u hu).first p hp
  obtain rfl : b = up := Option.some.inj (hb.symm.trans hup)
  exact ⟨b, hup, hcreator, hlevel, hc.timestamps h u hu u.creator p b hentry hup, hgeq⟩

/-- Along a swimlane: one creator, lower sequence numbers, earlier timestamps, and panoramas
that the later unit's can come after. -/
theorem Coherent.inSwimlane_spec {h c : H} {u : Unit H} (hu : s.units h = some u)
    (hsw : s.InSwimlane h c) :
    ∃ uc, s.units c = some uc ∧ uc.creator = u.creator ∧ uc.seqNumber ≤ u.seqNumber ∧
      uc.timestamp ≤ u.timestamp ∧ s.PanGeq u.panorama uc.panorama := by
  obtain ⟨k, hk⟩ := hsw
  induction k generalizing h u with
  | zero =>
    obtain rfl : h = c := Option.some.inj hk
    exact ⟨u, hu, rfl, le_rfl, le_rfl, PanGeq.refl _⟩
  | succ k ih =>
    rw [SkipList.follow_succ, hu, Option.bind_some] at hk
    obtain ⟨p, hp, hk⟩ := Option.bind_eq_some_iff.mp hk
    obtain ⟨up, hup, hcreator, hseq, hts, hgeq⟩ := hc.previous_spec hu hp
    obtain ⟨uc, huc, hcreator', hseq', hts', hgeq'⟩ := ih hup hk
    exact ⟨uc, huc, hcreator'.trans hcreator, by omega, hts'.trans hts,
      hgeq.trans hgeq' (.inr (by rw [hc.length c uc huc, hc.length p up hup]))⟩

/-- Two units each in the other's swimlane are one. -/
theorem Coherent.inSwimlane_antisymm {a b : H} (ha : (s.units a).isSome)
    (hab : s.InSwimlane a b) (hba : s.InSwimlane b a) : a = b := by
  obtain ⟨ua, hua⟩ := Option.isSome_iff_exists.mp ha
  obtain ⟨j, hj⟩ := hab
  obtain ⟨k, hk⟩ := hba
  obtain ⟨hjle, ub, hub, hlevelb⟩ := hc.wellFormed.units_wf.level_of_follow hua hj
  obtain ⟨hkle, ua', hua', hlevela⟩ := hc.wellFormed.units_wf.level_of_follow hub hk
  obtain rfl : ua' = ua := Option.some.inj (hua'.symm.trans hua)
  obtain rfl : j = 0 := by omega
  exact Option.some.inj hj

end Coherent


/-! ## The code decides the order -/

section Decide

variable [DecidableEq H] {n fuel : Nat} (hc : s.Coherent n) (hfuel : s.FuelBound fuel)
include hc hfuel

omit [DecidableEq H] in
/-- `find_in_swimlane` from a unit, at the sequence number of another, finds the other exactly
when it is in the swimlane. -/
theorem Coherent.findInSwimlane_spec {latest hash : H} {ul u : Unit H}
    (hul : s.units latest = some ul) (hu : s.units hash = some u) :
    ∃ r, s.findInSwimlane fuel latest u.seqNumber = some r ∧
      (r = some hash ↔ s.InSwimlane latest hash) := by
  have hfind : s.findInSwimlane fuel latest u.seqNumber = some (if ul.seqNumber < u.seqNumber
      then none else SkipList.follow s.units Unit.skipIdx (ul.seqNumber - u.seqNumber) latest) :=
    hc.wellFormed.units_wf.find_eq (fun _ => two_pow_log2_le) hul
      (by have := hfuel latest ul hul; omega)
  refine ⟨_, hfind, fun h => ?_, fun h => ?_⟩
  · -- `split_ifs` closes the branch above the unit, where nothing is found
    split_ifs at h
    exact ⟨_, h⟩
  · obtain ⟨k, hk⟩ := h
    obtain ⟨hkle, b, hb, hlevel⟩ := hc.wellFormed.units_wf.level_of_follow hul hk
    obtain rfl : b = u := Option.some.inj (hb.symm.trans hu)
    rw [if_neg (by omega), show ul.seqNumber - b.seqNumber = k by omega, hk]

/-- `sees_correct` decides whether the panorama's entry for the unit's creator has the unit in
its swimlane. -/
theorem Coherent.seesCorrect_spec {pan : List (Observation H)} {hash : H} {u : Unit H}
    (hu : s.units hash = some u)
    (hpan : ∀ l, pan[u.creator]? = some (.correct l) → (s.units l).isSome) :
    ∃ b, seesCorrect s fuel pan hash = some b ∧
      (b = true ↔ ∃ l, pan[u.creator]? = some (.correct l) ∧ s.InSwimlane l hash) := by
  cases hentry : pan[u.creator]? with
  | none => exact ⟨false, by simp [seesCorrect, hu, hentry], by simp⟩
  | some obs =>
    cases obs with
    | none => exact ⟨false, by simp [seesCorrect, hu, hentry, Observation.correct?], by simp⟩
    | faulty => exact ⟨false, by simp [seesCorrect, hu, hentry, Observation.correct?], by simp⟩
    | correct l =>
      obtain ⟨ul, hul⟩ := Option.isSome_iff_exists.mp (hpan l hentry)
      obtain ⟨r, hr, hiff⟩ := hc.findInSwimlane_spec hfuel hul hu
      refine ⟨r == some hash, by simp [seesCorrect, hu, hentry, Observation.correct?, hr], ?_⟩
      simp [hiff]

/-- On entries naming units of one validator, `Observation::geq` decides `ObsGeq`. -/
theorem Coherent.obsGeq_spec {j : Nat} {obs₀ obs₁ : Observation H}
    (h₀ : ∀ vh, obs₀ = .correct vh → ∃ u, s.units vh = some u ∧ u.creator = j)
    (h₁ : ∀ vh, obs₁ = .correct vh → ∃ u, s.units vh = some u ∧ u.creator = j) :
    ∃ b, Observation.geq s fuel obs₀ obs₁ = some b ∧ (b = true ↔ s.ObsGeq obs₀ obs₁) := by
  cases obs₀ <;> cases obs₁
  case correct.correct vh₀ vh₁ =>
    by_cases heq : vh₀ = vh₁
    · subst heq
      exact ⟨true, by simp [Observation.geq], by simp [ObsGeq, InSwimlane.refl]⟩
    obtain ⟨u₀, hu₀, hcreator₀⟩ := h₀ vh₀ rfl
    obtain ⟨u₁, hu₁, hcreator₁⟩ := h₁ vh₁ rfl
    have hpan : ∀ l, u₀.panorama[u₁.creator]? = some (.correct l) → (s.units l).isSome := by
      intro l hl
      obtain ⟨ul, hul, -⟩ := hc.valid vh₀ u₀ hu₀ _ l hl
      simp [hul]
    obtain ⟨b, hb, hiff⟩ := hc.seesCorrect_spec hfuel hu₁ hpan
    refine ⟨b, by simp [Observation.geq, heq, hu₀, hb], ?_⟩
    rw [hiff, show u₁.creator = u₀.creator by omega]
    simp only [ObsGeq]
    -- the creator's entry of `vh₀`'s panorama is its previous unit
    constructor
    · rintro ⟨l, hl, hsw⟩
      have hprev : u₀.previous = some l := by
        rw [hc.previous vh₀ u₀ hu₀, hl]
        rfl
      exact InSwimlane.of_previous hu₀ hprev hsw
    · intro hsw
      rcases hsw.cases with rfl | ⟨u, p, hu, hp, hsw'⟩
      · exact absurd rfl heq
      obtain rfl : u = u₀ := Option.some.inj (hu.symm.trans hu₀)
      rw [hc.previous vh₀ u hu₀] at hp
      exact ⟨p, bind_correct?_eq_some.mp hp, hsw'⟩
  all_goals exact ⟨_, rfl, by simp [ObsGeq]⟩

/-- On panoramas whose entries name units of their validators, `Panorama::geq` decides
`PanGeq`. -/
theorem Coherent.panGeq_spec {pan₀ : List (Observation H)} :
    ∀ {i : Nat} {pan₁ : List (Observation H)}, s.EntriesOk i pan₀ → s.EntriesOk i pan₁ →
      ∃ b, Panorama.geq s fuel pan₀ pan₁ = some b ∧ (b = true ↔ s.PanGeq pan₀ pan₁) := by
  induction pan₀ with
  | nil =>
    intro i pan₁ _ _
    exact ⟨true, by cases pan₁ <;> rfl, by simp [panGeq_nil_left]⟩
  | cons obs₀ pan₀ ih =>
    intro i pan₁ hok₀ hok₁
    cases pan₁ with
    | nil => exact ⟨true, rfl, by simp [panGeq_nil_right]⟩
    | cons obs₁ pan₁ =>
      obtain ⟨hobs₀, hrest₀⟩ := entriesOk_cons hok₀
      obtain ⟨hobs₁, hrest₁⟩ := entriesOk_cons hok₁
      obtain ⟨b, hb, hiff⟩ := hc.obsGeq_spec hfuel hobs₀ hobs₁
      rw [panGeq_cons, ← hiff]
      cases b with
      | false => exact ⟨false, by simp [Panorama.geq, hb], by simp⟩
      | true =>
        obtain ⟨b', hb', hiff'⟩ := ih hrest₀ hrest₁
        exact ⟨b', by simp [Panorama.geq, hb, hb'], by simp [hiff']⟩

end Decide

/-- The loop of `Panorama::validate` succeeds exactly when every correct entry from `idx` on is
a unit of its validator whose panorama the code finds the panorama can come after. -/
theorem validateFrom_eq_ok_iff [DecidableEq H] (s : State H CV) (fuel : Nat)
    (pan : List (Observation H)) :
    ∀ (idx : Nat) (rest : List (Observation H)),
      Panorama.validateFrom s fuel pan idx rest = some (.ok ()) ↔
        ∀ (j : Nat) h, rest[j]? = some (.correct h) → ∃ u, s.units h = some u ∧
          u.creator = idx + j ∧ Panorama.geq s fuel pan u.panorama = some true := by
  intro idx rest
  induction rest generalizing idx with
  | nil => simp [Panorama.validateFrom]
  | cons obs rest ih =>
    -- the entry at `idx`, then the rest from `idx + 1`
    have hsplit : (∀ (j : Nat) h, (obs :: rest)[j]? = some (.correct h) → ∃ u,
        s.units h = some u ∧ u.creator = idx + j ∧ Panorama.geq s fuel pan u.panorama = some true) ↔
        (∀ h, obs = .correct h → ∃ u, s.units h = some u ∧ u.creator = idx ∧
          Panorama.geq s fuel pan u.panorama = some true) ∧
        ∀ (j : Nat) h, rest[j]? = some (.correct h) → ∃ u, s.units h = some u ∧
          u.creator = idx + 1 + j ∧ Panorama.geq s fuel pan u.panorama = some true := by
      constructor
      · intro h
        refine ⟨fun vh hvh => ?_, fun j vh hj => ?_⟩
        · simpa using h 0 vh (by simp [hvh])
        · obtain ⟨u, hu, hcreator, hgeq⟩ := h (j + 1) vh hj
          exact ⟨u, hu, by omega, hgeq⟩
      · rintro ⟨hhead, htail⟩ j vh hj
        cases j with
        | zero => simpa using hhead vh (by simpa using hj)
        | succ j =>
          obtain ⟨u, hu, hcreator, hgeq⟩ := htail j vh hj
          exact ⟨u, hu, by omega, hgeq⟩
    rw [hsplit, ← ih]
    cases obs with
    | correct vh =>
      simp only [Panorama.validateFrom, Observation.correct?]
      cases hu : s.units vh with
      | none => simp [hu]
      | some u =>
        by_cases hcreator : u.creator = idx
        · cases hgeq : Panorama.geq s fuel pan u.panorama with
          | none => simp [hu, hcreator, hgeq]
          | some b => cases b <;> simp [hu, hcreator, hgeq]
        · simp [hu, hcreator]
    | none => simp [Panorama.validateFrom, Observation.correct?]
    | faulty => simp [Panorama.validateFrom, Observation.correct?]

/-- **`Panorama::validate` decides validity** on a coherent state, with fuel above every
sequence number. -/
theorem Coherent.validate_spec [DecidableEq H] {n fuel : Nat} (hc : s.Coherent n)
    (hfuel : s.FuelBound fuel) {pan : List (Observation H)} :
    Panorama.validate s fuel pan = some (.ok ()) ↔ s.PanValid pan := by
  rw [Panorama.validate, validateFrom_eq_ok_iff]
  simp only [Nat.zero_add]
  constructor
  · intro h
    have hok : s.EntriesOk 0 pan := fun j vh hj => by
      obtain ⟨u, hu, hcreator, -⟩ := h j vh hj
      exact ⟨u, hu, by omega⟩
    intro j vh hj
    obtain ⟨u, hu, hcreator, hgeq⟩ := h j vh hj
    obtain ⟨b, hb, hiff⟩ := hc.panGeq_spec hfuel hok (hc.valid vh u hu).entriesOk
    obtain rfl : b = true := Option.some.inj (hb.symm.trans hgeq)
    exact ⟨u, hu, hcreator, hiff.mp rfl⟩
  · intro h j vh hj
    obtain ⟨u, hu, hcreator, hgeq⟩ := h j vh hj
    obtain ⟨b, hb, hiff⟩ := hc.panGeq_spec hfuel h.entriesOk (hc.valid vh u hu).entriesOk
    exact ⟨u, hu, hcreator, hb.trans (congrArg some (hiff.mpr hgeq))⟩


/-- The code's order holds where the abstract one does. -/
theorem Coherent.geq_eq_true [DecidableEq H] {n fuel : Nat} (hc : s.Coherent n)
    (hfuel : s.FuelBound fuel) {pan₀ pan₁ : List (Observation H)} (hok₀ : s.EntriesOk 0 pan₀)
    (hok₁ : s.EntriesOk 0 pan₁) (h : s.PanGeq pan₀ pan₁) :
    Panorama.geq s fuel pan₀ pan₁ = some true := by
  obtain ⟨b, hb, hiff⟩ := hc.panGeq_spec hfuel hok₀ hok₁
  rw [hb, hiff.mpr h]

/-! ## Merge and cutoff in the code -/

section Compute

variable [DecidableEq H] {n fuel : Nat} (hc : s.Coherent n) (hfuel : s.FuelBound fuel)
include hc hfuel

/-- `merge_obs` computes the join of two entries of one validator. -/
theorem Coherent.mergeObs_eq {pan other : List (Observation H)} (hp : s.EntriesOk 0 pan)
    (hq : s.EntriesOk 0 other) {j : Nat} {obs₀ obs₁ : Observation H} (h₀ : pan[j]? = some obs₀)
    (h₁ : other[j]? = some obs₁) :
    Panorama.mergeObs s fuel pan other obs₀ obs₁ = some (s.mergeSpec obs₀ obs₁) := by
  cases obs₀ <;> cases obs₁
  case correct.correct vh₀ vh₁ =>
    obtain ⟨u₀, hu₀, hcreator₀⟩ := hp j vh₀ h₀
    obtain ⟨u₁, hu₁, hcreator₁⟩ := hq j vh₁ h₁
    -- each side looks for the other's unit in its own entry for the validator
    have hpan : ∀ l, pan[u₁.creator]? = some (.correct l) → (s.units l).isSome := by
      intro l hl
      obtain ⟨u, hu, -⟩ := hp _ l hl
      simp [hu]
    have hother : ∀ l, other[u₀.creator]? = some (.correct l) → (s.units l).isSome := by
      intro l hl
      obtain ⟨u, hu, -⟩ := hq _ l hl
      simp [hu]
    obtain ⟨b₁, hb₁, hiff₁⟩ := hc.seesCorrect_spec hfuel hu₁ hpan
    obtain ⟨b₀, hb₀, hiff₀⟩ := hc.seesCorrect_spec hfuel hu₀ hother
    rw [show u₁.creator = j by omega, h₀] at hiff₁
    rw [show u₀.creator = j by omega, h₁] at hiff₀
    simp only [Option.some.injEq, Observation.correct.injEq, exists_eq_left'] at hiff₀ hiff₁
    simp only [Panorama.mergeObs, mergeSpec, hb₀, hb₁, Option.bind_eq_bind, Option.bind_some]
    by_cases h₀₁ : s.InSwimlane vh₀ vh₁
    · rw [if_pos (hiff₁.mpr h₀₁), if_pos h₀₁]
      rfl
    by_cases h₁₀ : s.InSwimlane vh₁ vh₀
    · rw [if_neg (mt hiff₁.mp h₀₁), if_pos (hiff₀.mpr h₁₀), if_neg h₀₁, if_pos h₁₀]
      rfl
    · rw [if_neg (mt hiff₁.mp h₀₁), if_neg (mt hiff₀.mp h₁₀), if_neg h₀₁, if_neg h₁₀]
      rfl
  all_goals rfl

/-- **`Panorama::merge` computes the join** entry by entry. -/
theorem Coherent.merge_eq {pan other : List (Observation H)} (hp : s.EntriesOk 0 pan)
    (hq : s.EntriesOk 0 other) :
    Panorama.merge s fuel pan other = some (List.zipWith s.mergeSpec pan other) := by
  rw [Panorama.merge, ← List.map_uncurry_zip_eq_zipWith]
  apply mapM_eq_some_map
  rintro ⟨obs₀, obs₁⟩ hobs
  obtain ⟨j, hj⟩ := List.mem_iff_getElem?.mp hobs
  obtain ⟨h₀, h₁⟩ := List.getElem?_zip_eq_some.mp hj
  exact hc.mergeObs_eq hfuel hp hq h₀ h₁

omit [DecidableEq H] hfuel in
/-- The cutoff of one correct entry: enough fuel walks its swimlane back to the latest unit up
to the timestamp. -/
theorem Coherent.cutoffObs_spec (t : Nat) {fuel' : Nat} :
    ∀ {vh : H} {u : Unit H}, s.units vh = some u → u.seqNumber < fuel' →
      ∃ obs, Panorama.cutoffObs s fuel' t (.correct vh) = some obs ∧
        s.CutoffOf t (.correct vh) obs := by
  induction fuel' with
  | zero =>
    intro vh u _ hseq
    omega
  | succ fuel' ih =>
    intro vh u hu hseq
    by_cases hts : u.timestamp ≤ t
    · refine ⟨.correct vh, by simp [Panorama.cutoffObs, State.swimlaneFind, hu, hts], ?_⟩
      exact ⟨InSwimlane.refl vh, ⟨u, hu, hts⟩, fun y' _ hsw _ _ => hsw⟩
    cases hp : u.previous with
    | none =>
      -- the creator's first unit, and it is too late
      refine ⟨.none, by simp [Panorama.cutoffObs, State.swimlaneFind, hu, hts, hp], ?_⟩
      intro y u' hsw hu'
      rcases hsw.cases with rfl | ⟨u'', p, hu'', hp', -⟩
      · obtain rfl : u' = u := Option.some.inj (hu'.symm.trans hu)
        omega
      · obtain rfl : u'' = u := Option.some.inj (hu''.symm.trans hu)
        rw [hp] at hp'
        cases hp'
    | some p =>
      obtain ⟨up, hup, -, hseq', -, -⟩ := hc.previous_spec hu hp
      obtain ⟨obs, hobs, hcut⟩ := ih hup (by omega)
      refine ⟨obs, ?_, CutoffOf.of_previous hu hp (by omega) hcut⟩
      rw [← hobs]
      simp [Panorama.cutoffObs, State.swimlaneFind, hu, hts, hp]

omit [DecidableEq H] in
/-- **`Panorama::cutoff` keeps of each swimlane its latest unit up to the timestamp.** -/
theorem Coherent.cutoff_spec {pan : List (Observation H)} (hp : s.EntriesOk 0 pan) (t : Nat) :
    ∃ c, Panorama.cutoff s fuel pan t = some c ∧ List.Forall₂ (s.CutoffOf t) pan c := by
  unfold Panorama.cutoff
  apply mapM_forall₂
  intro obs hobs
  cases obs with
  | correct vh =>
    obtain ⟨j, hj⟩ := List.mem_iff_getElem?.mp hobs
    obtain ⟨u, hu, -⟩ := hp j vh hj
    exact hc.cutoffObs_spec t hu (hfuel vh u hu)
  | none => exact ⟨.none, rfl, rfl⟩
  | faulty => exact ⟨.faulty, rfl, rfl⟩

end Compute

/-! ## Merge is the join -/

theorem mergeSpec_geq (obs₀ obs₁ : Observation H) :
    s.ObsGeq (s.mergeSpec obs₀ obs₁) obs₀ ∧ s.ObsGeq (s.mergeSpec obs₀ obs₁) obs₁ := by
  cases obs₀ <;> cases obs₁
  case correct.correct h₀ h₁ =>
    simp only [mergeSpec]
    split_ifs with h₀₁ h₁₀
    · exact ⟨InSwimlane.refl h₀, h₀₁⟩
    · exact ⟨h₁₀, InSwimlane.refl h₁⟩
    · exact ⟨trivial, trivial⟩
  all_goals simp [mergeSpec, ObsGeq, InSwimlane.refl]

/-- The join is faulty only where an entry is, or where the two units lie on two forks. -/
theorem mergeSpec_eq_faulty {obs₀ obs₁ : Observation H} (h : s.mergeSpec obs₀ obs₁ = .faulty) :
    obs₀ = .faulty ∨ obs₁ = .faulty ∨ ∃ h₀ h₁, obs₀ = .correct h₀ ∧ obs₁ = .correct h₁ ∧
      ¬s.InSwimlane h₀ h₁ ∧ ¬s.InSwimlane h₁ h₀ := by
  cases obs₀ <;> cases obs₁
  case correct.correct h₀ h₁ =>
    simp only [mergeSpec] at h
    split_ifs at h with h₀₁ h₁₀
    exact .inr (.inr ⟨h₀, h₁, rfl, rfl, h₀₁, h₁₀⟩)
  all_goals first | exact .inl rfl | exact .inr (.inl rfl) | cases h

/-- A correct join is one of the two entries. -/
theorem mergeSpec_eq_correct {obs₀ obs₁ : Observation H} {vh : H}
    (h : s.mergeSpec obs₀ obs₁ = .correct vh) : obs₀ = .correct vh ∨ obs₁ = .correct vh := by
  cases obs₀ <;> cases obs₁
  case correct.correct h₀ h₁ =>
    simp only [mergeSpec] at h
    split_ifs at h
    · exact .inl h
    · exact .inr h
  all_goals first | exact .inl h | exact .inr h

theorem panGeq_zipWith_mergeSpec (p q : List (Observation H)) :
    s.PanGeq (List.zipWith s.mergeSpec p q) p ∧ s.PanGeq (List.zipWith s.mergeSpec p q) q := by
  constructor
  all_goals
    intro j obs obs' hm h'
    obtain ⟨obs₀, obs₁, h₀, h₁, rfl⟩ := List.getElem?_zipWith_eq_some.mp hm
  · obtain rfl := Option.some.inj (h₀.symm.trans h')
    exact (mergeSpec_geq obs₀ obs₁).1
  · obtain rfl := Option.some.inj (h₁.symm.trans h')
    exact (mergeSpec_geq obs₀ obs₁).2

/-- **The join of two valid panoramas is valid**: a correct entry of the join is one of theirs,
and the join comes after both. -/
theorem panValid_zipWith_mergeSpec {p q : List (Observation H)} (hp : s.PanValid p)
    (hq : s.PanValid q) : s.PanValid (List.zipWith s.mergeSpec p q) := by
  intro j vh hj
  obtain ⟨obs₀, obs₁, h₀, h₁, hm⟩ := List.getElem?_zipWith_eq_some.mp hj
  have hlen : (List.zipWith s.mergeSpec p q).length = min p.length q.length :=
    List.length_zipWith
  rcases mergeSpec_eq_correct hm with rfl | rfl
  · obtain ⟨u, hu, hcreator, hgeq⟩ := hp j vh h₀
    refine ⟨u, hu, hcreator, (panGeq_zipWith_mergeSpec p q).1.trans hgeq (.inl ?_)⟩
    omega
  · obtain ⟨u, hu, hcreator, hgeq⟩ := hq j vh h₁
    refine ⟨u, hu, hcreator, (panGeq_zipWith_mergeSpec p q).2.trans hgeq (.inl ?_)⟩
    omega

section Join

variable {n : Nat} (hc : s.Coherent n)
include hc

/-- The join is commutative: two units each in the other's swimlane are one. -/
theorem Coherent.mergeSpec_comm {obs₀ obs₁ : Observation H}
    (h₀ : ∀ vh, obs₀ = .correct vh → (s.units vh).isSome) :
    s.mergeSpec obs₀ obs₁ = s.mergeSpec obs₁ obs₀ := by
  cases obs₀ <;> cases obs₁
  case correct.correct a b =>
    simp only [mergeSpec]
    by_cases hab : s.InSwimlane a b <;> by_cases hba : s.InSwimlane b a
    · obtain rfl := hc.inSwimlane_antisymm (h₀ a rfl) hab hba
      simp
    all_goals simp [hab, hba]
  all_goals rfl

theorem Coherent.zipWith_mergeSpec_comm {p q : List (Observation H)} (hp : s.EntriesOk 0 p) :
    List.zipWith s.mergeSpec p q = List.zipWith s.mergeSpec q p := by
  apply List.ext_getElem?
  intro j
  rw [List.getElem?_zipWith, List.getElem?_zipWith]
  cases h₀ : p[j]? <;> cases h₁ : q[j]?
  case some.some obs₀ obs₁ =>
    have hunits : ∀ vh, obs₀ = .correct vh → (s.units vh).isSome := by
      rintro vh rfl
      obtain ⟨u, hu, -⟩ := hp j vh h₀
      simp [hu]
    simp only [hc.mergeSpec_comm hunits]
  all_goals rfl

end Join

/-! ## The cutoff is below -/

theorem CutoffOf.obsGeq {t : Nat} {obs obs' : Observation H} (h : s.CutoffOf t obs obs') :
    s.ObsGeq obs obs' := by
  cases obs <;> cases obs'
  case correct.correct => exact h.1
  case correct.faulty => exact h.elim
  all_goals trivial

theorem panGeq_of_forall₂_cutoffOf {t : Nat} {p c : List (Observation H)}
    (h : List.Forall₂ (s.CutoffOf t) p c) : s.PanGeq p c := by
  intro j obs obs' hp hc
  obtain ⟨obs'', hc', hcut⟩ := forall₂_getElem? h hp
  obtain rfl := Option.some.inj (hc'.symm.trans hc)
  exact hcut.obsGeq

/-- **The cutoff of a valid panorama is valid.**  Its unit for a validator is in the swimlane
of the panorama's, so a unit of that validator with a panorama the panorama comes after; and
what that unit cites is no later than itself, so it is up to the cutoff, and in the swimlane of
the cutoff's unit for its own validator. -/
theorem Coherent.panValid_cutoff {n t : Nat} (hc : s.Coherent n) {p c : List (Observation H)}
    (hp : s.PanValid p) (h : List.Forall₂ (s.CutoffOf t) p c) : s.PanValid c := by
  intro j y hj
  obtain ⟨obs, hpj, hcut⟩ := forall₂_getElem? h.flip hj
  cases obs with
  | none => cases hcut
  | faulty => cases hcut
  | correct vh =>
    obtain ⟨hsw, ⟨uy, huy, htsy⟩, -⟩ := hcut
    obtain ⟨uvh, huvh, hcreator, hgeq⟩ := hp j vh hpj
    obtain ⟨uy', huy', hcreator', -, -, hgeq'⟩ := hc.inSwimlane_spec huvh hsw
    obtain rfl : uy' = uy := Option.some.inj (huy'.symm.trans huy)
    have hpy : s.PanGeq p uy'.panorama :=
      hgeq.trans hgeq' (.inr (by rw [hc.length y uy' huy, hc.length vh uvh huvh]))
    refine ⟨uy', huy, hcreator'.trans hcreator, fun k o' oy hck hyk => ?_⟩
    obtain ⟨ok, hpk, hcutk⟩ := forall₂_getElem? h.flip hck
    have hgeqk := hpy k ok oy hpk hyk
    -- what `uy` cites at `k` decides which entries of the cutoff can come after it
    cases oy with
    | none => cases o' <;> trivial
    | faulty =>
      cases ok <;> simp only [ObsGeq] at hgeqk
      rw [hcutk]
      trivial
    | correct z =>
      obtain ⟨uz, huz, -, -⟩ := hc.valid y uy' huy k z hyk
      have htsz : uz.timestamp ≤ t := (hc.timestamps y uy' huy k z uz hyk huz).trans htsy
      cases ok with
      | none => exact hgeqk.elim
      | faulty =>
        rw [hcutk]
        trivial
      | correct w =>
        cases o' with
        | correct y' => exact hcutk.2.2 z uz hgeqk huz htsz
        | none => exact absurd (hcutk z uz hgeqk huz) (by omega)
        | faulty => exact hcutk.elim

end State

/-! ## States built from validated units -/

/-- What `Unit::new` keeps of the wire unit: its panorama, creator and timestamp, and a skip list
that starts with the creator's entry of the panorama. -/
theorem Unit.new_spec {swunit : SignedWireUnit H S I CV} {forkChoice : Option H}
    {s : State H CV} {unit : Unit H} {maybeValue : Option CV}
    (hnew : Unit.new swunit forkChoice s = some (unit, maybeValue)) :
    unit.panorama = swunit.wireUnit.panorama ∧ unit.creator = swunit.wireUnit.creator ∧
      unit.timestamp = swunit.wireUnit.timestamp ∧
      unit.previous = (swunit.wireUnit.panorama[swunit.wireUnit.creator]?).bind
        Observation.correct? := by
  unfold Unit.new at hnew
  obtain ⟨block, -, hnew⟩ := Option.bind_eq_some_iff.mp hnew
  obtain ⟨previous, hprev, hnew⟩ := Option.bind_eq_some_iff.mp hnew
  obtain ⟨skipIdx, hskip, hnew⟩ := Option.bind_eq_some_iff.mp hnew
  obtain ⟨rfl, -⟩ := Prod.mk.inj (Option.some.inj hnew)
  refine ⟨rfl, rfl, rfl, ?_⟩
  -- `WireUnit::previous` reads the creator's entry, and the loop keeps it first
  obtain ⟨obs, hobs, rfl⟩ := Option.map_eq_some_iff.mp hprev
  rw [hobs, Option.bind_some]
  cases hcorrect : obs.correct? with
  | none =>
    rw [hcorrect] at hskip
    obtain rfl := Option.some.inj hskip
    rfl
  | some prev =>
    rw [hcorrect] at hskip
    obtain ⟨rest, rfl⟩ := SkipList.extend_prefix hskip
    rfl

/-- `add_valid_unit` either knew the unit and changes nothing, or adds it under its fresh hash. -/
theorem State.addValidUnit_units [DecidableEq H] {s s' : State H CV}
    {swunit : SignedWireUnit H S I CV} {forkChoice : Option H}
    (hadd : s.addValidUnit swunit forkChoice = some s') :
    s' = s ∨ s.units swunit.hash = none ∧ ∃ unit maybeValue,
      Unit.new swunit forkChoice s = some (unit, maybeValue) ∧
        s'.units = Function.update s.units swunit.hash (some unit) := by
  rw [State.addValidUnit] at hadd
  by_cases hknown : (s.units swunit.hash).isSome
  · rw [if_pos hknown] at hadd
    exact .inl (Option.some.inj hadd).symm
  rw [if_neg hknown] at hadd
  obtain ⟨⟨unit, maybeValue⟩, hnew, hadd⟩ := Option.bind_eq_some_iff.mp hadd
  refine .inr ⟨Option.not_isSome_iff_eq_none.mp hknown, unit, maybeValue, hnew, ?_⟩
  cases maybeValue with
  | none =>
    obtain rfl := Option.some.inj hadd
    rfl
  | some value =>
    obtain ⟨block, -, hadd⟩ := Option.bind_eq_some_iff.mp hadd
    obtain rfl := Option.some.inj hadd
    rfl

/-- The checks of `validate_unit` that panoramas rest on, made against the state that the unit
is added to: the panorama has an entry per validator (`pre_validate_unit`) and passes
`Panorama::validate`, the units it cites are no later than the unit, and the sequence number is
`next_seq_num`. -/
structure UnitValid [DecidableEq H] (n : Nat) (s : State H CV) (fuel : Nat)
    (wunit : WireUnit H I CV) : Prop where
  length : wunit.panorama.length = n
  panorama : Panorama.validate s fuel wunit.panorama = some (.ok ())
  timestamps : ∀ (j : Nat) h u, wunit.panorama[j]? = some (.correct h) → s.units h = some u →
    u.timestamp ≤ wunit.timestamp
  seqNumber : nextSeqNum wunit.panorama s wunit.creator = some wunit.seqNumber

/-- The states that `add_valid_unit` reaches from the empty one, for `n` validators, with units
that passed `validate_unit`'s checks, each run with fuel above the state's sequence numbers. -/
inductive ValidReachable [DecidableEq H] (n : Nat) : State H CV → Prop
  | empty : ValidReachable n ⟨fun _ => none, fun _ => none⟩
  | addValidUnit {S I : Type} {s s' : State H CV} (swunit : SignedWireUnit H S I CV)
      (forkChoice : Option H) (fuel : Nat) (hs : ValidReachable n s) (hfuel : s.FuelBound fuel)
      (hvalid : UnitValid n s fuel swunit.wireUnit)
      (hadd : s.addValidUnit swunit forkChoice = some s') : ValidReachable n s'

/-- **`add_valid_unit` keeps the state coherent.**  The new unit's panorama was validated
against the state it is added to, so it cites only units there, which keep their fields. -/
theorem State.Coherent.addValidUnit [DecidableEq H] {n fuel : Nat} {s s' : State H CV}
    {swunit : SignedWireUnit H S I CV} {forkChoice : Option H} (hc : s.Coherent n)
    (hfuel : s.FuelBound fuel) (hvalid : UnitValid n s fuel swunit.wireUnit)
    (hadd : s.addValidUnit swunit forkChoice = some s') : s'.Coherent n := by
  have hwf := hc.wellFormed.addValidUnit hvalid.seqNumber hadd
  rcases State.addValidUnit_units hadd with rfl | ⟨hfresh, unit, maybeValue, hnew, hunits⟩
  · exact hc
  obtain ⟨hpan, hcreator, hts, hprev⟩ := Unit.new_spec hnew
  have hext : s.Extends s' := by
    intro h u hu
    have hne : h ≠ swunit.hash := by
      rintro rfl
      rw [hfresh] at hu
      cases hu
    rw [hunits, Function.update_of_ne hne]
    exact hu
  -- a unit of `s'` is the new one or one of `s`
  have hcases : ∀ h u, s'.units h = some u → u = unit ∨ s.units h = some u := by
    intro h u hu
    rw [hunits] at hu
    by_cases hh : h = swunit.hash
    · subst hh
      rw [Function.update_self] at hu
      exact .inl (Option.some.inj hu).symm
    · rw [Function.update_of_ne hh] at hu
      exact .inr hu
  have hcited : ∀ h u u', s.units h = some u → s'.units h = some u' → u' = u :=
    fun h u u' hu hu' => Option.some.inj (hu'.symm.trans (hext h u hu))
  have hvalid' : s.PanValid unit.panorama := hpan ▸ (hc.validate_spec hfuel).mp hvalid.panorama
  refine ⟨hwf, ?_, ?_, ?_, ?_⟩
  · intro h u hu
    rcases hcases h u hu with rfl | hu
    · rw [hpan]
      exact hvalid.length
    · exact hc.length h u hu
  · intro h u hu
    rcases hcases h u hu with rfl | hu
    · rw [hprev, hpan, hcreator]
    · exact hc.previous h u hu
  · intro h u hu
    rcases hcases h u hu with rfl | hu
    · exact hvalid'.mono hext
    · exact (hc.valid h u hu).mono hext
  · intro h u hu j h' u' hj hu'
    rcases hcases h u hu with rfl | hu
    · obtain ⟨u'', hu'', -⟩ := hvalid' j h' hj
      obtain rfl := hcited h' u'' u' hu'' hu'
      rw [hts]
      exact hvalid.timestamps j h' u' (hpan ▸ hj) hu''
    · obtain ⟨u'', hu'', -⟩ := hc.valid h u hu j h' hj
      obtain rfl := hcited h' u'' u' hu'' hu'
      exact hc.timestamps h u hu j h' u' hj hu''

/-- **Every state built from validated units is coherent**, by induction on the additions. -/
theorem ValidReachable.coherent [DecidableEq H] {n : Nat} {s : State H CV}
    (hs : ValidReachable n s) : s.Coherent n := by
  induction hs with
  | empty =>
    exact ⟨.empty, fun _ _ h => (by cases h), fun _ _ h => (by cases h),
      fun _ _ h => (by cases h), fun _ _ h => (by cases h)⟩
  | addValidUnit swunit forkChoice fuel _ hfuel hvalid hadd ih =>
    exact ih.addValidUnit hfuel hvalid hadd

/-! ## Merge and cutoff on valid panoramas -/

/-- **Merge and cutoff are lattice operations on valid panoramas.**  On a state built from
validated units, with fuel above its sequence numbers, two panoramas that pass
`Panorama::validate` have a merge, the same both ways round, that `Panorama::geq` finds later
than both, that passes `validate`, and that is faulty for a validator only where one of them is
or where their two units lie on two forks of its swimlane.  The cutoff of such a panorama at any
timestamp comes before it, passes `validate`, and holds for each entry what `CutoffOf` says: the
latest unit up to the timestamp of the entry's swimlane. -/
theorem merge_cutoff_lattice [DecidableEq H] {n fuel : Nat} {s : State H CV}
    (hs : ValidReachable n s) (hfuel : s.FuelBound fuel) {p q : List (Observation H)}
    (hp : Panorama.validate s fuel p = some (.ok ()))
    (hq : Panorama.validate s fuel q = some (.ok ())) (t : Nat) :
    (∃ m, Panorama.merge s fuel p q = some m ∧ Panorama.merge s fuel q p = some m ∧
      Panorama.geq s fuel m p = some true ∧ Panorama.geq s fuel m q = some true ∧
      Panorama.validate s fuel m = some (.ok ()) ∧
      ∀ (j : Nat), m[j]? = some .faulty → p[j]? = some .faulty ∨ q[j]? = some .faulty ∨
        ∃ h₀ h₁, p[j]? = some (.correct h₀) ∧ q[j]? = some (.correct h₁) ∧
          ¬s.InSwimlane h₀ h₁ ∧ ¬s.InSwimlane h₁ h₀) ∧
    (∃ cut, Panorama.cutoff s fuel p t = some cut ∧ Panorama.geq s fuel p cut = some true ∧
      Panorama.validate s fuel cut = some (.ok ()) ∧ cut.length = p.length ∧
      ∀ (j : Nat) obs, p[j]? = some obs → ∃ obs', cut[j]? = some obs' ∧ s.CutoffOf t obs obs') := by
  have hc := hs.coherent
  have hpv := (hc.validate_spec hfuel).mp hp
  have hqv := (hc.validate_spec hfuel).mp hq
  have hmv := State.panValid_zipWith_mergeSpec hpv hqv
  obtain ⟨hmp, hmq⟩ := State.panGeq_zipWith_mergeSpec (s := s) p q
  obtain ⟨c, hcut, hall⟩ := hc.cutoff_spec hfuel hpv.entriesOk t
  have hcv := hc.panValid_cutoff hpv hall
  refine ⟨⟨_, hc.merge_eq hfuel hpv.entriesOk hqv.entriesOk, ?_,
    hc.geq_eq_true hfuel hmv.entriesOk hpv.entriesOk hmp,
    hc.geq_eq_true hfuel hmv.entriesOk hqv.entriesOk hmq, (hc.validate_spec hfuel).mpr hmv,
    fun j hj => ?_⟩, ⟨c, hcut, hc.geq_eq_true hfuel hpv.entriesOk hcv.entriesOk
      (State.panGeq_of_forall₂_cutoffOf hall), (hc.validate_spec hfuel).mpr hcv,
      hall.length_eq.symm, fun j obs hj => forall₂_getElem? hall hj⟩⟩
  · rw [hc.merge_eq hfuel hqv.entriesOk hpv.entriesOk, hc.zipWith_mergeSpec_comm hqv.entriesOk]
  · obtain ⟨obs₀, obs₁, h₀, h₁, hm⟩ := List.getElem?_zipWith_eq_some.mp hj
    rcases State.mergeSpec_eq_faulty hm with rfl | rfl | ⟨h₀', h₁', rfl, rfl, hne₀, hne₁⟩
    · exact .inl h₀
    · exact .inr (.inl h₁)
    · exact .inr (.inr ⟨h₀', h₁', h₀, h₁, hne₀, hne₁⟩)

/-- The second unit of `firstUnit`'s creator, five time units later. -/
def laterUnit : SignedWireUnit Nat Nat Nat Nat :=
  ⟨⟨11, ⟨[.correct 10], 0, 0, some 8, 1, 5, 0, []⟩⟩, 0⟩

/-- The state after adding `firstUnit`. -/
def oneUnitState : State Nat Nat where
  units := Function.update (fun _ => none) 10 (some ⟨[.none], 0, 0, 10, [], 0⟩)
  blocks := Function.update (fun _ => none) 10 (some ⟨0, 7, []⟩)

/-- The state after adding `firstUnit` and then `laterUnit`. -/
def staggeredState : State Nat Nat where
  units := Function.update oneUnitState.units 11 (some ⟨[.correct 10], 1, 0, 11, [10], 5⟩)
  blocks := Function.update oneUnitState.blocks 11 (some ⟨1, 8, [10]⟩)

/-- `oneUnitState` is built from a validated unit, its sequence numbers are below 1, and the
panorama that cites its unit is valid. -/
theorem oneUnitState_valid :
    ValidReachable 1 oneUnitState ∧ oneUnitState.FuelBound 1 ∧
      oneUnitState.PanValid [.correct 10] := by
  have hs : ValidReachable 1 oneUnitState :=
    .addValidUnit firstUnit none 1 .empty (fun _ _ h => by cases h)
      ⟨rfl, rfl, fun _ _ _ _ h => (by cases h), rfl⟩ rfl
  have hfuel : oneUnitState.FuelBound 1 := by
    intro h u hu
    simp only [oneUnitState, Function.update_apply] at hu
    split_ifs at hu
    cases hu
    decide
  exact ⟨hs, hfuel, (hs.coherent.validate_spec hfuel).mp rfl⟩

/-- `staggeredState` is built from two validated units, its sequence numbers are below 2, and
the panorama that cites the later unit is valid. -/
theorem staggeredState_valid :
    ValidReachable 1 staggeredState ∧ staggeredState.FuelBound 2 ∧
      staggeredState.PanValid [.correct 11] := by
  obtain ⟨h₁, hfuel₁, -⟩ := oneUnitState_valid
  have hvalid : UnitValid 1 oneUnitState 2 laterUnit.wireUnit := by
    refine ⟨rfl, rfl, fun _ h u _ hu => ?_, rfl⟩
    simp only [oneUnitState, Function.update_apply] at hu
    split_ifs at hu
    cases hu
    decide
  have hs : ValidReachable 1 staggeredState :=
    .addValidUnit laterUnit (some 10) 2 h₁ (fun h u hu => Nat.lt_succ_of_lt (hfuel₁ h u hu))
      hvalid rfl
  have hfuel : staggeredState.FuelBound 2 := by
    intro h u hu
    simp only [staggeredState, oneUnitState, Function.update_apply] at hu
    split_ifs at hu <;> cases hu <;> decide
  exact ⟨hs, hfuel, (hs.coherent.validate_spec hfuel).mp rfl⟩

theorem merge_cutoff_lattice_staggered :
    ValidReachable 1 staggeredState ∧ staggeredState.FuelBound 2 ∧
      Panorama.validate staggeredState 2 [.correct 11] = some (.ok ()) ∧
      Panorama.validate staggeredState 2 [.correct 10] = some (.ok ()) ∧
      (∃ m, Panorama.merge staggeredState 2 [.correct 11] [.correct 10] = some m ∧
        Panorama.merge staggeredState 2 [.correct 10] [.correct 11] = some m ∧
        Panorama.geq staggeredState 2 m [.correct 11] = some true ∧
        Panorama.geq staggeredState 2 m [.correct 10] = some true ∧
        Panorama.validate staggeredState 2 m = some (.ok ()) ∧
        ∀ (j : Nat), m[j]? = some .faulty → ([.correct 11] : List (Observation Nat))[j]? = some .faulty ∨
          ([.correct 10] : List (Observation Nat))[j]? = some .faulty ∨
          ∃ h₀ h₁, ([.correct 11] : List (Observation Nat))[j]? = some (.correct h₀) ∧
            ([.correct 10] : List (Observation Nat))[j]? = some (.correct h₁) ∧
            ¬staggeredState.InSwimlane h₀ h₁ ∧ ¬staggeredState.InSwimlane h₁ h₀) ∧
      (∃ cut, Panorama.cutoff staggeredState 2 [.correct 11] 0 = some cut ∧
        Panorama.geq staggeredState 2 [.correct 11] cut = some true ∧
        Panorama.validate staggeredState 2 cut = some (.ok ()) ∧ cut.length = 1 ∧
        ∀ (j : Nat) obs, ([.correct 11] : List (Observation Nat))[j]? = some obs →
          ∃ obs', cut[j]? = some obs' ∧ staggeredState.CutoffOf 0 obs obs') := by
  obtain ⟨hs, hfuel, -⟩ := staggeredState_valid
  have hp : Panorama.validate staggeredState 2 [.correct 11] = some (.ok ()) := rfl
  have hq : Panorama.validate staggeredState 2 [.correct 10] = some (.ok ()) := rfl
  exact ⟨hs, hfuel, hp, hq, merge_cutoff_lattice hs hfuel hp hq 0⟩

end CasperNode.Highway
