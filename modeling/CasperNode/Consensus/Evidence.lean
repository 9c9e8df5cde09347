import Mathlib

/-!
# Evidence of equivocation

A Highway validator is faulty when it signs two different units with the same sequence
number (an equivocation), or endorses two units of another validator's conflicting forks.
`Evidence` is what a node sends to prove either: `Equivocation(unit1, unit2)`, or
`Endorsements` with the two signed endorsements, the two endorsed units and the swimlane of
`unit2` back to `unit1`'s sequence number.  `Evidence::validate` checks it before
`State::add_evidence` marks the perpetrator faulty.

The node's `Context` is a parameter: its hash type, validator IDs, signatures, instance IDs
and consensus values, the hash of a wire unit and of an endorsement, and signature
verification, which is any predicate here.  A `HashedWireUnit` carries the hash it was built
with; the node only builds them with `HashedWireUnit::new`, also when deserializing.

`WireUnit::previous` indexes the unit's own panorama with its creator, which panics when the
creator is out of range.  The functions that call it return `Option`, with `none` for that
panic.

The equivocation check rejects only a pair of equal *signed* units, so one unit carried with
two different valid signatures is accepted as an equivocation
(`validate_equivocation_one_unit`), and `add_evidence` then marks its creator faulty.
-/

namespace CasperNode

/-- `Observation`: what a panorama records of one validator. -/
inductive Observation (H : Type) where
  | none
  | correct (hash : H)
  | faulty
deriving DecidableEq

/-- `Observation::correct`: the hash of a correct observation. -/
def Observation.correct? {H : Type} : Observation H → Option H
  | .correct hash => some hash
  | _ => Option.none

/-- `WireUnit`: a unit as it is sent over the wire. -/
structure WireUnit (H I CV : Type) where
  panorama : List (Observation H)
  creator : Nat
  instanceId : I
  value : Option CV
  seqNumber : Nat
  timestamp : Nat
  roundExp : Nat
  endorsed : List H
deriving DecidableEq

/-- `WireUnit::previous`: the creator's entry of the unit's own panorama, if correct.  The
outer `none` is the panic of indexing the panorama out of range. -/
def WireUnit.previous {H I CV : Type} (wu : WireUnit H I CV) : Option (Option H) :=
  wu.panorama[wu.creator]?.map Observation.correct?

/-- `Endorsement`: `creator` testifies that `unit`'s creator was seen honest. -/
structure Endorsement (H : Type) where
  unit : H
  creator : Nat
deriving DecidableEq

/-- The operations of a Highway `Context` that evidence validation uses. -/
structure Context (H V S I CV : Type) where
  /-- `WireUnit::compute_hash`. -/
  hashUnit : WireUnit H I CV → H
  /-- `Endorsement::hash`. -/
  hashEndorsement : Endorsement H → H
  /-- `Context::verify_signature`. -/
  verifySignature : H → V → S → Bool

section Types

variable (H S I CV : Type)

/-- `HashedWireUnit`: a wire unit with its hash. -/
@[ext]
structure HashedWireUnit where
  hash : H
  wireUnit : WireUnit H I CV
deriving DecidableEq

/-- `SignedWireUnit`. -/
@[ext]
structure SignedWireUnit where
  hashedWireUnit : HashedWireUnit H I CV
  signature : S
deriving DecidableEq

/-- `SignedEndorsement`. -/
structure SignedEndorsement where
  endorsement : Endorsement H
  signature : S
deriving DecidableEq

/-- `Evidence`. -/
inductive Evidence where
  | equivocation (unit1 unit2 : SignedWireUnit H S I CV)
  | endorsements (endorsement1 : SignedEndorsement H S) (unit1 : SignedWireUnit H S I CV)
      (endorsement2 : SignedEndorsement H S) (unit2 : SignedWireUnit H S I CV)
      (swimlane2 : List (SignedWireUnit H S I CV))
deriving DecidableEq

end Types

/-- `EvidenceError`. -/
inductive EvidenceError where
  | equivocationDifferentSeqNumbers
  | equivocationDifferentCreators
  | equivocationInstanceId
  | equivocationSameUnit
  | endorsementWrongHash
  | endorsementDifferentCreators
  | endorsementInvalidSwimlane
  | endorsementTooManyUnits
  | unknownPerpetrator
  | signature
deriving DecidableEq

/-- `Params`, with the one field evidence validation reads. -/
structure Params where
  endorsementEvidenceLimit : Nat

variable {H V S I CV : Type} [DecidableEq H] [DecidableEq S] [DecidableEq I] [DecidableEq CV]

/-- `HashedWireUnit::new`: hash the unit. -/
def HashedWireUnit.new (ctx : Context H V S I CV) (wu : WireUnit H I CV) :
    HashedWireUnit H I CV :=
  ⟨ctx.hashUnit wu, wu⟩

/-- `SignedWireUnit::wire_unit`. -/
def SignedWireUnit.wireUnit (u : SignedWireUnit H S I CV) : WireUnit H I CV :=
  u.hashedWireUnit.wireUnit

/-- `SignedWireUnit::hash`. -/
def SignedWireUnit.hash (u : SignedWireUnit H S I CV) : H :=
  u.hashedWireUnit.hash

/-- `Validators::id`: the ID of the validator with that index, if any. -/
def validatorId (validators : List V) (idx : Nat) : Option V :=
  validators[idx]?

/-- `Evidence::perpetrator`. -/
def Evidence.perpetrator : Evidence H S I CV → Nat
  | .equivocation unit1 _ => unit1.wireUnit.creator
  | .endorsements endorsement1 .. => endorsement1.endorsement.creator

/-- `Evidence::validate_equivocation`. -/
def validateEquivocation (ctx : Context H V S I CV) (unit1 unit2 : SignedWireUnit H S I CV)
    (instanceId : I) (validators : List V) : Except EvidenceError Unit :=
  let wunit1 := unit1.wireUnit
  let wunit2 := unit2.wireUnit
  match validatorId validators wunit1.creator with
  | none => .error .unknownPerpetrator
  | some vId =>
    if wunit1.creator ≠ wunit2.creator then .error .equivocationDifferentCreators
    else if wunit1.seqNumber ≠ wunit2.seqNumber then .error .equivocationDifferentSeqNumbers
    else if wunit1.instanceId ≠ instanceId ∨ wunit2.instanceId ≠ instanceId then
      .error .equivocationInstanceId
    else if unit1 = unit2 then .error .equivocationSameUnit
    else if !ctx.verifySignature unit1.hash vId unit1.signature ||
        !ctx.verifySignature unit2.hash vId unit2.signature then .error .signature
    else .ok ()

/-- The swimlane loop of `Evidence::validate`: each unit's `previous()` must be the hash of the
next, over consecutive pairs; `none` is the panic of `previous()`. -/
def swimlaneLinked : List (SignedWireUnit H S I CV) → Option Bool
  | unit :: pred :: rest =>
    match unit.wireUnit.previous with
    | none => none
    | some prev => if prev = some pred.hash then swimlaneLinked (pred :: rest) else some false
  | _ => some true

/-- `Evidence::validate`; `none` is a panic. -/
def Evidence.validate (ctx : Context H V S I CV) (validators : List V) (instanceId : I)
    (params : Params) : Evidence H S I CV → Option (Except EvidenceError Unit)
  | .equivocation unit1 unit2 => some (validateEquivocation ctx unit1 unit2 instanceId validators)
  | .endorsements endorsement1 unit1 endorsement2 unit2 swimlane2 =>
    if params.endorsementEvidenceLimit < swimlane2.length then
      some (.error .endorsementTooManyUnits)
    else
      match validatorId validators endorsement1.endorsement.creator with
      | none => some (.error .unknownPerpetrator)
      | some vId =>
        if endorsement1.endorsement.unit ≠ unit1.hash ∨ endorsement2.endorsement.unit ≠ unit2.hash
        then some (.error .endorsementWrongHash)
        else if endorsement1.endorsement.creator ≠ endorsement2.endorsement.creator then
          some (.error .endorsementDifferentCreators)
        else
          match swimlaneLinked (unit2 :: swimlane2) with
          | none => none
          | some false => some (.error .endorsementInvalidSwimlane)
          | some true =>
            match validateEquivocation ctx unit1 (swimlane2.getLast?.getD unit2) instanceId
                validators with
            | .error e => some (.error e)
            | .ok () =>
              if !ctx.verifySignature (ctx.hashEndorsement endorsement1.endorsement) vId
                    endorsement1.signature ||
                  !ctx.verifySignature (ctx.hashEndorsement endorsement2.endorsement) vId
                    endorsement2.signature
              then some (.error .signature)
              else some (.ok ())

/-! ## `State::add_evidence` -/

section AddEvidence

variable (H S I CV : Type)

/-- `Fault`: how a validator is known to be faulty. -/
inductive Fault where
  | banned
  | direct (evidence : Evidence H S I CV)
  | indirect

/-- Highway's `State`, with the fields `add_evidence` changes. -/
structure State where
  faults : Nat → Option (Fault H S I CV)
  panorama : List (Observation H)

end AddEvidence

/-- `TODO_ENDORSEMENT_EVIDENCE_DISABLED`. -/
def endorsementEvidenceDisabled : Bool := true

/-- Whether the evidence is `Evidence::Endorsements`. -/
def Evidence.isEndorsements : Evidence H S I CV → Bool
  | .endorsements .. => true
  | .equivocation .. => false

/-- `State::add_evidence`: mark the perpetrator faulty unless it already is, directly or by a
ban.  Its caller passes validated evidence, whose perpetrator is an index of the panorama. -/
def State.addEvidence (st : State H S I CV) (evidence : Evidence H S I CV) :
    State H S I CV × Bool :=
  if endorsementEvidenceDisabled && evidence.isEndorsements then (st, false)
  else
    let idx := evidence.perpetrator
    match st.faults idx with
    | some .banned | some (.direct _) => (st, false)
    | none | some .indirect =>
      ({ faults := Function.update st.faults idx (some (.direct evidence))
         panorama := st.panorama.set idx .faulty }, true)

omit [DecidableEq H] [DecidableEq S] [DecidableEq I] [DecidableEq CV] in
/-- Evidence of an equivocation against a validator without a direct fault or ban is added,
and its perpetrator is marked faulty. -/
theorem State.addEvidence_equivocation (st : State H S I CV) (unit1 unit2 : SignedWireUnit H S I CV)
    (hst : st.faults unit1.wireUnit.creator = none) :
    st.addEvidence (.equivocation unit1 unit2) =
      ({ faults := Function.update st.faults unit1.wireUnit.creator
            (some (.direct (.equivocation unit1 unit2)))
         panorama := st.panorama.set unit1.wireUnit.creator .faulty }, true) := by
  simp [State.addEvidence, endorsementEvidenceDisabled, Evidence.isEndorsements,
    Evidence.perpetrator, hst]

/-! ## Validation of an equivocation -/

section Equivocation

variable {ctx : Context H V S I CV} {unit1 unit2 : SignedWireUnit H S I CV} {instanceId : I}
  {validators : List V}

/-- What `validate_equivocation` accepts: two different signed units of one known creator with
one sequence number, both of this instance and both validly signed. -/
theorem validateEquivocation_eq_ok :
    validateEquivocation ctx unit1 unit2 instanceId validators = .ok () ↔
      ∃ vId, validatorId validators unit1.wireUnit.creator = some vId ∧
        unit1.wireUnit.creator = unit2.wireUnit.creator ∧
        unit1.wireUnit.seqNumber = unit2.wireUnit.seqNumber ∧
        unit1.wireUnit.instanceId = instanceId ∧ unit2.wireUnit.instanceId = instanceId ∧
        unit1 ≠ unit2 ∧ ctx.verifySignature unit1.hash vId unit1.signature = true ∧
        ctx.verifySignature unit2.hash vId unit2.signature = true := by
  unfold validateEquivocation
  cases hv : validatorId validators unit1.wireUnit.creator with
  | none => simp [hv]
  | some vId =>
    simp only [hv, Option.some.injEq, exists_eq_left']
    constructor
    · intro h
      split_ifs at h with hc hs hi hu hsig
      simp only [not_not, not_or] at hc hs hi
      have hsigned : ctx.verifySignature unit1.hash vId unit1.signature = true ∧
          ctx.verifySignature unit2.hash vId unit2.signature = true := by
        simpa using hsig
      exact ⟨hc, hs, hi.1, hi.2, hu, hsigned⟩
    · rintro ⟨hc, hs, hi1, hi2, hu, hs1, hs2⟩
      simp [hc, hs, hi1, hi2, hu, hs1, hs2]

end Equivocation

/-- One wire unit with two different valid signatures passes as an equivocation, and
`add_evidence` marks its creator faulty, although the creator signed the one unit. -/
theorem validate_equivocation_one_unit (ctx : Context H V S I CV) (validators : List V)
    (params : Params) (wu : WireUnit H I CV) (vId : V)
    (hv : validatorId validators wu.creator = some vId) (s₁ s₂ : S) (hne : s₁ ≠ s₂)
    (h₁ : ctx.verifySignature (ctx.hashUnit wu) vId s₁ = true)
    (h₂ : ctx.verifySignature (ctx.hashUnit wu) vId s₂ = true) (st : State H S I CV)
    (hst : st.faults wu.creator = none) :
    (Evidence.equivocation ⟨.new ctx wu, s₁⟩ ⟨.new ctx wu, s₂⟩).validate ctx validators
        wu.instanceId params = some (.ok ()) ∧
    (st.addEvidence (.equivocation ⟨.new ctx wu, s₁⟩ ⟨.new ctx wu, s₂⟩)).2 = true ∧
    (st.addEvidence (.equivocation ⟨.new ctx wu, s₁⟩ ⟨.new ctx wu, s₂⟩)).1.faults wu.creator =
      some (.direct (.equivocation ⟨.new ctx wu, s₁⟩ ⟨.new ctx wu, s₂⟩)) := by
  have hunits : (⟨.new ctx wu, s₁⟩ : SignedWireUnit H S I CV) ≠ ⟨.new ctx wu, s₂⟩ := by
    intro h
    exact hne (congrArg SignedWireUnit.signature h)
  have hok : validateEquivocation ctx ⟨.new ctx wu, s₁⟩ ⟨.new ctx wu, s₂⟩ wu.instanceId
      validators = .ok () :=
    validateEquivocation_eq_ok.mpr ⟨vId, hv, rfl, rfl, rfl, rfl, hunits, h₁, h₂⟩
  have hadd := st.addEvidence_equivocation ⟨.new ctx wu, s₁⟩ ⟨.new ctx wu, s₂⟩ hst
  refine ⟨by rw [Evidence.validate, hok], ?_, ?_⟩
  · rw [hadd]
  · rw [hadd]
    exact Function.update_self _ _ _

theorem validate_equivocation_one_unit_twice_signed :
    let ctx : Context Nat Nat Nat Unit Unit := ⟨fun _ => 0, fun _ => 0, fun _ _ _ => true⟩
    let wu : WireUnit Nat Unit Unit := ⟨[.none], 0, (), none, 0, 0, 0, []⟩
    validatorId [0] wu.creator = some 0 ∧ (1 : Nat) ≠ 2 ∧
      ctx.verifySignature (ctx.hashUnit wu) 0 1 = true ∧
      ctx.verifySignature (ctx.hashUnit wu) 0 2 = true ∧
      (⟨fun _ => none, [.none]⟩ : State Nat Nat Unit Unit).faults wu.creator = none ∧
      (Evidence.equivocation ⟨.new ctx wu, 1⟩ ⟨.new ctx wu, 2⟩).validate ctx [0]
        wu.instanceId ⟨1⟩ = some (.ok ()) :=
  ⟨rfl, by decide, rfl, rfl, rfl,
    (validate_equivocation_one_unit ⟨fun _ => 0, fun _ => 0, fun _ _ _ => true⟩ [0] ⟨1⟩
      ⟨[.none], 0, (), none, 0, 0, 0, []⟩ 0 rfl 1 2 (by decide) rfl rfl
      ⟨fun _ => none, [.none]⟩ rfl).1⟩

/-! ## Validation of conflicting endorsements -/

/-- Endorsement evidence panics in the swimlane check when `unit2`'s creator is not an index of
`unit2`'s own panorama and the swimlane is not empty: `previous()` indexes out of range.  The
checks before it do not look at the panorama, and the endorsements' signatures are checked
only after it. -/
theorem validate_endorsements_panics (ctx : Context H V S I CV) (validators : List V)
    (instanceId : I) (params : Params) (endorsement1 endorsement2 : SignedEndorsement H S)
    (unit1 unit2 pred : SignedWireUnit H S I CV) (rest : List (SignedWireUnit H S I CV)) (vId : V)
    (hlim : rest.length + 1 ≤ params.endorsementEvidenceLimit)
    (hv : validatorId validators endorsement1.endorsement.creator = some vId)
    (hh₁ : endorsement1.endorsement.unit = unit1.hash)
    (hh₂ : endorsement2.endorsement.unit = unit2.hash)
    (hc : endorsement1.endorsement.creator = endorsement2.endorsement.creator)
    (hshort : unit2.wireUnit.panorama.length ≤ unit2.wireUnit.creator) :
    (Evidence.endorsements endorsement1 unit1 endorsement2 unit2 (pred :: rest)).validate ctx
      validators instanceId params = none := by
  have hprev : unit2.wireUnit.previous = none := by
    simp [WireUnit.previous, List.getElem?_eq_none hshort]
  have hlinked : swimlaneLinked (unit2 :: pred :: rest) = none := by
    simp [swimlaneLinked, hprev]
  have hv₂ : validatorId validators endorsement2.endorsement.creator = some vId := hc ▸ hv
  simp [Evidence.validate, Nat.not_lt.mpr hlim, hv₂, hh₁, hh₂, hc, hlinked]

theorem validate_endorsements_panics_empty_panorama :
    let ctx : Context Nat Nat Nat Unit Unit := ⟨fun _ => 0, fun _ => 0, fun _ _ _ => false⟩
    let unit : SignedWireUnit Nat Nat Unit Unit := ⟨.new ctx ⟨[], 0, (), none, 0, 0, 0, []⟩, 0⟩
    ([] : List (SignedWireUnit Nat Nat Unit Unit)).length + 1 ≤
      (⟨2⟩ : Params).endorsementEvidenceLimit ∧
      validatorId [7] (⟨⟨0, 0⟩, 0⟩ : SignedEndorsement Nat Nat).endorsement.creator = some 7 ∧
      (Evidence.endorsements ⟨⟨0, 0⟩, 0⟩ unit ⟨⟨0, 0⟩, 0⟩ unit [unit]).validate ctx [7] ()
        ⟨2⟩ = none :=
  ⟨by decide, rfl, validate_endorsements_panics ⟨fun _ => 0, fun _ => 0, fun _ _ _ => false⟩
    [7] () ⟨2⟩ ⟨⟨0, 0⟩, 0⟩ ⟨⟨0, 0⟩, 0⟩ _ _ _ [] 7 (by decide) rfl rfl rfl rfl (by decide)⟩
end CasperNode
