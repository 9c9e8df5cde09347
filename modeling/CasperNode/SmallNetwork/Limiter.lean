import Mathlib

/-!
# The class-based network limiter

`small_network::limiter` slows down the peers that are neither active nor upcoming validators
(bulk peers).  They share one balance of resources, `ResourceData`, behind a mutex.  A bulk
call waits in a loop while the balance is negative: each pass refills it for the time since
the last refill, capped at two seconds' worth (`max_stored_resource`), and sleeps off what is
still missing.  The call then subtracts its amount, which may leave the balance negative for
the next caller.

The refill is lazy: a pass happens only while the balance is negative, so `last_refill` does
not move while the balance is non-negative, and the next pass credits that whole stretch of
time, on top of what is still buffered.  The model takes the clock as data: a call carries the
readings of `Instant::now()` its passes take and the instant it returns, and a run is the
sequence of calls that the mutex serialises.

* `Bounded.run`: the balance stays between minus the largest amount and
  `max_stored_resource`, so the loop's `i64` and `u64` arithmetic cannot overflow.
* `Budget.run_granted_le`: the calls returning within an interval `[s, e]` are granted at most
  `rps · (e - s) + 2 · max_stored_resource + 2 · (largest amount)`, and a burst of four calls
  at one instant reaches this.
-/

namespace CasperNode.SmallNetwork

/-! ## Peer classes -/

/-- `ValidatorSets`: the validators of the current era and those of future eras. -/
structure ValidatorSets (PK : Type) where
  activeValidators : Finset PK
  upcomingValidators : Finset PK

/-- `PeerClass`. -/
inductive PeerClass
  | activeValidator
  | upcomingValidator
  | bulk
  deriving DecidableEq, Repr

variable {PK : Type} [DecidableEq PK]

/-- The classification at the top of `request_allowance`.  `none` when both sets are empty:
the limiter has likely not been initialised, and it does not limit at all. -/
def ValidatorSets.peerClass (sets : ValidatorSets PK) (validatorId : Option PK) :
    Option PeerClass :=
  if sets.activeValidators = ∅ ∧ sets.upcomingValidators = ∅ then none
  else
    match validatorId with
    | some v =>
      if v ∈ sets.activeValidators then some .activeValidator
      else if v ∈ sets.upcomingValidators then some .upcomingValidator
      else some .bulk
    | none => some .bulk

/-- A handle without a validator id is a bulk peer once some validator is known. -/
theorem ValidatorSets.peerClass_none {sets : ValidatorSets PK}
    (h : sets.activeValidators.Nonempty ∨ sets.upcomingValidators.Nonempty) :
    sets.peerClass none = some .bulk := by
  have hne : ¬(sets.activeValidators = ∅ ∧ sets.upcomingValidators = ∅) := by
    rintro ⟨ha, hu⟩
    rcases h with h | h
    · exact h.ne_empty ha
    · exact h.ne_empty hu
  simp [peerClass, hne]

/-! ## The shared balance -/

/-- `STORED_BUFFER_SECS`. -/
def storedBufferSecs : ℕ := 2

/-- `max_stored_resource`, `(resources_per_second as f64 * STORED_BUFFER_SECS.as_secs_f64())
as u32`: the product is exact in `f64`, and the cast saturates at `u32::MAX`. -/
def maxStoredResource (resourcesPerSecond : ℕ) : ℕ :=
  min (resourcesPerSecond * storedBufferSecs) (2 ^ 32 - 1)

/-- `ResourceData`: the buffered balance, negative in a deficit, and the instant of the last
refill in nanoseconds. -/
structure ResourceData where
  available : ℤ
  lastRefill : ℕ
  deriving DecidableEq, Repr

namespace ResourceData

/-- The resources of `ClassBasedLimiterData::new`: nothing buffered, refilled now. -/
def new (now : ℕ) : ResourceData := ⟨0, now⟩

/-- One pass of the loop up to its sleep: credit `elapsed * resources_per_second / 10^9` for
the time since the last refill (`Instant` subtraction saturates at zero), then cap the balance
at `max_stored_resource`. -/
def refill (resourcesPerSecond now : ℕ) (resources : ResourceData) : ResourceData where
  available :=
    min (resources.available + ((now - resources.lastRefill) * resourcesPerSecond / 1000000000 : ℕ))
      (maxStoredResource resourcesPerSecond)
  lastRefill := now

/-- `estimated_time_remaining` in milliseconds, `(-available) as u64 * 1000 /
resources_per_second`: the sleep after a pass that leaves a deficit. -/
def estimatedTimeRemaining (resourcesPerSecond : ℕ) (resources : ResourceData) : ℕ :=
  (-resources.available).toNat * 1000 / resourcesPerSecond

/-- The `while resources.available < 0` loop.  `clock` holds the readings of `Instant::now()`
that its passes take, the sleeps in between being the environment's; `none` when the readings
run out while the balance is still negative, that is, while the call still waits. -/
def refillLoop (resourcesPerSecond : ℕ) : List ℕ → ResourceData → Option ResourceData
  | [], resources => if resources.available < 0 then none else some resources
  | now :: clock, resources =>
    if resources.available < 0 then
      refillLoop resourcesPerSecond clock (resources.refill resourcesPerSecond now)
    else some resources

/-- `resources.available -= amount as i64`. -/
def consume (amount : ℕ) (resources : ResourceData) : ResourceData :=
  { resources with available := resources.available - amount }

variable {rps now a : ℕ} {r r' : ResourceData}

@[simp] theorem refill_lastRefill : (r.refill rps now).lastRefill = now := rfl

@[simp] theorem consume_available : (r.consume a).available = r.available - a := rfl

@[simp] theorem consume_lastRefill : (r.consume a).lastRefill = r.lastRefill := rfl

theorem refill_available_le_max : (r.refill rps now).available ≤ maxStoredResource rps :=
  min_le_right _ _

theorem refill_available_le_credit :
    (r.refill rps now).available ≤
      r.available + ((now - r.lastRefill) * rps / 1000000000 : ℕ) :=
  min_le_left _ _

/-- A pass never lowers a balance that is within the cap. -/
theorem le_refill_available (h : r.available ≤ maxStoredResource rps) :
    r.available ≤ (r.refill rps now).available :=
  le_min (le_add_of_nonneg_right (Int.natCast_nonneg _)) h

/-- A pass that credits at least the gap up to the cap fills the balance to the cap. -/
theorem refill_eq_max
    (h : (maxStoredResource rps : ℤ) ≤ r.available + ((now - r.lastRefill) * rps / 1000000000 : ℕ)) :
    r.refill rps now = ⟨maxStoredResource rps, now⟩ := by
  simp only [refill, min_eq_right h]

theorem refillLoop_of_nonneg (h : 0 ≤ r.available) (clock : List ℕ) :
    r.refillLoop rps clock = some r := by
  have hn : ¬r.available < 0 := not_lt.mpr h
  cases clock with
  | nil => simp [refillLoop, hn]
  | cons now clock => simp [refillLoop, hn]

theorem refillLoop_cons_of_neg (h : r.available < 0) (clock : List ℕ) :
    r.refillLoop rps (now :: clock) = (r.refill rps now).refillLoop rps clock := by
  simp [refillLoop, h]

/-- The loop's invariant rule.  `P clock r` speaks of the resources and of the readings still
to come; if every pass keeps it, it holds when the loop exits, for the readings left then, and
the balance is then non-negative. -/
theorem refillLoop_rule (P : List ℕ → ResourceData → Prop)
    (hpass : ∀ now clock r, r.available < 0 → P (now :: clock) r → P clock (r.refill rps now)) :
    ∀ {clock r r'}, P clock r → r.refillLoop rps clock = some r' →
      ∃ rest, P rest r' ∧ 0 ≤ r'.available := by
  intro clock
  induction clock with
  | nil =>
    intro r r' hP h
    by_cases hneg : r.available < 0
    · simp [refillLoop, hneg] at h
    · simp only [refillLoop, hneg, if_false, Option.some.injEq] at h
      subst h
      exact ⟨[], hP, not_lt.mp hneg⟩
  | cons now clock ih =>
    intro r r' hP h
    by_cases hneg : r.available < 0
    · rw [refillLoop_cons_of_neg hneg] at h
      exact ih (hpass now clock r hneg hP) h
    · rw [refillLoop_of_nonneg (not_lt.mp hneg), Option.some.injEq] at h
      subst h
      exact ⟨now :: clock, hP, not_lt.mp hneg⟩

end ResourceData

/-! ## The limiter and its runs -/

/-- `ClassBasedLimiter` with its `ClassBasedLimiterData`. -/
structure ClassBasedLimiter (PK : Type) where
  resourcesPerSecond : ℕ
  validatorSets : ValidatorSets PK
  resources : ResourceData

/-- `ClassBasedLimiter::new`: no validators known yet, and fresh resources. -/
def ClassBasedLimiter.new (resourcesPerSecond now : ℕ) : ClassBasedLimiter PK :=
  ⟨resourcesPerSecond, ⟨∅, ∅⟩, ResourceData.new now⟩

/-- `Limiter::update_validators`. -/
def ClassBasedLimiter.updateValidators (limiter : ClassBasedLimiter PK)
    (activeValidators upcomingValidators : Finset PK) : ClassBasedLimiter PK :=
  { limiter with validatorSets := ⟨activeValidators, upcomingValidators⟩ }

/-- `ClassBasedHandle::request_allowance` for a handle of `validatorId`.  Validators and an
uninitialised limiter return at once; a bulk call runs the loop and consumes its amount. -/
def ClassBasedLimiter.requestAllowance (limiter : ClassBasedLimiter PK)
    (validatorId : Option PK) (amount : ℕ) (clock : List ℕ) : Option (ClassBasedLimiter PK) :=
  match limiter.validatorSets.peerClass validatorId with
  | some .bulk =>
    (limiter.resources.refillLoop limiter.resourcesPerSecond clock).map fun resources =>
      { limiter with resources := resources.consume amount }
  | _ => some limiter

/-- One `request_allowance` call as the resources mutex serialises them: the handle's validator
id, the amount, the clock readings of the loop's passes and the instant the call returns. -/
structure Request (PK : Type) where
  validatorId : Option PK
  amount : ℕ
  clock : List ℕ
  returnsAt : ℕ

/-- The calls of a run one after the other; `none` while one of them still waits. -/
def ClassBasedLimiter.run : ClassBasedLimiter PK → List (Request PK) → Option (ClassBasedLimiter PK)
  | limiter, [] => some limiter
  | limiter, q :: qs =>
    (limiter.requestAllowance q.validatorId q.amount q.clock).bind fun limiter => limiter.run qs

/-- The instants of a run never go back from `since` on: each call's readings, then its return. -/
def InTime : ℕ → List (Request PK) → Prop
  | _, [] => True
  | since, q :: qs => (since :: q.clock ++ [q.returnsAt]).IsChain (· ≤ ·) ∧ InTime q.returnsAt qs

instance InTime.decidable : ∀ (since : ℕ) (requests : List (Request PK)),
    Decidable (InTime since requests)
  | _, [] => isTrue trivial
  | _, q :: qs =>
    haveI := InTime.decidable q.returnsAt qs
    inferInstanceAs (Decidable (_ ∧ _))

/-- A bulk call returning within `[s, e]`. -/
def ValidatorSets.Counts (sets : ValidatorSets PK) (s e : ℕ) (q : Request PK) : Prop :=
  sets.peerClass q.validatorId = some .bulk ∧ s ≤ q.returnsAt ∧ q.returnsAt ≤ e

instance (sets : ValidatorSets PK) (s e : ℕ) (q : Request PK) : Decidable (sets.Counts s e q) :=
  inferInstanceAs (Decidable (_ ∧ _))

/-- The total amount granted to the bulk calls of a run that return within `[s, e]`. -/
def ValidatorSets.grantedWithin (sets : ValidatorSets PK) (s e : ℕ) (requests : List (Request PK)) :
    ℕ :=
  ((requests.filter fun q => sets.Counts s e q).map Request.amount).sum

namespace ClassBasedLimiter

variable {limiter limiter₁ limiter' : ClassBasedLimiter PK} {validatorId : Option PK}
  {amount : ℕ} {clock : List ℕ}

theorem requestAllowance_of_ne_bulk (h : limiter.validatorSets.peerClass validatorId ≠ some .bulk) :
    limiter.requestAllowance validatorId amount clock = some limiter := by
  unfold requestAllowance
  split
  · contradiction
  · rfl

theorem requestAllowance_of_bulk (h : limiter.validatorSets.peerClass validatorId = some .bulk) :
    limiter.requestAllowance validatorId amount clock =
      (limiter.resources.refillLoop limiter.resourcesPerSecond clock).map fun resources =>
        { limiter with resources := resources.consume amount } := by
  simp [requestAllowance, h]

/-- What one call does: it keeps the rate and the validator sets, and either leaves the
resources alone (a validator, or no validator known) or runs the loop and consumes its
amount. -/
theorem requestAllowance_eq_some (h : limiter.requestAllowance validatorId amount clock = some limiter₁) :
    limiter₁.resourcesPerSecond = limiter.resourcesPerSecond ∧
      limiter₁.validatorSets = limiter.validatorSets ∧
      (limiter.validatorSets.peerClass validatorId ≠ some .bulk ∧ limiter₁.resources = limiter.resources ∨
        limiter.validatorSets.peerClass validatorId = some .bulk ∧
          ∃ r, limiter.resources.refillLoop limiter.resourcesPerSecond clock = some r ∧
            limiter₁.resources = r.consume amount) := by
  by_cases hb : limiter.validatorSets.peerClass validatorId = some .bulk
  · rw [requestAllowance_of_bulk hb, Option.map_eq_some_iff] at h
    obtain ⟨r, hr, rfl⟩ := h
    exact ⟨rfl, rfl, .inr ⟨hb, r, hr, rfl⟩⟩
  · rw [requestAllowance_of_ne_bulk hb, Option.some.injEq] at h
    subst h
    exact ⟨rfl, rfl, .inl ⟨hb, rfl⟩⟩

theorem run_cons_eq_some {q : Request PK} {qs : List (Request PK)} :
    limiter.run (q :: qs) = some limiter' ↔
      ∃ limiter₁, limiter.requestAllowance q.validatorId q.amount q.clock = some limiter₁ ∧
        limiter₁.run qs = some limiter' := by
  simp [run, Option.bind_eq_some_iff]

end ClassBasedLimiter

theorem ValidatorSets.grantedWithin_cons (sets : ValidatorSets PK) (s e : ℕ) (q : Request PK)
    (qs : List (Request PK)) :
    sets.grantedWithin s e (q :: qs) =
      (if sets.Counts s e q then q.amount else 0) + sets.grantedWithin s e qs := by
  by_cases h : sets.Counts s e q <;> simp [grantedWithin, h]

/-- Once the run is past `e`, nothing more is granted within `[s, e]`. -/
theorem ValidatorSets.grantedWithin_eq_zero (sets : ValidatorSets PK) {s e : ℕ} :
    ∀ {since : ℕ} {requests : List (Request PK)}, e < since → InTime since requests →
      sets.grantedWithin s e requests = 0
  | _, [], _, _ => rfl
  | since, q :: qs, hlt, ⟨hchain, htime⟩ => by
    have hret : since ≤ q.returnsAt := List.rel_of_pairwise_cons hchain.pairwise (by simp)
    have hq : ¬sets.Counts s e q := fun h => by have := h.2.2; omega
    rw [grantedWithin_cons, if_neg hq, grantedWithin_eq_zero sets (by omega) htime]

/-! ## Bounds on the balance -/

section Bounds

variable (rps A : ℕ)

/-- The balance lies between minus the largest amount `A` and `max_stored_resource`. -/
def Bounded (r : ResourceData) : Prop :=
  -(A : ℤ) ≤ r.available ∧ r.available ≤ maxStoredResource rps

instance (r : ResourceData) : Decidable (Bounded rps A r) :=
  inferInstanceAs (Decidable (_ ∧ _))

variable {rps A} {r : ResourceData} {a now : ℕ}

theorem Bounded.refill (h : Bounded rps A r) : Bounded rps A (r.refill rps now) :=
  ⟨h.1.trans (ResourceData.le_refill_available h.2), ResourceData.refill_available_le_max⟩

theorem Bounded.consume (h : Bounded rps A r) (hnn : 0 ≤ r.available) (ha : a ≤ A) :
    Bounded rps A (r.consume a) := by
  obtain ⟨_, hmax⟩ := h
  constructor <;> simp only [ResourceData.consume_available] <;> omega

/-- A call keeps the balance within its bounds. -/
theorem Bounded.requestAllowance {limiter limiter₁ : ClassBasedLimiter PK} {validatorId : Option PK}
    {clock : List ℕ} (h : Bounded limiter.resourcesPerSecond A limiter.resources) (ha : a ≤ A)
    (hreq : limiter.requestAllowance validatorId a clock = some limiter₁) :
    Bounded limiter₁.resourcesPerSecond A limiter₁.resources := by
  obtain ⟨hrate, -, ⟨-, hres⟩ | ⟨-, r, hr, hres⟩⟩ := ClassBasedLimiter.requestAllowance_eq_some hreq
  · rwa [hrate, hres]
  · obtain ⟨-, hb, hnn⟩ := ResourceData.refillLoop_rule (fun _ r => Bounded limiter.resourcesPerSecond A r)
      (fun _ _ _ _ hb => hb.refill) h hr
    rw [hrate, hres]
    exact hb.consume hnn ha

/-- Over a whole run the balance stays between minus the largest amount and
`max_stored_resource`. -/
theorem Bounded.run {limiter limiter' : ClassBasedLimiter PK} :
    ∀ {requests : List (Request PK)}, Bounded limiter.resourcesPerSecond A limiter.resources →
      (∀ q ∈ requests, q.amount ≤ A) → limiter.run requests = some limiter' →
      Bounded limiter'.resourcesPerSecond A limiter'.resources
  | [], h, _, hrun => by
    rw [ClassBasedLimiter.run, Option.some.injEq] at hrun
    exact hrun ▸ h
  | q :: qs, h, ha, hrun => by
    obtain ⟨limiter₁, hreq, hrest⟩ := ClassBasedLimiter.run_cons_eq_some.mp hrun
    exact Bounded.run (h.requestAllowance (ha q (by simp)) hreq)
      (fun q' hq' => ha q' (by simp [hq'])) hrest

/-- Within the bounds, with amounts that fit a `u32`, the balance fits an `i64` and the sleep
`(-available) as u64 * 1000` fits a `u64`. -/
theorem Bounded.no_overflow (h : Bounded rps A r) (hA : A < 2 ^ 32) :
    -2 ^ 63 ≤ r.available ∧ r.available < 2 ^ 63 ∧ (-r.available).toNat * 1000 < 2 ^ 64 := by
  obtain ⟨hlo, hhi⟩ := h
  have hmax : (maxStoredResource rps : ℤ) < 2 ^ 32 := by
    have : maxStoredResource rps ≤ 2 ^ 32 - 1 := min_le_right _ _
    omega
  refine ⟨by omega, by omega, ?_⟩
  have : (-r.available).toNat ≤ A := by omega
  omega

end Bounds

/-! ## The rate over an interval -/

section Budget

variable (rps A s e : ℕ)

/-- What the accounting for an interval starting at `s` may draw on beyond the buffer: nothing
while the last refill is before `s`; from the first refill at or after `s` on, what that pass
can lift the balance by (a full buffer and the largest amount), and the time since `s`. -/
def credit (r : ResourceData) : ℕ :=
  if s ≤ r.lastRefill then
    maxStoredResource rps + A + (r.lastRefill - s) * rps / 1000000000
  else 0

/-- The accounting: within its bounds, the balance plus what has been granted within the
interval is at most `max_stored_resource` plus `credit`. -/
def Accounted (granted : ℕ) (r : ResourceData) : Prop :=
  Bounded rps A r ∧ (granted : ℤ) + r.available ≤ maxStoredResource rps + credit rps A s r

variable {rps A s e} {r : ResourceData} {granted a now : ℕ}

/-- A pass keeps the accounting, provided it comes at or after `s` once something has been
granted within the interval. -/
theorem Accounted.refill (h : Accounted rps A s granted r) (hle : r.lastRefill ≤ now) (hs : 0 < granted → s ≤ now) :
    Accounted rps A s granted (r.refill rps now) := by
  obtain ⟨hb, hbal⟩ := h
  refine ⟨hb.refill, ?_⟩
  have hmax : (r.refill rps now).available ≤ maxStoredResource rps :=
    ResourceData.refill_available_le_max
  rcases Nat.eq_zero_or_pos granted with hg | hg
  · subst hg
    have : (0 : ℤ) ≤ credit rps A s (r.refill rps now) := Int.natCast_nonneg _
    omega
  have hcred : credit rps A s (r.refill rps now) =
      maxStoredResource rps + A + (now - s) * rps / 1000000000 := by
    simp [credit, hs hg]
  have hstep : (r.refill rps now).available ≤
      r.available + ((now - r.lastRefill) * rps / 1000000000 : ℕ) :=
    ResourceData.refill_available_le_credit
  rw [hcred]
  by_cases hl : s ≤ r.lastRefill
  · -- the pass credits the time since the last refill, which `credit` counts from `s` already
    have hsplit : (r.lastRefill - s) * rps / 1000000000 + (now - r.lastRefill) * rps / 1000000000 ≤
        (now - s) * rps / 1000000000 := by
      calc _ ≤ ((r.lastRefill - s) * rps + (now - r.lastRefill) * rps) / 1000000000 :=
            Nat.div_add_div_le_add_div
        _ = (now - s) * rps / 1000000000 := by
            rw [← Nat.add_mul]
            congr 2
            omega
    simp only [credit, if_pos hl] at hbal
    push_cast at hbal hstep ⊢
    omega
  · -- the first pass at or after `s` lifts the balance from at least `-A` to at most the cap
    simp only [credit, if_neg hl] at hbal
    have hlo := hb.1
    push_cast at hbal ⊢
    omega

theorem Accounted.consume (h : Accounted rps A s granted r) (hnn : 0 ≤ r.available) (ha : a ≤ A)
    {granted' : ℕ} (hg : granted' ≤ granted + a) : Accounted rps A s granted' (r.consume a) := by
  obtain ⟨hb, hbal⟩ := h
  refine ⟨hb.consume hnn ha, ?_⟩
  have hcred : credit rps A s (r.consume a) = credit rps A s r := rfl
  rw [hcred, ResourceData.consume_available]
  omega

/-- What has been granted within the interval is at most the bound, as long as the last refill
is no later than `e`. -/
theorem Accounted.granted_le (h : Accounted rps A s granted r)
    (hle : 0 < granted → r.lastRefill ≤ e) :
    granted ≤ 2 * maxStoredResource rps + 2 * A + (e - s) * rps / 1000000000 := by
  rcases Nat.eq_zero_or_pos granted with hg | hg
  · omega
  obtain ⟨⟨hlo, -⟩, hbal⟩ := h
  have hcred : credit rps A s r ≤ maxStoredResource rps + A + (e - s) * rps / 1000000000 := by
    unfold credit
    split
    · have : (r.lastRefill - s) * rps / 1000000000 ≤ (e - s) * rps / 1000000000 :=
        Nat.div_le_div_right (Nat.mul_le_mul_right _ (Nat.sub_le_sub_right (hle hg) _))
      omega
    · omega
  omega

variable (rps A s e) in
/-- The invariant of a run for the interval `[s, e]`: `granted` is what the calls returning
within it have been granted so far, and `since` the instant the last call returned. -/
structure Budget (granted since : ℕ) (r : ResourceData) : Prop where
  accounted : Accounted rps A s granted r
  lastRefill_le : r.lastRefill ≤ since
  within : 0 < granted → s ≤ since ∧ since ≤ e

/-- One call returning by `e` keeps the invariant, adding its amount when it counts. -/
theorem Budget.requestAllowance {limiter limiter₁ : ClassBasedLimiter PK} {q : Request PK}
    {since : ℕ} (h : Budget limiter.resourcesPerSecond A s e granted since limiter.resources)
    (hchain : (since :: q.clock ++ [q.returnsAt]).IsChain (· ≤ ·)) (hret : q.returnsAt ≤ e)
    (ha : q.amount ≤ A)
    (hreq : limiter.requestAllowance q.validatorId q.amount q.clock = some limiter₁) :
    Budget limiter.resourcesPerSecond A s e
      (granted + if limiter.validatorSets.Counts s e q then q.amount else 0) q.returnsAt
      limiter₁.resources := by
  have hsince : since ≤ q.returnsAt := List.rel_of_pairwise_cons hchain.pairwise (by simp)
  obtain ⟨-, -, ⟨hnb, hres⟩ | ⟨hb, r₁, hr, hres⟩⟩ :=
    ClassBasedLimiter.requestAllowance_eq_some hreq
  · have hq : ¬limiter.validatorSets.Counts s e q := fun hc => hnb hc.1
    rw [if_neg hq, Nat.add_zero, hres]
    exact ⟨h.accounted, h.lastRefill_le.trans hsince,
      fun hg => ⟨(h.within hg).1.trans hsince, hret⟩⟩
  -- the loop: passes at readings from `since` on, in order, keep the accounting
  let P : List ℕ → ResourceData → Prop := fun clock r =>
    Accounted limiter.resourcesPerSecond A s granted r ∧
      (r.lastRefill :: clock ++ [q.returnsAt]).IsChain (· ≤ ·) ∧ ∀ t ∈ clock, since ≤ t
  have hpass : ∀ now clock r, r.available < 0 → P (now :: clock) r →
      P clock (r.refill limiter.resourcesPerSecond now) := by
    rintro now clock r - ⟨hacc, hch, hlo⟩
    simp only [List.cons_append, List.isChain_cons_cons] at hch
    exact ⟨hacc.refill hch.1 (fun hg => (h.within hg).1.trans (hlo now (by simp))), hch.2,
      fun t ht => hlo t (by simp [ht])⟩
  have hP : P q.clock limiter.resources :=
    ⟨h.accounted, hchain.imp_head (fun hz => h.lastRefill_le.trans hz),
      fun t ht => List.rel_of_pairwise_cons hchain.pairwise (by simp [ht])⟩
  obtain ⟨rest, ⟨hacc, hch, -⟩, hnn⟩ := ResourceData.refillLoop_rule P hpass hP hr
  have hlast : r₁.lastRefill ≤ q.returnsAt := List.rel_of_pairwise_cons hch.pairwise (by simp)
  rw [hres]
  by_cases hs : s ≤ q.returnsAt
  · rw [if_pos ⟨hb, hs, hret⟩]
    exact ⟨hacc.consume hnn ha le_rfl, hlast, fun _ => ⟨hs, hret⟩⟩
  · -- a call returning before `s` comes before anything counted
    have hq : ¬limiter.validatorSets.Counts s e q := fun hc => hs hc.2.1
    have hg : granted = 0 := by
      by_contra hne
      have := (h.within (Nat.pos_of_ne_zero hne)).1
      omega
    rw [if_neg hq, Nat.add_zero]
    exact ⟨hacc.consume hnn ha (by omega), hlast, fun hpos => absurd hg (Nat.pos_iff_ne_zero.mp hpos)⟩

/-- Over a run, what was granted before plus what the calls returning within `[s, e]` are
granted stays within the bound. -/
theorem Budget.run_granted_le :
    ∀ {requests : List (Request PK)} {limiter limiter' : ClassBasedLimiter PK} {granted since : ℕ},
      Budget limiter.resourcesPerSecond A s e granted since limiter.resources →
      InTime since requests → (∀ q ∈ requests, q.amount ≤ A) → limiter.run requests = some limiter' →
      granted + limiter.validatorSets.grantedWithin s e requests ≤
        2 * maxStoredResource limiter.resourcesPerSecond + 2 * A +
          (e - s) * limiter.resourcesPerSecond / 1000000000
  | [], _, _, _, _, h, _, _, _ => by
    simp only [ValidatorSets.grantedWithin, List.filter_nil, List.map_nil, List.sum_nil,
      Nat.add_zero]
    exact h.accounted.granted_le fun hg => h.lastRefill_le.trans (h.within hg).2
  | q :: qs, limiter, limiter', granted, since, h, ⟨hchain, htime⟩, ha, hrun => by
    obtain ⟨limiter₁, hreq, hrest⟩ := ClassBasedLimiter.run_cons_eq_some.mp hrun
    obtain ⟨hrate, hsets, -⟩ := ClassBasedLimiter.requestAllowance_eq_some hreq
    rw [ValidatorSets.grantedWithin_cons]
    by_cases hret : q.returnsAt ≤ e
    · have h₁ := h.requestAllowance hchain hret (ha q (by simp)) hreq
      rw [← hrate] at h₁
      have := Budget.run_granted_le h₁ htime (fun q' hq' => ha q' (by simp [hq'])) hrest
      rw [hrate, hsets] at this
      omega
    · -- past `e`, nothing more counts
      have hq : ¬limiter.validatorSets.Counts s e q := fun hc => hret hc.2.2
      rw [if_neg hq, limiter.validatorSets.grantedWithin_eq_zero (by omega) htime]
      exact h.accounted.granted_le fun hg => h.lastRefill_le.trans (h.within hg).2

end Budget

/-- The rate the limiter enforces: from a balance within its bounds, on any run whose instants
never go back, the bulk calls returning within `[s, e]` (nanoseconds) are granted at most
`rps · (e - s) / 10^9`, plus twice `max_stored_resource`, plus twice the largest amount. -/
theorem ClassBasedLimiter.grantedWithin_le_rate {limiter limiter' : ClassBasedLimiter PK}
    {requests : List (Request PK)} {A : ℕ} (s e : ℕ)
    (hbounded : Bounded limiter.resourcesPerSecond A limiter.resources)
    (htime : InTime limiter.resources.lastRefill requests)
    (hamount : ∀ q ∈ requests, q.amount ≤ A) (hrun : limiter.run requests = some limiter') :
    limiter.validatorSets.grantedWithin s e requests ≤
      (e - s) * limiter.resourcesPerSecond / 1000000000 +
        2 * maxStoredResource limiter.resourcesPerSecond + 2 * A := by
  have h₀ : Budget limiter.resourcesPerSecond A s e 0 limiter.resources.lastRefill
      limiter.resources := by
    refine ⟨⟨hbounded, ?_⟩, le_rfl, fun h => absurd h (lt_irrefl 0)⟩
    have := hbounded.2
    push_cast
    omega
  have := Budget.run_granted_le h₀ htime hamount hrun
  omega

/-- Six bulk calls: at `T₁` one of `M` on credit and one of nothing whose pass refills, then at
`T₂` four of `M`, the third of which refills. -/
def burst (M T₁ T₂ : ℕ) : List (Request PK) :=
  [⟨none, M, [], T₁⟩, ⟨none, 0, [T₁], T₁⟩, ⟨none, M, [], T₂⟩, ⟨none, M, [], T₂⟩,
    ⟨none, M, [T₂], T₂⟩, ⟨none, M, [], T₂⟩]

/-- The bound at a burst, one resource per second: the four calls at the second instant are
granted eight, the bound's four plus four. -/
theorem grantedWithin_le_rate_burst :
    ((ClassBasedLimiter.new 1 0 : ClassBasedLimiter ℕ).updateValidators {0} ∅).validatorSets.grantedWithin
      8000000000 8000000000 (burst 2 4000000000 8000000000) ≤
      (8000000000 - 8000000000) * 1 / 1000000000 + 2 * maxStoredResource 1 + 2 * 2 := by
  obtain ⟨limiter', hrun⟩ := Option.isSome_iff_exists.mp
    (show (((ClassBasedLimiter.new 1 0 : ClassBasedLimiter ℕ).updateValidators {0} ∅).run
      (burst 2 4000000000 8000000000)).isSome by decide)
  exact ClassBasedLimiter.grantedWithin_le_rate _ _ (by decide) (by decide) (by decide) hrun

/-- The burst the bound allows.  Four seconds after the limiter starts, a call takes
`max_stored_resource` on credit; the next call's pass credits the four seconds and fills the
balance to the cap, and, asking for nothing, leaves it there.  Four seconds later, with
`last_refill` not moved since, two calls spend the buffered balance and overdraw it; the next
pass credits the four seconds again, and two more calls do the same.  The four calls returning
at that one instant are granted four times `max_stored_resource`, more than
`rps · 0 + ⌊2 rps⌋` plus the largest amount. -/
theorem ClassBasedLimiter.burst_exceeds_claimed_rate (rps t₀ T₁ T₂ : ℕ) (hrps : 0 < rps)
    (hu32 : rps < 2 ^ 32) (h₁ : t₀ + 4000000000 ≤ T₁) (h₂ : T₁ + 4000000000 ≤ T₂)
    (active upcoming : Finset PK) (hsets : active.Nonempty ∨ upcoming.Nonempty) :
    InTime t₀ (burst (maxStoredResource rps) T₁ T₂ : List (Request PK)) ∧
      (∀ q ∈ (burst (maxStoredResource rps) T₁ T₂ : List (Request PK)),
        q.amount ≤ maxStoredResource rps ∧ q.clock.length ≤ 1) ∧
      (((ClassBasedLimiter.new rps t₀ : ClassBasedLimiter PK).updateValidators active upcoming).run
        (burst (maxStoredResource rps) T₁ T₂)).isSome ∧
      ValidatorSets.grantedWithin ⟨active, upcoming⟩ T₂ T₂ (burst (maxStoredResource rps) T₁ T₂) =
        4 * maxStoredResource rps ∧
      (T₂ - T₂) * rps / 1000000000 + 2 * rps + maxStoredResource rps < 4 * maxStoredResource rps := by
  set M := maxStoredResource rps with hMdef
  have hbulk : ValidatorSets.peerClass ⟨active, upcoming⟩ none = some .bulk :=
    ValidatorSets.peerClass_none hsets
  have hM : rps ≤ M ∧ M ≤ 2 * rps := by
    simp only [hMdef, maxStoredResource, storedBufferSecs]
    omega
  -- four seconds credit twice the cap
  have hcredit : ∀ t t', t + 4000000000 ≤ t' → 2 * M ≤ (t' - t) * rps / 1000000000 := by
    intro t t' h
    rw [Nat.le_div_iff_mul_le (by norm_num)]
    calc 2 * M * 1000000000 ≤ 4000000000 * rps := by omega
      _ ≤ (t' - t) * rps := Nat.mul_le_mul_right _ (by omega)
  have hfill₁ : (⟨-M, t₀⟩ : ResourceData).refill rps T₁ = ⟨M, T₁⟩ := by
    have := hcredit t₀ T₁ h₁
    exact ResourceData.refill_eq_max (by simp only; omega)
  have hfill₂ : (⟨-M, T₁⟩ : ResourceData).refill rps T₂ = ⟨M, T₂⟩ := by
    have := hcredit T₁ T₂ h₂
    exact ResourceData.refill_eq_max (by simp only; omega)
  refine ⟨?_, ?_, ?_, ?_, ?_⟩
  · simp only [burst, InTime, List.nil_append, List.cons_append, List.isChain_cons_cons,
      List.isChain_singleton, and_true, true_and, le_refl]
    constructor <;> omega
  · simp [burst]
  · -- the run, call by call
    have hpos : 0 < M := by omega
    have hreq : ∀ (r : ResourceData) (a : ℕ) (clock : List ℕ),
        (⟨rps, ⟨active, upcoming⟩, r⟩ : ClassBasedLimiter PK).requestAllowance none a clock =
          (r.refillLoop rps clock).map fun r' => ⟨rps, ⟨active, upcoming⟩, r'.consume a⟩ :=
      fun _ _ _ => ClassBasedLimiter.requestAllowance_of_bulk hbulk
    simp [burst, ClassBasedLimiter.run, hreq, ClassBasedLimiter.updateValidators,
      ClassBasedLimiter.new, ResourceData.new, ResourceData.refillLoop_of_nonneg,
      ResourceData.refillLoop_cons_of_neg, hpos, hfill₁, hfill₂, ResourceData.consume]
  · have hlt : ¬T₂ ≤ T₁ := by omega
    simp [ValidatorSets.grantedWithin, ValidatorSets.Counts, burst, hbulk, hlt]
    omega
  · simp only [Nat.sub_self, Nat.zero_mul, Nat.zero_div, Nat.zero_add]
    omega

theorem burst_exceeds_claimed_rate_one :
    InTime 0 (burst (maxStoredResource 1) 4000000000 8000000000 : List (Request ℕ)) ∧
      (∀ q ∈ (burst (maxStoredResource 1) 4000000000 8000000000 : List (Request ℕ)),
        q.amount ≤ maxStoredResource 1 ∧ q.clock.length ≤ 1) ∧
      (((ClassBasedLimiter.new 1 0 : ClassBasedLimiter ℕ).updateValidators {0} ∅).run
        (burst (maxStoredResource 1) 4000000000 8000000000)).isSome ∧
      ValidatorSets.grantedWithin ⟨{0}, ∅⟩ 8000000000 8000000000
        (burst (maxStoredResource 1) 4000000000 8000000000) = 4 * maxStoredResource 1 ∧
      (8000000000 - 8000000000) * 1 / 1000000000 + 2 * 1 + maxStoredResource 1 <
        4 * maxStoredResource 1 :=
  ClassBasedLimiter.burst_exceeds_claimed_rate 1 0 4000000000 8000000000 (by decide) (by decide)
    (by decide) (by decide) {0} ∅ (.inl ⟨0, by simp⟩)

end CasperNode.SmallNetwork
