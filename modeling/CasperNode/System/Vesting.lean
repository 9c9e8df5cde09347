import CasperNode.Library.WordBits

/-!
# Vesting schedules

A genesis validator's bid, and a genesis delegator's stake, are locked until the schedule's
initial release timestamp.  At the first era end past it, `run_auction` initializes the
schedule from the stake at that time: the stake is released in equal weekly parts over the
vesting period, and `locked_amounts` lists what stays locked in each week, ending with zero.
`decrease_stake` refuses to go below the amount locked at the era's end, and before the
schedule is initialized it refuses outright.

Initialized over `w ≥ 1` weeks, the amount locked `t` milliseconds after the release is that of
week `t / WEEK_MILLIS`, `s - (i + 1) * (s / (w + 1))` for week `i < w` and zero from week `w`
on (`lockedAmount_initializeWithSchedule`): nothing before the release, never more than the
stake, never more later than earlier, and nothing after `w` weeks
(`initializeWithSchedule_releases`).  `is_vesting` computes the end of vesting with saturating
`u64` arithmetic, so it is exact only while the end fits a `u64`; past that, at `u64::MAX`, it
reports a schedule that still locks a positive amount as not vesting (`isVesting_saturates`).
-/

namespace CasperNode

/-- `DAY_MILLIS`. -/
def dayMillis : Nat := 24 * 60 * 60 * 1000

/-- `DAYS_IN_WEEK`. -/
def daysInWeek : Nat := 7

/-- `WEEK_MILLIS`. -/
def weekMillis : Nat := daysInWeek * dayMillis

/-- `VESTING_SCHEDULE_LENGTH_MILLIS`: 91 days. -/
def vestingScheduleLengthMillis : Nat := 91 * dayMillis

/-- `VestingSchedule`. -/
structure VestingSchedule where
  initialReleaseTimestampMillis : Nat
  lockedAmounts : Option (List Nat)

/-- `vesting_schedule_period_to_weeks`. -/
def vestingSchedulePeriodToWeeks (vestingSchedulePeriodMillis : Nat) : Nat :=
  vestingSchedulePeriodMillis / dayMillis / daysInWeek

/-- The loop of `initialize_with_schedule`: `count` times, the weekly release is taken from
what remains locked, and what remains is recorded. -/
def lockedAmountsLoop (weeklyRelease : Nat) : Nat → Nat → List Nat
  | _, 0 => []
  | remainingLocked, count + 1 =>
    (remainingLocked - weeklyRelease) ::
      lockedAmountsLoop weeklyRelease (remainingLocked - weeklyRelease) count

namespace VestingSchedule

/-- `VestingSchedule::new`. -/
def new (initialReleaseTimestampMillis : Nat) : VestingSchedule :=
  ⟨initialReleaseTimestampMillis, none⟩

/-- `VestingSchedule::initialize_with_schedule`: the schedule and whether it was initialized
now. -/
def initializeWithSchedule (vestingSchedule : VestingSchedule)
    (stakedAmount vestingSchedulePeriodMillis : Nat) : VestingSchedule × Bool :=
  if vestingSchedule.lockedAmounts.isSome then (vestingSchedule, false)
  else
    let lockedAmountsLength := vestingSchedulePeriodToWeeks vestingSchedulePeriodMillis
    if lockedAmountsLength = 0 ∨ vestingSchedulePeriodMillis = 0 then
      ({ vestingSchedule with lockedAmounts := some [0] }, true)
    else
      let weeklyRelease := stakedAmount / (lockedAmountsLength + 1)
      ({ vestingSchedule with
          lockedAmounts :=
            some (lockedAmountsLoop weeklyRelease stakedAmount lockedAmountsLength ++ [0]) },
        true)

/-- `VestingSchedule::locked_amount`: `none` before the schedule is initialized or before the
initial release; past the listed weeks nothing is locked. -/
def lockedAmount (vestingSchedule : VestingSchedule) (timestampMillis : Nat) : Option Nat :=
  match vestingSchedule.lockedAmounts with
  | none => none
  | some lockedAmounts =>
    if timestampMillis < vestingSchedule.initialReleaseTimestampMillis then none
    else
      some (lockedAmounts.getD
        ((timestampMillis - vestingSchedule.initialReleaseTimestampMillis) / weekMillis) 0)

/-- `VestingSchedule::is_vesting`: the end of vesting is computed with saturating `u64`
arithmetic. -/
def isVesting (vestingSchedule : VestingSchedule)
    (timestampMillis vestingSchedulePeriodMillis : Nat) : Bool :=
  let vestedPeriod :=
    match vestingSchedule.lockedAmounts with
    | some lockedAmounts =>
      let vestingWeeks := lockedAmounts.length - 1
      let vestingWeeksMillis := WordBits.saturatingMul 64 vestingWeeks weekMillis
      WordBits.saturatingAdd 64 vestingSchedule.initialReleaseTimestampMillis vestingWeeksMillis
    | none =>
      WordBits.saturatingAdd 64 vestingSchedule.initialReleaseTimestampMillis
        vestingSchedulePeriodMillis
  decide (timestampMillis < vestedPeriod)

end VestingSchedule

/-! ## The release schedule -/

/-- What a schedule initialized from `stakedAmount` over `weeks` weeks locks in week `i` after
the release: the stake less `i + 1` weekly releases, and nothing from week `weeks` on. -/
def lockedInWeek (stakedAmount weeks i : Nat) : Nat :=
  if i < weeks then stakedAmount - (i + 1) * (stakedAmount / (weeks + 1)) else 0

/-- The releases before week `weeks` never exceed the stake, so the `U512` subtractions of
`initialize_with_schedule` never underflow. -/
theorem releases_le_stakedAmount (stakedAmount : Nat) {weeks i : Nat} (hi : i < weeks) :
    (i + 1) * (stakedAmount / (weeks + 1)) ≤ stakedAmount :=
  calc (i + 1) * (stakedAmount / (weeks + 1))
      ≤ (weeks + 1) * (stakedAmount / (weeks + 1)) := Nat.mul_le_mul_right _ (by omega)
    _ ≤ stakedAmount := Nat.mul_div_le stakedAmount (weeks + 1)

theorem lockedInWeek_le (stakedAmount weeks i : Nat) :
    lockedInWeek stakedAmount weeks i ≤ stakedAmount := by
  unfold lockedInWeek
  split_ifs <;> omega

/-- A later week never locks more. -/
theorem lockedInWeek_antitone (stakedAmount weeks : Nat) {i j : Nat} (hij : i ≤ j) :
    lockedInWeek stakedAmount weeks j ≤ lockedInWeek stakedAmount weeks i := by
  unfold lockedInWeek
  split_ifs with hj hi
  · exact Nat.sub_le_sub_left (Nat.mul_le_mul_right _ (by omega)) _
  · omega
  · exact Nat.zero_le _
  · exact le_refl _

theorem lockedInWeek_of_le (stakedAmount : Nat) {weeks i : Nat} (hi : weeks ≤ i) :
    lockedInWeek stakedAmount weeks i = 0 := by
  unfold lockedInWeek
  rw [if_neg (by omega)]

/-- Before its last week a schedule over `weeks` weeks still locks a weekly release. -/
theorem releases_le_lockedInWeek (stakedAmount : Nat) {weeks i : Nat} (hi : i < weeks) :
    stakedAmount / (weeks + 1) ≤ lockedInWeek stakedAmount weeks i := by
  unfold lockedInWeek
  rw [if_pos hi]
  have hall := Nat.mul_div_le stakedAmount (weeks + 1)
  have hmul : (i + 1) * (stakedAmount / (weeks + 1)) + stakedAmount / (weeks + 1) ≤
      (weeks + 1) * (stakedAmount / (weeks + 1)) := by
    rw [← Nat.succ_mul]
    exact Nat.mul_le_mul_right _ (by omega)
  omega

/-- The amounts the loop records, followed by the final zero, are the weeks' locked amounts. -/
theorem getD_lockedAmountsLoop_append (weeklyRelease : Nat) :
    ∀ (remainingLocked count i : Nat),
      (lockedAmountsLoop weeklyRelease remainingLocked count ++ [0]).getD i 0 =
        if i < count then remainingLocked - (i + 1) * weeklyRelease else 0
  | _, 0, i => by cases i <;> simp [lockedAmountsLoop]
  | remainingLocked, count + 1, 0 => by simp [lockedAmountsLoop]
  | remainingLocked, count + 1, i + 1 => by
    rw [lockedAmountsLoop, List.cons_append, List.getD_cons_succ,
      getD_lockedAmountsLoop_append weeklyRelease (remainingLocked - weeklyRelease) count i]
    -- one more release was taken before the rest of the loop
    have hsub : remainingLocked - weeklyRelease - (i + 1) * weeklyRelease =
        remainingLocked - (i + 1 + 1) * weeklyRelease := by
      rw [Nat.sub_sub, Nat.succ_mul (i + 1), Nat.add_comm weeklyRelease]
    simp only [hsub, Nat.add_lt_add_iff_right]

theorem length_lockedAmountsLoop (weeklyRelease : Nat) :
    ∀ remainingLocked count, (lockedAmountsLoop weeklyRelease remainingLocked count).length = count
  | _, 0 => rfl
  | remainingLocked, count + 1 => by
    rw [lockedAmountsLoop, List.length_cons, length_lockedAmountsLoop]

namespace VestingSchedule

/-- Initialized over at least one week, a schedule's locked amounts are its weekly amounts
followed by zero. -/
theorem initializeWithSchedule_lockedAmounts {vestingSchedule : VestingSchedule}
    (hnone : vestingSchedule.lockedAmounts = none) (stakedAmount : Nat)
    {vestingSchedulePeriodMillis : Nat}
    (hweeks : 1 ≤ vestingSchedulePeriodToWeeks vestingSchedulePeriodMillis) :
    (vestingSchedule.initializeWithSchedule stakedAmount vestingSchedulePeriodMillis).1 =
      { vestingSchedule with
        lockedAmounts := some (lockedAmountsLoop
          (stakedAmount / (vestingSchedulePeriodToWeeks vestingSchedulePeriodMillis + 1))
          stakedAmount (vestingSchedulePeriodToWeeks vestingSchedulePeriodMillis) ++ [0]) } := by
  have hperiod : vestingSchedulePeriodMillis ≠ 0 := by
    rintro rfl
    simp [vestingSchedulePeriodToWeeks] at hweeks
  unfold initializeWithSchedule
  rw [hnone, if_neg (by simp), if_neg (by omega)]

/-- The amount locked at a time after an initialization over at least one week. -/
theorem lockedAmount_initializeWithSchedule {vestingSchedule : VestingSchedule}
    (hnone : vestingSchedule.lockedAmounts = none) (stakedAmount : Nat)
    {vestingSchedulePeriodMillis : Nat}
    (hweeks : 1 ≤ vestingSchedulePeriodToWeeks vestingSchedulePeriodMillis) (t : Nat) :
    (vestingSchedule.initializeWithSchedule stakedAmount vestingSchedulePeriodMillis).1.lockedAmount
        t =
      if t < vestingSchedule.initialReleaseTimestampMillis then none
      else some (lockedInWeek stakedAmount (vestingSchedulePeriodToWeeks vestingSchedulePeriodMillis)
        ((t - vestingSchedule.initialReleaseTimestampMillis) / weekMillis)) := by
  rw [initializeWithSchedule_lockedAmounts hnone stakedAmount hweeks, lockedAmount]
  dsimp only
  rw [getD_lockedAmountsLoop_append]
  rfl

/-- Initialized over at least one week, `is_vesting` computes the end of vesting as the release
plus the weeks, saturated at `u64::MAX`. -/
theorem isVesting_initializeWithSchedule {vestingSchedule : VestingSchedule}
    (hnone : vestingSchedule.lockedAmounts = none) (stakedAmount : Nat)
    {vestingSchedulePeriodMillis : Nat}
    (hweeks : 1 ≤ vestingSchedulePeriodToWeeks vestingSchedulePeriodMillis) (t : Nat) :
    (vestingSchedule.initializeWithSchedule stakedAmount vestingSchedulePeriodMillis).1.isVesting
        t vestingSchedulePeriodMillis =
      decide (t < min (vestingSchedule.initialReleaseTimestampMillis +
        min (vestingSchedulePeriodToWeeks vestingSchedulePeriodMillis * weekMillis) (2 ^ 64 - 1))
          (2 ^ 64 - 1)) := by
  rw [initializeWithSchedule_lockedAmounts hnone stakedAmount hweeks, isVesting]
  simp only [List.length_append, length_lockedAmountsLoop, List.length_singleton,
    Nat.add_sub_cancel, WordBits.saturatingMul, WordBits.saturatingAdd]

theorem weekMillis_pos : 0 < weekMillis := by decide

/-- Initialized from a stake over at least one week, a schedule locks nothing before the release,
never more than the stake, never more later than earlier, and nothing after the weeks; and while
the end of vesting fits a `u64`, `is_vesting` holds exactly before it. -/
theorem initializeWithSchedule_releases (stakedAmount vestingSchedulePeriodMillis r : Nat)
    (hweeks : 1 ≤ vestingSchedulePeriodToWeeks vestingSchedulePeriodMillis) :
    let vestingSchedule := ((new r).initializeWithSchedule stakedAmount vestingSchedulePeriodMillis).1
    (∀ t < r, vestingSchedule.lockedAmount t = none) ∧
      (∀ t₁ t₂, r ≤ t₁ → t₁ ≤ t₂ → ∃ a₁ a₂, vestingSchedule.lockedAmount t₁ = some a₁ ∧
        vestingSchedule.lockedAmount t₂ = some a₂ ∧ a₂ ≤ a₁) ∧
      (∀ t a, vestingSchedule.lockedAmount t = some a → a ≤ stakedAmount) ∧
      (∀ t, r + vestingSchedulePeriodToWeeks vestingSchedulePeriodMillis * weekMillis ≤ t →
        vestingSchedule.lockedAmount t = some 0) ∧
      (r + vestingSchedulePeriodToWeeks vestingSchedulePeriodMillis * weekMillis < 2 ^ 64 →
        ∀ t, vestingSchedule.isVesting t vestingSchedulePeriodMillis = true ↔
          t < r + vestingSchedulePeriodToWeeks vestingSchedulePeriodMillis * weekMillis) := by
  intro vestingSchedule
  have hlocked : ∀ t, vestingSchedule.lockedAmount t = if t < r then none
      else some (lockedInWeek stakedAmount (vestingSchedulePeriodToWeeks vestingSchedulePeriodMillis)
        ((t - r) / weekMillis)) :=
    lockedAmount_initializeWithSchedule rfl stakedAmount hweeks
  refine ⟨?_, ?_, ?_, ?_, ?_⟩
  · intro t ht
    rw [hlocked, if_pos ht]
  · intro t₁ t₂ h₁ h₂
    rw [hlocked, hlocked, if_neg (by omega), if_neg (by omega)]
    exact ⟨_, _, rfl, rfl, lockedInWeek_antitone _ _ (Nat.div_le_div_right (by omega))⟩
  · intro t a ht
    rw [hlocked] at ht
    split_ifs at ht
    cases ht
    exact lockedInWeek_le _ _ _
  · -- from week `weeks` on nothing is locked
    intro t ht
    have hweek : vestingSchedulePeriodToWeeks vestingSchedulePeriodMillis ≤ (t - r) / weekMillis :=
      (Nat.le_div_iff_mul_le weekMillis_pos).mpr (by omega)
    rw [hlocked, if_neg (by omega), lockedInWeek_of_le _ hweek]
  · -- without saturation the end of vesting is the release plus the weeks
    intro hfit t
    have hvesting : vestingSchedule.isVesting t vestingSchedulePeriodMillis =
        decide (t < min (r + min (vestingSchedulePeriodToWeeks vestingSchedulePeriodMillis *
          weekMillis) (2 ^ 64 - 1)) (2 ^ 64 - 1)) :=
      isVesting_initializeWithSchedule rfl stakedAmount hweeks t
    rw [hvesting, decide_eq_true_iff, Nat.min_eq_left (by omega), Nat.min_eq_left (by omega)]

/-- A stake of three released at zero over two weeks. -/
theorem initializeWithSchedule_releases_twoWeeks :
    1 ≤ vestingSchedulePeriodToWeeks (2 * weekMillis) ∧
      let vestingSchedule := ((new 0).initializeWithSchedule 3 (2 * weekMillis)).1
      (∀ t < 0, vestingSchedule.lockedAmount t = none) ∧
        (∀ t₁ t₂, 0 ≤ t₁ → t₁ ≤ t₂ → ∃ a₁ a₂, vestingSchedule.lockedAmount t₁ = some a₁ ∧
          vestingSchedule.lockedAmount t₂ = some a₂ ∧ a₂ ≤ a₁) ∧
        (∀ t a, vestingSchedule.lockedAmount t = some a → a ≤ 3) ∧
        (∀ t, 0 + vestingSchedulePeriodToWeeks (2 * weekMillis) * weekMillis ≤ t →
          vestingSchedule.lockedAmount t = some 0) ∧
        (0 + vestingSchedulePeriodToWeeks (2 * weekMillis) * weekMillis < 2 ^ 64 →
          ∀ t, vestingSchedule.isVesting t (2 * weekMillis) = true ↔
            t < 0 + vestingSchedulePeriodToWeeks (2 * weekMillis) * weekMillis) :=
  ⟨by decide, initializeWithSchedule_releases 3 (2 * weekMillis) 0 (by decide)⟩

/-- Once the end of vesting passes `u64::MAX`, `is_vesting` at `u64::MAX` is false, although
the schedule still locks at least a weekly release then. -/
theorem isVesting_saturates {stakedAmount vestingSchedulePeriodMillis r : Nat} (hr : r < 2 ^ 64)
    (hweeks : 1 ≤ vestingSchedulePeriodToWeeks vestingSchedulePeriodMillis)
    (hstake : vestingSchedulePeriodToWeeks vestingSchedulePeriodMillis + 1 ≤ stakedAmount)
    (hend : 2 ^ 64 ≤ r + vestingSchedulePeriodToWeeks vestingSchedulePeriodMillis * weekMillis) :
    ((new r).initializeWithSchedule stakedAmount vestingSchedulePeriodMillis).1.isVesting
        (2 ^ 64 - 1) vestingSchedulePeriodMillis = false ∧
      ∃ locked, ((new r).initializeWithSchedule stakedAmount
        vestingSchedulePeriodMillis).1.lockedAmount (2 ^ 64 - 1) = some locked ∧ 0 < locked := by
  constructor
  · rw [isVesting_initializeWithSchedule rfl stakedAmount hweeks, decide_eq_false_iff_not]
    exact Nat.not_lt.mpr (Nat.min_le_right _ _)
  · -- `u64::MAX` falls in a week before the last
    have hweek : (2 ^ 64 - 1 - r) / weekMillis <
        vestingSchedulePeriodToWeeks vestingSchedulePeriodMillis :=
      (Nat.div_lt_iff_lt_mul weekMillis_pos).mpr (by omega)
    have hrelease :
        0 < stakedAmount / (vestingSchedulePeriodToWeeks vestingSchedulePeriodMillis + 1) :=
      Nat.div_pos hstake (by omega)
    rw [lockedAmount_initializeWithSchedule rfl stakedAmount hweeks,
      if_neg (by dsimp only [new]; omega)]
    exact ⟨_, rfl, lt_of_lt_of_le hrelease (releases_le_lockedInWeek stakedAmount hweek)⟩

/-- A stake of two released at `u64::MAX` over one week: vesting would end past `u64::MAX`,
one is still locked at `u64::MAX`, and `is_vesting` is false there. -/
theorem isVesting_saturates_maxRelease :
    2 ^ 64 ≤ 2 ^ 64 - 1 + vestingSchedulePeriodToWeeks weekMillis * weekMillis ∧
      ((new (2 ^ 64 - 1)).initializeWithSchedule 2 weekMillis).1.isVesting (2 ^ 64 - 1)
        weekMillis = false ∧
      ∃ locked, ((new (2 ^ 64 - 1)).initializeWithSchedule 2 weekMillis).1.lockedAmount
        (2 ^ 64 - 1) = some locked ∧ 0 < locked := by
  have hend : 2 ^ 64 ≤ 2 ^ 64 - 1 + vestingSchedulePeriodToWeeks weekMillis * weekMillis := by
    decide
  exact ⟨hend, isVesting_saturates (by decide) (by decide) (by decide) hend⟩

end VestingSchedule

end CasperNode
