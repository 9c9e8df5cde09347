import CasperNode.System.Auction

/-!
# Staking: withdrawals, delegations and unbonding

The entry points that move stake between bids and the unbonding queue.  `withdraw_bid` lowers
a validator's stake and queues the amount; at zero it queues every delegator's stake too and
empties the bid.  `delegate` moves tokens from the delegator's main purse into its bonding
purse under the validator's bid.  `undelegate` and `redelegate` queue part of a delegation,
the latter to be delegated to another validator when it is paid.  `run_auction` first pays
every queued amount whose unbonding delay has passed (`process_unbond_requests`): back to the
unbonder's main purse, or into a delegation to the new validator.  It then processes the
vesting schedules of the bids it read before paying, deactivates the evicted validators, and
writes all of those bids back if any of them changed.

Each entry point returns the state it leaves, or the error it fails with; a failed call
leaves the global state as it was, since the node discards the effects of a failed
execution.  The purses `create_purse` makes are arguments (`newPurse`, `newPurses`), new in
the state that a call starts from.  The era and its end timestamp are arguments too: the era
bookkeeping of `run_auction` (its winners and the seigniorage recipients snapshot) is not
modelled.
-/

namespace CasperNode

variable {K P : Type} [LinearOrder K]

/-! ## Stakes -/

/-- What `Bid::decrease_stake` and `Delegator::decrease_stake` compute: the stake less
`amount`, or `tooLarge` for an amount above the stake, or `fundsLocked` where the vesting
schedule still locks more than would remain, or is not initialized yet. -/
def decreasedStake (stakedAmount : Nat) (vestingSchedule : Option VestingSchedule)
    (amount eraEndTimestampMillis : Nat) (tooLarge fundsLocked : AuctionError) :
    Except AuctionError Nat :=
  if stakedAmount < amount then .error tooLarge
  else
    let updatedStakedAmount := stakedAmount - amount
    match vestingSchedule with
    | none => .ok updatedStakedAmount
    | some vestingSchedule =>
      match vestingSchedule.lockedAmount eraEndTimestampMillis with
      | some lockedAmount =>
        if updatedStakedAmount < lockedAmount then .error fundsLocked
        else .ok updatedStakedAmount
      | none => .error fundsLocked

/-- `Bid::decrease_stake`. -/
def Bid.decreaseStake (bid : Bid K P) (amount eraEndTimestampMillis : Nat) :
    Except AuctionError (Bid K P) :=
  (decreasedStake bid.stakedAmount bid.vestingSchedule amount eraEndTimestampMillis
    .unbondTooLarge .validatorFundsLocked).map fun updated => { bid with stakedAmount := updated }

/-- `Delegator::decrease_stake`. -/
def Delegator.decreaseStake (delegator : Delegator P) (amount eraEndTimestampMillis : Nat) :
    Except AuctionError (Delegator P) :=
  (decreasedStake delegator.stakedAmount delegator.vestingSchedule amount eraEndTimestampMillis
    .invalidAmount .delegatorFundsLocked).map fun updated =>
      { delegator with stakedAmount := updated }

/-- `Delegator::increase_stake`. -/
def Delegator.increaseStake (delegator : Delegator P) (amount : Nat) :
    Except AuctionError (Delegator P) :=
  match u512CheckedAdd delegator.stakedAmount amount with
  | none => .error .invalidAmount
  | some updatedStakedAmount => .ok { delegator with stakedAmount := updatedStakedAmount }

theorem decreasedStake_eq_ok {stakedAmount : Nat} {vestingSchedule : Option VestingSchedule}
    {amount eraEndTimestampMillis updated : Nat} {tooLarge fundsLocked : AuctionError}
    (h : decreasedStake stakedAmount vestingSchedule amount eraEndTimestampMillis tooLarge
      fundsLocked = .ok updated) :
    amount ≤ stakedAmount ∧ updated = stakedAmount - amount := by
  unfold decreasedStake at h
  split_ifs at h with hlt
  cases vestingSchedule with
  | none =>
    cases h
    exact ⟨Nat.not_lt.mp hlt, rfl⟩
  | some vestingSchedule =>
    simp only at h
    split at h
    · split_ifs at h
      cases h
      exact ⟨Nat.not_lt.mp hlt, rfl⟩
    · cases h

theorem Bid.decreaseStake_eq_ok {bid bid' : Bid K P} {amount eraEndTimestampMillis : Nat}
    (h : bid.decreaseStake amount eraEndTimestampMillis = .ok bid') :
    amount ≤ bid.stakedAmount ∧ bid' = { bid with stakedAmount := bid.stakedAmount - amount } := by
  unfold Bid.decreaseStake at h
  cases hd : decreasedStake bid.stakedAmount bid.vestingSchedule amount eraEndTimestampMillis
      .unbondTooLarge .validatorFundsLocked with
  | error e => simp [hd, Except.map] at h
  | ok updated =>
    simp only [hd, Except.map, Except.ok.injEq] at h
    obtain ⟨hle, rfl⟩ := decreasedStake_eq_ok hd
    exact ⟨hle, h.symm⟩

theorem Delegator.decreaseStake_eq_ok {delegator delegator' : Delegator P}
    {amount eraEndTimestampMillis : Nat}
    (h : delegator.decreaseStake amount eraEndTimestampMillis = .ok delegator') :
    amount ≤ delegator.stakedAmount ∧
      delegator' = { delegator with stakedAmount := delegator.stakedAmount - amount } := by
  unfold Delegator.decreaseStake at h
  cases hd : decreasedStake delegator.stakedAmount delegator.vestingSchedule amount
      eraEndTimestampMillis .invalidAmount .delegatorFundsLocked with
  | error e => simp [hd, Except.map] at h
  | ok updated =>
    simp only [hd, Except.map, Except.ok.injEq] at h
    obtain ⟨hle, rfl⟩ := decreasedStake_eq_ok hd
    exact ⟨hle, h.symm⟩

theorem Delegator.increaseStake_eq_ok {delegator delegator' : Delegator P} {amount : Nat}
    (h : delegator.increaseStake amount = .ok delegator') :
    delegator.stakedAmount + amount < u512Limit ∧
      delegator' = { delegator with stakedAmount := delegator.stakedAmount + amount } := by
  unfold Delegator.increaseStake at h
  cases hadd : u512CheckedAdd delegator.stakedAmount amount with
  | none => simp [hadd] at h
  | some updated =>
    simp only [hadd, Except.ok.injEq] at h
    obtain ⟨hlt, rfl⟩ := u512CheckedAdd_eq_some.mp hadd
    exact ⟨hlt, h.symm⟩

/-! ## Vesting at the era's end -/

/-- The delegator part of `Bid::process_with_vesting_schedule`: a delegator's schedule is
initialized once the timestamp reaches its initial release. -/
def Delegator.processWithVestingSchedule (delegator : Delegator P)
    (timestampMillis vestingSchedulePeriodMillis : Nat) : Delegator P × Bool :=
  match delegator.vestingSchedule with
  | none => (delegator, false)
  | some vestingSchedule =>
    if vestingSchedule.initialReleaseTimestampMillis ≤ timestampMillis then
      let (vestingSchedule, initialized) :=
        vestingSchedule.initializeWithSchedule delegator.stakedAmount vestingSchedulePeriodMillis
      ({ delegator with vestingSchedule := some vestingSchedule }, initialized)
    else (delegator, false)

/-- `Bid::process_with_vesting_schedule`: the bid with its schedules processed, and whether
one of them was initialized. -/
def Bid.processWithVestingSchedule (bid : Bid K P)
    (timestampMillis vestingSchedulePeriodMillis : Nat) : Bid K P × Bool :=
  match bid.vestingSchedule with
  | none => (bid, false)
  | some vestingSchedule =>
    if timestampMillis < vestingSchedule.initialReleaseTimestampMillis then (bid, false)
    else
      let (vestingSchedule, initialized) :=
        vestingSchedule.initializeWithSchedule bid.stakedAmount vestingSchedulePeriodMillis
      let delegators := bid.delegators.mapVal fun delegator =>
        (delegator.processWithVestingSchedule timestampMillis vestingSchedulePeriodMillis).1
      let delegatorInitialized := bid.delegators.entries.any fun e =>
        (e.2.processWithVestingSchedule timestampMillis vestingSchedulePeriodMillis).2
      ({ bid with vestingSchedule := some vestingSchedule, delegators := delegators },
        initialized || delegatorInitialized)

/-- The loop of `run_auction` over the bids it read: each bid's vesting schedules are processed
and an evicted validator's bid is deactivated.  The flag says whether a bid changed. -/
def processBids (eraEndTimestampMillis vestingSchedulePeriodMillis : Nat)
    (evictedValidators : List K) :
    List (K × Bid K P) → Bool → List (K × Bid K P) × Bool
  | [], bidsModified => ([], bidsModified)
  | (validatorPublicKey, bid) :: rest, bidsModified =>
    let (bid, initialized) :=
      bid.processWithVestingSchedule eraEndTimestampMillis vestingSchedulePeriodMillis
    let bidsModified := bidsModified || initialized
    -- `bids_modified = bid.deactivate()`, and `deactivate` returns `true`
    let (bid, bidsModified) :=
      if evictedValidators.contains validatorPublicKey then ({ bid with inactive := true }, true)
      else (bid, bidsModified)
    let (rest, bidsModified) :=
      processBids eraEndTimestampMillis vestingSchedulePeriodMillis evictedValidators rest
        bidsModified
    ((validatorPublicKey, bid) :: rest, bidsModified)

namespace AuctionState

/-! ## The unbonding queue -/

/-- `create_unbonding_purse`: queue `amount` from `bondingPurse` under the validator's key,
if the purse holds that much. -/
def createUnbondingPurse (s : AuctionState K P) (validatorPublicKey unbonderPublicKey : K)
    (bondingPurse : P) (amount : Nat) (newValidator : Option K) (eraId : Nat) :
    Except AuctionError (AuctionState K P) :=
  if (s.balances bondingPurse).getD 0 < amount then .error .unbondTooLarge
  else
    .ok (s.writeUnbond validatorPublicKey (s.readUnbond validatorPublicKey ++
      [⟨bondingPurse, validatorPublicKey, unbonderPublicKey, eraId, amount, newValidator⟩]))

/-- The loop of `withdraw_bid` that queues the whole stake of every delegator. -/
def unbondDelegators (s : AuctionState K P) (validatorPublicKey : K) (eraId : Nat) :
    List (K × Delegator P) → Except AuctionError (AuctionState K P)
  | [] => .ok s
  | (delegatorPublicKey, delegator) :: rest =>
    match s.createUnbondingPurse validatorPublicKey delegatorPublicKey delegator.bondingPurse
        delegator.stakedAmount none eraId with
    | .error e => .error e
    | .ok s => s.unbondDelegators validatorPublicKey eraId rest

/-- `Auction::withdraw_bid` by the validator `publicKey`: the state and the stake left. -/
def withdrawBid (s : AuctionState K P) (publicKey : K) (amount eraId eraEndTimestampMillis : Nat) :
    Except AuctionError (AuctionState K P × Nat) :=
  match s.readBid publicKey with
  | none => .error .validatorNotFound
  | some bid =>
    match bid.decreaseStake amount eraEndTimestampMillis with
    | .error e => .error e
    | .ok bid =>
      match s.createUnbondingPurse publicKey publicKey bid.bondingPurse amount none eraId with
      | .error e => .error e
      | .ok s =>
        if bid.stakedAmount = 0 then
          match s.unbondDelegators publicKey eraId bid.delegators.entries with
          | .error e => .error e
          | .ok s =>
            .ok (s.writeBid publicKey { bid with delegators := OrdMap.empty, inactive := true }, 0)
        else .ok (s.writeBid publicKey bid, bid.stakedAmount)

section Transfers

variable [DecidableEq P]

/-! ## Delegations -/

/-- `handle_delegation`: move `amount` from `source` into the delegator's bonding purse under
`bid`, creating the delegator with the new purse `newPurse` if it has none. -/
def handleDelegation (s : AuctionState K P) (bid : Bid K P)
    (delegatorPublicKey validatorPublicKey : K) (source : P) (amount : Nat) (newPurse : P) :
    Except AuctionError (AuctionState K P × Nat) :=
  match bid.delegators.find? delegatorPublicKey with
  | some delegator =>
    match s.transfer source delegator.bondingPurse amount with
    | .error e => .error (.mint e)
    | .ok s =>
      match delegator.increaseStake amount with
      | .error e => .error e
      | .ok delegator =>
        .ok (s.writeBid validatorPublicKey
          { bid with delegators := bid.delegators.insert delegatorPublicKey delegator },
          delegator.stakedAmount)
  | none =>
    let s := s.createPurse newPurse
    match s.transfer source newPurse amount with
    | .error e => .error (.mint e)
    | .ok s =>
      .ok (s.writeBid validatorPublicKey
        { bid with delegators := bid.delegators.insert delegatorPublicKey ⟨amount, newPurse, none⟩ },
        amount)

/-- `Auction::delegate` from `source`, the delegator's main purse: the state and the stake. -/
def delegate (s : AuctionState K P) (delegatorPublicKey validatorPublicKey : K) (source : P)
    (amount minimumDelegationAmount : Nat) (newPurse : P) :
    Except AuctionError (AuctionState K P × Nat) :=
  if amount = 0 then .error .bondTooSmall
  else
    match s.readBid validatorPublicKey with
    | none => .error .validatorNotFound
    | some bid =>
      if amount < minimumDelegationAmount then .error .delegationAmountTooSmall
      else s.handleDelegation bid delegatorPublicKey validatorPublicKey source amount newPurse

/-- The body `undelegate` and `redelegate` share: queue `amount` of the delegation, to be
delegated to `newValidator` when paid if there is one, and lower the delegator's stake,
removing the delegator at zero.  The state and the stake left. -/
def unbondDelegator (s : AuctionState K P) (delegatorPublicKey validatorPublicKey : K)
    (amount : Nat) (newValidator : Option K) (eraId eraEndTimestampMillis : Nat) :
    Except AuctionError (AuctionState K P × Nat) :=
  match s.readBid validatorPublicKey with
  | none => .error .validatorNotFound
  | some bid =>
    match bid.delegators.find? delegatorPublicKey with
    | none => .error .delegatorNotFound
    | some delegator =>
      match s.createUnbondingPurse validatorPublicKey delegatorPublicKey delegator.bondingPurse
          amount newValidator eraId with
      | .error e => .error e
      | .ok s =>
        match delegator.decreaseStake amount eraEndTimestampMillis with
        | .error e => .error e
        | .ok delegator =>
          let delegators :=
            if delegator.stakedAmount = 0 then bid.delegators.erase delegatorPublicKey
            else bid.delegators.insert delegatorPublicKey delegator
          .ok (s.writeBid validatorPublicKey { bid with delegators := delegators },
            delegator.stakedAmount)

/-- `Auction::undelegate`. -/
def undelegate (s : AuctionState K P) (delegatorPublicKey validatorPublicKey : K)
    (amount eraId eraEndTimestampMillis : Nat) : Except AuctionError (AuctionState K P × Nat) :=
  s.unbondDelegator delegatorPublicKey validatorPublicKey amount none eraId eraEndTimestampMillis

/-- `Auction::redelegate`: `undelegate` with the new validator recorded, after the minimum
delegation amount is checked. -/
def redelegate (s : AuctionState K P) (delegatorPublicKey validatorPublicKey : K) (amount : Nat)
    (newValidator : K) (minimumDelegationAmount eraId eraEndTimestampMillis : Nat) :
    Except AuctionError (AuctionState K P × Nat) :=
  if amount < minimumDelegationAmount then .error .delegationAmountTooSmall
  else
    s.unbondDelegator delegatorPublicKey validatorPublicKey amount (some newValidator) eraId
      eraEndTimestampMillis

/-- `Auction::activate_bid`. -/
def activateBid (s : AuctionState K P) (validatorPublicKey : K) :
    Except AuctionError (AuctionState K P) :=
  match s.readBid validatorPublicKey with
  | none => .error .validatorNotFound
  | some bid => .ok (s.writeBid validatorPublicKey { bid with inactive := false })

/-! ## Paying the unbonding queue -/

/-- `unbond`: pay a queued amount to the main purse of the unbonder's account, `mainPurse`
giving each account's main purse. -/
def unbond (mainPurse : K → Option P) (s : AuctionState K P)
    (unbondingPurse : UnbondingPurse K P) : Except AuctionError (AuctionState K P) :=
  match mainPurse unbondingPurse.unbonderPublicKey with
  | none => .error .invalidPublicKey
  | some purse =>
    match s.transfer unbondingPurse.bondingPurse purse unbondingPurse.amount with
    | .error _ => .error .transfer
    | .ok s => .ok s

/-- What `process_unbond_requests` does with an entry whose delay has passed: a redelegation
to a validator whose bid has a stake becomes a delegation to it from the bonding purse;
anything else is paid back to the unbonder.  `created` counts the purses `newPurses` has
given so far. -/
def payUnbondingPurse (mainPurse : K → Option P) (newPurses : Nat → P) (s : AuctionState K P)
    (created : Nat) (unbondingPurse : UnbondingPurse K P) :
    Except AuctionError (AuctionState K P × Nat) :=
  let unbond : Except AuctionError (AuctionState K P × Nat) :=
    match s.unbond mainPurse unbondingPurse with
    | .error _ => .error .transferToUnbondingPurse
    | .ok s => .ok (s, created)
  match unbondingPurse.newValidator with
  | none => unbond
  | some newValidator =>
    match s.readBid newValidator with
    | none => unbond
    | some newValidatorBid =>
      if newValidatorBid.stakedAmount = 0 then unbond
      else
        -- `read_bid_for_validator` reads the same bid again
        match s.handleDelegation newValidatorBid unbondingPurse.unbonderPublicKey newValidator
            unbondingPurse.bondingPurse unbondingPurse.amount (newPurses created) with
        | .error e => .error e
        | .ok (s, _) => .ok (s, created + 1)

/-- The inner loop of `process_unbond_requests` over one validator's queue: the state, the
purses created, and the entries kept for later. -/
def processUnbondingList (mainPurse : K → Option P) (newPurses : Nat → P)
    (currentEraId unbondingDelay : Nat) :
    AuctionState K P × Nat × List (UnbondingPurse K P) → List (UnbondingPurse K P) →
      Except AuctionError (AuctionState K P × Nat × List (UnbondingPurse K P))
  | acc, [] => .ok acc
  | (s, created, kept), unbondingPurse :: rest =>
    if unbondingPurse.eraOfCreation + unbondingDelay ≤ currentEraId then
      match s.payUnbondingPurse mainPurse newPurses created unbondingPurse with
      | .error e => .error e
      | .ok (s, created) =>
        processUnbondingList mainPurse newPurses currentEraId unbondingDelay (s, created, kept) rest
    else
      processUnbondingList mainPurse newPurses currentEraId unbondingDelay
        (s, created, kept ++ [unbondingPurse]) rest

/-- The outer loop of `process_unbond_requests` over the queues it read: the state, the purses
created, and each validator's new queue. -/
def processUnbondLists (mainPurse : K → Option P) (newPurses : Nat → P)
    (currentEraId unbondingDelay : Nat) :
    AuctionState K P × Nat × List (K × List (UnbondingPurse K P)) →
      List (K × List (UnbondingPurse K P)) →
        Except AuctionError (AuctionState K P × Nat × List (K × List (UnbondingPurse K P)))
  | acc, [] => .ok acc
  | (s, created, done), (validatorPublicKey, unbondingList) :: rest =>
    match processUnbondingList mainPurse newPurses currentEraId unbondingDelay (s, created, [])
        unbondingList with
    | .error e => .error e
    | .ok (s, created, kept) =>
      processUnbondLists mainPurse newPurses currentEraId unbondingDelay
        (s, created, done ++ [(validatorPublicKey, kept)]) rest

/-- `process_unbond_requests`: pay every queued amount whose delay has passed, then write every
validator's queue back (`set_unbonding_purses`). -/
def processUnbondRequests (mainPurse : K → Option P) (newPurses : Nat → P)
    (currentEraId unbondingDelay : Nat) (s : AuctionState K P) :
    Except AuctionError (AuctionState K P) :=
  match processUnbondLists mainPurse newPurses currentEraId unbondingDelay (s, 0, [])
      s.unbonds.entries with
  | .error e => .error e
  | .ok (s, _, unbondingPurses) =>
    .ok (unbondingPurses.foldl (fun s e => s.writeUnbond e.1 e.2) s)

/-- `set_bids`: write every bid back. -/
def setBids (s : AuctionState K P) (bids : List (K × Bid K P)) : AuctionState K P :=
  bids.foldl (fun s e => s.writeBid e.1 e.2) s

/-- `Auction::run_auction`, its effect on bids, the unbonding queue and balances.  The bids are
read before the queue is paid, and written back afterwards if any of them changed. -/
def runAuction (mainPurse : K → Option P) (newPurses : Nat → P)
    (currentEraId unbondingDelay eraEndTimestampMillis vestingSchedulePeriodMillis : Nat)
    (evictedValidators : List K) (s : AuctionState K P) :
    Except AuctionError (AuctionState K P) :=
  let bids := s.bids
  match s.processUnbondRequests mainPurse newPurses currentEraId unbondingDelay with
  | .error e => .error e
  | .ok s =>
    let (bids, bidsModified) :=
      processBids eraEndTimestampMillis vestingSchedulePeriodMillis evictedValidators bids.entries
        false
    if bidsModified then .ok (s.setBids bids) else .ok s

end Transfers

end AuctionState

end CasperNode
