import CasperNode.Library.OrdMap
import CasperNode.System.Vesting

/-!
# The auction: slashing, bids and seigniorage

The auction contract keeps a `Bid` per validator: its stake, its delegation rate, its
delegators with their stakes, and whether it is inactive.  The mint keeps the balance of every
purse and the total supply.  Three entry points are modelled.

* `slash` zeroes the stake of each slashed validator and of all its delegators, deactivates the
  bid, clears the validator's unbonding entries, and burns, by lowering the total supply, the
  validator's stake and the unbonding amounts.  It moves no tokens: every purse keeps its
  balance, and the delegators' stakes are not burned (`slash_reduces_supply_not_balances`).
* `add_bid` on an existing bid activates it, moves the amount into its bonding purse and adds
  it to the stake.  The delegators that a slash zeroed stay in the bid.
* `distribute` mints each validator's reward and shares it among the delegators of the
  validator's seigniorage recipient, the snapshot of its bid that `run_auction` took.  A
  delegator's share is `Ratio::new(stake, delegator_total_stake)`, which panics when the
  delegators' stakes sum to zero.  So a validator that is slashed and bids again, with its
  delegators still in the bid, makes `distribute` panic (`distribute_panics_after_slash`).

Amounts are `U512`, `Nat` here with the overflow checks of the modelled `checked_*` calls.
`Ratio<U512>` is `ℚ`, a ratio in lowest terms as `num_rational` keeps it: `Ratio::new` panics
on a zero denominator, `checked_mul` and `checked_sub` fail when their intermediate products
leave `U512`, and `*` and `-` panic where those return `None`.  A panic is `none`, an error
`some (.error _)`.  Keys are public keys; the account hash a bid is stored under is left out.
The caller and access-rights checks, the approved spending limit, vesting schedules and the
recording of transfers are not modelled.
-/

namespace CasperNode

/-! ## `U512` and `Ratio<U512>` -/

/-- One more than `U512::MAX`. -/
@[irreducible] def u512Limit : Nat := 2 ^ 512

/-- `U512::checked_add`. -/
def u512CheckedAdd (a b : Nat) : Option Nat := if a + b < u512Limit then some (a + b) else none

theorem u512CheckedAdd_eq_some {a b c : Nat} :
    u512CheckedAdd a b = some c ↔ a + b < u512Limit ∧ a + b = c := by
  unfold u512CheckedAdd
  split_ifs with h
  · simp [h]
  · simp [h]

/-- `Ratio::new`, `none` where it panics: on a zero denominator. -/
def ratioNew (numer denom : Nat) : Option ℚ := if denom = 0 then none else some (numer / denom)

/-- Both parts of a ratio in lowest terms fit a `U512`. -/
def fitsU512 (q : ℚ) : Bool := q.num.natAbs < u512Limit && q.den < u512Limit

/-- `Ratio::checked_mul`.  The operands are in lowest terms, so the products it forms after
cancelling are the parts of the product in lowest terms. -/
def ratioCheckedMul (x y : ℚ) : Option ℚ := if fitsU512 (x * y) then some (x * y) else none

/-- `Ratio::mul`, the operator `*`: it forms the same products as `checked_mul` and panics
where that returns `None`. -/
def ratioMul (x y : ℚ) : Option ℚ := ratioCheckedMul x y

/-- `Ratio::checked_sub`: both numerators over the least common denominator must fit, and the
first must not be below the second. -/
def ratioCheckedSub (x y : ℚ) : Option ℚ :=
  let lcm := Nat.lcm x.den y.den
  let lhsNumer := lcm / x.den * x.num.natAbs
  let rhsNumer := lcm / y.den * y.num.natAbs
  if lcm < u512Limit ∧ lhsNumer < u512Limit ∧ rhsNumer < u512Limit ∧ rhsNumer ≤ lhsNumer then
    some (x - y)
  else none

/-- `Ratio::sub`, the operator `-`: it panics where `checked_sub` returns `None`. -/
def ratioSub (x y : ℚ) : Option ℚ := ratioCheckedSub x y

/-- `Ratio::to_integer` of a ratio that is not negative. -/
def ratioToInteger (q : ℚ) : Nat := q.num.natAbs / q.den

/-- `DELEGATION_RATE_DENOMINATOR`. -/
def delegationRateDenominator : Nat := 100

/-- `BLOCK_REWARD`. -/
def blockReward : Nat := 1000000000000

theorem one_lt_u512Limit : 1 < u512Limit := by
  unfold u512Limit
  apply Nat.one_lt_two_pow
  omega

theorem delegationRateDenominator_ne_zero : delegationRateDenominator ≠ 0 := by
  simp [delegationRateDenominator]

theorem blockReward_ne_zero : blockReward ≠ 0 := by
  simp [blockReward]

theorem ratioNew_of_ne_zero (numer : Nat) {denom : Nat} (h : denom ≠ 0) :
    ratioNew numer denom = some ((numer : ℚ) / denom) := by
  simp [ratioNew, h]

theorem ratioNew_zero_denom (numer : Nat) : ratioNew numer 0 = none := rfl

theorem fitsU512_zero : fitsU512 0 = true := by
  simp [fitsU512, one_lt_u512Limit, Nat.zero_lt_of_lt one_lt_u512Limit]

theorem ratioCheckedMul_zero (x : ℚ) : ratioCheckedMul x 0 = some 0 := by
  simp [ratioCheckedMul, fitsU512_zero]

theorem ratioCheckedMul_zero_left (y : ℚ) : ratioCheckedMul 0 y = some 0 := by
  simp [ratioCheckedMul, fitsU512_zero]

theorem ratioCheckedSub_zero : ratioCheckedSub 0 0 = some 0 := by
  simp [ratioCheckedSub, one_lt_u512Limit, Nat.zero_lt_of_lt one_lt_u512Limit]

/-! ## Bids and the auction's state -/

/-- `Delegator`, with the fields the modelled entry points use. -/
structure Delegator (P : Type) where
  stakedAmount : Nat
  bondingPurse : P
  vestingSchedule : Option VestingSchedule

/-- `Bid`, with the fields the modelled entry points use. -/
structure Bid (K P : Type) [LinearOrder K] where
  bondingPurse : P
  stakedAmount : Nat
  delegationRate : Nat
  vestingSchedule : Option VestingSchedule
  delegators : OrdMap K (Delegator P)
  inactive : Bool

/-- `UnbondingPurse`: an amount that waits in a bonding purse until its era comes, to be paid
to the unbonder, or delegated to `newValidator` for a redelegation. -/
structure UnbondingPurse (K P : Type) where
  bondingPurse : P
  validatorPublicKey : K
  unbonderPublicKey : K
  eraOfCreation : Nat
  amount : Nat
  newValidator : Option K

/-- `SeigniorageRecipient`: a validator's stake, delegation rate and delegator stakes. -/
structure SeigniorageRecipient (K : Type) [LinearOrder K] where
  stake : Nat
  delegationRate : Nat
  delegatorStake : OrdMap K Nat

/-- `SeigniorageAllocation`, what `distribute` records in the era's `EraInfo`. -/
inductive SeigniorageAllocation (K : Type) where
  | validator (validatorPublicKey : K) (amount : Nat)
  | delegator (delegatorPublicKey validatorPublicKey : K) (amount : Nat)

/-- `mint::Error`, with the variants of the modelled mint operations. -/
inductive MintError where
  | sourceNotFound
  | destNotFound
  | insufficientFunds
  | purseNotFound
  | arithmeticOverflow

/-- `auction::Error`, with the variants of the modelled entry points. -/
inductive AuctionError where
  | bondTooSmall
  | delegationRateTooLarge
  | transferToBidPurse
  | validatorNotFound
  | arithmeticOverflow
  | invalidAmount
  | unbondTooLarge
  | validatorFundsLocked
  | delegatorFundsLocked
  | delegatorNotFound
  | delegationAmountTooSmall
  | invalidContext
  | invalidPublicKey
  | transfer
  | transferToUnbondingPurse
  | mint (e : MintError)

/-- The auction's bids and unbonding entries, by validator, and the mint's balances and total
supply. -/
structure AuctionState (K P : Type) [LinearOrder K] where
  bids : OrdMap K (Bid K P)
  unbonds : OrdMap K (List (UnbondingPurse K P))
  balances : P → Option Nat
  totalSupply : Nat

variable {K P : Type} [LinearOrder K]

/-- `SeigniorageRecipient::from(&Bid)`. -/
def SeigniorageRecipient.ofBid (bid : Bid K P) : SeigniorageRecipient K :=
  ⟨bid.stakedAmount, bid.delegationRate, bid.delegators.mapVal Delegator.stakedAmount⟩

/-- `SeigniorageRecipient::delegator_total_stake`. -/
def SeigniorageRecipient.delegatorTotalStake (r : SeigniorageRecipient K) : Option Nat :=
  r.delegatorStake.entries.foldlM (fun total e => u512CheckedAdd total e.2) 0

/-- `SeigniorageRecipient::total_stake`. -/
def SeigniorageRecipient.totalStake (r : SeigniorageRecipient K) : Option Nat :=
  r.delegatorTotalStake.bind fun total => u512CheckedAdd total r.stake

namespace AuctionState

/-- `read_bid`. -/
def readBid (s : AuctionState K P) (key : K) : Option (Bid K P) := s.bids.find? key

/-- `write_bid`. -/
def writeBid (s : AuctionState K P) (key : K) (bid : Bid K P) : AuctionState K P :=
  { s with bids := s.bids.insert key bid }

/-- `read_unbond`: no entries where none were written. -/
def readUnbond (s : AuctionState K P) (key : K) : List (UnbondingPurse K P) :=
  (s.unbonds.find? key).getD []

/-- `write_unbond`. -/
def writeUnbond (s : AuctionState K P) (key : K) (unbonds : List (UnbondingPurse K P)) :
    AuctionState K P :=
  { s with unbonds := s.unbonds.insert key unbonds }

/-- `Mint::reduce_total_supply`. -/
def reduceTotalSupply (s : AuctionState K P) (amount : Nat) : Except MintError (AuctionState K P) :=
  if amount = 0 then .ok s
  else if s.totalSupply < amount then .error .arithmeticOverflow
  else .ok { s with totalSupply := s.totalSupply - amount }

end AuctionState

/-! ## `slash` -/

/-- What `slash` does to one bid: no stake, inactive, and every delegator's stake zero. -/
def Bid.slashed (bid : Bid K P) : Bid K P :=
  { bid with stakedAmount := 0, inactive := true,
             delegators := bid.delegators.mapVal fun d => { d with stakedAmount := 0 } }

/-- One validator of `slash`'s loop, with the amount burned so far. -/
def slashOne (acc : AuctionState K P × Nat) (validator : K) : AuctionState K P × Nat :=
  let (s, burnedAmount) := acc
  let (s, burnedAmount) :=
    match s.readBid validator with
    | some bid => (s.writeBid validator bid.slashed, burnedAmount + bid.stakedAmount)
    | none => (s, burnedAmount)
  match s.readUnbond validator with
  | [] => (s, burnedAmount)
  | unbondingPurses =>
    (s.writeUnbond validator [], burnedAmount + (unbondingPurses.map (·.amount)).sum)

/-- `Auction::slash`. -/
def AuctionState.slash (s : AuctionState K P) (validatorPublicKeys : List K) :
    Except AuctionError (AuctionState K P) :=
  let (s, burnedAmount) := validatorPublicKeys.foldl slashOne (s, 0)
  match s.reduceTotalSupply burnedAmount with
  | .error e => .error (.mint e)
  | .ok s => .ok s

/-! ## What `slash` burns -/

namespace AuctionState

theorem readBid_writeBid (s : AuctionState K P) (key key' : K) (bid : Bid K P) :
    (s.writeBid key bid).readBid key' = if key' = key then some bid else s.readBid key' :=
  OrdMap.find?_insert _ _ _ _

@[simp] theorem readBid_writeBid_self (s : AuctionState K P) (key : K) (bid : Bid K P) :
    (s.writeBid key bid).readBid key = some bid :=
  OrdMap.find?_insert_self _ _ _

@[simp] theorem writeBid_unbonds (s : AuctionState K P) (key : K) (bid : Bid K P) :
    (s.writeBid key bid).unbonds = s.unbonds := rfl

@[simp] theorem readUnbond_writeBid (s : AuctionState K P) (key key' : K) (bid : Bid K P) :
    (s.writeBid key bid).readUnbond key' = s.readUnbond key' := rfl

@[simp] theorem readBid_writeUnbond (s : AuctionState K P) (key key' : K)
    (u : List (UnbondingPurse K P)) : (s.writeUnbond key u).readBid key' = s.readBid key' := rfl

@[simp] theorem writeBid_balances (s : AuctionState K P) (key : K) (bid : Bid K P) :
    (s.writeBid key bid).balances = s.balances := rfl

@[simp] theorem writeBid_totalSupply (s : AuctionState K P) (key : K) (bid : Bid K P) :
    (s.writeBid key bid).totalSupply = s.totalSupply := rfl

@[simp] theorem writeUnbond_bids (s : AuctionState K P) (key : K) (u : List (UnbondingPurse K P)) :
    (s.writeUnbond key u).bids = s.bids := rfl

@[simp] theorem writeUnbond_balances (s : AuctionState K P) (key : K)
    (u : List (UnbondingPurse K P)) : (s.writeUnbond key u).balances = s.balances := rfl

@[simp] theorem writeUnbond_totalSupply (s : AuctionState K P) (key : K)
    (u : List (UnbondingPurse K P)) : (s.writeUnbond key u).totalSupply = s.totalSupply := rfl

theorem reduceTotalSupply_balances {s s' : AuctionState K P} {amount : Nat}
    (h : s.reduceTotalSupply amount = .ok s') : s'.balances = s.balances := by
  unfold reduceTotalSupply at h
  split_ifs at h
  · cases h; rfl
  · cases h; rfl

theorem reduceTotalSupply_bids {s s' : AuctionState K P} {amount : Nat}
    (h : s.reduceTotalSupply amount = .ok s') : s'.bids = s.bids := by
  unfold reduceTotalSupply at h
  split_ifs at h
  · cases h; rfl
  · cases h; rfl

end AuctionState

/-- The total of a validator's unbonding entries. -/
def unbondTotal (unbondingPurses : List (UnbondingPurse K P)) : Nat :=
  (unbondingPurses.map (·.amount)).sum

theorem slashOne_balances (acc : AuctionState K P × Nat) (validator : K) :
    (slashOne acc validator).1.balances = acc.1.balances := by
  obtain ⟨s, burned⟩ := acc
  unfold slashOne
  cases hbid : s.readBid validator <;> cases hunbonds : s.readUnbond validator <;>
    simp [hbid, hunbonds]

theorem slashOne_totalSupply (acc : AuctionState K P × Nat) (validator : K) :
    (slashOne acc validator).1.totalSupply = acc.1.totalSupply := by
  obtain ⟨s, burned⟩ := acc
  unfold slashOne
  cases hbid : s.readBid validator <;> cases hunbonds : s.readUnbond validator <;>
    simp [hbid, hunbonds]

/-- One validator with a bid: the bid is slashed, and its stake and unbonding amounts are added
to what is burned. -/
theorem slashOne_of_bid {s : AuctionState K P} {validator : K} {bid : Bid K P}
    (hbid : s.readBid validator = some bid) (burned : Nat) :
    (slashOne (s, burned) validator).1.readBid validator = some bid.slashed ∧
      (slashOne (s, burned) validator).2 =
        burned + bid.stakedAmount + unbondTotal (s.readUnbond validator) := by
  unfold slashOne
  cases hunbonds : s.readUnbond validator with
  | nil => simp [hbid, hunbonds, unbondTotal]
  | cons u rest => simp [hbid, hunbonds, unbondTotal]

theorem foldl_slashOne_balances (validators : List K) (acc : AuctionState K P × Nat) :
    (validators.foldl slashOne acc).1.balances = acc.1.balances := by
  induction validators generalizing acc with
  | nil => rfl
  | cons v rest ih => rw [List.foldl_cons, ih, slashOne_balances]

/-- `slash` moves no tokens. -/
theorem slash_balances {s s' : AuctionState K P} {validators : List K}
    (h : s.slash validators = .ok s') : s'.balances = s.balances := by
  unfold AuctionState.slash at h
  generalize hfold : validators.foldl slashOne (s, 0) = acc at h
  obtain ⟨s₁, burned⟩ := acc
  cases hreduce : s₁.reduceTotalSupply burned with
  | error e => simp [hreduce] at h
  | ok s₂ =>
    simp only [hreduce, Except.ok.injEq] at h
    subst h
    rw [AuctionState.reduceTotalSupply_balances hreduce,
      ← foldl_slashOne_balances validators (s, 0), hfold]

theorem AuctionState.reduceTotalSupply_of_le (s : AuctionState K P) {amount : Nat}
    (h : amount ≤ s.totalSupply) :
    ∃ s', s.reduceTotalSupply amount = .ok s' ∧ s'.totalSupply + amount = s.totalSupply ∧
      s'.balances = s.balances ∧ s'.bids = s.bids := by
  unfold reduceTotalSupply
  split_ifs with hzero hlt
  · exact ⟨s, rfl, by omega, rfl, rfl⟩
  · omega
  · exact ⟨_, rfl, by simp only; omega, rfl, rfl⟩

theorem slashed_delegators (bid : Bid K P) :
    ∀ e ∈ bid.slashed.delegators.entries, e.2.stakedAmount = 0 := by
  intro e he
  obtain ⟨e', -, rfl⟩ := OrdMap.mem_mapVal he
  rfl

/-- Slashing a validator with a bid burns the bid's stake and the validator's unbonding amounts
from the total supply but moves no tokens, and it zeroes the stakes of the bid's delegators
without burning them. -/
theorem slash_reduces_supply_not_balances (s : AuctionState K P) (v : K) (bid : Bid K P)
    (hbid : s.readBid v = some bid)
    (hsupply : bid.stakedAmount + unbondTotal (s.readUnbond v) ≤ s.totalSupply) :
    ∃ s', s.slash [v] = .ok s' ∧ s'.balances = s.balances ∧
      s.totalSupply = s'.totalSupply + bid.stakedAmount + unbondTotal (s.readUnbond v) ∧
      ∃ bid', s'.readBid v = some bid' ∧ bid'.stakedAmount = 0 ∧
        ∀ e ∈ bid'.delegators.entries, e.2.stakedAmount = 0 := by
  obtain ⟨hslashed, hburned⟩ := slashOne_of_bid hbid 0
  have hsupply₁ : (slashOne (s, 0) v).1.totalSupply = s.totalSupply := slashOne_totalSupply _ _
  have hbalances₁ : (slashOne (s, 0) v).1.balances = s.balances := slashOne_balances _ _
  have hle : (slashOne (s, 0) v).2 ≤ (slashOne (s, 0) v).1.totalSupply := by
    rw [hburned, hsupply₁]
    omega
  obtain ⟨s', hreduce, hsupply', hbalances', hbids'⟩ :=
    (slashOne (s, 0) v).1.reduceTotalSupply_of_le hle
  rw [hburned, hsupply₁] at hsupply'
  refine ⟨s', ?_, by rw [hbalances', hbalances₁], by omega,
    bid.slashed, by rw [AuctionState.readBid, hbids']; exact hslashed, rfl, slashed_delegators bid⟩
  simp only [AuctionState.slash, List.foldl_cons, List.foldl_nil, hreduce]

/-- Validator 1 with 100 motes staked from purse 10, and one delegator, 2, with 50 motes staked
from purse 20; purse 30 holds 1000 motes. -/
def slashExampleBid : Bid Nat Nat := ⟨10, 100, 10, none, OrdMap.singleton 2 ⟨50, 20, none⟩, false⟩

/-- The state with `slashExampleBid` as its only bid and the three purses' balances as the total
supply. -/
def slashExample : AuctionState Nat Nat where
  bids := OrdMap.singleton 1 slashExampleBid
  unbonds := OrdMap.empty
  balances p := if p = 10 then some 100 else if p = 20 then some 50
    else if p = 30 then some 1000 else none
  totalSupply := 1150

theorem slash_reduces_supply_not_balances_example :
    slashExample.readBid 1 = some slashExampleBid ∧
      slashExampleBid.stakedAmount + unbondTotal (slashExample.readUnbond 1) ≤
        slashExample.totalSupply ∧
      ∃ s', slashExample.slash [1] = .ok s' ∧ s'.balances = slashExample.balances ∧
        slashExample.totalSupply =
          s'.totalSupply + slashExampleBid.stakedAmount +
            unbondTotal (slashExample.readUnbond 1) ∧
        ∃ bid', s'.readBid 1 = some bid' ∧ bid'.stakedAmount = 0 ∧
          ∀ e ∈ bid'.delegators.entries, e.2.stakedAmount = 0 :=
  ⟨rfl, by decide,
    slash_reduces_supply_not_balances slashExample 1 slashExampleBid rfl (by decide)⟩

/-- After `slash [v]` the bid of `v` is the slashed bid. -/
theorem slash_single_bids {s s₁ : AuctionState K P} {v : K} {bid : Bid K P}
    (hbid : s.readBid v = some bid) (h : s.slash [v] = .ok s₁) :
    s₁.readBid v = some bid.slashed := by
  have hslashed := (slashOne_of_bid hbid 0).1
  unfold AuctionState.slash at h
  simp only [List.foldl_cons, List.foldl_nil] at h
  cases hreduce : (slashOne (s, 0) v).1.reduceTotalSupply (slashOne (s, 0) v).2 with
  | error e => simp [hreduce] at h
  | ok s₂ =>
    simp only [hreduce, Except.ok.injEq] at h
    subst h
    rw [AuctionState.readBid, AuctionState.reduceTotalSupply_bids hreduce]
    exact hslashed

/-! ## Stakes -/

/-- `Bid::increase_stake`. -/
def Bid.increaseStake (bid : Bid K P) (amount : Nat) : Except AuctionError (Bid K P) :=
  match u512CheckedAdd bid.stakedAmount amount with
  | none => .error .invalidAmount
  | some updatedStakedAmount => .ok { bid with stakedAmount := updatedStakedAmount }

theorem Bid.increaseStake_eq_ok {bid bid' : Bid K P} {amount : Nat} :
    bid.increaseStake amount = .ok bid' ↔
      bid.stakedAmount + amount < u512Limit ∧
        bid' = { bid with stakedAmount := bid.stakedAmount + amount } := by
  unfold Bid.increaseStake
  cases h : u512CheckedAdd bid.stakedAmount amount with
  | none =>
    simp only [reduceCtorEq, false_iff, not_and]
    intro hlt
    exact absurd (u512CheckedAdd_eq_some.mpr ⟨hlt, rfl⟩) (by simp [h])
  | some updated =>
    obtain ⟨hlt, rfl⟩ := u512CheckedAdd_eq_some.mp h
    simp only [Except.ok.injEq, hlt, true_and]
    exact eq_comm

section Purses

variable [DecidableEq P]

/-! ## Moving tokens -/

namespace AuctionState

/-- `Mint::transfer` as `mint_transfer_direct` runs it: the source's balance is written, then
the amount added to the target's. -/
def transfer (s : AuctionState K P) (source target : P) (amount : Nat) :
    Except MintError (AuctionState K P) :=
  match s.balances source with
  | none => .error .sourceNotFound
  | some sourceBalance =>
    if sourceBalance < amount then .error .insufficientFunds
    else
      match s.balances target with
      | none => .error .destNotFound
      | some _ =>
        let balances := Function.update s.balances source (some (sourceBalance - amount))
        .ok { s with
          balances := Function.update balances target ((balances target).map (· + amount)) }

/-- `Mint::create`, as `create_purse` calls it: a new purse with a zero balance. -/
def createPurse (s : AuctionState K P) (purse : P) : AuctionState K P :=
  { s with balances := Function.update s.balances purse (some 0) }

/-- `Mint::mint_into_existing_purse`. -/
def mintIntoExistingPurse (s : AuctionState K P) (amount : Nat) (existingPurse : P) :
    Except MintError (AuctionState K P) :=
  if amount = 0 then .ok s
  else
    match s.balances existingPurse with
    | none => .error .purseNotFound
    | some balance =>
      .ok { s with balances := Function.update s.balances existingPurse (some (balance + amount)),
                   totalSupply := s.totalSupply + amount }

end AuctionState

/-! ## `add_bid` -/

/-- `Auction::add_bid` from the purse `source`.  A new bid gets `newPurse`, the purse
`create_purse` makes, with a zero balance.  Returns the state and the new stake. -/
def AuctionState.addBid (s : AuctionState K P) (publicKey : K) (source newPurse : P)
    (delegationRate amount : Nat) : Except AuctionError (AuctionState K P × Nat) :=
  if amount = 0 then .error .bondTooSmall
  else if delegationRateDenominator < delegationRate then .error .delegationRateTooLarge
  else
    match s.readBid publicKey with
    | some bid =>
      let bid := { bid with inactive := false }
      match s.transfer source bid.bondingPurse amount with
      | .error e => .error (.mint e)
      | .ok s =>
        match { bid with delegationRate := delegationRate }.increaseStake amount with
        | .error e => .error e
        | .ok bid => .ok (s.writeBid publicKey bid, bid.stakedAmount)
    | none =>
      let s := s.createPurse newPurse
      match s.transfer source newPurse amount with
      | .error e => .error (.mint e)
      | .ok s =>
        let bid : Bid K P := ⟨newPurse, amount, delegationRate, none, OrdMap.empty, false⟩
        .ok (s.writeBid publicKey bid, amount)

/-! ## `distribute` -/

/-- The loop of `reinvest_delegator_rewards` over the delegators' rewards, each computed as the
iterator yields it (`none` where computing it panics), with the allocations and payouts so
far. -/
def reinvestLoop (validatorPublicKey : K) :
    OrdMap K (Delegator P) → List (SeigniorageAllocation K) → List (K × Nat × P) →
      List (K × Option ℚ) →
        Option (Except AuctionError
          (OrdMap K (Delegator P) × List (SeigniorageAllocation K) × List (K × Nat × P)))
  | delegators, allocations, payouts, [] => some (.ok (delegators, allocations, payouts))
  | delegators, allocations, payouts, (delegatorKey, delegatorReward) :: rest =>
    match delegatorReward with
    | none => none
    | some delegatorReward =>
      match delegators.find? delegatorKey with
      | none => reinvestLoop validatorPublicKey delegators allocations payouts rest
      | some delegator =>
        let delegatorRewardTrunc := ratioToInteger delegatorReward
        match u512CheckedAdd delegator.stakedAmount delegatorRewardTrunc with
        | none => some (.error .invalidAmount)
        | some stakedAmount =>
          reinvestLoop validatorPublicKey
            (delegators.insert delegatorKey { delegator with stakedAmount := stakedAmount })
            (allocations ++ [.delegator delegatorKey validatorPublicKey delegatorRewardTrunc])
            (payouts ++ [(delegatorKey, delegatorRewardTrunc, delegator.bondingPurse)]) rest

/-- `reinvest_delegator_rewards`. -/
def AuctionState.reinvestDelegatorRewards (s : AuctionState K P)
    (allocations : List (SeigniorageAllocation K)) (validatorPublicKey : K)
    (rewards : List (K × Option ℚ)) :
    Option (Except AuctionError
      (AuctionState K P × List (SeigniorageAllocation K) × List (K × Nat × P))) :=
  match s.readBid validatorPublicKey with
  | none => some (.error .validatorNotFound)
  | some bid =>
    match reinvestLoop validatorPublicKey bid.delegators allocations [] rewards with
    | none => none
    | some (.error e) => some (.error e)
    | some (.ok (delegators, allocations, payouts)) =>
      some (.ok (s.writeBid validatorPublicKey { bid with delegators := delegators }, allocations,
        payouts))

/-- `reinvest_validator_reward`: the state, the allocations and the bonding purse. -/
def AuctionState.reinvestValidatorReward (s : AuctionState K P)
    (allocations : List (SeigniorageAllocation K)) (validatorPublicKey : K) (amount : Nat) :
    Except AuctionError (AuctionState K P × List (SeigniorageAllocation K) × P) :=
  match s.readBid validatorPublicKey with
  | none => .error .validatorNotFound
  | some bid =>
    match bid.increaseStake amount with
    | .error e => .error e
    | .ok bid =>
      .ok (s.writeBid validatorPublicKey bid, allocations ++ [.validator validatorPublicKey amount],
        bid.bondingPurse)

/-- The share of the reward that goes to a recipient's delegators: the reward scaled by their
part of the stake, less the validator's commission. -/
def delegatorsPart (recipient : SeigniorageRecipient K) (totalReward : ℚ)
    (delegatorTotalStake totalStake : Nat) : Option (Except AuctionError ℚ) :=
  match ratioNew recipient.delegationRate delegationRateDenominator with
  | none => none
  | some commissionRate =>
    match ratioNew delegatorTotalStake totalStake with
    | none => none
    | some rewardMultiplier =>
      match ratioCheckedMul totalReward rewardMultiplier with
      | none => some (.error .arithmeticOverflow)
      | some delegatorReward =>
        match ratioCheckedMul delegatorReward commissionRate with
        | none => some (.error .arithmeticOverflow)
        | some commission =>
          match ratioCheckedSub delegatorReward commission with
          | none => some (.error .arithmeticOverflow)
          | some part => some (.ok part)

/-- The delegator rewards `distribute` hands to `reinvest_delegator_rewards`: each delegator's
part of `delegatorsPart`, `none` where computing it panics. -/
def delegatorRewards (recipient : SeigniorageRecipient K) (part : ℚ)
    (delegatorTotalStake : Nat) : List (K × Option ℚ) :=
  recipient.delegatorStake.entries.map fun e =>
    (e.1, (ratioNew e.2 delegatorTotalStake).bind (ratioMul part))

/-- The minting of the delegators' payouts at the end of a validator's round of `distribute`. -/
def AuctionState.mintPayouts (s : AuctionState K P) :
    List (K × Nat × P) → Except AuctionError (AuctionState K P)
  | [] => .ok s
  | (_, delegatorPayout, bondingPurse) :: rest =>
    match s.mintIntoExistingPurse delegatorPayout bondingPurse with
    | .error e => .error (.mint e)
    | .ok s => s.mintPayouts rest

/-- The rest of a validator's round of `distribute` once the delegators' part is known:
reinvest the delegators' rewards, then the validator's remainder, then mint them. -/
def AuctionState.payRecipient (s : AuctionState K P) (allocations : List (SeigniorageAllocation K))
    (publicKey : K) (recipient : SeigniorageRecipient K) (totalReward part : ℚ)
    (delegatorTotalStake : Nat) :
    Option (Except AuctionError (AuctionState K P × List (SeigniorageAllocation K))) :=
  match s.reinvestDelegatorRewards allocations publicKey
      (delegatorRewards recipient part delegatorTotalStake) with
  | none => none
  | some (.error e) => some (.error e)
  | some (.ok (s, allocations, payouts)) =>
    let totalDelegatorPayout := (payouts.map fun p => p.2.1).sum
    match ratioSub totalReward totalDelegatorPayout with
    | none => none
    | some validatorsPart =>
      let validatorReward := ratioToInteger validatorsPart
      match s.reinvestValidatorReward allocations publicKey validatorReward with
      | .error e => some (.error e)
      | .ok (s, allocations, validatorBondingPurse) =>
        match s.mintIntoExistingPurse validatorReward validatorBondingPurse with
        | .error e => some (.error (.mint e))
        | .ok s =>
          match s.mintPayouts payouts with
          | .error e => some (.error e)
          | .ok s => some (.ok (s, allocations))

/-- One validator's round of `distribute`'s loop. -/
def AuctionState.distributeOne (recipients : OrdMap K (SeigniorageRecipient K))
    (baseRoundReward : Nat) (s : AuctionState K P) (allocations : List (SeigniorageAllocation K))
    (publicKey : K) (rewardFactor : Nat) :
    Option (Except AuctionError (AuctionState K P × List (SeigniorageAllocation K))) :=
  match recipients.find? publicKey with
  | none => some (.error .validatorNotFound)
  | some recipient =>
    match recipient.totalStake with
    | none => some (.error .arithmeticOverflow)
    | some totalStake =>
      if totalStake = 0 then some (.ok (s, allocations))
      else
        match ratioNew rewardFactor blockReward with
        | none => none
        | some rewardRate =>
          match ratioCheckedMul rewardRate baseRoundReward with
          | none => some (.error .arithmeticOverflow)
          | some totalReward =>
            match recipient.delegatorTotalStake with
            | none => some (.error .arithmeticOverflow)
            | some delegatorTotalStake =>
              match delegatorsPart recipient totalReward delegatorTotalStake totalStake with
              | none => none
              | some (.error e) => some (.error e)
              | some (.ok part) =>
                s.payRecipient allocations publicKey recipient totalReward part delegatorTotalStake

/-- `Auction::distribute` over the reward factors, in key order: the state and the era's
allocations. -/
def AuctionState.distribute (recipients : OrdMap K (SeigniorageRecipient K))
    (baseRoundReward : Nat) :
    AuctionState K P → List (SeigniorageAllocation K) → List (K × Nat) →
      Option (Except AuctionError (AuctionState K P × List (SeigniorageAllocation K)))
  | s, allocations, [] => some (.ok (s, allocations))
  | s, allocations, (publicKey, rewardFactor) :: rest =>
    match s.distributeOne recipients baseRoundReward allocations publicKey rewardFactor with
    | none => none
    | some (.error e) => some (.error e)
    | some (.ok (s, allocations)) => AuctionState.distribute recipients baseRoundReward s allocations rest

/-! ## A slashed validator that bids again -/

/-- `add_bid` on an existing bid keeps its delegators and adds the amount to its stake. -/
theorem addBid_existing {s s₂ : AuctionState K P} {v : K} {bid : Bid K P}
    (hbid : s.readBid v = some bid) {source newPurse : P} {rate amount stake : Nat}
    (h : s.addBid v source newPurse rate amount = .ok (s₂, stake)) :
    ∃ bid₂, s₂.readBid v = some bid₂ ∧ bid₂.delegators = bid.delegators ∧
      bid₂.stakedAmount = bid.stakedAmount + amount ∧ bid₂.stakedAmount < u512Limit ∧
      0 < amount := by
  unfold AuctionState.addBid at h
  split_ifs at h with hzero hrate
  rw [hbid] at h
  simp only at h
  cases htransfer : s.transfer source bid.bondingPurse amount with
  | error e => simp [htransfer] at h
  | ok s₁ =>
    simp only [htransfer] at h
    cases hincrease : ({ bid with inactive := false, delegationRate := rate } : Bid K P).increaseStake
        amount with
    | error e => simp [hincrease] at h
    | ok bid₂ =>
      simp only [hincrease, Except.ok.injEq, Prod.mk.injEq] at h
      obtain ⟨rfl, -⟩ := h
      obtain ⟨hlt, rfl⟩ := Bid.increaseStake_eq_ok.mp hincrease
      refine ⟨{ bid with
          stakedAmount := bid.stakedAmount + amount, delegationRate := rate, inactive := false },
        by simp, rfl, rfl, by simpa using hlt, by omega⟩

/-- `add_bid` on an existing bid, when the transfer and the new stake go through. -/
theorem addBid_of_bid {s s₁ : AuctionState K P} {v : K} {bid : Bid K P}
    (hbid : s.readBid v = some bid) {source newPurse : P} {rate amount : Nat} (hamount : amount ≠ 0)
    (hrate : rate ≤ delegationRateDenominator)
    (htransfer : s.transfer source bid.bondingPurse amount = .ok s₁)
    (hlt : bid.stakedAmount + amount < u512Limit) :
    s.addBid v source newPurse rate amount =
      .ok (s₁.writeBid v { bid with
        stakedAmount := bid.stakedAmount + amount, delegationRate := rate, inactive := false },
        bid.stakedAmount + amount) := by
  have hincrease : ({ bid with inactive := false, delegationRate := rate } : Bid K P).increaseStake
      amount = .ok { bid with
        stakedAmount := bid.stakedAmount + amount, delegationRate := rate, inactive := false } :=
    Bid.increaseStake_eq_ok.mpr ⟨hlt, rfl⟩
  rw [AuctionState.addBid, if_neg hamount, if_neg (Nat.not_lt.mpr hrate), hbid]
  simp only [htransfer, hincrease]

theorem foldlM_u512CheckedAdd_zero {α : Type} (l : List (α × Nat)) (hzero : ∀ e ∈ l, e.2 = 0) :
    l.foldlM (fun total e => u512CheckedAdd total e.2) 0 = some 0 := by
  induction l with
  | nil => rfl
  | cons e rest ih =>
    have hadd : u512CheckedAdd 0 e.2 = some 0 :=
      u512CheckedAdd_eq_some.mpr
        ⟨by rw [hzero e List.mem_cons_self]; exact Nat.zero_lt_of_lt one_lt_u512Limit,
          by rw [hzero e List.mem_cons_self]⟩
    rw [List.foldlM_cons, hadd, Option.bind_eq_bind, Option.bind_some]
    exact ih (fun e' he' => hzero e' (List.mem_cons_of_mem _ he'))

theorem delegatorTotalStake_of_zero {r : SeigniorageRecipient K}
    (hzero : ∀ e ∈ r.delegatorStake.entries, e.2 = 0) : r.delegatorTotalStake = some 0 :=
  foldlM_u512CheckedAdd_zero _ hzero

/-- With no delegator stake the delegators' part is zero; no ratio in it panics. -/
theorem delegatorsPart_zero (r : SeigniorageRecipient K) (totalReward : ℚ) {totalStake : Nat}
    (h : totalStake ≠ 0) : delegatorsPart r totalReward 0 totalStake = some (.ok 0) := by
  have hmul : ratioCheckedMul totalReward (((0 : Nat) : ℚ) / totalStake) = some 0 := by
    rw [Nat.cast_zero, zero_div]
    exact ratioCheckedMul_zero totalReward
  rw [delegatorsPart, ratioNew_of_ne_zero _ delegationRateDenominator_ne_zero,
    ratioNew_of_ne_zero _ h]
  simp only [hmul, ratioCheckedMul_zero_left, ratioCheckedSub_zero]

omit [DecidableEq P] in
/-- `reinvest_delegator_rewards` panics at a delegator whose reward panics. -/
theorem reinvestLoop_panic (v : K) (delegators : OrdMap K (Delegator P)) (allocations payouts)
    (k : K) (rest : List (K × Option ℚ)) :
    reinvestLoop v delegators allocations payouts ((k, none) :: rest) = none := rfl

/-- A recipient with a stake and with delegators whose stakes are all zero makes the round of
`distribute` panic: the first delegator's share is `Ratio::new(0, 0)`. -/
theorem distributeOne_panics (s : AuctionState K P) (recipients : OrdMap K (SeigniorageRecipient K))
    (baseRoundReward rewardFactor : Nat) (allocations : List (SeigniorageAllocation K)) {v : K}
    {r : SeigniorageRecipient K} (hr : recipients.find? v = some r) (hstake : 0 < r.stake)
    (hlimit : r.stake < u512Limit) (hne : r.delegatorStake.entries ≠ [])
    (hzero : ∀ e ∈ r.delegatorStake.entries, e.2 = 0) (hbid : (s.readBid v).isSome)
    (hreward : ratioCheckedMul ((rewardFactor : ℚ) / blockReward) baseRoundReward ≠ none) :
    s.distributeOne recipients baseRoundReward allocations v rewardFactor = none := by
  have hdts := delegatorTotalStake_of_zero hzero
  have htotal : r.totalStake = some r.stake := by
    rw [SeigniorageRecipient.totalStake, hdts, Option.bind_some]
    exact u512CheckedAdd_eq_some.mpr ⟨by omega, by omega⟩
  obtain ⟨totalReward, hreward⟩ := Option.ne_none_iff_exists'.mp hreward
  obtain ⟨bid, hbid⟩ := Option.isSome_iff_exists.mp hbid
  obtain ⟨e, rest, hentries⟩ := List.exists_cons_of_ne_nil hne
  have hpanic : s.payRecipient allocations v r totalReward 0 0 = none := by
    rw [AuctionState.payRecipient, AuctionState.reinvestDelegatorRewards, hbid]
    simp only [delegatorRewards, hentries, List.map_cons, ratioNew_zero_denom, Option.bind_none,
      reinvestLoop_panic]
  rw [AuctionState.distributeOne, hr]
  simp only [htotal, hstake.ne', if_false, ratioNew_of_ne_zero _ blockReward_ne_zero, hreward,
    hdts, delegatorsPart_zero r totalReward hstake.ne', hpanic]

/-- A validator slashed while it has delegators keeps them, with zero stakes, when it bids again.
Once the era's snapshot holds that bid, the validator's round of `distribute` panics at
`Ratio::new(0, 0)`: in any later state that still has the bid, and whenever the total reward is
computed without overflow. -/
theorem distribute_panics_after_slash (s : AuctionState K P) (v : K) (bid : Bid K P)
    (hbid : s.readBid v = some bid) (hdelegators : bid.delegators.entries ≠ [])
    {s₁ : AuctionState K P} (hslash : s.slash [v] = .ok s₁) (source newPurse : P)
    (rate amount : Nat) {s₂ : AuctionState K P} {stake : Nat}
    (hadd : s₁.addBid v source newPurse rate amount = .ok (s₂, stake)) {bid₂ : Bid K P}
    (hbid₂ : s₂.readBid v = some bid₂) (recipients : OrdMap K (SeigniorageRecipient K))
    (hrecipient : recipients.find? v = some (SeigniorageRecipient.ofBid bid₂))
    (s₃ : AuctionState K P) (hbid₃ : (s₃.readBid v).isSome) (baseRoundReward rewardFactor : Nat)
    (hreward : ratioCheckedMul ((rewardFactor : ℚ) / blockReward) baseRoundReward ≠ none)
    (allocations : List (SeigniorageAllocation K)) (rest : List (K × Nat)) :
    s₃.distribute recipients baseRoundReward allocations ((v, rewardFactor) :: rest) = none := by
  obtain ⟨bid₂', hbid₂', hdelegators₂, hstake₂, hlimit, hamount⟩ :=
    addBid_existing (slash_single_bids hbid hslash) hadd
  obtain rfl : bid₂' = bid₂ := Option.some.inj (hbid₂'.symm.trans hbid₂)
  have hstake : 0 < (SeigniorageRecipient.ofBid bid₂').stake := by
    show 0 < bid₂'.stakedAmount
    rw [hstake₂]
    exact Nat.add_pos_right _ hamount
  have hne : (SeigniorageRecipient.ofBid bid₂').delegatorStake.entries ≠ [] := by
    simpa [SeigniorageRecipient.ofBid, hdelegators₂, Bid.slashed, OrdMap.mapVal] using hdelegators
  have hzero : ∀ e ∈ (SeigniorageRecipient.ofBid bid₂').delegatorStake.entries, e.2 = 0 := by
    intro e he
    obtain ⟨e', he', rfl⟩ := OrdMap.mem_mapVal he
    rw [hdelegators₂] at he'
    exact slashed_delegators bid e' he'
  rw [AuctionState.distribute,
    distributeOne_panics s₃ recipients baseRoundReward rewardFactor allocations hrecipient hstake
      hlimit hne hzero hbid₃ hreward]

/-- Validator 1's bid once `slashExample` slashes it and it bids 5 motes again from purse 30. -/
def slashExampleRebid : Bid Nat Nat :=
  { slashExampleBid.slashed with stakedAmount := 5, inactive := false }

theorem distribute_panics_after_slash_example :
    ∃ s₁ s₂ : AuctionState Nat Nat, slashExample.slash [1] = .ok s₁ ∧
      s₁.addBid 1 30 40 10 5 = .ok (s₂, 5) ∧ s₂.readBid 1 = some slashExampleRebid ∧
      s₂.distribute (OrdMap.singleton 1 (SeigniorageRecipient.ofBid slashExampleRebid)) 1000 []
        [(1, blockReward)] = none := by
  have hbid : slashExample.readBid 1 = some slashExampleBid := rfl
  obtain ⟨s₁, hslash⟩ : ∃ s₁, slashExample.slash [1] = .ok s₁ := ⟨_, rfl⟩
  obtain ⟨t, htransfer⟩ : ∃ t, s₁.transfer 30 10 5 = .ok t := by
    rw [AuctionState.transfer, slash_balances hslash]
    exact ⟨_, rfl⟩
  have hadd : s₁.addBid 1 30 40 10 5 = .ok (_, 5) :=
    addBid_of_bid (slash_single_bids hbid hslash) (by decide) (by decide) htransfer
      (by decide +kernel)
  have hbid₂ : (t.writeBid 1 { slashExampleBid.slashed with
      stakedAmount := slashExampleBid.slashed.stakedAmount + 5, delegationRate := 10,
      inactive := false }).readBid 1 = some slashExampleRebid := by
    simp only [AuctionState.readBid_writeBid_self]
    rfl
  refine ⟨s₁, _, hslash, hadd, hbid₂, ?_⟩
  exact distribute_panics_after_slash slashExample 1 slashExampleBid hbid
    (OrdMap.entries_insert_ne_nil _ _ _) hslash 30 40 10 5 hadd hbid₂ _ rfl _ (by simp [hbid₂])
    1000 blockReward (by decide +kernel) [] []

end Purses

end CasperNode
