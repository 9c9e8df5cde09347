import CasperNode.System.Staking
import CasperNode.Library.Claims

/-!
# What the auction owes

The auction keeps staked and unbonding amounts in bonding purses that the mint holds.  Its
ledger lists what it owes from each purse: every bid's stake and every delegator's stake, each
with its bonding purse, and every queued unbonding amount with the purse it waits in.  The
auction is solvent (`AuctionState.Solvent`) when the balances cover the ledger, purse by purse,
the ledger names only purses that exist and are no account's main purse, and every delegator
and unbonder has an account to be paid into.

Writing a bid or a queue replaces what the old one owed by what the new one owes
(`claimOn_ledger_writeBid`, `claimOn_ledger_writeUnbond`); a transfer moves its amount from one
balance to another (`balanceOf_transfer`).  `Solvent.step` collects what a step has to show to
keep solvency.
-/

namespace CasperNode

open Claims

variable {K P : Type} [LinearOrder K]

/-! ## What the auction owes -/

/-- The delegators' stakes, each with its bonding purse. -/
def delegatorsLedger (delegators : OrdMap K (Delegator P)) : List (P × Nat) :=
  delegators.entries.map fun e => (e.2.bondingPurse, e.2.stakedAmount)

/-- The stakes a bid records: the validator's and each delegator's. -/
def Bid.ledger (bid : Bid K P) : List (P × Nat) :=
  (bid.bondingPurse, bid.stakedAmount) :: delegatorsLedger bid.delegators

/-- The stakes all bids record. -/
def bidsLedger (bids : OrdMap K (Bid K P)) : List (P × Nat) :=
  bids.entries.flatMap fun e => e.2.ledger

/-- The amounts unbonding entries hold back, each with its purse. -/
def queueLedger (unbondingPurses : List (UnbondingPurse K P)) : List (P × Nat) :=
  unbondingPurses.map fun u => (u.bondingPurse, u.amount)

/-- Every entry of every validator's unbonding queue. -/
def AuctionState.pending (s : AuctionState K P) : List (UnbondingPurse K P) :=
  s.unbonds.entries.flatMap (·.2)

/-- Everything the auction owes from the mint's purses. -/
def AuctionState.ledger (s : AuctionState K P) : List (P × Nat) :=
  bidsLedger s.bids ++ queueLedger s.pending

/-- The keys of every bid's delegators. -/
def delegatorKeys (bids : OrdMap K (Bid K P)) : List K :=
  bids.entries.flatMap fun e => e.2.delegators.entries.map Prod.fst

/-- The balance of a purse, zero for a purse that does not exist. -/
def AuctionState.balanceOf (s : AuctionState K P) (purse : P) : Nat := (s.balances purse).getD 0

@[simp] theorem AuctionState.pending_writeBid (s : AuctionState K P) (key : K) (bid : Bid K P) :
    (s.writeBid key bid).pending = s.pending := rfl

@[simp] theorem AuctionState.bids_writeBid (s : AuctionState K P) (key : K) (bid : Bid K P) :
    (s.writeBid key bid).bids = s.bids.insert key bid := rfl

section Ledger

variable [DecidableEq P]

theorem claimOn_delegatorsLedger (delegators : OrdMap K (Delegator P)) (p : P) :
    claimOn (delegatorsLedger delegators) p =
      delegators.sumBy fun _ d => if d.bondingPurse = p then d.stakedAmount else 0 := by
  unfold delegatorsLedger OrdMap.sumBy
  induction delegators.entries with
  | nil => rfl
  | cons e rest ih => simp [ih]

theorem claimOn_bidsLedger (bids : OrdMap K (Bid K P)) (p : P) :
    claimOn (bidsLedger bids) p = bids.sumBy fun _ b => claimOn b.ledger p :=
  claimOn_flatMap _ _ _

theorem claimOn_queueLedger_pending (s : AuctionState K P) (p : P) :
    claimOn (queueLedger s.pending) p = s.unbonds.sumBy fun _ l => claimOn (queueLedger l) p := by
  rw [AuctionState.pending, queueLedger, List.map_flatMap]
  exact claimOn_flatMap _ _ _

/-- Inserting a bid replaces what the old bid at its key owed by what the new one owes. -/
theorem claimOn_bidsLedger_insert (bids : OrdMap K (Bid K P)) (key : K) (bid : Bid K P) (p : P) :
    claimOn (bidsLedger (bids.insert key bid)) p +
        ((bids.find? key).map fun b => claimOn b.ledger p).getD 0 =
      claimOn (bidsLedger bids) p + claimOn bid.ledger p := by
  rw [claimOn_bidsLedger, claimOn_bidsLedger]
  exact OrdMap.sumBy_insert _ _ _ _

/-- Writing a bid replaces what the old bid at its key owed by what the new one owes. -/
theorem claimOn_ledger_writeBid (s : AuctionState K P) (key : K) (bid : Bid K P) (p : P) :
    claimOn (s.writeBid key bid).ledger p + ((s.readBid key).map fun b => claimOn b.ledger p).getD 0 =
      claimOn s.ledger p + claimOn bid.ledger p := by
  have h := claimOn_bidsLedger_insert s.bids key bid p
  simp only [AuctionState.ledger, AuctionState.pending_writeBid, AuctionState.bids_writeBid,
    claimOn_append, AuctionState.readBid] at h ⊢
  omega

/-- Writing a queue replaces what the old queue at its key held back by what the new one
holds. -/
theorem claimOn_ledger_writeUnbond (s : AuctionState K P) (key : K)
    (unbondingPurses : List (UnbondingPurse K P)) (p : P) :
    claimOn (s.writeUnbond key unbondingPurses).ledger p + claimOn (queueLedger (s.readUnbond key)) p =
      claimOn s.ledger p + claimOn (queueLedger unbondingPurses) p := by
  have h := OrdMap.sumBy_insert s.unbonds key unbondingPurses fun _ l => claimOn (queueLedger l) p
  have hold : ((s.unbonds.find? key).map fun l => claimOn (queueLedger l) p).getD 0 =
      claimOn (queueLedger (s.readUnbond key)) p := by
    unfold AuctionState.readUnbond
    cases s.unbonds.find? key <;> simp [queueLedger]
  simp only [AuctionState.ledger, claimOn_append, claimOn_queueLedger_pending] at h ⊢
  simp only [AuctionState.writeUnbond] at h ⊢
  omega

/-- A bid that keeps its purse and its delegators owes its new stake instead of its old one. -/
theorem claimOn_ledger_of_stake {bid bid' : Bid K P} (hpurse : bid'.bondingPurse = bid.bondingPurse)
    (hdelegators : bid'.delegators = bid.delegators) (p : P) :
    claimOn bid'.ledger p + (if bid.bondingPurse = p then bid.stakedAmount else 0) =
      claimOn bid.ledger p + (if bid.bondingPurse = p then bid'.stakedAmount else 0) := by
  simp only [Bid.ledger, claimOn_cons, hpurse, hdelegators]
  omega

/-- Writing a delegator replaces what the old delegator at its key owed. -/
theorem claimOn_delegatorsLedger_insert (delegators : OrdMap K (Delegator P)) (key : K)
    (delegator : Delegator P) (p : P) :
    claimOn (delegatorsLedger (delegators.insert key delegator)) p +
        ((delegators.find? key).map fun d => if d.bondingPurse = p then d.stakedAmount else 0).getD 0 =
      claimOn (delegatorsLedger delegators) p +
        if delegator.bondingPurse = p then delegator.stakedAmount else 0 := by
  rw [claimOn_delegatorsLedger, claimOn_delegatorsLedger]
  exact OrdMap.sumBy_insert _ _ _ _

/-- Removing a delegator drops what it owed. -/
theorem claimOn_delegatorsLedger_erase (delegators : OrdMap K (Delegator P)) (key : K) (p : P) :
    claimOn (delegatorsLedger (delegators.erase key)) p +
        ((delegators.find? key).map fun d => if d.bondingPurse = p then d.stakedAmount else 0).getD 0 =
      claimOn (delegatorsLedger delegators) p := by
  rw [claimOn_delegatorsLedger, claimOn_delegatorsLedger]
  exact OrdMap.sumBy_erase _ _ _

end Ledger

/-! ## Which purses the ledger names -/

theorem mem_bidsLedger_insert {bids : OrdMap K (Bid K P)} {key : K} {bid : Bid K P} {e : P × Nat}
    (h : e ∈ bidsLedger (bids.insert key bid)) : e ∈ bid.ledger ∨ e ∈ bidsLedger bids := by
  obtain ⟨b, hb, he⟩ := List.mem_flatMap.mp h
  rcases OrdMap.mem_insertEntry hb with rfl | hb
  · exact .inl he
  · exact .inr (List.mem_flatMap.mpr ⟨b, hb, he⟩)

theorem mem_ledger_writeBid {s : AuctionState K P} {key : K} {bid : Bid K P} {e : P × Nat}
    (h : e ∈ (s.writeBid key bid).ledger) : e ∈ bid.ledger ∨ e ∈ s.ledger := by
  rcases List.mem_append.mp h with h | h
  · rcases mem_bidsLedger_insert h with h | h
    · exact .inl h
    · exact .inr (List.mem_append_left _ h)
  · exact .inr (List.mem_append_right _ h)

theorem mem_pending_writeUnbond {s : AuctionState K P} {key : K}
    {unbondingPurses : List (UnbondingPurse K P)} {u : UnbondingPurse K P}
    (h : u ∈ (s.writeUnbond key unbondingPurses).pending) : u ∈ unbondingPurses ∨ u ∈ s.pending := by
  obtain ⟨e, he, hu⟩ := List.mem_flatMap.mp h
  rcases OrdMap.mem_insertEntry he with rfl | he
  · exact .inl hu
  · exact .inr (List.mem_flatMap.mpr ⟨e, he, hu⟩)

theorem mem_ledger_writeUnbond {s : AuctionState K P} {key : K}
    {unbondingPurses : List (UnbondingPurse K P)} {e : P × Nat}
    (h : e ∈ (s.writeUnbond key unbondingPurses).ledger) :
    e ∈ queueLedger unbondingPurses ∨ e ∈ s.ledger := by
  rcases List.mem_append.mp h with h | h
  · exact .inr (List.mem_append_left _ h)
  · obtain ⟨u, hu, rfl⟩ := List.mem_map.mp h
    rcases mem_pending_writeUnbond hu with hu | hu
    · exact .inl (List.mem_map_of_mem hu)
    · exact .inr (List.mem_append_right _ (List.mem_map_of_mem hu))

theorem mem_bidsLedger_of_find? {bids : OrdMap K (Bid K P)} {key : K} {bid : Bid K P}
    {e : P × Nat} (hbid : bids.find? key = some bid) (h : e ∈ bid.ledger) : e ∈ bidsLedger bids :=
  List.mem_flatMap.mpr ⟨_, OrdMap.mem_of_find?_eq_some hbid, h⟩

theorem mem_ledger_of_readBid {s : AuctionState K P} {key : K} {bid : Bid K P} {e : P × Nat}
    (hbid : s.readBid key = some bid) (h : e ∈ bid.ledger) : e ∈ s.ledger :=
  List.mem_append_left _ (mem_bidsLedger_of_find? hbid h)

theorem mem_pending_of_readUnbond {s : AuctionState K P} {key : K} {u : UnbondingPurse K P}
    (h : u ∈ s.readUnbond key) : u ∈ s.pending := by
  unfold AuctionState.readUnbond at h
  cases hfind : s.unbonds.find? key with
  | none => simp [hfind] at h
  | some l =>
    rw [hfind, Option.getD_some] at h
    exact List.mem_flatMap.mpr ⟨_, OrdMap.mem_of_find?_eq_some hfind, h⟩

theorem mem_ledger_of_readUnbond {s : AuctionState K P} {key : K} {e : P × Nat}
    (h : e ∈ queueLedger (s.readUnbond key)) : e ∈ s.ledger := by
  obtain ⟨u, hu, rfl⟩ := List.mem_map.mp h
  exact List.mem_append_right _ (List.mem_map_of_mem (mem_pending_of_readUnbond hu))

theorem mem_delegatorsLedger_insert {delegators : OrdMap K (Delegator P)} {key : K}
    {delegator : Delegator P} {e : P × Nat}
    (h : e ∈ delegatorsLedger (delegators.insert key delegator)) :
    e = (delegator.bondingPurse, delegator.stakedAmount) ∨ e ∈ delegatorsLedger delegators := by
  obtain ⟨d, hd, rfl⟩ := List.mem_map.mp h
  rcases OrdMap.mem_insertEntry hd with rfl | hd
  · exact .inl rfl
  · exact .inr (List.mem_map.mpr ⟨d, hd, rfl⟩)

theorem mem_delegatorsLedger_erase {delegators : OrdMap K (Delegator P)} {key : K} {e : P × Nat}
    (h : e ∈ delegatorsLedger (delegators.erase key)) : e ∈ delegatorsLedger delegators := by
  obtain ⟨d, hd, rfl⟩ := List.mem_map.mp h
  exact List.mem_map.mpr ⟨d, (OrdMap.mem_erase hd).1, rfl⟩

theorem mem_delegatorsLedger_of_find? {delegators : OrdMap K (Delegator P)} {key : K}
    {delegator : Delegator P} (h : delegators.find? key = some delegator) :
    (delegator.bondingPurse, delegator.stakedAmount) ∈ delegatorsLedger delegators :=
  List.mem_map.mpr ⟨_, OrdMap.mem_of_find?_eq_some h, rfl⟩

theorem mem_delegatorKeys_insert {bids : OrdMap K (Bid K P)} {key : K} {bid : Bid K P} {d : K}
    (h : d ∈ delegatorKeys (bids.insert key bid)) :
    d ∈ bid.delegators.entries.map Prod.fst ∨ d ∈ delegatorKeys bids := by
  obtain ⟨b, hb, hd⟩ := List.mem_flatMap.mp h
  rcases OrdMap.mem_insertEntry hb with rfl | hb
  · exact .inl hd
  · exact .inr (List.mem_flatMap.mpr ⟨b, hb, hd⟩)

theorem mem_delegatorKeys_of_find? {bids : OrdMap K (Bid K P)} {key : K} {bid : Bid K P} {d : K}
    (hbid : bids.find? key = some bid) (h : d ∈ bid.delegators.entries.map Prod.fst) :
    d ∈ delegatorKeys bids :=
  List.mem_flatMap.mpr ⟨_, OrdMap.mem_of_find?_eq_some hbid, h⟩

/-! ## The invariant -/

/-- A purse the ledger may name: it exists, and it is no account's main purse. -/
def PurseOk (mainPurse : K → Option P) (balances : P → Option Nat) (purse : P) : Prop :=
  (balances purse).isSome ∧ ∀ k, mainPurse k ≠ some purse

/-- Solvency over bids, unbonding queues and balances, for the accounts whose main purses
`mainPurse` gives: the balances cover the ledger, the ledger names only existing purses that
are no main purse, every main purse exists, and every delegator and unbonder has an account.
The unbonding entries are one list, so that the loop of `process_unbond_requests` can state it
over the entries it has still to pay. -/
structure LedgerSolvent (mainPurse : K → Option P) (bids : OrdMap K (Bid K P))
    (pending : List (UnbondingPurse K P)) (balances : P → Option Nat) [DecidableEq P] :
    Prop where
  covered : Covered (fun p => (balances p).getD 0) (bidsLedger bids ++ queueLedger pending)
  purse_ok : ∀ e ∈ bidsLedger bids ++ queueLedger pending, PurseOk mainPurse balances e.1
  main_funded : ∀ k p, mainPurse k = some p → (balances p).isSome
  delegators_have_accounts : ∀ d ∈ delegatorKeys bids, (mainPurse d).isSome
  unbonders_have_accounts : ∀ u ∈ pending, (mainPurse u.unbonderPublicKey).isSome

/-- The auction's solvency in a state. -/
def AuctionState.Solvent [DecidableEq P] (mainPurse : K → Option P) (s : AuctionState K P) :
    Prop :=
  LedgerSolvent mainPurse s.bids s.pending s.balances

omit [LinearOrder K] in
theorem PurseOk.mono {mainPurse : K → Option P} {balances balances' : P → Option Nat} {purse : P}
    (h : PurseOk mainPurse balances purse)
    (hbalances : ∀ p, (balances p).isSome → (balances' p).isSome) :
    PurseOk mainPurse balances' purse :=
  ⟨hbalances _ h.1, h.2⟩

section Steps

variable [DecidableEq P] {mainPurse : K → Option P} {bids bids' : OrdMap K (Bid K P)}
  {pending pending' : List (UnbondingPurse K P)} {balances balances' : P → Option Nat}

/-- A purse that was named before, or is good, is good after a step that keeps every purse. -/
theorem LedgerSolvent.purseOk_of_named (hs : LedgerSolvent mainPurse bids pending balances)
    {ledger : List (P × Nat)}
    (hledger : ∀ e ∈ ledger,
      e.1 ∈ (bidsLedger bids ++ queueLedger pending).map Prod.fst ∨ PurseOk mainPurse balances' e.1)
    (hbalances : ∀ p, (balances p).isSome → (balances' p).isSome) :
    ∀ e ∈ ledger, PurseOk mainPurse balances' e.1 := by
  intro e he
  rcases hledger e he with hmem | hok
  · obtain ⟨e', he', hfst⟩ := List.mem_map.mp hmem
    exact hfst ▸ (hs.purse_ok e' he').mono hbalances
  · exact hok

/-- A purse that does not exist yet is no main purse. -/
theorem LedgerSolvent.not_main (hs : LedgerSolvent mainPurse bids pending balances) {purse : P}
    (hnew : balances purse = none) (k : K) : mainPurse k ≠ some purse := fun hk => by
  have := hs.main_funded k purse hk
  rw [hnew] at this
  cases this

/-- A step keeps solvency when it keeps the ledger covered, names in the ledger only purses
the ledger named before or good purses, keeps every purse, and gives every delegator and
unbonder an account. -/
theorem LedgerSolvent.step (hs : LedgerSolvent mainPurse bids pending balances)
    (hcovered :
      Covered (fun p => (balances' p).getD 0) (bidsLedger bids' ++ queueLedger pending'))
    (hledger : ∀ e ∈ bidsLedger bids' ++ queueLedger pending',
      e.1 ∈ (bidsLedger bids ++ queueLedger pending).map Prod.fst ∨ PurseOk mainPurse balances' e.1)
    (hbalances : ∀ p, (balances p).isSome → (balances' p).isSome)
    (hdelegators : ∀ d ∈ delegatorKeys bids', (mainPurse d).isSome)
    (hunbonders : ∀ u ∈ pending', (mainPurse u.unbonderPublicKey).isSome) :
    LedgerSolvent mainPurse bids' pending' balances' where
  covered := hcovered
  purse_ok := hs.purseOk_of_named hledger hbalances
  main_funded k p hp := hbalances p (hs.main_funded k p hp)
  delegators_have_accounts := hdelegators
  unbonders_have_accounts := hunbonders

/-- The same, for states. -/
theorem AuctionState.Solvent.step {s s' : AuctionState K P} (hs : s.Solvent mainPurse)
    (hcovered : Covered s'.balanceOf s'.ledger)
    (hledger : ∀ e ∈ s'.ledger, e.1 ∈ s.ledger.map Prod.fst ∨ PurseOk mainPurse s'.balances e.1)
    (hbalances : ∀ p, (s.balances p).isSome → (s'.balances p).isSome)
    (hdelegators : ∀ d ∈ delegatorKeys s'.bids, (mainPurse d).isSome)
    (hunbonders : ∀ u ∈ s'.pending, (mainPurse u.unbonderPublicKey).isSome) :
    s'.Solvent mainPurse :=
  LedgerSolvent.step hs hcovered hledger hbalances hdelegators hunbonders

omit [LinearOrder K] in
/-- A ledger of good purses claims nothing from a main purse. -/
theorem claimOn_main {ledger : List (P × Nat)}
    (hledger : ∀ e ∈ ledger, PurseOk mainPurse balances e.1) {k : K} {p : P}
    (hp : mainPurse k = some p) : claimOn ledger p = 0 := by
  apply claimOn_eq_zero
  intro hmem
  obtain ⟨e, he, rfl⟩ := List.mem_map.mp hmem
  exact (hledger e he).2 k hp

end Steps

/-! ## Moving tokens -/

section Balances

variable [DecidableEq P]

namespace AuctionState

theorem transfer_eq_ok {s s' : AuctionState K P} {source target : P} {amount : Nat}
    (h : s.transfer source target amount = .ok s') :
    ∃ sourceBalance, s.balances source = some sourceBalance ∧ amount ≤ sourceBalance ∧
      (s.balances target).isSome ∧
      s' = { s with balances :=
        (Function.update (Function.update s.balances source (some (sourceBalance - amount)))
          target ((Function.update s.balances source (some (sourceBalance - amount)) target).map
            (· + amount))) } := by
  unfold transfer at h
  cases hsource : s.balances source with
  | none => simp [hsource] at h
  | some sourceBalance =>
    simp only [hsource] at h
    split_ifs at h with hlt
    cases htarget : s.balances target with
    | none => simp [htarget] at h
    | some targetBalance =>
      simp only [htarget, Except.ok.injEq] at h
      exact ⟨sourceBalance, rfl, Nat.not_lt.mp hlt, rfl, h.symm⟩

theorem ledger_of_transfer {s s' : AuctionState K P} {source target : P} {amount : Nat}
    (h : s.transfer source target amount = .ok s') : s'.ledger = s.ledger := by
  obtain ⟨_, -, -, -, rfl⟩ := transfer_eq_ok h
  rfl

theorem bids_of_transfer {s s' : AuctionState K P} {source target : P} {amount : Nat}
    (h : s.transfer source target amount = .ok s') : s'.bids = s.bids ∧ s'.unbonds = s.unbonds := by
  obtain ⟨_, -, -, -, rfl⟩ := transfer_eq_ok h
  exact ⟨rfl, rfl⟩

/-- A transfer takes the amount from the source's balance and adds it to the target's. -/
theorem balanceOf_transfer {s s' : AuctionState K P} {source target : P} {amount : Nat}
    (h : s.transfer source target amount = .ok s') (p : P) :
    s'.balanceOf p + (if source = p then amount else 0) =
      s.balanceOf p + (if target = p then amount else 0) := by
  obtain ⟨sourceBalance, hsource, hle, htarget, rfl⟩ := transfer_eq_ok h
  obtain ⟨targetBalance, htarget⟩ := Option.isSome_iff_exists.mp htarget
  unfold balanceOf
  by_cases hs : source = p <;> by_cases ht : target = p
  · subst hs ht
    simp [hsource]
    omega
  · subst hs
    simp [hsource, ht, Ne.symm ht]
    omega
  · subst ht
    have hts : target ≠ source := Ne.symm hs
    simp [htarget, hts, hs]
  · simp [Function.update_apply, Ne.symm hs, Ne.symm ht, hs, ht]

/-- A transfer makes no purse. -/
theorem none_of_transfer {s s' : AuctionState K P} {source target : P} {amount : Nat}
    (h : s.transfer source target amount = .ok s') {p : P} (hp : s.balances p = none) :
    s'.balances p = none := by
  obtain ⟨_, hsource, -, htarget, rfl⟩ := transfer_eq_ok h
  have hps : p ≠ source := fun heq => by rw [heq, hsource] at hp; cases hp
  have hpt : p ≠ target := fun heq => by rw [heq] at hp; rw [hp] at htarget; cases htarget
  simp [Function.update_apply, hps, hpt, hp]

theorem isSome_of_transfer {s s' : AuctionState K P} {source target : P} {amount : Nat}
    (h : s.transfer source target amount = .ok s') {p : P} (hp : (s.balances p).isSome) :
    (s'.balances p).isSome := by
  obtain ⟨_, -, -, -, rfl⟩ := transfer_eq_ok h
  simp only [Function.update_apply]
  split_ifs <;> simp_all

@[simp] theorem ledger_createPurse (s : AuctionState K P) (purse : P) :
    (s.createPurse purse).ledger = s.ledger := rfl

/-- A new purse holds nothing. -/
theorem balanceOf_createPurse {s : AuctionState K P} {purse : P} (hnew : s.balances purse = none)
    (p : P) : (s.createPurse purse).balanceOf p = s.balanceOf p := by
  unfold createPurse balanceOf
  by_cases hp : p = purse
  · subst hp
    simp [hnew]
  · simp [hp]

theorem isSome_of_createPurse (s : AuctionState K P) (purse : P) {p : P}
    (hp : (s.balances p).isSome ∨ p = purse) : ((s.createPurse purse).balances p).isSome := by
  unfold createPurse
  by_cases h : p = purse
  · simp [h]
  · simpa [Function.update_apply, h] using hp

theorem mintIntoExistingPurse_eq_ok {s s' : AuctionState K P} {amount : Nat} {purse : P}
    (h : s.mintIntoExistingPurse amount purse = .ok s') :
    s'.bids = s.bids ∧ s'.unbonds = s.unbonds ∧
      (∀ p, s'.balanceOf p = s.balanceOf p + if purse = p then amount else 0) ∧
      ∀ p, (s.balances p).isSome → (s'.balances p).isSome := by
  unfold mintIntoExistingPurse at h
  split_ifs at h with hzero
  · cases h
    exact ⟨rfl, rfl, by simp [hzero], fun _ hp => hp⟩
  · cases hpurse : s.balances purse with
    | none => simp [hpurse] at h
    | some balance =>
      simp only [hpurse, Except.ok.injEq] at h
      subst h
      refine ⟨rfl, rfl, ?_, ?_⟩
      · intro p
        unfold balanceOf
        by_cases hp : purse = p
        · subst hp
          simp [hpurse]
        · simp [Ne.symm hp, hp]
      · intro p hp
        simp only [Function.update_apply]
        split_ifs <;> simp_all

end AuctionState

end Balances

end CasperNode
