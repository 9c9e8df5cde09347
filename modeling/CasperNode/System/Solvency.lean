import CasperNode.System.Ledger

/-!
# The entry points keep the auction solvent

Each entry point that moves stake keeps the balances of the bonding purses above what the
ledger claims from them.  The argument is one of surplus, a purse's balance less its claims:
no step lowers the surplus of a purse that is not a main purse (`Solvent.of_surplus`), and a
main purse is claimed by nothing.  `add_bid` and `delegate` move an amount from the caller's
main purse into a bonding purse and add it to the stake there (`addBid_solvent`,
`handleDelegation_spec`); `withdraw_bid`, `undelegate` and `redelegate` take an amount off a
stake and queue it on the same purse (`Solvent.withdrawBid`, `Solvent.unbondDelegator`);
`activate_bid` changes no stake.
-/

namespace CasperNode

open Claims

variable {K P : Type} [LinearOrder K] [DecidableEq P] {mainPurse : K → Option P}

/-! ## Surplus -/

namespace AuctionState

/-- A step keeps solvency when it keeps the surplus of every purse that is no main purse, names
in the ledger only purses that were named or are good, keeps every purse, and gives every
delegator and unbonder an account. -/
theorem Solvent.of_surplus {s s' : AuctionState K P} (hs : s.Solvent mainPurse)
    (hledger : ∀ e ∈ s'.ledger, e.1 ∈ s.ledger.map Prod.fst ∨ PurseOk mainPurse s'.balances e.1)
    (hbalances : ∀ p, (s.balances p).isSome → (s'.balances p).isSome)
    (hdelegators : ∀ d ∈ delegatorKeys s'.bids, (mainPurse d).isSome)
    (hunbonders : ∀ u ∈ s'.pending, (mainPurse u.unbonderPublicKey).isSome)
    (hsurplus : ∀ p, (∀ k, mainPurse k ≠ some p) →
      claimOn s'.ledger p + s.balanceOf p ≤ claimOn s.ledger p + s'.balanceOf p) :
    s'.Solvent mainPurse := by
  -- the purses named afterwards are good, so a main purse is claimed by nothing
  have hok := hs.purseOk_of_named hledger hbalances
  refine hs.step (hs.covered.of_surplus (fun p => ∃ k, mainPurse k = some p) ?_ ?_) hledger
    hbalances hdelegators hunbonders
  · rintro p ⟨k, hk⟩
    exact claimOn_main hok hk
  · intro p hmain
    exact hsurplus p fun k hk => hmain ⟨k, hk⟩

/-- A step that moves no token and claims no more from any purse keeps solvency, when the
purses it names were named or are good and its delegators and unbonders have accounts. -/
theorem Solvent.of_le {s s' : AuctionState K P} (hs : s.Solvent mainPurse)
    (hbalances : s'.balances = s.balances)
    (hclaims : ∀ p, claimOn s'.ledger p ≤ claimOn s.ledger p)
    (hledger : ∀ e ∈ s'.ledger, e.1 ∈ s.ledger.map Prod.fst ∨ PurseOk mainPurse s'.balances e.1)
    (hdelegators : ∀ d ∈ delegatorKeys s'.bids, (mainPurse d).isSome)
    (hunbonders : ∀ u ∈ s'.pending, (mainPurse u.unbonderPublicKey).isSome) :
    s'.Solvent mainPurse := by
  refine hs.of_surplus hledger (fun p hp => hbalances ▸ hp) hdelegators hunbonders (fun p _ => ?_)
  have := hclaims p
  rw [balanceOf, balanceOf, hbalances]
  omega

/-- A change that takes from no purse more than it releases of the ledger's claims on it, names
no new purse, keeps every purse, and brings no new delegator or unbonding entry.  Unlike
solvency it composes: `distribute` raises stakes before it mints the tokens that cover them. -/
structure KeepsSurplus (s s' : AuctionState K P) : Prop where
  surplus : ∀ p, claimOn s'.ledger p + s.balanceOf p ≤ claimOn s.ledger p + s'.balanceOf p
  named : ∀ e ∈ s'.ledger, e.1 ∈ s.ledger.map Prod.fst
  balances : ∀ p, (s.balances p).isSome → (s'.balances p).isSome
  delegators : ∀ d ∈ delegatorKeys s'.bids, d ∈ delegatorKeys s.bids
  pending : ∀ u ∈ s'.pending, u ∈ s.pending

theorem KeepsSurplus.refl (s : AuctionState K P) : KeepsSurplus s s :=
  ⟨fun _ => le_refl _, fun _ he => List.mem_map_of_mem he, fun _ h => h, fun _ h => h,
    fun _ h => h⟩

theorem KeepsSurplus.trans {s₁ s₂ s₃ : AuctionState K P} (h₁ : KeepsSurplus s₁ s₂)
    (h₂ : KeepsSurplus s₂ s₃) : KeepsSurplus s₁ s₃ where
  surplus p := by
    have := h₁.surplus p
    have := h₂.surplus p
    omega
  named := names_trans h₁.named h₂.named
  balances p hp := h₂.balances p (h₁.balances p hp)
  delegators d hd := h₁.delegators d (h₂.delegators d hd)
  pending u hu := h₁.pending u (h₂.pending u hu)

theorem Solvent.of_keepsSurplus {s s' : AuctionState K P} (hs : s.Solvent mainPurse)
    (h : KeepsSurplus s s') : s'.Solvent mainPurse :=
  hs.of_surplus (fun e he => .inl (h.named e he)) h.balances
    (fun d hd => hs.delegators_have_accounts d (h.delegators d hd))
    (fun u hu => hs.unbonders_have_accounts u (h.pending u hu)) (fun p _ => h.surplus p)

/-- A change of bids and queues alone that claims no more from any purse and names nothing
new keeps the surplus. -/
theorem KeepsSurplus.of_le {s s' : AuctionState K P} (hbalances : s'.balances = s.balances)
    (hclaims : ∀ p, claimOn s'.ledger p ≤ claimOn s.ledger p)
    (hnamed : ∀ e ∈ s'.ledger, e.1 ∈ s.ledger.map Prod.fst)
    (hdelegators : ∀ d ∈ delegatorKeys s'.bids, d ∈ delegatorKeys s.bids)
    (hpending : ∀ u ∈ s'.pending, u ∈ s.pending) : KeepsSurplus s s' where
  surplus p := by
    have := hclaims p
    rw [balanceOf, balanceOf, hbalances]
    omega
  named := hnamed
  balances p hp := hbalances ▸ hp
  delegators := hdelegators
  pending := hpending

end AuctionState

/-! ## What a bid claims -/

theorem claimOn_bid_ledger (bid : Bid K P) (p : P) :
    claimOn bid.ledger p =
      (if bid.bondingPurse = p then bid.stakedAmount else 0) +
        claimOn (delegatorsLedger bid.delegators) p := by
  simp [Bid.ledger]

omit [DecidableEq P] in
@[simp] theorem delegatorsLedger_empty : delegatorsLedger (OrdMap.empty : OrdMap K (Delegator P)) = [] :=
  rfl

omit [DecidableEq P] in
/-- The purses a bid names are its own and its delegators'. -/
theorem mem_bid_ledger {bid : Bid K P} {e : P × Nat} :
    e ∈ bid.ledger ↔ e = (bid.bondingPurse, bid.stakedAmount) ∨ e ∈ delegatorsLedger bid.delegators :=
  List.mem_cons

omit [DecidableEq P] in
theorem Bid.slashed_purses (bid : Bid K P) :
    bid.slashed.ledger.map Prod.fst = bid.ledger.map Prod.fst := by
  simp [Bid.slashed, Bid.ledger, delegatorsLedger, OrdMap.mapVal, Function.comp_def]

omit [DecidableEq P] in
theorem Bid.slashed_keys (bid : Bid K P) :
    bid.slashed.delegators.entries.map Prod.fst = bid.delegators.entries.map Prod.fst := by
  simp [Bid.slashed, OrdMap.mapVal, Function.comp_def]

/-- A slashed bid claims nothing. -/
theorem Bid.claimOn_slashed (bid : Bid K P) (p : P) : claimOn bid.slashed.ledger p = 0 := by
  apply claimOn_eq_zero_of_amounts
  intro c hc
  rcases mem_bid_ledger.mp hc with rfl | hc
  · rfl
  · obtain ⟨e, he, rfl⟩ := List.mem_map.mp hc
    exact slashed_delegators bid e he

namespace AuctionState

omit [DecidableEq P] in
/-- Writing over a bid one that names no other purse and no other delegator names only what
was named. -/
theorem named_writeBid {s : AuctionState K P} {key : K} {bid : Bid K P}
    (hbid : s.readBid key = some bid) (bid' : Bid K P)
    (hpurses : ∀ e ∈ bid'.ledger, e.1 ∈ bid.ledger.map Prod.fst)
    (hkeys : ∀ d ∈ bid'.delegators.entries.map Prod.fst, d ∈ bid.delegators.entries.map Prod.fst) :
    (∀ e ∈ (s.writeBid key bid').ledger, e.1 ∈ s.ledger.map Prod.fst) ∧
      ∀ d ∈ delegatorKeys (s.writeBid key bid').bids, d ∈ delegatorKeys s.bids := by
  refine ⟨fun e he => ?_, fun d hd => ?_⟩
  · rcases mem_ledger_writeBid he with he | he
    · exact List.map_subset Prod.fst (fun _ => mem_ledger_of_readBid hbid) (hpurses e he)
    · exact List.mem_map_of_mem he
  · rcases mem_delegatorKeys_insert hd with hd | hd
    · exact mem_delegatorKeys_of_find? hbid (hkeys d hd)
    · exact hd

omit [DecidableEq P] in
/-- The same, for a bid with the old one's purse and delegators and another stake. -/
theorem named_writeBid_of_stake {s : AuctionState K P} {key : K} {bid bid' : Bid K P}
    (hbid : s.readBid key = some bid) (hpurse : bid'.bondingPurse = bid.bondingPurse)
    (hdelegators : bid'.delegators = bid.delegators) :
    (∀ e ∈ (s.writeBid key bid').ledger, e.1 ∈ s.ledger.map Prod.fst) ∧
      ∀ d ∈ delegatorKeys (s.writeBid key bid').bids, d ∈ delegatorKeys s.bids := by
  refine named_writeBid hbid bid' (fun e he => ?_) (fun d hd => hdelegators ▸ hd)
  rcases mem_bid_ledger.mp he with rfl | he
  · exact List.mem_map.mpr ⟨_, List.mem_cons_self, hpurse.symm⟩
  · rw [hdelegators] at he
    exact List.mem_map_of_mem (List.mem_cons_of_mem _ he)

/-- Writing over a bid one with its purse and delegators trades the old stake for the new in
what the ledger claims from that purse. -/
theorem claimOn_writeBid_of_stake {s : AuctionState K P} {key : K} {bid bid' : Bid K P}
    (hbid : s.readBid key = some bid) (hpurse : bid'.bondingPurse = bid.bondingPurse)
    (hdelegators : bid'.delegators = bid.delegators) (p : P) :
    claimOn (s.writeBid key bid').ledger p + (if bid.bondingPurse = p then bid.stakedAmount else 0) =
      claimOn s.ledger p + (if bid.bondingPurse = p then bid'.stakedAmount else 0) := by
  have hwrite := claimOn_ledger_writeBid s key bid' p
  have hstake := claimOn_ledger_of_stake hpurse hdelegators p
  rw [hbid, Option.map_some, Option.getD_some] at hwrite
  omega

omit [DecidableEq P] in
@[simp] theorem balanceOf_writeBid (s : AuctionState K P) (key : K) (bid : Bid K P) (p : P) :
    (s.writeBid key bid).balanceOf p = s.balanceOf p := rfl

omit [LinearOrder K] [DecidableEq P] in
/-- A main purse is none of the purses the surplus argument looks at. -/
theorem ne_of_main {publicKey : K} {source : P} (hsource : mainPurse publicKey = some source)
    {p : P} (hp : ∀ k, mainPurse k ≠ some p) : source ≠ p := fun hsp =>
  hp publicKey (hsp ▸ hsource)

/-! ## `add_bid` -/

/-- `add_bid` from the caller's main purse keeps the auction solvent: the amount moves from the
main purse into the bid's bonding purse, a new one for a new bid, and joins the stake. -/
theorem addBid_solvent {s s' : AuctionState K P} (hs : s.Solvent mainPurse) {publicKey : K}
    {source newPurse : P} (hsource : mainPurse publicKey = some source)
    (hnew : s.balances newPurse = none) {delegationRate amount stake : Nat}
    (h : s.addBid publicKey source newPurse delegationRate amount = .ok (s', stake)) :
    s'.Solvent mainPurse := by
  unfold addBid at h
  split_ifs at h with hzero hrate
  cases hbid : s.readBid publicKey with
  | some bid =>
    simp only [hbid] at h
    cases htransfer : s.transfer source bid.bondingPurse amount with
    | error e => simp [htransfer] at h
    | ok s₁ =>
      simp only [htransfer] at h
      cases hinc : ({ bid with inactive := false, delegationRate := delegationRate } : Bid K P).increaseStake
          amount with
      | error e => simp [hinc] at h
      | ok bid' =>
        simp only [hinc, Except.ok.injEq, Prod.mk.injEq] at h
        obtain ⟨rfl, -⟩ := h
        obtain ⟨-, hbid'⟩ := Bid.increaseStake_eq_ok.mp hinc
        have hpurse : bid'.bondingPurse = bid.bondingPurse := by rw [hbid']
        have hdelegators : bid'.delegators = bid.delegators := by rw [hbid']
        have hstake : bid'.stakedAmount = bid.stakedAmount + amount := by rw [hbid']
        obtain ⟨hbids₁, hunbonds₁⟩ := bids_of_transfer htransfer
        have hbid₁ : s₁.readBid publicKey = some bid := by rw [readBid, hbids₁]; exact hbid
        obtain ⟨hnamed, hkeys⟩ := named_writeBid_of_stake hbid₁ hpurse hdelegators
        rw [ledger_of_transfer htransfer] at hnamed
        refine hs.of_surplus (fun e he => .inl (hnamed e he))
          (fun p hp => isSome_of_transfer htransfer hp)
          (fun d hd => hs.delegators_have_accounts d (hbids₁ ▸ hkeys d hd))
          (fun u hu => hs.unbonders_have_accounts u (by
            simpa [AuctionState.pending, writeBid, hunbonds₁] using hu)) (fun p hp => ?_)
        -- the bid's purse gains the amount in its stake and in its balance
        have hclaim := claimOn_writeBid_of_stake hbid₁ hpurse hdelegators p
        have hbal := balanceOf_transfer htransfer p
        rw [ledger_of_transfer htransfer] at hclaim
        rw [if_neg (ne_of_main hsource hp)] at hbal
        rw [balanceOf_writeBid]
        split_ifs at hclaim hbal <;> omega
  | none =>
    simp only [hbid] at h
    cases htransfer : (s.createPurse newPurse).transfer source newPurse amount with
    | error e => simp [htransfer] at h
    | ok s₁ =>
      simp only [htransfer, Except.ok.injEq, Prod.mk.injEq] at h
      obtain ⟨rfl, -⟩ := h
      obtain ⟨hbids₁, hunbonds₁⟩ := bids_of_transfer htransfer
      have hbid₁ : s₁.readBid publicKey = none := by rw [readBid, hbids₁]; exact hbid
      have hcreated : (s₁.balances newPurse).isSome :=
        isSome_of_transfer htransfer (isSome_of_createPurse s newPurse (.inr rfl))
      refine hs.of_surplus (fun e he => ?_)
        (fun p hp => isSome_of_transfer htransfer (isSome_of_createPurse s newPurse (.inl hp)))
        (fun d hd => ?_)
        (fun u hu => hs.unbonders_have_accounts u (by
          simpa [AuctionState.pending, writeBid, hunbonds₁, createPurse] using hu)) (fun p hp => ?_)
      · -- the new bid names only its new purse, which exists now and is no main purse
        rcases mem_ledger_writeBid he with he | he
        · obtain rfl : e = (newPurse, amount) := by
            simpa [Bid.ledger, delegatorsLedger, OrdMap.empty] using he
          exact .inr ⟨hcreated, hs.not_main hnew⟩
        · rw [ledger_of_transfer htransfer, ledger_createPurse] at he
          exact .inl (List.mem_map_of_mem he)
      · rcases mem_delegatorKeys_insert hd with hd | hd
        · simp [OrdMap.empty] at hd
        · exact hs.delegators_have_accounts d (by simpa [hbids₁, createPurse] using hd)
      · -- the new purse holds the amount, and the new bid claims it
        have hclaim := claimOn_ledger_writeBid s₁ publicKey
          ⟨newPurse, amount, delegationRate, none, OrdMap.empty, false⟩ p
        have hbal := balanceOf_transfer htransfer p
        rw [hbid₁, ledger_of_transfer htransfer, ledger_createPurse, claimOn_bid_ledger] at hclaim
        rw [if_neg (ne_of_main hsource hp), balanceOf_createPurse hnew] at hbal
        rw [Option.map_none, Option.getD_none, delegatorsLedger_empty, claimOn_nil] at hclaim
        dsimp only at hclaim
        rw [balanceOf_writeBid]
        split_ifs at hclaim hbal <;> omega

/-! ## `slash` and `activate_bid` -/

/-- A change of nothing the ledger reads keeps the surplus. -/
theorem KeepsSurplus.of_eq {s s' : AuctionState K P} (hbids : s'.bids = s.bids)
    (hunbonds : s'.unbonds = s.unbonds) (hbalances : s'.balances = s.balances) :
    KeepsSurplus s s' := by
  have hpending : s'.pending = s.pending := by
    unfold AuctionState.pending
    rw [hunbonds]
  have hledger : s'.ledger = s.ledger := by
    unfold AuctionState.ledger
    rw [hbids, hpending]
  exact .of_le hbalances (fun p => hledger ▸ le_refl _)
    (fun e he => List.mem_map_of_mem (hledger ▸ he)) (fun d hd => hbids ▸ hd)
    (fun u hu => hpending ▸ hu)

/-- Writing over a bid one that claims no more from any purse, names none but its purses, and
has none but its delegators keeps the surplus. -/
theorem keepsSurplus_writeBid {s : AuctionState K P} {key : K} {bid bid' : Bid K P}
    (hbid : s.readBid key = some bid) (hclaims : ∀ p, claimOn bid'.ledger p ≤ claimOn bid.ledger p)
    (hpurses : ∀ e ∈ bid'.ledger, e.1 ∈ bid.ledger.map Prod.fst)
    (hkeys : ∀ d ∈ bid'.delegators.entries.map Prod.fst, d ∈ bid.delegators.entries.map Prod.fst) :
    KeepsSurplus s (s.writeBid key bid') := by
  obtain ⟨hnamed, hdelegators⟩ := named_writeBid hbid bid' hpurses hkeys
  refine .of_le rfl (fun p => ?_) hnamed hdelegators (fun u hu => hu)
  have hwrite := claimOn_ledger_writeBid s key bid' p
  have := hclaims p
  rw [hbid, Option.map_some, Option.getD_some] at hwrite
  omega

/-- Emptying a queue keeps the surplus. -/
theorem keepsSurplus_writeUnbond_nil (s : AuctionState K P) (key : K) :
    KeepsSurplus s (s.writeUnbond key []) := by
  refine .of_le rfl (fun p => ?_) (fun e he => ?_) (fun d hd => hd) (fun u hu => ?_)
  · have := claimOn_ledger_writeUnbond s key [] p
    simp only [queueLedger, List.map_nil, claimOn_nil] at this
    omega
  · rcases mem_ledger_writeUnbond he with he | he
    · simp [queueLedger] at he
    · exact List.mem_map_of_mem he
  · rcases mem_pending_writeUnbond hu with hu | hu
    · simp at hu
    · exact hu

theorem keepsSurplus_slashOne (acc : AuctionState K P × Nat) (v : K) :
    KeepsSurplus acc.1 (slashOne acc v).1 := by
  obtain ⟨s, burned⟩ := acc
  -- the bid is slashed first, then the queue emptied
  dsimp only [slashOne]
  cases hbid : s.readBid v with
  | none =>
    dsimp only
    cases s.readUnbond v with
    | nil => exact .refl s
    | cons u rest => exact keepsSurplus_writeUnbond_nil s v
  | some bid =>
    have h₁ : KeepsSurplus s (s.writeBid v bid.slashed) :=
      keepsSurplus_writeBid hbid (fun p => by rw [bid.claimOn_slashed p]; exact Nat.zero_le _)
        (fun e he => bid.slashed_purses ▸ List.mem_map_of_mem he)
        (fun d hd => bid.slashed_keys ▸ hd)
    dsimp only
    cases (s.writeBid v bid.slashed).readUnbond v with
    | nil => exact h₁
    | cons u rest => exact h₁.trans (keepsSurplus_writeUnbond_nil _ v)

theorem keepsSurplus_foldl_slashOne (validators : List K) (acc : AuctionState K P × Nat) :
    KeepsSurplus acc.1 (validators.foldl slashOne acc).1 := by
  induction validators generalizing acc with
  | nil => exact .refl _
  | cons v rest ih => exact (keepsSurplus_slashOne acc v).trans (ih _)

/-- `slash` keeps the surplus: it zeroes stakes and empties queues and moves no token. -/
theorem keepsSurplus_slash {s s' : AuctionState K P} {validators : List K}
    (h : s.slash validators = .ok s') : KeepsSurplus s s' := by
  unfold AuctionState.slash at h
  generalize hfold : validators.foldl slashOne (s, 0) = acc at h
  obtain ⟨s₁, burned⟩ := acc
  have h₁ : KeepsSurplus s s₁ := by
    have := keepsSurplus_foldl_slashOne validators (s, 0)
    rwa [hfold] at this
  cases hreduce : s₁.reduceTotalSupply burned with
  | error e => simp [hreduce] at h
  | ok s₂ =>
    simp only [hreduce, Except.ok.injEq] at h
    subst h
    refine h₁.trans (.of_eq (reduceTotalSupply_bids hreduce) ?_ (reduceTotalSupply_balances hreduce))
    unfold reduceTotalSupply at hreduce
    split_ifs at hreduce <;> cases hreduce <;> rfl

/-- `activate_bid` changes no stake. -/
theorem keepsSurplus_activateBid {s s' : AuctionState K P} {v : K}
    (h : s.activateBid v = .ok s') : KeepsSurplus s s' := by
  unfold activateBid at h
  cases hbid : s.readBid v with
  | none => simp [hbid] at h
  | some bid =>
    simp only [hbid, Except.ok.injEq] at h
    subst h
    exact keepsSurplus_writeBid hbid (fun p => le_refl _) (fun e he => List.mem_map_of_mem he)
      (fun d hd => hd)

/-! ## The unbonding queue -/

/-- `s'` is `s` with unbonding entries queued that claim `added` and are owed to accounts among
`unbonders`; bids and balances are as they were. -/
structure Queued (s s' : AuctionState K P) (added : List (P × Nat)) (unbonders : List K) :
    Prop where
  bids : s'.bids = s.bids
  balances : s'.balances = s.balances
  claims : ∀ p, claimOn s'.ledger p = claimOn s.ledger p + claimOn added p
  named : ∀ e ∈ s'.ledger, e ∈ s.ledger ∨ e ∈ added
  pending : ∀ u ∈ s'.pending, u ∈ s.pending ∨ u.unbonderPublicKey ∈ unbonders

theorem Queued.refl (s : AuctionState K P) : Queued s s [] [] :=
  ⟨rfl, rfl, fun _ => by rw [claimOn_nil, Nat.add_zero], fun _ he => .inl he, fun _ hu => .inl hu⟩

theorem Queued.trans {s₁ s₂ s₃ : AuctionState K P} {added₁ added₂ : List (P × Nat)}
    {unbonders₁ unbonders₂ : List K} (h₁ : Queued s₁ s₂ added₁ unbonders₁)
    (h₂ : Queued s₂ s₃ added₂ unbonders₂) :
    Queued s₁ s₃ (added₁ ++ added₂) (unbonders₁ ++ unbonders₂) where
  bids := h₂.bids.trans h₁.bids
  balances := h₂.balances.trans h₁.balances
  claims p := by
    rw [h₂.claims, h₁.claims, claimOn_append]
    omega
  named e he := by
    rcases h₂.named e he with he | he
    · rcases h₁.named e he with he | he
      · exact .inl he
      · exact .inr (List.mem_append_left _ he)
    · exact .inr (List.mem_append_right _ he)
  pending u hu := by
    rcases h₂.pending u hu with hu | hu
    · rcases h₁.pending u hu with hu | hu
      · exact .inl hu
      · exact .inr (List.mem_append_left _ hu)
    · exact .inr (List.mem_append_right _ hu)

/-- `create_unbonding_purse` queues one entry. -/
theorem createUnbondingPurse_queued {s s' : AuctionState K P} {validator unbonder : K}
    {purse : P} {amount : Nat} {newValidator : Option K} {eraId : Nat}
    (h : s.createUnbondingPurse validator unbonder purse amount newValidator eraId = .ok s') :
    Queued s s' [(purse, amount)] [unbonder] := by
  unfold createUnbondingPurse at h
  split_ifs at h with hlt
  cases h
  refine ⟨rfl, rfl, fun p => ?_, fun e he => ?_, fun u hu => ?_⟩
  · have := claimOn_ledger_writeUnbond s validator
      (s.readUnbond validator ++ [⟨purse, validator, unbonder, eraId, amount, newValidator⟩]) p
    simp only [queueLedger, List.map_append, List.map_cons, List.map_nil, claimOn_append] at this ⊢
    omega
  · rcases mem_ledger_writeUnbond he with he | he
    · rw [queueLedger, List.map_append, List.mem_append] at he
      rcases he with he | he
      · exact .inl (mem_ledger_of_readUnbond he)
      · simp only [List.map_cons, List.map_nil, List.mem_singleton] at he
        exact .inr (List.mem_singleton.mpr he)
    · exact .inl he
  · rcases mem_pending_writeUnbond hu with hu | hu
    · rcases List.mem_append.mp hu with hu | hu
      · exact .inl (mem_pending_of_readUnbond hu)
      · rw [List.mem_singleton] at hu
        subst hu
        exact .inr List.mem_cons_self
    · exact .inl hu

/-- The loop of `withdraw_bid` queues every delegator's stake. -/
theorem unbondDelegators_queued {validator : K} {eraId : Nat} :
    ∀ {s s' : AuctionState K P} {l : List (K × Delegator P)},
      s.unbondDelegators validator eraId l = .ok s' →
        Queued s s' (l.map fun e => (e.2.bondingPurse, e.2.stakedAmount)) (l.map Prod.fst)
  | s, s', [], h => by
    cases h
    exact .refl s
  | s, s', (d, delegator) :: rest, h => by
    unfold unbondDelegators at h
    cases hq : s.createUnbondingPurse validator d delegator.bondingPurse delegator.stakedAmount
        none eraId with
    | error e => simp [hq] at h
    | ok s₁ =>
      simp only [hq] at h
      exact (createUnbondingPurse_queued hq).trans (unbondDelegators_queued h)

/-- Queuing entries and writing back the bid they came from keeps solvency, when the new bid
with the entries claims no more than the old bid, names none but its purses and delegators,
and the entries are owed to accounts. -/
theorem Solvent.queue_writeBid {s s₁ : AuctionState K P} (hs : s.Solvent mainPurse)
    {added : List (P × Nat)} {unbonders : List K} (hq : Queued s s₁ added unbonders) {key : K}
    {bid bid' : Bid K P} (hbid : s.readBid key = some bid)
    (hclaims : ∀ p, claimOn bid'.ledger p + claimOn added p ≤ claimOn bid.ledger p)
    (hpurses : ∀ e ∈ bid'.ledger ++ added, e.1 ∈ bid.ledger.map Prod.fst)
    (hkeys : ∀ d ∈ bid'.delegators.entries.map Prod.fst, d ∈ bid.delegators.entries.map Prod.fst)
    (haccounts : ∀ u ∈ unbonders, (mainPurse u).isSome) :
    (s₁.writeBid key bid').Solvent mainPurse := by
  have hbid₁ : s₁.readBid key = some bid := by rw [readBid, hq.bids]; exact hbid
  -- a purse of the old bid is a purse of the ledger
  have hbidPurse : ∀ e ∈ bid'.ledger ++ added, e.1 ∈ s.ledger.map Prod.fst := fun e he =>
    List.map_subset Prod.fst (fun _ => mem_ledger_of_readBid hbid) (hpurses e he)
  refine hs.of_le hq.balances (fun p => ?_) (fun e he => .inl ?_) (fun d hd => ?_) (fun u hu => ?_)
  · have hwrite := claimOn_ledger_writeBid s₁ key bid' p
    have := hclaims p
    rw [hbid₁, Option.map_some, Option.getD_some, hq.claims] at hwrite
    omega
  · rcases mem_ledger_writeBid he with he | he
    · exact hbidPurse e (List.mem_append_left _ he)
    · rcases hq.named e he with he | he
      · exact List.mem_map_of_mem he
      · exact hbidPurse e (List.mem_append_right _ he)
  · rcases mem_delegatorKeys_insert hd with hd | hd
    · exact hs.delegators_have_accounts d (mem_delegatorKeys_of_find? hbid (hkeys d hd))
    · exact hs.delegators_have_accounts d (hq.bids ▸ hd)
  · rcases hq.pending u hu with hu | hu
    · exact hs.unbonders_have_accounts u hu
    · exact haccounts _ hu

/-! ## `withdraw_bid`, `undelegate` and `redelegate` -/

/-- `withdraw_bid` by a validator with an account keeps the auction solvent: the amount leaves
the stake for the queue, and at zero every delegator's stake follows it. -/
theorem withdrawBid_solvent {s s' : AuctionState K P} (hs : s.Solvent mainPurse) {publicKey : K}
    (haccount : (mainPurse publicKey).isSome) {amount eraId eraEndTimestampMillis stake : Nat}
    (h : s.withdrawBid publicKey amount eraId eraEndTimestampMillis = .ok (s', stake)) :
    s'.Solvent mainPurse := by
  unfold withdrawBid at h
  cases hbid : s.readBid publicKey with
  | none => simp [hbid] at h
  | some bid =>
    simp only [hbid] at h
    cases hdecrease : bid.decreaseStake amount eraEndTimestampMillis with
    | error e => simp [hdecrease] at h
    | ok bid' =>
      simp only [hdecrease] at h
      obtain ⟨hle, hbid'⟩ := Bid.decreaseStake_eq_ok hdecrease
      have hpurse : bid'.bondingPurse = bid.bondingPurse := by rw [hbid']
      have hdelegators : bid'.delegators = bid.delegators := by rw [hbid']
      have hstake : bid'.stakedAmount = bid.stakedAmount - amount := by rw [hbid']
      cases hq : s.createUnbondingPurse publicKey publicKey bid'.bondingPurse amount none eraId with
      | error e => simp [hq] at h
      | ok s₁ =>
        simp only [hq] at h
        have hq₁ := createUnbondingPurse_queued hq
        have hown : (bid.bondingPurse, bid.stakedAmount) ∈ bid.ledger := List.mem_cons_self
        split_ifs at h with hzero
        · -- at zero every delegator's stake is queued too, and the bid emptied
          cases hd : s₁.unbondDelegators publicKey eraId bid'.delegators.entries with
          | error e => simp [hd] at h
          | ok s₂ =>
            simp only [hd, Except.ok.injEq, Prod.mk.injEq] at h
            obtain ⟨rfl, -⟩ := h
            refine hs.queue_writeBid (hq₁.trans (unbondDelegators_queued hd)) hbid (fun p => ?_)
              (fun e he => ?_) (fun d hd => by simp [OrdMap.empty] at hd) (fun u hu => ?_)
            · simp only [Bid.ledger, delegatorsLedger_empty, claimOn_cons, claimOn_nil,
                claimOn_append, hpurse, hzero, hdelegators]
              rw [delegatorsLedger]
              split_ifs <;> omega
            · simp only [Bid.ledger, delegatorsLedger_empty, hpurse, hdelegators, List.cons_append,
                List.nil_append, List.mem_cons] at he
              rcases he with rfl | rfl | he
              · exact List.mem_map.mpr ⟨_, hown, rfl⟩
              · exact List.mem_map.mpr ⟨_, hown, rfl⟩
              · exact List.mem_map_of_mem (List.mem_cons_of_mem _ he)
            · rcases List.mem_append.mp hu with hu | hu
              · rw [List.mem_singleton] at hu
                exact hu ▸ haccount
              · rw [hdelegators] at hu
                exact hs.delegators_have_accounts u (mem_delegatorKeys_of_find? hbid hu)
        · simp only [Except.ok.injEq, Prod.mk.injEq] at h
          obtain ⟨rfl, -⟩ := h
          refine hs.queue_writeBid hq₁ hbid (fun p => ?_) (fun e he => ?_)
            (fun d hd => hdelegators ▸ hd) (fun u hu => ?_)
          · have := claimOn_ledger_of_stake hpurse hdelegators p
            rw [claimOn_cons, claimOn_nil, hpurse]
            split_ifs at this ⊢ <;> omega
          · rcases List.mem_append.mp he with he | he
            · rcases mem_bid_ledger.mp he with rfl | he
              · exact List.mem_map.mpr ⟨_, hown, hpurse.symm⟩
              · exact List.mem_map_of_mem (List.mem_cons_of_mem _ (hdelegators ▸ he))
            · rw [List.mem_singleton] at he
              exact List.mem_map.mpr ⟨_, hown, by rw [he, hpurse]⟩
          · rw [List.mem_singleton] at hu
            exact hu ▸ haccount

section Unbonded

variable {delegators : OrdMap K (Delegator P)} {key : K} {delegator delegator' : Delegator P}
  {amount : Nat}

/-- Lowering a delegator's stake by `amount`, and removing it at zero as `unbond_delegator`
does, releases `amount` of what the delegators claim from its purse. -/
theorem claimOn_unbondedDelegators (hfind : delegators.find? key = some delegator)
    (hdelegator' : delegator' = { delegator with stakedAmount := delegator.stakedAmount - amount })
    (hle : amount ≤ delegator.stakedAmount) (p : P) :
    claimOn (delegatorsLedger (if delegator'.stakedAmount = 0 then delegators.erase key
        else delegators.insert key delegator')) p +
        (if delegator.bondingPurse = p then amount else 0) =
      claimOn (delegatorsLedger delegators) p := by
  subst hdelegator'
  by_cases hzero : delegator.stakedAmount - amount = 0
  · rw [if_pos hzero]
    have h := claimOn_delegatorsLedger_erase delegators key p
    rw [hfind, Option.map_some, Option.getD_some] at h
    split_ifs at h ⊢ <;> omega
  · rw [if_neg hzero]
    have h := claimOn_delegatorsLedger_insert delegators key
      { delegator with stakedAmount := delegator.stakedAmount - amount } p
    rw [hfind, Option.map_some, Option.getD_some] at h
    dsimp only at h ⊢
    split_ifs at h ⊢ <;> omega

omit [DecidableEq P] in
theorem purses_unbondedDelegators (hfind : delegators.find? key = some delegator)
    (hpurse : delegator'.bondingPurse = delegator.bondingPurse) :
    ∀ e ∈ delegatorsLedger (if delegator'.stakedAmount = 0 then delegators.erase key
        else delegators.insert key delegator'),
      e.1 ∈ (delegatorsLedger delegators).map Prod.fst := by
  intro e he
  split_ifs at he
  · exact List.mem_map_of_mem (mem_delegatorsLedger_erase he)
  · rcases mem_delegatorsLedger_insert he with rfl | he
    · exact List.mem_map.mpr ⟨_, mem_delegatorsLedger_of_find? hfind, hpurse.symm⟩
    · exact List.mem_map_of_mem he

omit [DecidableEq P] in
theorem keys_unbondedDelegators (hfind : delegators.find? key = some delegator) :
    ∀ d ∈ (if delegator'.stakedAmount = 0 then delegators.erase key
        else delegators.insert key delegator').entries.map Prod.fst,
      d ∈ delegators.entries.map Prod.fst := by
  intro d hd
  split_ifs at hd
  · obtain ⟨e, he, rfl⟩ := List.mem_map.mp hd
    exact List.mem_map_of_mem (OrdMap.mem_erase he).1
  · rwa [OrdMap.keys_insert_of_find? hfind] at hd

end Unbonded

/-- The body of `undelegate` and `redelegate` keeps the auction solvent: the amount leaves the
delegator's stake for the queue, owed to the delegator. -/
theorem unbondDelegator_solvent {s s' : AuctionState K P} (hs : s.Solvent mainPurse)
    {delegatorPublicKey validatorPublicKey : K} {amount : Nat} {newValidator : Option K}
    {eraId eraEndTimestampMillis stake : Nat}
    (h : s.unbondDelegator delegatorPublicKey validatorPublicKey amount newValidator eraId
      eraEndTimestampMillis = .ok (s', stake)) :
    s'.Solvent mainPurse := by
  unfold unbondDelegator at h
  cases hbid : s.readBid validatorPublicKey with
  | none => simp [hbid] at h
  | some bid =>
    simp only [hbid] at h
    cases hfind : bid.delegators.find? delegatorPublicKey with
    | none => simp [hfind] at h
    | some delegator =>
      simp only [hfind] at h
      cases hq : s.createUnbondingPurse validatorPublicKey delegatorPublicKey
          delegator.bondingPurse amount newValidator eraId with
      | error e => simp [hq] at h
      | ok s₁ =>
        simp only [hq] at h
        cases hdecrease : delegator.decreaseStake amount eraEndTimestampMillis with
        | error e => simp [hdecrease] at h
        | ok delegator' =>
          simp only [hdecrease, Except.ok.injEq, Prod.mk.injEq] at h
          obtain ⟨rfl, -⟩ := h
          obtain ⟨hle, hdelegator'⟩ := Delegator.decreaseStake_eq_ok hdecrease
          have hpurse : delegator'.bondingPurse = delegator.bondingPurse := by rw [hdelegator']
          have hmem := mem_delegatorsLedger_of_find? hfind
          refine hs.queue_writeBid (createUnbondingPurse_queued hq) hbid (fun p => ?_) (fun e he => ?_)
            (keys_unbondedDelegators hfind) (fun u hu => ?_)
          · have := claimOn_unbondedDelegators hfind hdelegator' hle p
            simp only [claimOn_bid_ledger, claimOn_cons, claimOn_nil]
            omega
          · rcases List.mem_append.mp he with he | he
            · rcases mem_bid_ledger.mp he with rfl | he
              · exact List.mem_map_of_mem List.mem_cons_self
              · exact List.map_subset Prod.fst (List.subset_cons_self _ _)
                  (purses_unbondedDelegators hfind hpurse e he)
            · rw [List.mem_singleton] at he
              subst he
              exact List.mem_map.mpr ⟨_, List.mem_cons_of_mem _ hmem, rfl⟩
          · rw [List.mem_singleton] at hu
            subst hu
            exact hs.delegators_have_accounts _
              (mem_delegatorKeys_of_find? hbid (List.mem_map_of_mem (OrdMap.mem_of_find?_eq_some hfind)))

/-! ## `delegate` -/

section Delegation

variable {bids : OrdMap K (Bid K P)} {validator delegatorKey : K} {bid : Bid K P}
  {delegator' : Delegator P} {amount : Nat}

/-- Writing a delegator's raised stake into its validator's bid adds the raise to what the bids
claim from the delegator's purse. -/
theorem claimOn_insert_delegator (hbid : bids.find? validator = some bid)
    (hold : ∀ d, bid.delegators.find? delegatorKey = some d →
      d.bondingPurse = delegator'.bondingPurse ∧ delegator'.stakedAmount = d.stakedAmount + amount)
    (hnew : bid.delegators.find? delegatorKey = none → delegator'.stakedAmount = amount) (p : P) :
    claimOn (bidsLedger (bids.insert validator
        { bid with delegators := bid.delegators.insert delegatorKey delegator' })) p =
      claimOn (bidsLedger bids) p + if delegator'.bondingPurse = p then amount else 0 := by
  have hbids := claimOn_bidsLedger_insert bids validator
    { bid with delegators := bid.delegators.insert delegatorKey delegator' } p
  have hdelegators := claimOn_delegatorsLedger_insert bid.delegators delegatorKey delegator' p
  rw [hbid, Option.map_some, Option.getD_some, claimOn_bid_ledger, claimOn_bid_ledger] at hbids
  dsimp only at hbids
  -- the delegator's old stake, if it had one, is what the new one raises
  cases hfind : bid.delegators.find? delegatorKey with
  | none =>
    rw [hfind, Option.map_none, Option.getD_none, hnew hfind] at hdelegators
    omega
  | some d =>
    obtain ⟨hpurse, hstake⟩ := hold d hfind
    rw [hfind, Option.map_some, Option.getD_some, hpurse, hstake] at hdelegators
    split_ifs at hdelegators ⊢ <;> omega

omit [DecidableEq P] in
theorem named_insert_delegator (hbid : bids.find? validator = some bid) :
    ∀ e ∈ bidsLedger (bids.insert validator
        { bid with delegators := bid.delegators.insert delegatorKey delegator' }),
      e.1 ∈ (bidsLedger bids).map Prod.fst ∨ e.1 = delegator'.bondingPurse := by
  intro e he
  have hown : ∀ e ∈ bid.ledger, e.1 ∈ (bidsLedger bids).map Prod.fst := fun e he =>
    List.mem_map_of_mem (mem_bidsLedger_of_find? hbid he)
  rcases mem_bidsLedger_insert he with he | he
  · rcases mem_bid_ledger.mp he with rfl | he
    · exact .inl (hown _ List.mem_cons_self)
    · rcases mem_delegatorsLedger_insert he with rfl | he
      · exact .inr rfl
      · exact .inl (hown e (List.mem_cons_of_mem _ he))
  · exact .inl (List.mem_map_of_mem he)

omit [DecidableEq P] in
theorem delegatorKeys_insert_delegator (hbid : bids.find? validator = some bid) :
    ∀ k ∈ delegatorKeys (bids.insert validator
        { bid with delegators := bid.delegators.insert delegatorKey delegator' }),
      k ∈ delegatorKeys bids ∨ k = delegatorKey := by
  intro k hk
  rcases mem_delegatorKeys_insert hk with hk | hk
  · obtain ⟨e, he, rfl⟩ := List.mem_map.mp hk
    rcases OrdMap.mem_insertEntry he with rfl | he
    · exact .inr rfl
    · exact .inl (mem_delegatorKeys_of_find? hbid (List.mem_map_of_mem he))
  · exact .inl hk

end Delegation

/-- What `handle_delegation` leaves: `amount` moved from `source` into the delegator's purse
`purse`, its own or the new purse, and added to what the bids claim from it; no queue changes,
no bid is added, and the one new delegator is `delegator`. -/
structure Delegated (s s' : AuctionState K P) (delegator : K) (source newPurse purse : P)
    (amount : Nat) : Prop where
  purse_named : purse ∈ (bidsLedger s.bids).map Prod.fst ∨ purse = newPurse
  unbonds : s'.unbonds = s.unbonds
  claims : ∀ p, claimOn (bidsLedger s'.bids) p =
    claimOn (bidsLedger s.bids) p + if purse = p then amount else 0
  balances : ∀ p, s'.balanceOf p + (if source = p then amount else 0) =
    s.balanceOf p + if purse = p then amount else 0
  kept : ∀ p, (s.balances p).isSome → (s'.balances p).isSome
  purse_exists : (s'.balances purse).isSome
  fresh : ∀ p, p ≠ newPurse → s.balances p = none → s'.balances p = none
  named : ∀ e ∈ bidsLedger s'.bids, e.1 ∈ (bidsLedger s.bids).map Prod.fst ∨ e.1 = purse
  delegators : ∀ d ∈ delegatorKeys s'.bids, d ∈ delegatorKeys s.bids ∨ d = delegator
  keys : s'.bids.entries.map Prod.fst = s.bids.entries.map Prod.fst

/-- `handle_delegation` on the bid of `validatorPublicKey`, with a purse `newPurse` that does not
exist yet. -/
theorem handleDelegation_delegated {s s' : AuctionState K P} {bid : Bid K P}
    {delegatorPublicKey validatorPublicKey : K} {source newPurse : P} {amount stake : Nat}
    (hbid : s.readBid validatorPublicKey = some bid) (hnew : s.balances newPurse = none)
    (h : s.handleDelegation bid delegatorPublicKey validatorPublicKey source amount newPurse =
      .ok (s', stake)) :
    ∃ purse, Delegated s s' delegatorPublicKey source newPurse purse amount := by
  unfold handleDelegation at h
  cases hfind : bid.delegators.find? delegatorPublicKey with
  | some delegator =>
    -- the delegator has a purse: the amount goes there and raises its stake
    simp only [hfind] at h
    cases htransfer : s.transfer source delegator.bondingPurse amount with
    | error e => simp [htransfer] at h
    | ok s₁ =>
      simp only [htransfer] at h
      cases hincrease : delegator.increaseStake amount with
      | error e => simp [hincrease] at h
      | ok delegator' =>
        simp only [hincrease, Except.ok.injEq, Prod.mk.injEq] at h
        obtain ⟨rfl, -⟩ := h
        obtain ⟨-, hdelegator'⟩ := Delegator.increaseStake_eq_ok hincrease
        have hpurse : delegator'.bondingPurse = delegator.bondingPurse := by rw [hdelegator']
        obtain ⟨hbids₁, hunbonds₁⟩ := bids_of_transfer htransfer
        rw [readBid, ← hbids₁] at hbid
        obtain ⟨-, -, -, htarget, -⟩ := transfer_eq_ok htransfer
        refine ⟨delegator.bondingPurse, ⟨?_, hunbonds₁, fun p => ?_,
          fun p => by rw [balanceOf_writeBid]; exact balanceOf_transfer htransfer p,
          fun p hp => isSome_of_transfer htransfer hp, isSome_of_transfer htransfer htarget,
          fun p _ hp => none_of_transfer htransfer hp, fun e he => ?_, fun d hd => ?_, ?_⟩⟩
        · have hmem := mem_bidsLedger_of_find? hbid
            (List.mem_cons_of_mem _ (mem_delegatorsLedger_of_find? hfind))
          exact .inl (hbids₁ ▸ List.mem_map_of_mem hmem)
        · rw [← hbids₁, ← hpurse]
          exact claimOn_insert_delegator hbid
            (fun d hd => by
              obtain rfl := Option.some.inj (hfind.symm.trans hd)
              exact ⟨hpurse.symm, by rw [hdelegator']⟩)
            (fun hnone => by rw [hfind] at hnone; cases hnone) p
        · rw [← hbids₁, ← hpurse]
          exact named_insert_delegator hbid e he
        · rw [← hbids₁]
          exact delegatorKeys_insert_delegator hbid d hd
        · rw [← hbids₁]
          exact OrdMap.keys_insert_of_find? hbid _
  | none =>
    -- a new delegator: its purse is created and the amount moved there
    simp only [hfind] at h
    cases htransfer : (s.createPurse newPurse).transfer source newPurse amount with
    | error e => simp [htransfer] at h
    | ok s₁ =>
      simp only [htransfer, Except.ok.injEq, Prod.mk.injEq] at h
      obtain ⟨rfl, -⟩ := h
      have hbids₁ : s₁.bids = s.bids := (bids_of_transfer htransfer).1
      have hunbonds₁ : s₁.unbonds = s.unbonds := (bids_of_transfer htransfer).2
      rw [readBid, ← hbids₁] at hbid
      refine ⟨newPurse, ⟨.inr rfl, hunbonds₁, fun p => ?_, fun p => ?_,
        fun p hp => isSome_of_transfer htransfer (isSome_of_createPurse s newPurse (.inl hp)),
        isSome_of_transfer htransfer (isSome_of_createPurse s newPurse (.inr rfl)),
        fun p hne hp => none_of_transfer htransfer ?_, fun e he => ?_, fun d hd => ?_, ?_⟩⟩
      · rw [← hbids₁]
        exact claimOn_insert_delegator hbid
          (fun d hd => by rw [hfind] at hd; cases hd) (fun _ => rfl) p
      · rw [balanceOf_writeBid, balanceOf_transfer htransfer p, balanceOf_createPurse hnew]
      · simp [createPurse, hne, hp]
      · rw [← hbids₁]
        exact named_insert_delegator hbid e he
      · rw [← hbids₁]
        exact delegatorKeys_insert_delegator hbid d hd
      · rw [← hbids₁]
        exact OrdMap.keys_insert_of_find? hbid _

/-- After `handle_delegation` with a purse `newPurse` that did not exist, the bids name purses
they named before, or the new purse, which exists now and is no main purse. -/
theorem Delegated.named_or_ok {s s' : AuctionState K P} {delegator : K} {source newPurse purse : P}
    {amount : Nat} (hd : Delegated s s' delegator source newPurse purse amount)
    {pending : List (UnbondingPurse K P)} (hs : LedgerSolvent mainPurse s.bids pending s.balances)
    (hnew : s.balances newPurse = none) :
    ∀ e ∈ bidsLedger s'.bids,
      e.1 ∈ (bidsLedger s.bids).map Prod.fst ∨ PurseOk mainPurse s'.balances e.1 := by
  intro e he
  rcases hd.named e he with he | he
  · exact .inl he
  · rcases hd.purse_named with hnamed | rfl
    · exact .inl (he ▸ hnamed)
    · exact .inr ⟨he ▸ hd.purse_exists, he ▸ hs.not_main hnew⟩

omit [DecidableEq P] in
theorem pending_of_unbonds {s s' : AuctionState K P} (h : s'.unbonds = s.unbonds) :
    s'.pending = s.pending := by
  unfold AuctionState.pending
  rw [h]

/-- `delegate` from the delegator's main purse keeps the auction solvent. -/
theorem delegate_solvent {s s' : AuctionState K P} (hs : s.Solvent mainPurse)
    {delegatorPublicKey validatorPublicKey : K} {source newPurse : P}
    (hsource : mainPurse delegatorPublicKey = some source) (hnew : s.balances newPurse = none)
    {amount minimumDelegationAmount stake : Nat}
    (h : s.delegate delegatorPublicKey validatorPublicKey source amount minimumDelegationAmount
      newPurse = .ok (s', stake)) :
    s'.Solvent mainPurse := by
  unfold delegate at h
  cases hbid : s.readBid validatorPublicKey with
  | none => simp only [hbid] at h; split_ifs at h
  | some bid =>
    simp only [hbid] at h
    split_ifs at h with hzero hminimum
    obtain ⟨purse, hd⟩ := handleDelegation_delegated hbid hnew h
    have hpending := pending_of_unbonds hd.unbonds
    refine hs.of_surplus (fun e he => ?_) hd.kept (fun d hd' => ?_)
      (fun u hu => hs.unbonders_have_accounts u (hpending ▸ hu)) (fun p hp => ?_)
    · rcases List.mem_append.mp he with he | he
      · rcases hd.named_or_ok hs hnew e he with he | hok
        · exact .inl (List.map_subset Prod.fst (List.subset_append_left _ _) he)
        · exact .inr hok
      · rw [hpending] at he
        exact .inl (List.mem_map_of_mem (List.mem_append_right _ he))
    · rcases hd.delegators d hd' with hd' | rfl
      · exact hs.delegators_have_accounts d hd'
      · rw [hsource]
        rfl
    · -- the delegator's purse gains the amount in its stake and in its balance
      have hclaims := hd.claims p
      have hbalances := hd.balances p
      rw [if_neg (ne_of_main hsource hp)] at hbalances
      simp only [ledger, claimOn_append, hpending, hclaims]
      split_ifs at hbalances ⊢ <;> omega

end AuctionState

/-! ## `distribute` -/

/-- What delegator payouts add to each purse: each is minted into its bonding purse. -/
def payoutLedger (payouts : List (K × Nat × P)) : List (P × Nat) :=
  payouts.map fun e => (e.2.2, e.2.1)

omit [LinearOrder K] in
@[simp] theorem claimOn_payoutLedger_cons (x : K × Nat × P) (payouts : List (K × Nat × P)) (p : P) :
    claimOn (payoutLedger (x :: payouts)) p =
      (if x.2.2 = p then x.2.1 else 0) + claimOn (payoutLedger payouts) p := by
  rw [payoutLedger, List.map_cons, claimOn_cons, ← payoutLedger]

/-- The loop of `reinvest_delegator_rewards` raises each rewarded delegator's stake by the payout
it records, and names no new purse or delegator. -/
theorem reinvestLoop_spec {validator : K} {rewards : List (K × Option ℚ)} :
    ∀ {delegators delegators' : OrdMap K (Delegator P)}
      {allocations allocations' : List (SeigniorageAllocation K)} {payouts payouts' : List (K × Nat × P)},
      reinvestLoop validator delegators allocations payouts rewards =
          some (.ok (delegators', allocations', payouts')) →
        ∃ extra, payouts' = payouts ++ extra ∧
          (∀ p, claimOn (delegatorsLedger delegators') p =
            claimOn (delegatorsLedger delegators) p + claimOn (payoutLedger extra) p) ∧
          (∀ e ∈ delegatorsLedger delegators', e.1 ∈ (delegatorsLedger delegators).map Prod.fst) ∧
          delegators'.entries.map Prod.fst = delegators.entries.map Prod.fst := by
  induction rewards with
  | nil =>
    intro delegators delegators' allocations allocations' payouts payouts' h
    simp only [reinvestLoop, Option.some.injEq, Except.ok.injEq, Prod.mk.injEq] at h
    obtain ⟨rfl, -, rfl⟩ := h
    exact ⟨[], (List.append_nil _).symm, fun p => by simp [payoutLedger],
      fun e he => List.mem_map_of_mem he, rfl⟩
  | cons reward rest ih =>
    intro delegators delegators' allocations allocations' payouts payouts' h
    obtain ⟨key, reward⟩ := reward
    cases reward with
    | none =>
      rw [reinvestLoop_panic] at h
      cases h
    | some reward =>
      rw [reinvestLoop] at h
      cases hfind : delegators.find? key with
      | none =>
        simp only [hfind] at h
        exact ih h
      | some delegator =>
        simp only [hfind] at h
        cases hadd : u512CheckedAdd delegator.stakedAmount (ratioToInteger reward) with
        | none => simp [hadd] at h
        | some stakedAmount =>
          simp only [hadd] at h
          obtain ⟨-, rfl⟩ := u512CheckedAdd_eq_some.mp hadd
          obtain ⟨extra, rfl, hclaims, hnamed, hkeys⟩ := ih h
          refine ⟨(key, ratioToInteger reward, delegator.bondingPurse) :: extra, by simp,
            fun p => ?_, fun e he => ?_, hkeys.trans (OrdMap.keys_insert_of_find? hfind _)⟩
          · -- the delegator's stake rises by the payout minted into its purse
            have hinsert := claimOn_delegatorsLedger_insert delegators key
              { delegator with stakedAmount := delegator.stakedAmount + ratioToInteger reward } p
            rw [hfind, Option.map_some, Option.getD_some] at hinsert
            dsimp only at hinsert
            rw [hclaims p, claimOn_payoutLedger_cons]
            dsimp only
            split_ifs at hinsert ⊢ <;> omega
          · obtain ⟨e', he', hfst⟩ := List.mem_map.mp (hnamed e he)
            rcases mem_delegatorsLedger_insert he' with rfl | he'
            · exact List.mem_map.mpr ⟨_, mem_delegatorsLedger_of_find? hfind, hfst⟩
            · exact List.mem_map.mpr ⟨e', he', hfst⟩

namespace AuctionState

omit [DecidableEq P] in
theorem ledger_eq_of {s s' : AuctionState K P} (hbids : s'.bids = s.bids)
    (hunbonds : s'.unbonds = s.unbonds) : s'.ledger = s.ledger := by
  unfold AuctionState.ledger
  rw [hbids, pending_of_unbonds hunbonds]

/-- `s'` owes `credit p` more from each purse `p` than `s`, with the same balances, the same
queues, and no new purse or delegator. -/
structure Credited (s s' : AuctionState K P) (credit : P → Nat) : Prop where
  claims : ∀ p, claimOn s'.ledger p = claimOn s.ledger p + credit p
  balances : s'.balances = s.balances
  named : ∀ e ∈ s'.ledger, e.1 ∈ s.ledger.map Prod.fst
  delegators : ∀ d ∈ delegatorKeys s'.bids, d ∈ delegatorKeys s.bids
  pending : s'.pending = s.pending

/-- `s'` holds `minted p` more in each purse `p` than `s` and owes the same. -/
structure Minted (s s' : AuctionState K P) (minted : P → Nat) : Prop where
  bids : s'.bids = s.bids
  unbonds : s'.unbonds = s.unbonds
  balances : ∀ p, s'.balanceOf p = s.balanceOf p + minted p
  kept : ∀ p, (s.balances p).isSome → (s'.balances p).isSome

theorem Credited.trans {s₁ s₂ s₃ : AuctionState K P} {credit₁ credit₂ : P → Nat}
    (h₁ : Credited s₁ s₂ credit₁) (h₂ : Credited s₂ s₃ credit₂) :
    Credited s₁ s₃ fun p => credit₁ p + credit₂ p where
  claims p := by
    rw [h₂.claims, h₁.claims]
    omega
  balances := h₂.balances.trans h₁.balances
  named := names_trans h₁.named h₂.named
  delegators d hd := h₁.delegators d (h₂.delegators d hd)
  pending := h₂.pending.trans h₁.pending

omit [DecidableEq P] in
theorem Minted.trans {s₁ s₂ s₃ : AuctionState K P} {minted₁ minted₂ : P → Nat}
    (h₁ : Minted s₁ s₂ minted₁) (h₂ : Minted s₂ s₃ minted₂) :
    Minted s₁ s₃ fun p => minted₁ p + minted₂ p where
  bids := h₂.bids.trans h₁.bids
  unbonds := h₂.unbonds.trans h₁.unbonds
  balances p := by
    rw [h₂.balances, h₁.balances]
    omega
  kept p hp := h₂.kept p (h₁.kept p hp)

/-- Raising the claims on purses and then minting at least as much into them keeps the
surplus. -/
theorem Credited.keepsSurplus {s₁ s₂ s₃ : AuctionState K P} {credit minted : P → Nat}
    (hcredited : Credited s₁ s₂ credit) (hminted : Minted s₂ s₃ minted)
    (hle : ∀ p, credit p ≤ minted p) : KeepsSurplus s₁ s₃ := by
  have hledger : s₃.ledger = s₂.ledger := ledger_eq_of hminted.bids hminted.unbonds
  refine ⟨fun p => ?_, fun e he => hcredited.named e (hledger ▸ he), fun p hp => ?_,
    fun d hd => hcredited.delegators d (hminted.bids ▸ hd), fun u hu => ?_⟩
  · have hclaims := hcredited.claims p
    have hbalances := hminted.balances p
    have := hle p
    rw [hledger, hclaims, hbalances, balanceOf, balanceOf, hcredited.balances]
    omega
  · exact hminted.kept p (hcredited.balances ▸ hp)
  · rw [pending_of_unbonds hminted.unbonds, hcredited.pending] at hu
    exact hu

/-- `reinvest_delegator_rewards` raises the delegators' stakes by the payouts it returns. -/
theorem reinvestDelegatorRewards_credited {s s' : AuctionState K P}
    {allocations allocations' : List (SeigniorageAllocation K)} {validator : K}
    {rewards : List (K × Option ℚ)} {payouts : List (K × Nat × P)}
    (h : s.reinvestDelegatorRewards allocations validator rewards =
      some (.ok (s', allocations', payouts))) :
    Credited s s' fun p => claimOn (payoutLedger payouts) p := by
  unfold reinvestDelegatorRewards at h
  cases hbid : s.readBid validator with
  | none => simp [hbid] at h
  | some bid =>
    simp only [hbid] at h
    cases hloop : reinvestLoop validator bid.delegators allocations [] rewards with
    | none => simp [hloop] at h
    | some result =>
      rcases result with e | ⟨delegators', allocations'', payouts''⟩
      · simp [hloop] at h
      · simp only [hloop, Option.some.injEq, Except.ok.injEq, Prod.mk.injEq] at h
        obtain ⟨rfl, -, rfl⟩ := h
        obtain ⟨extra, rfl, hclaims, hnamed, hkeys⟩ := reinvestLoop_spec hloop
        obtain ⟨hnamed', hdelegators'⟩ := named_writeBid hbid { bid with delegators := delegators' }
          (fun e he => by
            rcases mem_bid_ledger.mp he with rfl | he
            · exact List.mem_map_of_mem List.mem_cons_self
            · exact List.map_subset Prod.fst (List.subset_cons_self _ _) (hnamed e he))
          (fun d hd => hkeys ▸ hd)
        refine ⟨fun p => ?_, rfl, hnamed', hdelegators', rfl⟩
        have hwrite := claimOn_ledger_writeBid s validator { bid with delegators := delegators' } p
        rw [hbid, Option.map_some, Option.getD_some, claimOn_bid_ledger, claimOn_bid_ledger,
          hclaims p] at hwrite
        dsimp only at hwrite
        omega

/-- `reinvest_validator_reward` raises the validator's stake by the amount, in the purse it
returns. -/
theorem reinvestValidatorReward_credited {s s' : AuctionState K P}
    {allocations allocations' : List (SeigniorageAllocation K)} {validator : K} {amount : Nat}
    {purse : P} (h : s.reinvestValidatorReward allocations validator amount =
      .ok (s', allocations', purse)) :
    Credited s s' fun p => if purse = p then amount else 0 := by
  unfold reinvestValidatorReward at h
  cases hbid : s.readBid validator with
  | none => simp [hbid] at h
  | some bid =>
    simp only [hbid] at h
    cases hincrease : bid.increaseStake amount with
    | error e => simp [hincrease] at h
    | ok bid' =>
      simp only [hincrease, Except.ok.injEq, Prod.mk.injEq] at h
      obtain ⟨rfl, -, rfl⟩ := h
      obtain ⟨-, hbid'⟩ := Bid.increaseStake_eq_ok.mp hincrease
      have hpurse : bid'.bondingPurse = bid.bondingPurse := by rw [hbid']
      have hdelegators : bid'.delegators = bid.delegators := by rw [hbid']
      have hstake : bid'.stakedAmount = bid.stakedAmount + amount := by rw [hbid']
      obtain ⟨hnamed, hkeys⟩ := named_writeBid_of_stake hbid hpurse hdelegators
      refine ⟨fun p => ?_, rfl, hnamed, hkeys, rfl⟩
      have := claimOn_writeBid_of_stake hbid hpurse hdelegators p
      rw [hpurse]
      split_ifs at this ⊢ <;> omega

theorem mintIntoExistingPurse_minted {s s' : AuctionState K P} {amount : Nat} {purse : P}
    (h : s.mintIntoExistingPurse amount purse = .ok s') :
    Minted s s' fun p => if purse = p then amount else 0 :=
  let ⟨hbids, hunbonds, hbalances, hkept⟩ := mintIntoExistingPurse_eq_ok h
  ⟨hbids, hunbonds, hbalances, hkept⟩

/-- Minting the delegators' payouts adds each to its bonding purse. -/
theorem mintPayouts_minted :
    ∀ {s s' : AuctionState K P} {payouts : List (K × Nat × P)}, s.mintPayouts payouts = .ok s' →
      Minted s s' fun p => claimOn (payoutLedger payouts) p
  | s, s', [], h => by
    cases h
    exact ⟨rfl, rfl, fun p => by simp [payoutLedger], fun _ hp => hp⟩
  | s, s', (key, payout, purse) :: rest, h => by
    unfold mintPayouts at h
    cases hmint : s.mintIntoExistingPurse payout purse with
    | error e => simp [hmint] at h
    | ok s₁ =>
      simp only [hmint] at h
      have hminted := (mintIntoExistingPurse_minted hmint).trans (mintPayouts_minted h)
      refine ⟨hminted.bids, hminted.unbonds, fun p => ?_, hminted.kept⟩
      rw [hminted.balances p, claimOn_payoutLedger_cons]

/-- One validator's round of `distribute` raises stakes by what it mints into their purses. -/
theorem payRecipient_keepsSurplus {s s' : AuctionState K P}
    {allocations allocations' : List (SeigniorageAllocation K)} {publicKey : K}
    {recipient : SeigniorageRecipient K} {totalReward part : ℚ} {delegatorTotalStake : Nat}
    (h : s.payRecipient allocations publicKey recipient totalReward part delegatorTotalStake =
      some (.ok (s', allocations'))) :
    KeepsSurplus s s' := by
  unfold payRecipient at h
  cases hdelegators : s.reinvestDelegatorRewards allocations publicKey
      (delegatorRewards recipient part delegatorTotalStake) with
  | none => simp [hdelegators] at h
  | some result =>
    rcases result with e | ⟨s₁, allocations₁, payouts⟩
    · simp [hdelegators] at h
    rw [hdelegators] at h
    dsimp only at h
    split at h
    · contradiction
    · rename_i validatorsPart _
      cases hvalidator : s₁.reinvestValidatorReward allocations₁ publicKey
          (ratioToInteger validatorsPart) with
      | error e => simp [hvalidator] at h
      | ok result =>
        obtain ⟨s₂, allocations₂, purse⟩ := result
        simp only [hvalidator] at h
        cases hmint : s₂.mintIntoExistingPurse (ratioToInteger validatorsPart) purse with
        | error e => simp [hmint] at h
        | ok s₃ =>
          simp only [hmint] at h
          cases hpayouts : s₃.mintPayouts payouts with
          | error e => simp [hpayouts] at h
          | ok s₄ =>
            simp only [hpayouts, Option.some.injEq, Except.ok.injEq, Prod.mk.injEq] at h
            obtain ⟨rfl, -⟩ := h
            -- the stakes rise by the payouts and the validator's reward, and so do the purses
            exact ((reinvestDelegatorRewards_credited hdelegators).trans
              (reinvestValidatorReward_credited hvalidator)).keepsSurplus
              ((mintIntoExistingPurse_minted hmint).trans (mintPayouts_minted hpayouts))
              (fun p => by omega)

/-- A round of `distribute` changes nothing, at a zero total stake, or pays its recipient. -/
theorem keepsSurplus_distributeOne {s s' : AuctionState K P}
    {recipients : OrdMap K (SeigniorageRecipient K)} {baseRoundReward : Nat}
    {allocations allocations' : List (SeigniorageAllocation K)} {publicKey : K} {rewardFactor : Nat}
    (h : s.distributeOne recipients baseRoundReward allocations publicKey rewardFactor =
      some (.ok (s', allocations'))) :
    KeepsSurplus s s' := by
  unfold distributeOne at h
  -- every other early return is an error or a panic
  split at h
  · cases h
  split at h
  · cases h
  split_ifs at h
  · cases h
    exact .refl s
  split at h
  · cases h
  split at h
  · cases h
  split at h
  · cases h
  split at h
  · cases h
  · cases h
  · exact payRecipient_keepsSurplus h

/-- `distribute` keeps the surplus, round after round. -/
theorem keepsSurplus_distribute {recipients : OrdMap K (SeigniorageRecipient K)}
    {baseRoundReward : Nat} :
    ∀ {s s' : AuctionState K P} {allocations allocations' : List (SeigniorageAllocation K)}
      {rewardFactors : List (K × Nat)},
      distribute recipients baseRoundReward s allocations rewardFactors =
          some (.ok (s', allocations')) →
        KeepsSurplus s s'
  | s, s', allocations, allocations', [], h => by
    simp only [distribute, Option.some.injEq, Except.ok.injEq, Prod.mk.injEq] at h
    obtain ⟨rfl, -⟩ := h
    exact .refl s
  | s, s', allocations, allocations', (publicKey, rewardFactor) :: rest, h => by
    unfold distribute at h
    cases hone : s.distributeOne recipients baseRoundReward allocations publicKey rewardFactor with
    | none => simp [hone] at h
    | some result =>
      rcases result with e | ⟨s₁, allocations₁⟩
      · simp [hone] at h
      · simp only [hone] at h
        exact (keepsSurplus_distributeOne hone).trans (keepsSurplus_distribute h)

end AuctionState

end CasperNode
