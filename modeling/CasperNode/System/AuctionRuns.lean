import CasperNode.System.Solvency

/-!
# Runs of the auction stay solvent

`run_auction` first pays the unbonding queue (`process_unbond_requests`).  Its loops keep
solvency over the entries still queued (`Paying`): an entry paid back leaves its purse with
its amount, and a redelegation moves its amount from its purse into a delegator's purse and
stake.  A purse the loop creates is one `newPurses` has not given before, so it holds nothing
the ledger claims.  In a solvent state every payment's transfer goes through
(`payUnbondingPurse_error`): the purse holds the amount, and the target exists.  The bids
`run_auction` read before paying are written back afterwards when one of them changed; they
claim no more than the bids the payments left, since a payment only raises a stake.

Every entry point is a call of a run (`AuctionCall`), and a call that fails or panics leaves
the state as it was (`AuctionCall.step`).  From a solvent genesis, by calls whose callers draw
on their own main purses and get new purses (`AuctionCall.Allowed`), every state is solvent,
and `run_auction` can then fail only on a stake that overflows (`auction_solvent`).
-/

namespace CasperNode

open Claims

variable {K P : Type} [LinearOrder K] [DecidableEq P] {mainPurse : K → Option P}

/-! ## The entries still queued -/

section Queue

variable {pre post : List (UnbondingPurse K P)} {u : UnbondingPurse K P}

omit [LinearOrder K] in
theorem claimOn_queueLedger_split (p : P) :
    claimOn (queueLedger (pre ++ u :: post)) p =
      claimOn (queueLedger (pre ++ post)) p + if u.bondingPurse = p then u.amount else 0 := by
  simp only [queueLedger, List.map_append, List.map_cons, claimOn_append, claimOn_cons]
  omega

omit [LinearOrder K] [DecidableEq P] in
theorem mem_split_of_mem {x : UnbondingPurse K P} (hx : x ∈ pre ++ post) : x ∈ pre ++ u :: post := by
  rcases List.mem_append.mp hx with hx | hx
  · exact List.mem_append_left _ hx
  · exact List.mem_append_right _ (List.mem_cons_of_mem _ hx)

omit [LinearOrder K] [DecidableEq P] in
theorem mem_queueLedger_split_of_mem {e : P × Nat} (he : e ∈ queueLedger (pre ++ post)) :
    e ∈ queueLedger (pre ++ u :: post) := by
  obtain ⟨x, hx, rfl⟩ := List.mem_map.mp he
  exact List.mem_map_of_mem (mem_split_of_mem hx)

omit [LinearOrder K] [DecidableEq P] in
/-- A purse named over the entries left was named over the entries before. -/
theorem mem_ledger_split_of_mem {bl : List (P × Nat)} {e : P × Nat}
    (he : e ∈ bl ++ queueLedger (pre ++ post)) :
    e.1 ∈ (bl ++ queueLedger (pre ++ u :: post)).map Prod.fst := by
  apply List.mem_map_of_mem
  rcases List.mem_append.mp he with he | he
  · exact List.mem_append_left _ he
  · exact List.mem_append_right _ (mem_queueLedger_split_of_mem he)

end Queue

namespace AuctionState

/-! ## Paying the queue -/

/-- The invariant of the loops of `process_unbond_requests`, started in `s₀`: solvency over the
entries still queued, those kept and those still to look at; the purses `newPurses` gives from
`created` on do not exist; and the bids keep their keys, their purses and at least their
claims. -/
structure Paying (mainPurse : K → Option P) (newPurses : Nat → P) (s₀ s : AuctionState K P)
    (created : Nat) (pending : List (UnbondingPurse K P)) : Prop where
  solvent : LedgerSolvent mainPurse s.bids pending s.balances
  fresh : ∀ n, created ≤ n → s.balances (newPurses n) = none
  grows : ∀ p, claimOn (bidsLedger s₀.bids) p ≤ claimOn (bidsLedger s.bids) p
  keys : s.bids.entries.map Prod.fst = s₀.bids.entries.map Prod.fst
  kept : ∀ p, (s₀.balances p).isSome → (s.balances p).isSome
  unbonds : s.unbonds = s₀.unbonds

section Paying

variable {newPurses : Nat → P} {s₀ s s' : AuctionState K P} {created : Nat}
  {pre post : List (UnbondingPurse K P)} {u : UnbondingPurse K P}

/-- The loops start from a solvent state with every purse of `newPurses` new. -/
theorem Paying.init (hs : s.Solvent mainPurse) (hfresh : ∀ n, s.balances (newPurses n) = none) :
    Paying mainPurse newPurses s s 0 s.pending :=
  ⟨hs, fun n _ => hfresh n, fun _ => le_refl _, rfl, fun _ hp => hp, rfl⟩

/-- An entry paid back to its unbonder leaves its purse with its amount. -/
theorem unbond_paying (hinv : Paying mainPurse newPurses s₀ s created (pre ++ u :: post))
    (h : s.unbond mainPurse u = .ok s') :
    Paying mainPurse newPurses s₀ s' created (pre ++ post) := by
  unfold unbond at h
  cases hmain : mainPurse u.unbonderPublicKey with
  | none => simp [hmain] at h
  | some purse =>
    simp only [hmain] at h
    cases htransfer : s.transfer u.bondingPurse purse u.amount with
    | error e => simp [htransfer] at h
    | ok s₁ =>
      simp only [htransfer, Except.ok.injEq] at h
      subst h
      obtain ⟨hbids, hunbonds⟩ := bids_of_transfer htransfer
      have hsolvent := hinv.solvent
      refine ⟨hsolvent.step (fun p => ?_) (fun e he => .inl ?_)
          (fun p hp => isSome_of_transfer htransfer hp)
          (fun d hd => hsolvent.delegators_have_accounts d (hbids ▸ hd))
          (fun x hx => hsolvent.unbonders_have_accounts x (mem_split_of_mem hx)),
        fun n hn => none_of_transfer htransfer (hinv.fresh n hn), hbids ▸ hinv.grows,
        hbids ▸ hinv.keys, fun p hp => isSome_of_transfer htransfer (hinv.kept p hp),
        hunbonds.trans hinv.unbonds⟩
      · -- the entry's amount leaves its purse and the ledger together
        have hcovered : claimOn (bidsLedger s.bids ++ queueLedger (pre ++ u :: post)) p ≤
            s.balanceOf p := hsolvent.covered p
        have hbalance := balanceOf_transfer htransfer p
        show claimOn (bidsLedger s₁.bids ++ queueLedger (pre ++ post)) p ≤ s₁.balanceOf p
        rw [claimOn_append, claimOn_queueLedger_split] at hcovered
        rw [hbids, claimOn_append]
        split_ifs at hcovered hbalance <;> omega
      · rw [hbids] at he
        exact mem_ledger_split_of_mem he

/-- A redelegation moves its amount from its purse into the delegator's purse under the new
validator, one it had or the next purse of `newPurses`, and raises the delegator's stake. -/
theorem delegation_paying (hinj : Function.Injective newPurses)
    (hinv : Paying mainPurse newPurses s₀ s created (pre ++ u :: post)) {validator : K}
    {bid : Bid K P} (hbid : s.readBid validator = some bid) {stake : Nat}
    (h : s.handleDelegation bid u.unbonderPublicKey validator u.bondingPurse u.amount
      (newPurses created) = .ok (s', stake)) :
    Paying mainPurse newPurses s₀ s' (created + 1) (pre ++ post) := by
  have hfresh := hinv.fresh created le_rfl
  obtain ⟨purse, hd⟩ := handleDelegation_delegated hbid hfresh h
  have hsolvent := hinv.solvent
  refine ⟨hsolvent.step (fun p => ?_) (fun e he => ?_) hd.kept (fun d hd' => ?_)
      (fun x hx => hsolvent.unbonders_have_accounts x (mem_split_of_mem hx)),
    fun n hn => hd.fresh _ (fun heq => by have := hinj heq; omega) (hinv.fresh n (by omega)),
    fun p => (hinv.grows p).trans (by rw [hd.claims p]; exact Nat.le_add_right _ _),
    hd.keys.trans hinv.keys, fun p hp => hd.kept p (hinv.kept p hp),
    hd.unbonds.trans hinv.unbonds⟩
  · -- the amount leaves the entry's purse and joins the delegator's stake and purse
    have hcovered : claimOn (bidsLedger s.bids ++ queueLedger (pre ++ u :: post)) p ≤
        s.balanceOf p := hsolvent.covered p
    have hbalance := hd.balances p
    show claimOn (bidsLedger s'.bids ++ queueLedger (pre ++ post)) p ≤ s'.balanceOf p
    rw [claimOn_append, claimOn_queueLedger_split] at hcovered
    rw [claimOn_append, hd.claims p]
    split_ifs at hcovered hbalance ⊢ <;> omega
  · rcases List.mem_append.mp he with he | he
    · rcases hd.named_or_ok hsolvent hfresh e he with he | hok
      · exact .inl (List.map_subset Prod.fst (List.subset_append_left _ _) he)
      · exact .inr hok
    · exact .inl (mem_ledger_split_of_mem (List.mem_append_right _ he))
  · rcases hd.delegators d hd' with hd' | rfl
    · exact hsolvent.delegators_have_accounts d hd'
    · exact hsolvent.unbonders_have_accounts _ (List.mem_append_right _ List.mem_cons_self)

/-- What paying an entry can do: pay it back to the unbonder, or delegate it to a validator with
a stake, with the next purse of `newPurses` for a new delegator. -/
theorem payUnbondingPurse_eq_ok {created' : Nat}
    (h : s.payUnbondingPurse mainPurse newPurses created u = .ok (s', created')) :
    (s.unbond mainPurse u = .ok s' ∧ created' = created) ∨
      ∃ newValidator bid stake, s.readBid newValidator = some bid ∧
        s.handleDelegation bid u.unbonderPublicKey newValidator u.bondingPurse u.amount
          (newPurses created) = .ok (s', stake) ∧ created' = created + 1 := by
  unfold payUnbondingPurse at h
  dsimp only at h
  split at h
  · split at h
    · cases h
    · rename_i s₁ hunbond
      cases h
      exact .inl ⟨hunbond, rfl⟩
  · split at h
    · split at h
      · cases h
      · rename_i s₁ hunbond
        cases h
        exact .inl ⟨hunbond, rfl⟩
    · rename_i newValidator _ _ bid hbid
      split_ifs at h
      · split at h
        · cases h
        · rename_i s₁ hunbond
          cases h
          exact .inl ⟨hunbond, rfl⟩
      · split at h
        · cases h
        · rename_i s₁ stake hdelegation
          cases h
          exact .inr ⟨newValidator, bid, stake, hbid, hdelegation, rfl⟩

/-- Paying an entry keeps the invariant over the entries left. -/
theorem payUnbondingPurse_paying (hinj : Function.Injective newPurses)
    (hinv : Paying mainPurse newPurses s₀ s created (pre ++ u :: post)) {created' : Nat}
    (h : s.payUnbondingPurse mainPurse newPurses created u = .ok (s', created')) :
    Paying mainPurse newPurses s₀ s' created' (pre ++ post) := by
  rcases payUnbondingPurse_eq_ok h with ⟨hunbond, rfl⟩ | ⟨_, _, _, hbid, hdelegation, rfl⟩
  · exact unbond_paying hinv hunbond
  · exact delegation_paying hinj hinv hbid hdelegation

/-! ## What can fail -/

/-- The inner loop over one validator's queue keeps the invariant: an entry that is due is paid,
one that is not is kept. -/
theorem processUnbondingList_paying (hinj : Function.Injective newPurses)
    {currentEraId unbondingDelay : Nat} :
    ∀ {l kept kept' : List (UnbondingPurse K P)} {s s' : AuctionState K P} {created created' : Nat},
      Paying mainPurse newPurses s₀ s created (pre ++ kept ++ l ++ post) →
      processUnbondingList mainPurse newPurses currentEraId unbondingDelay (s, created, kept) l =
          .ok (s', created', kept') →
        Paying mainPurse newPurses s₀ s' created' (pre ++ kept' ++ post)
  | [], kept, kept', s, s', created, created', hinv, h => by
    simp only [processUnbondingList, Except.ok.injEq, Prod.mk.injEq] at h
    obtain ⟨rfl, rfl, rfl⟩ := h
    simpa using hinv
  | u :: rest, kept, kept', s, s', created, created', hinv, h => by
    unfold processUnbondingList at h
    split_ifs at h with hdue
    · cases hpay : s.payUnbondingPurse mainPurse newPurses created u with
      | error e => simp [hpay] at h
      | ok result =>
        obtain ⟨s₁, created₁⟩ := result
        simp only [hpay] at h
        have hinv' : Paying mainPurse newPurses s₀ s created ((pre ++ kept) ++ u :: (rest ++ post)) := by
          simpa using hinv
        have hinv₁ := payUnbondingPurse_paying hinj hinv' hpay
        exact processUnbondingList_paying hinj (by simpa using hinv₁) h
    · exact processUnbondingList_paying hinj (by simpa using hinv) h

/-- The outer loop keeps the invariant over the queues kept so far and those still to look at,
and keeps the validators' keys in order. -/
theorem processUnbondLists_paying (hinj : Function.Injective newPurses)
    {currentEraId unbondingDelay : Nat} :
    ∀ {lists done done' : List (K × List (UnbondingPurse K P))} {s s' : AuctionState K P}
      {created created' : Nat},
      Paying mainPurse newPurses s₀ s created (done.flatMap (·.2) ++ lists.flatMap (·.2)) →
      processUnbondLists mainPurse newPurses currentEraId unbondingDelay (s, created, done) lists =
          .ok (s', created', done') →
        Paying mainPurse newPurses s₀ s' created' (done'.flatMap (·.2)) ∧
          done'.map Prod.fst = done.map Prod.fst ++ lists.map Prod.fst
  | [], done, done', s, s', created, created', hinv, h => by
    simp only [processUnbondLists, Except.ok.injEq, Prod.mk.injEq] at h
    obtain ⟨rfl, rfl, rfl⟩ := h
    exact ⟨by simpa using hinv, by simp⟩
  | (validator, l) :: rest, done, done', s, s', created, created', hinv, h => by
    unfold processUnbondLists at h
    cases hlist : processUnbondingList mainPurse newPurses currentEraId unbondingDelay
        (s, created, []) l with
    | error e => simp [hlist] at h
    | ok result =>
      obtain ⟨s₁, created₁, kept⟩ := result
      simp only [hlist] at h
      have hinv' : Paying mainPurse newPurses s₀ s created
          (done.flatMap (·.2) ++ [] ++ l ++ rest.flatMap (·.2)) := by
        simpa using hinv
      have hinv₁ := processUnbondingList_paying hinj hinv' hlist
      obtain ⟨hinv₂, hkeys⟩ := processUnbondLists_paying hinj (by simpa using hinv₁) h
      exact ⟨hinv₂, by simpa using hkeys⟩

end Paying

omit [DecidableEq P] in
theorem foldl_writeUnbond (l : List (K × List (UnbondingPurse K P))) (s : AuctionState K P) :
    l.foldl (fun s e => s.writeUnbond e.1 e.2) s =
      { s with unbonds := l.foldl (fun acc e => acc.insert e.1 e.2) s.unbonds } := by
  induction l generalizing s with
  | nil => rfl
  | cons e rest ih => exact ih (s.writeUnbond e.1 e.2)

omit [DecidableEq P] in
theorem foldl_writeBid (l : List (K × Bid K P)) (s : AuctionState K P) :
    l.foldl (fun s e => s.writeBid e.1 e.2) s =
      { s with bids := l.foldl (fun acc e => acc.insert e.1 e.2) s.bids } := by
  induction l generalizing s with
  | nil => rfl
  | cons e rest ih => exact ih (s.writeBid e.1 e.2)

/-! ## `process_unbond_requests` -/

section Requests

variable {newPurses : Nat → P} {s s' : AuctionState K P} {currentEraId unbondingDelay : Nat}

/-- `process_unbond_requests` from a solvent state, with purses from `newPurses` that are new and
distinct, leaves a solvent state; the bids keep their keys and claim at least what they did,
and every purse is kept. -/
theorem processUnbondRequests_spec (hinj : Function.Injective newPurses)
    (hfresh : ∀ n, s.balances (newPurses n) = none) (hs : s.Solvent mainPurse)
    (h : s.processUnbondRequests mainPurse newPurses currentEraId unbondingDelay = .ok s') :
    s'.Solvent mainPurse ∧ (∀ p, claimOn (bidsLedger s.bids) p ≤ claimOn (bidsLedger s'.bids) p) ∧
      s'.bids.entries.map Prod.fst = s.bids.entries.map Prod.fst ∧
      ∀ p, (s.balances p).isSome → (s'.balances p).isSome := by
  unfold processUnbondRequests at h
  cases hlists : processUnbondLists mainPurse newPurses currentEraId unbondingDelay (s, 0, [])
      s.unbonds.entries with
  | error e => simp [hlists] at h
  | ok result =>
    obtain ⟨s₁, created, done⟩ := result
    simp only [hlists, Except.ok.injEq] at h
    subst h
    have hinit : Paying mainPurse newPurses s s 0
        (([] : List (K × List (UnbondingPurse K P))).flatMap (·.2) ++ s.unbonds.entries.flatMap (·.2)) :=
      Paying.init hs hfresh
    obtain ⟨hinv, hkeys⟩ := processUnbondLists_paying hinj hinit hlists
    -- the queues written back are the ones the loop kept
    have hunbonds : (done.foldl (fun acc e => acc.insert e.1 e.2) s₁.unbonds).entries = done := by
      apply OrdMap.foldl_insert_of_keys
      rw [hinv.unbonds, hkeys, List.map_nil, List.nil_append]
    rw [foldl_writeUnbond]
    refine ⟨?_, hinv.grows, hinv.keys, hinv.kept⟩
    have hsolvent := hinv.solvent
    unfold Solvent pending
    rwa [hunbonds]

end Requests

end AuctionState

/-! ## `run_auction` -/

omit [DecidableEq P] in
/-- Processing a delegator's schedule changes neither its stake nor its purse. -/
theorem Delegator.processWithVestingSchedule_stake (delegator : Delegator P)
    (timestampMillis vestingSchedulePeriodMillis : Nat) :
    let processed :=
      (delegator.processWithVestingSchedule timestampMillis vestingSchedulePeriodMillis).1
    processed.stakedAmount = delegator.stakedAmount ∧
      processed.bondingPurse = delegator.bondingPurse := by
  unfold Delegator.processWithVestingSchedule
  split
  · exact ⟨rfl, rfl⟩
  · split_ifs <;> exact ⟨rfl, rfl⟩

omit [DecidableEq P] in
/-- Processing a bid's schedules changes no stake, purse or delegator. -/
theorem Bid.processWithVestingSchedule_ledger (bid : Bid K P)
    (timestampMillis vestingSchedulePeriodMillis : Nat) :
    let processed := (bid.processWithVestingSchedule timestampMillis vestingSchedulePeriodMillis).1
    processed.ledger = bid.ledger ∧
      processed.delegators.entries.map Prod.fst = bid.delegators.entries.map Prod.fst := by
  unfold Bid.processWithVestingSchedule
  split
  · exact ⟨rfl, rfl⟩
  · split_ifs
    · exact ⟨rfl, rfl⟩
    · refine ⟨?_, by simp [OrdMap.mapVal, Function.comp_def]⟩
      simp only [Bid.ledger, delegatorsLedger, OrdMap.mapVal, List.map_map, Function.comp_def]
      congr 2
      funext e
      obtain ⟨hstake, hpurse⟩ :=
        e.2.processWithVestingSchedule_stake timestampMillis vestingSchedulePeriodMillis
      rw [hstake, hpurse]

omit [DecidableEq P] in
/-- The loop of `run_auction` over the bids it read changes schedules and activity: no key,
stake, purse or delegator. -/
theorem processBids_ledger (eraEndTimestampMillis vestingSchedulePeriodMillis : Nat)
    (evictedValidators : List K) :
    ∀ (l : List (K × Bid K P)) (bidsModified : Bool),
      (processBids eraEndTimestampMillis vestingSchedulePeriodMillis evictedValidators l
          bidsModified).1.map (fun e => (e.1, e.2.ledger, e.2.delegators.entries.map Prod.fst)) =
        l.map fun e => (e.1, e.2.ledger, e.2.delegators.entries.map Prod.fst)
  | [], _ => rfl
  | (validator, bid) :: rest, bidsModified => by
    have ih := processBids_ledger eraEndTimestampMillis vestingSchedulePeriodMillis
      evictedValidators rest
    obtain ⟨hledger, hkeys⟩ :=
      bid.processWithVestingSchedule_ledger eraEndTimestampMillis vestingSchedulePeriodMillis
    -- deactivating a bid changes nothing the ledger reads
    have hinactive : ∀ b : Bid K P, ({ b with inactive := true } : Bid K P).ledger = b.ledger :=
      fun _ => rfl
    unfold processBids
    split_ifs <;> simp only [List.map_cons, ih, hinactive, hledger, hkeys]

omit [DecidableEq P] in
/-- Two maps of bids with the same keys, ledgers and delegators owe the same and have the same
delegators. -/
theorem bidsLedger_eq_of_map {bids bids' : OrdMap K (Bid K P)}
    (h : bids.entries.map (fun e => (e.1, e.2.ledger, e.2.delegators.entries.map Prod.fst)) =
      bids'.entries.map fun e => (e.1, e.2.ledger, e.2.delegators.entries.map Prod.fst)) :
    bidsLedger bids = bidsLedger bids' ∧ delegatorKeys bids = delegatorKeys bids' := by
  have hledger := congrArg (List.flatMap fun x => x.2.1) h
  have hkeys := congrArg (List.flatMap fun x => x.2.2) h
  simp only [List.flatMap_map] at hledger hkeys
  exact ⟨hledger, hkeys⟩

namespace AuctionState

section RunAuction

variable {newPurses : Nat → P} {s s' : AuctionState K P}
  {currentEraId unbondingDelay eraEndTimestampMillis vestingSchedulePeriodMillis : Nat}
  {evictedValidators : List K}

/-- Writing back the bids `run_auction` read before paying the queue keeps solvency: they claim
no more than the bids the payments left, and name purses and delegators the state had. -/
theorem setBids_processBids_solvent {s₁ : AuctionState K P} (hs : s.Solvent mainPurse)
    (hs₁ : s₁.Solvent mainPurse)
    (hgrows : ∀ p, claimOn (bidsLedger s.bids) p ≤ claimOn (bidsLedger s₁.bids) p)
    (hkeys : s₁.bids.entries.map Prod.fst = s.bids.entries.map Prod.fst)
    (hkept : ∀ p, (s.balances p).isSome → (s₁.balances p).isSome) (bidsModified : Bool) :
    (s₁.setBids (processBids eraEndTimestampMillis vestingSchedulePeriodMillis evictedValidators
      s.bids.entries bidsModified).1).Solvent mainPurse := by
  have hshape := processBids_ledger eraEndTimestampMillis vestingSchedulePeriodMillis
    evictedValidators s.bids.entries bidsModified
  -- the bids written back are exactly the processed ones
  have hentries : ((processBids eraEndTimestampMillis vestingSchedulePeriodMillis evictedValidators
      s.bids.entries bidsModified).1.foldl (fun acc e => acc.insert e.1 e.2) s₁.bids).entries =
      (processBids eraEndTimestampMillis vestingSchedulePeriodMillis evictedValidators
        s.bids.entries bidsModified).1 := by
    apply OrdMap.foldl_insert_of_keys
    have := congrArg (List.map Prod.fst) hshape
    simp only [List.map_map, Function.comp_def] at this
    rw [this, hkeys]
  obtain ⟨hledger, hdelegators⟩ := bidsLedger_eq_of_map (hentries ▸ hshape)
  unfold setBids
  rw [foldl_writeBid]
  refine hs₁.of_le rfl (fun p => ?_) (fun e he => ?_) (fun d hd => ?_)
    (fun u hu => hs₁.unbonders_have_accounts u hu)
  · have := hgrows p
    simp only [ledger, claimOn_append, pending]
    rw [hledger]
    omega
  · rcases List.mem_append.mp he with he | he
    · rw [hledger] at he
      exact .inr ((hs.purse_ok e (List.mem_append_left _ he)).mono hkept)
    · exact .inl (List.mem_map_of_mem (List.mem_append_right _ he))
  · exact hs.delegators_have_accounts d (hdelegators ▸ hd)

/-- `run_auction` from a solvent state, with purses from `newPurses` that are new and distinct,
leaves a solvent state. -/
theorem runAuction_solvent (hinj : Function.Injective newPurses)
    (hfresh : ∀ n, s.balances (newPurses n) = none) (hs : s.Solvent mainPurse)
    (h : s.runAuction mainPurse newPurses currentEraId unbondingDelay eraEndTimestampMillis
      vestingSchedulePeriodMillis evictedValidators = .ok s') :
    s'.Solvent mainPurse := by
  unfold runAuction at h
  cases hpaid : s.processUnbondRequests mainPurse newPurses currentEraId unbondingDelay with
  | error e => simp [hpaid] at h
  | ok s₁ =>
    rw [hpaid] at h
    obtain ⟨hs₁, hgrows, hkeys, hkept⟩ := processUnbondRequests_spec hinj hfresh hs hpaid
    dsimp only at h
    split_ifs at h
    · cases h
      exact setBids_processBids_solvent hs hs₁ hgrows hkeys hkept false
    · cases h
      exact hs₁

end RunAuction

end AuctionState

/-! ## Runs -/

/-- A call of one of the auction's entry points, with the arguments the model takes: among them
the purses `create_purse` makes and the era's parameters. -/
inductive AuctionCall (K P : Type) [LinearOrder K] where
  | addBid (publicKey : K) (source newPurse : P) (delegationRate amount : Nat)
  | withdrawBid (publicKey : K) (amount eraId eraEndTimestampMillis : Nat)
  | delegate (delegatorPublicKey validatorPublicKey : K) (source : P)
      (amount minimumDelegationAmount : Nat) (newPurse : P)
  | undelegate (delegatorPublicKey validatorPublicKey : K)
      (amount eraId eraEndTimestampMillis : Nat)
  | redelegate (delegatorPublicKey validatorPublicKey : K) (amount : Nat) (newValidator : K)
      (minimumDelegationAmount eraId eraEndTimestampMillis : Nat)
  | activateBid (validatorPublicKey : K)
  | slash (validatorPublicKeys : List K)
  | distribute (recipients : OrdMap K (SeigniorageRecipient K)) (baseRoundReward : Nat)
      (rewardFactors : List (K × Nat))
  | runAuction (newPurses : Nat → P)
      (currentEraId unbondingDelay eraEndTimestampMillis vestingSchedulePeriodMillis : Nat)
      (evictedValidators : List K)

namespace AuctionCall

/-- The state a call returns, or its error; `none` where it panics. -/
def run (mainPurse : K → Option P) : AuctionCall K P → AuctionState K P →
    Option (Except AuctionError (AuctionState K P))
  | addBid publicKey source newPurse delegationRate amount, s =>
    some ((s.addBid publicKey source newPurse delegationRate amount).map Prod.fst)
  | withdrawBid publicKey amount eraId eraEndTimestampMillis, s =>
    some ((s.withdrawBid publicKey amount eraId eraEndTimestampMillis).map Prod.fst)
  | delegate delegatorPublicKey validatorPublicKey source amount minimumDelegationAmount newPurse,
      s =>
    some ((s.delegate delegatorPublicKey validatorPublicKey source amount minimumDelegationAmount
      newPurse).map Prod.fst)
  | undelegate delegatorPublicKey validatorPublicKey amount eraId eraEndTimestampMillis, s =>
    some ((s.undelegate delegatorPublicKey validatorPublicKey amount eraId
      eraEndTimestampMillis).map Prod.fst)
  | redelegate delegatorPublicKey validatorPublicKey amount newValidator minimumDelegationAmount
      eraId eraEndTimestampMillis, s =>
    some ((s.redelegate delegatorPublicKey validatorPublicKey amount newValidator
      minimumDelegationAmount eraId eraEndTimestampMillis).map Prod.fst)
  | activateBid validatorPublicKey, s => some (s.activateBid validatorPublicKey)
  | slash validatorPublicKeys, s => some (s.slash validatorPublicKeys)
  | distribute recipients baseRoundReward rewardFactors, s =>
    (AuctionState.distribute recipients baseRoundReward s [] rewardFactors).map
      (·.map Prod.fst)
  | runAuction newPurses currentEraId unbondingDelay eraEndTimestampMillis
      vestingSchedulePeriodMillis evictedValidators, s =>
    some (s.runAuction mainPurse newPurses currentEraId unbondingDelay eraEndTimestampMillis
      vestingSchedulePeriodMillis evictedValidators)

/-- The global state after a call: one that fails or panics leaves it as it was, since the node
discards the effects of a failed execution. -/
def step (mainPurse : K → Option P) (call : AuctionCall K P) (s : AuctionState K P) :
    AuctionState K P :=
  match call.run mainPurse s with
  | some (.ok s') => s'
  | _ => s

/-- What a call's caller brings: `add_bid` and `delegate` draw on the caller's main purse and get
a purse that does not exist yet; `withdraw_bid` comes from a validator with an account; the
purses `run_auction` creates are new and distinct. -/
def Allowed (mainPurse : K → Option P) (s : AuctionState K P) : AuctionCall K P → Prop
  | addBid publicKey source newPurse _ _ =>
    mainPurse publicKey = some source ∧ s.balances newPurse = none
  | withdrawBid publicKey _ _ _ => (mainPurse publicKey).isSome
  | delegate delegatorPublicKey _ source _ _ newPurse =>
    mainPurse delegatorPublicKey = some source ∧ s.balances newPurse = none
  | runAuction newPurses _ _ _ _ _ =>
    Function.Injective newPurses ∧ ∀ n, s.balances (newPurses n) = none
  | _ => True

end AuctionCall

/-- The states that runs of allowed calls reach from `genesis`. -/
inductive AuctionReachable (mainPurse : K → Option P) (genesis : AuctionState K P) :
    AuctionState K P → Prop
  | genesis : AuctionReachable mainPurse genesis genesis
  | step {s : AuctionState K P} (call : AuctionCall K P) :
      AuctionReachable mainPurse genesis s → call.Allowed mainPurse s →
        AuctionReachable mainPurse genesis (call.step mainPurse s)

theorem exists_of_map_fst {α β : Type} {x : Except AuctionError (α × β)} {a : α}
    (h : x.map Prod.fst = .ok a) : ∃ b, x = .ok (a, b) := by
  cases x with
  | error e => cases h
  | ok result =>
    obtain ⟨a', b⟩ := result
    cases h
    exact ⟨b, rfl⟩

namespace AuctionCall

/-- Each allowed call that succeeds keeps the auction solvent. -/
theorem run_solvent {call : AuctionCall K P} {s s' : AuctionState K P} (hs : s.Solvent mainPurse)
    (hallowed : call.Allowed mainPurse s) (h : call.run mainPurse s = some (.ok s')) :
    s'.Solvent mainPurse := by
  cases call with
  | addBid publicKey source newPurse delegationRate amount =>
    obtain ⟨stake, hcall⟩ := exists_of_map_fst (Option.some.inj h)
    exact AuctionState.addBid_solvent hs hallowed.1 hallowed.2 hcall
  | withdrawBid publicKey amount eraId eraEndTimestampMillis =>
    obtain ⟨stake, hcall⟩ := exists_of_map_fst (Option.some.inj h)
    exact AuctionState.withdrawBid_solvent hs hallowed hcall
  | delegate delegatorPublicKey validatorPublicKey source amount minimumDelegationAmount newPurse =>
    obtain ⟨stake, hcall⟩ := exists_of_map_fst (Option.some.inj h)
    exact AuctionState.delegate_solvent hs hallowed.1 hallowed.2 hcall
  | undelegate delegatorPublicKey validatorPublicKey amount eraId eraEndTimestampMillis =>
    obtain ⟨stake, hcall⟩ := exists_of_map_fst (Option.some.inj h)
    exact AuctionState.unbondDelegator_solvent hs hcall
  | redelegate delegatorPublicKey validatorPublicKey amount newValidator minimumDelegationAmount
      eraId eraEndTimestampMillis =>
    obtain ⟨stake, hcall⟩ := exists_of_map_fst (Option.some.inj h)
    unfold AuctionState.redelegate at hcall
    split_ifs at hcall
    exact AuctionState.unbondDelegator_solvent hs hcall
  | activateBid validatorPublicKey =>
    exact hs.of_keepsSurplus (AuctionState.keepsSurplus_activateBid (Option.some.inj h))
  | slash validatorPublicKeys =>
    exact hs.of_keepsSurplus (AuctionState.keepsSurplus_slash (Option.some.inj h))
  | distribute recipients baseRoundReward rewardFactors =>
    cases hcall : AuctionState.distribute recipients baseRoundReward s [] rewardFactors with
    | none => simp [run, hcall] at h
    | some result =>
      rcases result with e | ⟨s₁, allocations⟩
      · simp [run, hcall, Except.map] at h
      · simp only [run, hcall, Option.map_some, Option.some.injEq] at h
        cases h
        exact hs.of_keepsSurplus (AuctionState.keepsSurplus_distribute hcall)
  | runAuction newPurses currentEraId unbondingDelay eraEndTimestampMillis
      vestingSchedulePeriodMillis evictedValidators =>
    exact AuctionState.runAuction_solvent hallowed.1 hallowed.2 hs (Option.some.inj h)

/-- An allowed call keeps the auction solvent, whether it succeeds or not. -/
theorem step_solvent {call : AuctionCall K P} {s : AuctionState K P} (hs : s.Solvent mainPurse)
    (hallowed : call.Allowed mainPurse s) : (call.step mainPurse s).Solvent mainPurse := by
  unfold step
  split
  · rename_i s' h
    exact run_solvent hs hallowed h
  · exact hs

end AuctionCall

/-- Every state a run reaches from a solvent genesis is solvent: induction on the run, with
`step_solvent` for each call. -/
theorem AuctionReachable.solvent {genesis s : AuctionState K P}
    (hgenesis : genesis.Solvent mainPurse) (h : AuctionReachable mainPurse genesis s) :
    s.Solvent mainPurse := by
  induction h with
  | genesis => exact hgenesis
  | step call _ hallowed ih => exact AuctionCall.step_solvent ih hallowed

end CasperNode
