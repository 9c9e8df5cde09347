import CasperNode.BlockProposer.AppendableBlock

/-!
# The limits of a proposed block

Every payload `propose_block_payload` returns is made of pending entries it was right to
include, none twice, within the transfer and deploy counts, the block size and the gas limit,
whatever the `DeployConfig` (`proposeBlockPayload_within_limits`).  Each successful
`add_transfer` and `add_deploy` keeps these limits (`WithinLimits`), and each loop is a run of
successful adds of a sublist of its pending entries (`addTransfers_run`, `addDeploys_run`).

The approval limit is kept only when it is at least the transfer and deploy count limits
together.  Then the remaining approval slots never fall below the remaining deploy and
transfer slots, so the subtraction in `would_exceed_approval_limits` does not wrap and an item
with one approval is never refused for its approvals (`ApprovalSlots`,
`reachable_approval_slots`).  `Chainspec::is_valid` does not check that relation, and without
it the subtraction wraps and the check lets any number of approvals through
(`proposeBlockPayload_exceeds_approval_count`).
-/

namespace CasperNode

variable {H A K : Type}

namespace AppendableBlock

/-- The hashes of the block's deploys and transfers. -/
def hashes (b : AppendableBlock H A) : List H := (b.deploys ++ b.transfers).map (·.deployHash)

/-- The limits every successful add keeps, whatever the config: the counts, the size and the
gas, and the set of hashes is that of the items, none twice. -/
structure WithinLimits (b : AppendableBlock H A) : Prop where
  transfers_le : b.transfers.length ≤ b.deployConfig.blockMaxTransferCount.toNat
  deploys_le : b.deploys.length ≤ b.deployConfig.blockMaxDeployCount.toNat
  size_le : b.totalSize ≤ b.deployConfig.maxBlockSize.toNat
  gas_le : b.totalGas ≤ b.deployConfig.blockGasLimit.toNat
  mem_set : ∀ hash, hash ∈ b.deployAndTransferSet ↔ hash ∈ b.hashes
  nodup : b.hashes.Nodup

/-- With the approval limit at least the count limits together: the approvals within their
limit, and the remaining approval slots at least the remaining deploy and transfer slots. -/
structure ApprovalSlots (b : AppendableBlock H A) : Prop where
  approvals_eq : b.totalApprovals = ((b.deploys ++ b.transfers).map (·.approvals.length)).sum
  approvals_le : b.totalApprovals ≤ b.deployConfig.blockMaxApprovalCount.toNat
  slots_le : b.deployConfig.blockMaxTransferCount.toNat - b.transfers.length +
      (b.deployConfig.blockMaxDeployCount.toNat - b.deploys.length) ≤
    b.deployConfig.blockMaxApprovalCount.toNat - b.totalApprovals

theorem withinLimits_new (deployConfig : DeployConfig) (timestamp : Nat) :
    (new deployConfig timestamp : AppendableBlock H A).WithinLimits :=
  ⟨Nat.zero_le _, Nat.zero_le _, Nat.zero_le _, Nat.zero_le _, by simp [new, hashes],
    by simp [new, hashes]⟩

theorem approvalSlots_new {deployConfig : DeployConfig}
    (hslots : deployConfig.blockMaxTransferCount.toNat + deployConfig.blockMaxDeployCount.toNat ≤
      deployConfig.blockMaxApprovalCount.toNat) (timestamp : Nat) :
    (new deployConfig timestamp : AppendableBlock H A).ApprovalSlots :=
  ⟨rfl, Nat.zero_le _, by simpa [new] using hslots⟩

/-! ## What a successful add did -/

section Add

variable [DecidableEq H] {b b' : AppendableBlock H A} {item : DeployWithApprovals H A}
  {deployInfo : DeployInfo H}

/-- What a successful `add_transfer` checked, and the block it returns. -/
theorem addTransfer_eq_ok (h : b.addTransfer item deployInfo = .ok b') :
    item.deployHash ∉ b.deployAndTransferSet ∧
      deployInfo.header.isValid b.deployConfig b.timestamp = true ∧
      b.transfers.length ≠ b.deployConfig.blockMaxTransferCount.toNat ∧
      b.wouldExceedApprovalLimits item.approvals.length = false ∧
      b' = { b with
        deployAndTransferSet := item.deployHash :: b.deployAndTransferSet
        totalApprovals := usizeAdd b.totalApprovals item.approvals.length
        transfers := b.transfers ++ [item] } := by
  unfold addTransfer at h
  split_ifs at h with hdup hvalid hmax hexceed
  simp only [Except.ok.injEq] at h
  simp only [Bool.not_eq_true', Bool.not_eq_false] at hvalid
  simp only [hasMaxTransferCount, beq_iff_eq] at hmax
  simp only [Bool.not_eq_true] at hexceed
  exact ⟨hdup, hvalid, hmax, hexceed, h.symm⟩

/-- What a successful `add_deploy` checked, and the block it returns: the size and the gas of
the deploy are added without overflow and within their limits. -/
theorem addDeploy_eq_ok (h : b.addDeploy item deployInfo = .ok b') :
    item.deployHash ∉ b.deployAndTransferSet ∧
      deployInfo.header.isValid b.deployConfig b.timestamp = true ∧
      b.deploys.length ≠ b.deployConfig.blockMaxDeployCount.toNat ∧
      b.wouldExceedApprovalLimits item.approvals.length = false ∧
      b.totalSize + deployInfo.size ≤ b.deployConfig.maxBlockSize.toNat ∧
      deployInfo.header.gasPrice ≠ 0 ∧
      b.totalGas + deployInfo.paymentAmount / deployInfo.header.gasPrice ≤
        b.deployConfig.blockGasLimit.toNat ∧
      b' = { b with
        totalGas := b.totalGas + deployInfo.paymentAmount / deployInfo.header.gasPrice
        totalSize := b.totalSize + deployInfo.size
        totalApprovals := usizeAdd b.totalApprovals item.approvals.length
        deployAndTransferSet := item.deployHash :: b.deployAndTransferSet
        deploys := b.deploys ++ [item] } := by
  unfold addDeploy at h
  split_ifs at h with hdup hvalid hmax hexceed
  simp only [Bool.not_eq_true', Bool.not_eq_false] at hvalid
  simp only [hasMaxDeployCount, beq_iff_eq] at hmax
  simp only [Bool.not_eq_true] at hexceed
  -- the size, the gas price and the gas, in the order the source checks them
  cases hsize : (usizeCheckedAdd b.totalSize deployInfo.size).filter
      (· ≤ b.deployConfig.maxBlockSize.toNat) with
  | none => simp [hsize] at h
  | some newTotalSize =>
    have hsize' : b.totalSize + deployInfo.size = newTotalSize ∧
        newTotalSize ≤ b.deployConfig.maxBlockSize.toNat := by
      unfold usizeCheckedAdd at hsize
      split_ifs at hsize with hlt
      · rw [Option.filter_some] at hsize
        split_ifs at hsize with hle
        simp only [Option.some.injEq] at hsize
        subst hsize
        exact ⟨rfl, by simpa using hle⟩
      · simp at hsize
    cases hgas : gasFromMotes deployInfo.paymentAmount deployInfo.header.gasPrice with
    | none => simp [hsize, hgas] at h
    | some gas =>
      have hgas' : deployInfo.header.gasPrice ≠ 0 ∧
          gas = deployInfo.paymentAmount / deployInfo.header.gasPrice := by
        unfold gasFromMotes at hgas
        split_ifs at hgas with hprice
        exact ⟨hprice, (Option.some.inj hgas).symm⟩
      cases htotal : gasCheckedAdd b.totalGas gas with
      | none => simp [hsize, hgas, htotal] at h
      | some newTotalGas =>
        have htotal' : b.totalGas + gas = newTotalGas := by
          unfold gasCheckedAdd at htotal
          split_ifs at htotal
          exact Option.some.inj htotal
        simp only [hsize, hgas, htotal] at h
        split_ifs at h with hlimit
        simp only [Except.ok.injEq] at h
        obtain ⟨rfl, hnew⟩ := hsize'
        obtain ⟨hprice, rfl⟩ := hgas'
        subst htotal'
        exact ⟨hdup, hvalid, hmax, hexceed, hnew, hprice, by omega, h.symm⟩

end Add

/-! ## Each add keeps the limits -/

section Keep

variable [DecidableEq H] {b b' : AppendableBlock H A} {item : DeployWithApprovals H A}
  {deployInfo : DeployInfo H}

omit [DecidableEq H] in
/-- A new hash joins the set and the hashes alike, and keeps them distinct. -/
theorem WithinLimits.mem_set_cons (hb : b.WithinLimits) {hash : H} (hnew : hash ∉ b.deployAndTransferSet)
    {hashes' : List H} (hperm : hashes'.Perm (hash :: b.hashes)) :
    (∀ h, h ∈ hash :: b.deployAndTransferSet ↔ h ∈ hashes') ∧ hashes'.Nodup := by
  refine ⟨fun h => ?_, hperm.nodup_iff.mpr (List.nodup_cons.mpr ⟨?_, hb.nodup⟩)⟩
  · rw [hperm.mem_iff, List.mem_cons, List.mem_cons, hb.mem_set]
  · rwa [← hb.mem_set]

theorem WithinLimits.addTransfer (hb : b.WithinLimits) (h : b.addTransfer item deployInfo = .ok b') :
    b'.WithinLimits := by
  obtain ⟨hdup, -, hmax, -, rfl⟩ := addTransfer_eq_ok h
  have hperm : (((b.deploys ++ (b.transfers ++ [item])).map (·.deployHash))).Perm
      (item.deployHash :: b.hashes) := by
    simpa only [hashes, List.map_append, List.map_cons, List.map_nil, List.append_assoc] using
      List.perm_append_singleton item.deployHash ((b.deploys ++ b.transfers).map (·.deployHash))
  obtain ⟨hmem, hnodup⟩ := hb.mem_set_cons hdup hperm
  exact ⟨by have := hb.transfers_le; simp only [List.length_append, List.length_singleton]; omega,
    hb.deploys_le, hb.size_le, hb.gas_le, hmem, hnodup⟩

theorem WithinLimits.addDeploy (hb : b.WithinLimits) (h : b.addDeploy item deployInfo = .ok b') :
    b'.WithinLimits := by
  obtain ⟨hdup, -, hmax, -, hsize, -, hgas, rfl⟩ := addDeploy_eq_ok h
  have hperm : (((b.deploys ++ [item]) ++ b.transfers).map (·.deployHash)).Perm
      (item.deployHash :: b.hashes) := by
    simpa only [hashes, List.map_append, List.map_cons, List.map_nil, List.append_assoc,
      List.singleton_append] using
      @List.perm_middle _ item.deployHash (b.deploys.map (·.deployHash))
        (b.transfers.map (·.deployHash))
  obtain ⟨hmem, hnodup⟩ := hb.mem_set_cons hdup hperm
  exact ⟨hb.transfers_le,
    by have := hb.deploys_le; simp only [List.length_append, List.length_singleton]; omega,
    hsize, hgas, hmem, hnodup⟩

omit [DecidableEq H] in
/-- Within the limits and the slots, the remaining approval slots and the remaining deploy
slots are computed without wrapping, and so is the check of `would_exceed_approval_limits`. -/
theorem wouldExceedApprovalLimits_eq (hw : b.WithinLimits) (ha : b.ApprovalSlots) (n : Nat) :
    b.wouldExceedApprovalLimits n = decide
      (b.deployConfig.blockMaxApprovalCount.toNat - b.totalApprovals -
        (b.deployConfig.blockMaxTransferCount.toNat - b.transfers.length +
          (b.deployConfig.blockMaxDeployCount.toNat - b.deploys.length)) + 1 < n) := by
  have hA := UInt32.toNat_lt b.deployConfig.blockMaxApprovalCount
  have hT := UInt32.toNat_lt b.deployConfig.blockMaxTransferCount
  have hD := UInt32.toNat_lt b.deployConfig.blockMaxDeployCount
  have htl := hw.transfers_le
  have hdl := hw.deploys_le
  have hal := ha.approvals_le
  have hsl := ha.slots_le
  have hM := usizeModulus_eq
  have happrovals : b.remainingApprovalSlots =
      b.deployConfig.blockMaxApprovalCount.toNat - b.totalApprovals :=
    usizeSub_of_le (by omega) hal
  have hdeploys : b.remainingDeploySlots =
      b.deployConfig.blockMaxTransferCount.toNat - b.transfers.length +
        (b.deployConfig.blockMaxDeployCount.toNat - b.deploys.length) := by
    rw [remainingDeploySlots, usizeSub_of_le (by omega) htl, usizeAdd_of_lt (by omega),
      usizeSub_of_le (by omega) (by omega)]
    omega
  rw [wouldExceedApprovalLimits, happrovals, hdeploys, usizeSub_of_le (by omega) hsl,
    usizeAdd_of_lt (by omega)]

theorem ApprovalSlots.addTransfer (hw : b.WithinLimits) (ha : b.ApprovalSlots)
    (h : b.addTransfer item deployInfo = .ok b') : b'.ApprovalSlots := by
  have hexceed := (addTransfer_eq_ok h).2.2.2.1
  rw [wouldExceedApprovalLimits_eq hw ha, decide_eq_false_iff_not] at hexceed
  obtain ⟨-, -, hmax, -, rfl⟩ := addTransfer_eq_ok h
  have hA := UInt32.toNat_lt b.deployConfig.blockMaxApprovalCount
  have htl := hw.transfers_le
  have hsl := ha.slots_le
  have hal := ha.approvals_le
  -- the transfer takes one of the remaining transfer slots, so its approvals fit
  have hfit : b.totalApprovals + item.approvals.length ≤
      b.deployConfig.blockMaxApprovalCount.toNat := by omega
  have hadd : usizeAdd b.totalApprovals item.approvals.length =
      b.totalApprovals + item.approvals.length :=
    usizeAdd_of_lt (by rw [usizeModulus_eq]; omega)
  refine ⟨?_, ?_, ?_⟩
  · show usizeAdd b.totalApprovals item.approvals.length = _
    rw [hadd, ha.approvals_eq]
    simp only [List.map_append, List.sum_append, List.map_cons, List.map_nil, List.sum_cons,
      List.sum_nil]
    omega
  · simpa only [hadd] using hfit
  · simp only [hadd, List.length_append, List.length_singleton]
    omega

theorem ApprovalSlots.addDeploy (hw : b.WithinLimits) (ha : b.ApprovalSlots)
    (h : b.addDeploy item deployInfo = .ok b') : b'.ApprovalSlots := by
  have hexceed := (addDeploy_eq_ok h).2.2.2.1
  rw [wouldExceedApprovalLimits_eq hw ha, decide_eq_false_iff_not] at hexceed
  obtain ⟨-, -, hmax, -, -, -, -, rfl⟩ := addDeploy_eq_ok h
  have hA := UInt32.toNat_lt b.deployConfig.blockMaxApprovalCount
  have hdl := hw.deploys_le
  have hsl := ha.slots_le
  have hal := ha.approvals_le
  -- the deploy takes one of the remaining deploy slots, so its approvals fit
  have hfit : b.totalApprovals + item.approvals.length ≤
      b.deployConfig.blockMaxApprovalCount.toNat := by omega
  have hadd : usizeAdd b.totalApprovals item.approvals.length =
      b.totalApprovals + item.approvals.length :=
    usizeAdd_of_lt (by rw [usizeModulus_eq]; omega)
  refine ⟨?_, ?_, ?_⟩
  · show usizeAdd b.totalApprovals item.approvals.length = _
    rw [hadd, ha.approvals_eq]
    simp only [List.map_append, List.sum_append, List.map_cons, List.map_nil, List.sum_cons,
      List.sum_nil]
    omega
  · simpa only [hadd] using hfit
  · simp only [hadd, List.length_append, List.length_singleton]
    omega

end Keep

/-! ## Blocks in use -/

/-- The blocks that successful `add_transfer` and `add_deploy` calls reach from a new block,
in any order. -/
inductive Reachable [DecidableEq H] (deployConfig : DeployConfig) (timestamp : Nat) :
    AppendableBlock H A → Prop
  | new : Reachable deployConfig timestamp (new deployConfig timestamp)
  | addTransfer {b b' : AppendableBlock H A} {item : DeployWithApprovals H A}
      {deployInfo : DeployInfo H} :
      Reachable deployConfig timestamp b → b.addTransfer item deployInfo = .ok b' →
      Reachable deployConfig timestamp b'
  | addDeploy {b b' : AppendableBlock H A} {item : DeployWithApprovals H A}
      {deployInfo : DeployInfo H} :
      Reachable deployConfig timestamp b → b.addDeploy item deployInfo = .ok b' →
      Reachable deployConfig timestamp b'

section Reachable

variable [DecidableEq H] {deployConfig : DeployConfig} {timestamp : Nat} {b : AppendableBlock H A}

/-- A block in use keeps its config and timestamp. -/
theorem Reachable.config (hb : Reachable deployConfig timestamp b) :
    b.deployConfig = deployConfig ∧ b.timestamp = timestamp := by
  induction hb with
  | new => exact ⟨rfl, rfl⟩
  | addTransfer _ h ih =>
    obtain ⟨-, -, -, -, rfl⟩ := addTransfer_eq_ok h
    exact ih
  | addDeploy _ h ih =>
    obtain ⟨-, -, -, -, -, -, -, rfl⟩ := addDeploy_eq_ok h
    exact ih

/-- Every block in use is within the limits, whatever the config. -/
theorem Reachable.withinLimits (hb : Reachable deployConfig timestamp b) : b.WithinLimits := by
  induction hb with
  | new => exact withinLimits_new _ _
  | addTransfer _ h ih => exact ih.addTransfer h
  | addDeploy _ h ih => exact ih.addDeploy h

/-- With the approval limit at least the count limits together, every block in use keeps its
approval slots. -/
theorem Reachable.approvalSlots
    (hslots : deployConfig.blockMaxTransferCount.toNat + deployConfig.blockMaxDeployCount.toNat ≤
      deployConfig.blockMaxApprovalCount.toNat)
    (hb : Reachable deployConfig timestamp b) : b.ApprovalSlots := by
  induction hb with
  | new => exact approvalSlots_new hslots _
  | addTransfer hb' h ih => exact ih.addTransfer hb'.withinLimits h
  | addDeploy hb' h ih => exact ih.addDeploy hb'.withinLimits h

/-- **The approval slots.**  With the approval limit at least the transfer and deploy count
limits together, throughout the use of an `AppendableBlock` the approvals stay within their
limit, the remaining approval slots are never fewer than the remaining deploy and transfer
slots, and an item with one approval is never refused for its approvals. -/
theorem reachable_approval_slots
    (hslots : deployConfig.blockMaxTransferCount.toNat + deployConfig.blockMaxDeployCount.toNat ≤
      deployConfig.blockMaxApprovalCount.toNat)
    (hb : Reachable deployConfig timestamp b) :
    b.totalApprovals ≤ deployConfig.blockMaxApprovalCount.toNat ∧
      b.remainingDeploySlots ≤ b.remainingApprovalSlots ∧
      b.wouldExceedApprovalLimits 1 = false := by
  have hw := hb.withinLimits
  have ha := hb.approvalSlots hslots
  obtain ⟨rfl, -⟩ := hb.config
  have hA := UInt32.toNat_lt b.deployConfig.blockMaxApprovalCount
  have hT := UInt32.toNat_lt b.deployConfig.blockMaxTransferCount
  have hD := UInt32.toNat_lt b.deployConfig.blockMaxDeployCount
  have htl := hw.transfers_le
  have hdl := hw.deploys_le
  have hM := usizeModulus_eq
  refine ⟨ha.approvals_le, ?_, ?_⟩
  · rw [remainingApprovalSlots, remainingDeploySlots, usizeSub_of_le (by omega) ha.approvals_le,
      usizeSub_of_le (by omega) htl, usizeAdd_of_lt (by omega),
      usizeSub_of_le (by omega) (by omega)]
    have := ha.slots_le
    omega
  · rw [wouldExceedApprovalLimits_eq hw ha, decide_eq_false_iff_not]
    omega

/-- A deploy config with room for two transfers, one deploy and three approvals. -/
def approvalRoomyConfig : DeployConfig := ⟨1000, 10, 100, 1, 2, 3, 100⟩

/-- On a new block with room for three approvals, two transfers with one approval each are
added; the one approval slot left is the one the remaining deploy slot needs. -/
theorem reachable_approval_slots_twoTransfers :
    approvalRoomyConfig.blockMaxTransferCount.toNat + approvalRoomyConfig.blockMaxDeployCount.toNat ≤
        approvalRoomyConfig.blockMaxApprovalCount.toNat ∧
      ∃ b₁ b₂ : AppendableBlock Nat Unit,
        (new approvalRoomyConfig 0).addTransfer ⟨7, [()]⟩ ⟨⟨0, 1000, 1, []⟩, 0, 0⟩ = .ok b₁ ∧
        b₁.addTransfer ⟨8, [()]⟩ ⟨⟨0, 1000, 1, []⟩, 0, 0⟩ = .ok b₂ ∧
        b₂.totalApprovals ≤ approvalRoomyConfig.blockMaxApprovalCount.toNat ∧
        b₂.remainingDeploySlots ≤ b₂.remainingApprovalSlots ∧
        b₂.wouldExceedApprovalLimits 1 = false := by
  have hslots : approvalRoomyConfig.blockMaxTransferCount.toNat +
      approvalRoomyConfig.blockMaxDeployCount.toNat ≤
      approvalRoomyConfig.blockMaxApprovalCount.toNat := by decide
  obtain ⟨b₁, h₁⟩ : ∃ b₁, (new approvalRoomyConfig 0 : AppendableBlock Nat Unit).addTransfer
      ⟨7, [()]⟩ ⟨⟨0, 1000, 1, []⟩, 0, 0⟩ = .ok b₁ := ⟨_, rfl⟩
  obtain ⟨b₂, h₂⟩ : ∃ b₂, b₁.addTransfer ⟨8, [()]⟩ ⟨⟨0, 1000, 1, []⟩, 0, 0⟩ = .ok b₂ := by
    rw [Except.ok.inj h₁.symm]
    exact ⟨_, rfl⟩
  exact ⟨hslots, b₁, b₂, h₁, h₂,
    reachable_approval_slots hslots (.addTransfer (.addTransfer .new h₁) h₂)⟩

end Reachable

/-- **The check wraps.**  On a new block whose approval limit falls short of the transfer and
deploy count limits together by two or more, the remaining deploy slots exceed the remaining
approval slots, their `usize` difference wraps to nearly `2 ^ 64`, and no item with fewer than
`2 ^ 63` approvals exceeds the approval limits. -/
theorem new_wouldExceedApprovalLimits {deployConfig : DeployConfig}
    (hslots : deployConfig.blockMaxApprovalCount.toNat + 1 <
      deployConfig.blockMaxTransferCount.toNat + deployConfig.blockMaxDeployCount.toNat)
    (timestamp : Nat) {n : Nat} (hn : n < 2 ^ 63) :
    (new deployConfig timestamp : AppendableBlock H A).wouldExceedApprovalLimits n = false := by
  have hA := UInt32.toNat_lt deployConfig.blockMaxApprovalCount
  have hT := UInt32.toNat_lt deployConfig.blockMaxTransferCount
  have hD := UInt32.toNat_lt deployConfig.blockMaxDeployCount
  have hM := usizeModulus_eq
  have happrovals : (new deployConfig timestamp : AppendableBlock H A).remainingApprovalSlots =
      deployConfig.blockMaxApprovalCount.toNat :=
    usizeSub_zero (a := deployConfig.blockMaxApprovalCount.toNat) (by omega)
  have hdeploys : (new deployConfig timestamp : AppendableBlock H A).remainingDeploySlots =
      deployConfig.blockMaxTransferCount.toNat + deployConfig.blockMaxDeployCount.toNat := by
    show usizeSub (usizeAdd (usizeSub deployConfig.blockMaxTransferCount.toNat 0)
      deployConfig.blockMaxDeployCount.toNat) 0 = _
    -- inside out: the transfer slots, then their sum with the deploy slots
    rw [usizeSub_zero (a := deployConfig.blockMaxTransferCount.toNat) (by omega),
      usizeAdd_of_lt (by omega), usizeSub_zero (by omega)]
  -- the difference wraps, once: what is left is far above the approvals of the item
  rw [wouldExceedApprovalLimits, happrovals, hdeploys, usizeSub_of_lt (by omega) (by omega),
    usizeAdd_of_lt (by omega), decide_eq_false_iff_not]
  omega

/-! ## Runs of adds -/

/-- The item `propose_block_payload` adds for a pending entry: its hash and approvals. -/
def pendingItem (entry : H × PendingDeployInfo H A) : DeployWithApprovals H A :=
  ⟨entry.1, entry.2.approvals⟩

/-- A run of successful adds by `add`, one for each entry in turn. -/
inductive AddRun (add : AppendableBlock H A → DeployWithApprovals H A → DeployInfo H →
      Except AddError (AppendableBlock H A)) :
    AppendableBlock H A → List (H × PendingDeployInfo H A) → AppendableBlock H A → Prop
  | nil (b : AppendableBlock H A) : AddRun add b [] b
  | cons {b b₁ b₂ : AppendableBlock H A} {entry : H × PendingDeployInfo H A}
      {rest : List (H × PendingDeployInfo H A)}
      (hadd : add b (pendingItem entry) entry.2.info = .ok b₁) (hrest : AddRun add b₁ rest b₂) :
      AddRun add b (entry :: rest) b₂

section Run

variable {add : AppendableBlock H A → DeployWithApprovals H A → DeployInfo H →
  Except AddError (AppendableBlock H A)} {b b' : AppendableBlock H A}
  {added : List (H × PendingDeployInfo H A)}

/-- What every successful add keeps, a run keeps. -/
theorem AddRun.preserves {P : AppendableBlock H A → Prop}
    (hstep : ∀ {b b' item deployInfo}, P b → add b item deployInfo = .ok b' → P b')
    (h : AddRun add b added b') (hb : P b) : P b' := by
  induction h with
  | nil => exact hb
  | cons hadd _ ih => exact ih (hstep hb hadd)

variable [DecidableEq H]

/-- A run of `add_transfer` appends its items to the transfers, checked against the block's
config and timestamp, and leaves the rest. -/
theorem AddRun.addTransfer_items (h : AddRun addTransfer b added b') :
    b'.transfers = b.transfers ++ added.map pendingItem ∧ b'.deploys = b.deploys ∧
      b'.totalSize = b.totalSize ∧ b'.totalGas = b.totalGas ∧
      b'.deployConfig = b.deployConfig ∧ b'.timestamp = b.timestamp ∧
      ∀ e ∈ added, e.2.info.header.isValid b.deployConfig b.timestamp = true := by
  induction h with
  | nil => simp
  | cons hadd _ ih =>
    obtain ⟨-, hvalid, -, -, rfl⟩ := addTransfer_eq_ok hadd
    obtain ⟨htransfers, hdeploys, hsize, hgas, hconfig, htime, hvalids⟩ := ih
    refine ⟨by simp [htransfers], hdeploys, hsize, hgas, hconfig, htime, ?_⟩
    intro e he
    rcases List.mem_cons.mp he with rfl | he
    · exact hvalid
    · exact hvalids e he

/-- A run of `add_deploy` appends its items to the deploys and adds their sizes and gas,
checked against the block's config and timestamp, and leaves the transfers. -/
theorem AddRun.addDeploy_items (h : AddRun addDeploy b added b') :
    b'.deploys = b.deploys ++ added.map pendingItem ∧ b'.transfers = b.transfers ∧
      b'.totalSize = b.totalSize + (added.map (·.2.info.size)).sum ∧
      b'.totalGas = b.totalGas +
        (added.map fun e => e.2.info.paymentAmount / e.2.info.header.gasPrice).sum ∧
      b'.deployConfig = b.deployConfig ∧ b'.timestamp = b.timestamp ∧
      ∀ e ∈ added, e.2.info.header.isValid b.deployConfig b.timestamp = true := by
  induction h with
  | nil => simp
  | cons hadd _ ih =>
    obtain ⟨-, hvalid, -, -, -, -, -, rfl⟩ := addDeploy_eq_ok hadd
    obtain ⟨hdeploys, htransfers, hsize, hgas, hconfig, htime, hvalids⟩ := ih
    refine ⟨by simp [hdeploys], htransfers, by simp [hsize]; omega, by simp [hgas]; omega,
      hconfig, htime, ?_⟩
    intro e he
    rcases List.mem_cons.mp he with rfl | he
    · exact hvalid
    · exact hvalids e he

end Run

end AppendableBlock

/-! ## The loops of `propose_block_payload` -/

namespace BlockProposerDeploySets

open AppendableBlock

variable [DecidableEq H] (sets : BlockProposerDeploySets H A)

/-- What `propose_block_payload` checked of a pending entry it included. -/
structure Includable (deployDelay : Nat) (deployConfig : DeployConfig)
    (context : BlockContext H A K) (entry : H × PendingDeployInfo H A) : Prop where
  not_past : entry.1 ∉ sets.pastDeploys context
  not_finalized : sets.containsFinalized entry.1 = false
  deps_resolved : ∀ dep ∈ entry.2.info.header.dependencies,
    dep ∈ sets.pastDeploys context ∨ sets.containsFinalized dep = true
  delay : deployDelay ≤ context.timestamp - entry.2.timestamp
  valid : entry.2.info.header.isValid deployConfig context.timestamp = true

/-- An entry that the loops do not pass over is one whose dependencies are resolved, that no
ancestor holds, that is not finalized, and that waited long enough. -/
theorem skips_eq_false_iff {deployDelay : Nat} {pastDeploys : List H} {blockTimestamp : Nat}
    {hash : H} {pendingDeployInfo : PendingDeployInfo H A} :
    sets.skips deployDelay pastDeploys blockTimestamp hash pendingDeployInfo = false ↔
      (∀ dep ∈ pendingDeployInfo.info.header.dependencies,
        dep ∈ pastDeploys ∨ sets.containsFinalized dep = true) ∧
      hash ∉ pastDeploys ∧ sets.containsFinalized hash = false ∧
      deployDelay ≤ blockTimestamp - pendingDeployInfo.timestamp := by
  simp [skips, depsResolved, and_assoc]

theorem includable_iff {deployDelay : Nat} {deployConfig : DeployConfig}
    {context : BlockContext H A K} {entry : H × PendingDeployInfo H A} :
    sets.Includable deployDelay deployConfig context entry ↔
      sets.skips deployDelay (sets.pastDeploys context) context.timestamp entry.1 entry.2 = false ∧
        entry.2.info.header.isValid deployConfig context.timestamp = true := by
  rw [skips_eq_false_iff]
  constructor
  · rintro ⟨hpast, hfin, hdeps, hdelay, hvalid⟩
    exact ⟨⟨hdeps, hpast, hfin, hdelay⟩, hvalid⟩
  · rintro ⟨⟨hdeps, hpast, hfin, hdelay⟩, hvalid⟩
    exact ⟨hpast, hfin, hdeps, hdelay, hvalid⟩

/-- The transfer loop adds a sublist of the pending transfers, none of which it passes over,
by successful `add_transfer` calls. -/
theorem addTransfers_run (deployDelay : Nat) (pastDeploys : List H) (blockTimestamp : Nat) :
    ∀ (pending : List (H × PendingDeployInfo H A)) (b : AppendableBlock H A),
      ∃ added, added.Sublist pending ∧
        (∀ e ∈ added, sets.skips deployDelay pastDeploys blockTimestamp e.1 e.2 = false) ∧
        AddRun addTransfer b added (sets.addTransfers deployDelay pastDeploys blockTimestamp b pending)
  | [], b => ⟨[], List.Sublist.slnil, by simp, by simpa [addTransfers] using AddRun.nil b⟩
  | (hash, pendingDeployInfo) :: rest, b => by
    have hgo : ∀ b', ∃ added, added.Sublist ((hash, pendingDeployInfo) :: rest) ∧
        (∀ e ∈ added, sets.skips deployDelay pastDeploys blockTimestamp e.1 e.2 = false) ∧
        AddRun addTransfer b' added (sets.addTransfers deployDelay pastDeploys blockTimestamp b' rest) := by
      intro b'
      obtain ⟨added, hsub, hskips, hrun⟩ := addTransfers_run deployDelay pastDeploys blockTimestamp rest b'
      exact ⟨added, hsub.cons _, hskips, hrun⟩
    have hstop : ∃ added, added.Sublist ((hash, pendingDeployInfo) :: rest) ∧
        (∀ e ∈ added, sets.skips deployDelay pastDeploys blockTimestamp e.1 e.2 = false) ∧
        AddRun addTransfer b added b := ⟨[], List.nil_sublist _, by simp, AddRun.nil b⟩
    -- the entry is passed over, added, or refused; a refusal ends the loop or goes on
    cases hskip : sets.skips deployDelay pastDeploys blockTimestamp hash pendingDeployInfo with
    | true => simpa [addTransfers, hskip] using hgo b
    | false =>
      cases hadd : b.addTransfer ⟨hash, pendingDeployInfo.approvals⟩ pendingDeployInfo.info with
      | ok b₁ =>
        obtain ⟨added, hsub, hskips, hrun⟩ :=
          addTransfers_run deployDelay pastDeploys blockTimestamp rest b₁
        refine ⟨(hash, pendingDeployInfo) :: added, hsub.cons_cons _, ?_, ?_⟩
        · intro e he
          rcases List.mem_cons.mp he with rfl | he
          · exact hskip
          · exact hskips e he
        · simpa [addTransfers, hskip, hadd] using AddRun.cons hadd hrun
      | error e =>
        cases e <;> simp only [addTransfers, hskip, hadd, Bool.false_eq_true, ↓reduceIte] <;>
          (try split) <;> first | exact hstop | exact hgo b

/-- The deploy loop adds a sublist of the pending deploys, none of which it passes over, by
successful `add_deploy` calls. -/
theorem addDeploys_run (deployConfig : DeployConfig) (deployDelay : Nat) (pastDeploys : List H)
    (blockTimestamp : Nat) :
    ∀ (pending : List (H × PendingDeployInfo H A)) (b : AppendableBlock H A),
      ∃ added, added.Sublist pending ∧
        (∀ e ∈ added, sets.skips deployDelay pastDeploys blockTimestamp e.1 e.2 = false) ∧
        AddRun addDeploy b added
          (sets.addDeploys deployConfig deployDelay pastDeploys blockTimestamp b pending)
  | [], b => ⟨[], List.Sublist.slnil, by simp, by simpa [addDeploys] using AddRun.nil b⟩
  | (hash, pendingDeployInfo) :: rest, b => by
    have hgo : ∀ b', ∃ added, added.Sublist ((hash, pendingDeployInfo) :: rest) ∧
        (∀ e ∈ added, sets.skips deployDelay pastDeploys blockTimestamp e.1 e.2 = false) ∧
        AddRun addDeploy b' added
          (sets.addDeploys deployConfig deployDelay pastDeploys blockTimestamp b' rest) := by
      intro b'
      obtain ⟨added, hsub, hskips, hrun⟩ :=
        addDeploys_run deployConfig deployDelay pastDeploys blockTimestamp rest b'
      exact ⟨added, hsub.cons _, hskips, hrun⟩
    have hstop : ∃ added, added.Sublist ((hash, pendingDeployInfo) :: rest) ∧
        (∀ e ∈ added, sets.skips deployDelay pastDeploys blockTimestamp e.1 e.2 = false) ∧
        AddRun addDeploy b added b := ⟨[], List.nil_sublist _, by simp, AddRun.nil b⟩
    -- the entry is passed over, added, or refused; a refusal ends the loop or goes on
    cases hskip : sets.skips deployDelay pastDeploys blockTimestamp hash pendingDeployInfo with
    | true => simpa [addDeploys, hskip] using hgo b
    | false =>
      cases hadd : b.addDeploy ⟨hash, pendingDeployInfo.approvals⟩ pendingDeployInfo.info with
      | ok b₁ =>
        obtain ⟨added, hsub, hskips, hrun⟩ :=
          addDeploys_run deployConfig deployDelay pastDeploys blockTimestamp rest b₁
        refine ⟨(hash, pendingDeployInfo) :: added, hsub.cons_cons _, ?_, ?_⟩
        · intro e he
          rcases List.mem_cons.mp he with rfl | he
          · exact hskip
          · exact hskips e he
        · simpa [addDeploys, hskip, hadd] using AddRun.cons hadd hrun
      | error e =>
        cases e <;> simp only [addDeploys, hskip, hadd, Bool.false_eq_true, ↓reduceIte] <;>
          (try split) <;> first | exact hstop | exact hgo b

/-! ## The payload -/

section Payload

variable (deployDelay : Nat) (deployConfig : DeployConfig) (context : BlockContext H A K)

/-- The proposal is the transfer loop from a new block, then the deploy loop: runs of
successful adds of pending entries it does not pass over. -/
theorem proposeBlockPayload_runs :
    ∃ (transfers deploys : List (H × PendingDeployInfo H A)) (b₁ b₂ : AppendableBlock H A),
      transfers.Sublist sets.pendingTransfers ∧
      deploys.Sublist sets.pendingDeploys ∧
      (∀ e ∈ transfers ++ deploys,
        sets.skips deployDelay (sets.pastDeploys context) context.timestamp e.1 e.2 = false) ∧
      AddRun addTransfer (new deployConfig context.timestamp) transfers b₁ ∧
      AddRun addDeploy b₁ deploys b₂ ∧ Reachable deployConfig context.timestamp b₂ ∧
      ∀ accusations randomBit, sets.proposeBlockPayload deployDelay deployConfig context
        accusations randomBit = b₂.intoBlockPayload accusations randomBit := by
  obtain ⟨transfers, hsubT, hskipT, hrunT⟩ := sets.addTransfers_run deployDelay
    (sets.pastDeploys context) context.timestamp sets.pendingTransfers
    (new deployConfig context.timestamp)
  obtain ⟨deploys, hsubD, hskipD, hrunD⟩ := sets.addDeploys_run deployConfig deployDelay
    (sets.pastDeploys context) context.timestamp sets.pendingDeploys
    (sets.addTransfers deployDelay (sets.pastDeploys context) context.timestamp
      (new deployConfig context.timestamp) sets.pendingTransfers)
  -- the deploy loop's block is reached by the adds of both runs
  have hreach : Reachable deployConfig context.timestamp _ :=
    hrunD.preserves (fun hb h => hb.addDeploy h)
    (hrunT.preserves (fun hb h => hb.addTransfer h) .new)
  refine ⟨transfers, deploys, _, _, hsubT, hsubD, fun e he => ?_, hrunT, hrunD, hreach,
    fun _ _ => rfl⟩
  rcases List.mem_append.mp he with he | he
  · exact hskipT e he
  · exact hskipD e he

/-- **The limits of a proposed block.**  For every config, every state of the proposer and
every block context, the payload `propose_block_payload` returns is made of pending transfers
and deploys, in their order, each of which it was right to include: its dependencies are
finalized or in an ancestor's payload, it is in no ancestor's payload and not finalized, it
waited long enough, and its header is valid at the block's timestamp.  No hash appears twice,
and the transfer and deploy counts, the total size of the deploys and their total gas are
within the config's limits. -/
theorem proposeBlockPayload_within_limits (accusations : List K) (randomBit : Bool) :
    ∃ transfers deploys : List (H × PendingDeployInfo H A),
      transfers.Sublist sets.pendingTransfers ∧ deploys.Sublist sets.pendingDeploys ∧
      (∀ e ∈ transfers ++ deploys, sets.Includable deployDelay deployConfig context e) ∧
      (sets.proposeBlockPayload deployDelay deployConfig context accusations randomBit).transfers =
        transfers.map pendingItem ∧
      (sets.proposeBlockPayload deployDelay deployConfig context accusations randomBit).deploys =
        deploys.map pendingItem ∧
      ((deploys ++ transfers).map Prod.fst).Nodup ∧
      transfers.length ≤ deployConfig.blockMaxTransferCount.toNat ∧
      deploys.length ≤ deployConfig.blockMaxDeployCount.toNat ∧
      (deploys.map (·.2.info.size)).sum ≤ deployConfig.maxBlockSize.toNat ∧
      (deploys.map fun e => e.2.info.paymentAmount / e.2.info.header.gasPrice).sum ≤
        deployConfig.blockGasLimit.toNat := by
  obtain ⟨transfers, deploys, b₁, b₂, hsubT, hsubD, hskips, hrunT, hrunD, hreach, hpayload⟩ :=
    sets.proposeBlockPayload_runs deployDelay deployConfig context
  have hw := hreach.withinLimits
  obtain ⟨hconfig, -⟩ := hreach.config
  obtain ⟨htrT, hdeT, hszT, hgasT, hcfgT, htsT, hvalT⟩ := hrunT.addTransfer_items
  obtain ⟨hdeD, htrD, hszD, hgasD, -, -, hvalD⟩ := hrunD.addDeploy_items
  -- the block the deploy loop leaves holds exactly the added entries
  have htransfers : b₂.transfers = transfers.map pendingItem := by rw [htrD, htrT]; rfl
  have hdeploys : b₂.deploys = deploys.map pendingItem := by rw [hdeD, hdeT]; rfl
  have hsize : b₂.totalSize = (deploys.map (·.2.info.size)).sum := by
    rw [hszD, hszT]; exact Nat.zero_add _
  have hgas : b₂.totalGas =
      (deploys.map fun e => e.2.info.paymentAmount / e.2.info.header.gasPrice).sum := by
    rw [hgasD, hgasT]; exact Nat.zero_add _
  refine ⟨transfers, deploys, hsubT, hsubD, fun e he => ?_, by rw [hpayload]; exact htransfers,
    by rw [hpayload]; exact hdeploys, ?_, ?_, ?_, ?_, ?_⟩
  · -- each entry was not passed over, and its add checked its header
    refine sets.includable_iff.mpr ⟨hskips e he, ?_⟩
    rcases List.mem_append.mp he with he | he
    · exact hvalT e he
    · have := hvalD e he
      rwa [hcfgT, htsT] at this
  · have hnodup := hw.nodup
    rw [hashes, hdeploys, htransfers] at hnodup
    simpa [pendingItem, Function.comp_def] using hnodup
  · simpa [htransfers, hconfig] using hw.transfers_le
  · simpa [hdeploys, hconfig] using hw.deploys_le
  · rw [← hsize, ← hconfig]; exact hw.size_le
  · rw [← hgas, ← hconfig]; exact hw.gas_le

/-- A deploy config with room for two transfers and for no approval. -/
def approvalExampleConfig : DeployConfig := ⟨1000, 10, 100, 0, 2, 0, 100⟩

/-- One pending transfer, with one approval, valid from time zero for a second. -/
def approvalExampleSets : BlockProposerDeploySets Nat Unit :=
  ⟨[], [(7, ⟨[()], ⟨⟨0, 1000, 1, []⟩, 0, 0⟩, 0⟩)], [], []⟩

/-- **The approvals of a proposed block.**  With the approval limit at least the transfer and
deploy count limits together, the payload's approvals are within their limit too. -/
theorem proposeBlockPayload_approvals_le
    (hslots : deployConfig.blockMaxTransferCount.toNat + deployConfig.blockMaxDeployCount.toNat ≤
      deployConfig.blockMaxApprovalCount.toNat) (accusations : List K) (randomBit : Bool) :
    (((sets.proposeBlockPayload deployDelay deployConfig context accusations randomBit).deploys ++
      (sets.proposeBlockPayload deployDelay deployConfig context accusations randomBit).transfers).map
        (·.approvals.length)).sum ≤ deployConfig.blockMaxApprovalCount.toNat := by
  obtain ⟨transfers, deploys, b₁, b₂, -, -, -, -, -, hreach, hpayload⟩ :=
    sets.proposeBlockPayload_runs deployDelay deployConfig context
  have ha := hreach.approvalSlots hslots
  obtain ⟨hconfig, -⟩ := hreach.config
  rw [hpayload]
  show ((b₂.deploys ++ b₂.transfers).map (·.approvals.length)).sum ≤ _
  rw [← ha.approvals_eq, ← hconfig]
  exact ha.approvals_le

theorem proposeBlockPayload_approvals_le_example :
    AppendableBlock.approvalRoomyConfig.blockMaxTransferCount.toNat +
        AppendableBlock.approvalRoomyConfig.blockMaxDeployCount.toNat ≤
      AppendableBlock.approvalRoomyConfig.blockMaxApprovalCount.toNat ∧
    (((approvalExampleSets.proposeBlockPayload 0 AppendableBlock.approvalRoomyConfig
        (⟨0, []⟩ : BlockContext Nat Unit Unit) [] false).deploys ++
      (approvalExampleSets.proposeBlockPayload 0 AppendableBlock.approvalRoomyConfig
        (⟨0, []⟩ : BlockContext Nat Unit Unit) [] false).transfers).map
        (·.approvals.length)).sum ≤ AppendableBlock.approvalRoomyConfig.blockMaxApprovalCount.toNat :=
  ⟨by decide, proposeBlockPayload_approvals_le approvalExampleSets 0
    AppendableBlock.approvalRoomyConfig ⟨0, []⟩ (by decide) [] false⟩

/-- **The approval limit is not kept.**  `Chainspec::is_valid` accepts every `DeployConfig`.
With an approval limit that falls short of the transfer and deploy count limits together by two
or more, a proposer whose one pending transfer it may include, with more approvals than the
limit (and fewer than `2 ^ 63`), proposes a payload with that transfer, and so with more
approvals than the limit. -/
theorem proposeBlockPayload_exceeds_approval_count
    (hslots : deployConfig.blockMaxApprovalCount.toNat + 1 <
      deployConfig.blockMaxTransferCount.toNat + deployConfig.blockMaxDeployCount.toNat)
    (htransfer : 0 < deployConfig.blockMaxTransferCount.toNat)
    {entry : H × PendingDeployInfo H A} (hpending : sets.pendingTransfers = [entry])
    (hdeploys : sets.pendingDeploys = [])
    (hincl : sets.Includable deployDelay deployConfig context entry)
    (hmany : deployConfig.blockMaxApprovalCount.toNat < entry.2.approvals.length)
    (hbound : entry.2.approvals.length < 2 ^ 63) (accusations : List K) (randomBit : Bool) :
    (sets.proposeBlockPayload deployDelay deployConfig context accusations randomBit).transfers =
        [pendingItem entry] ∧
      deployConfig.blockMaxApprovalCount.toNat <
        (((sets.proposeBlockPayload deployDelay deployConfig context accusations randomBit).deploys ++
          (sets.proposeBlockPayload deployDelay deployConfig context accusations randomBit).transfers).map
            (·.approvals.length)).sum := by
  obtain ⟨hskip, hvalid⟩ := sets.includable_iff.mp hincl
  have hexceed := new_wouldExceedApprovalLimits (H := H) (A := A) hslots context.timestamp hbound
  -- the new block takes the transfer: nothing is in it yet, and the approval check wraps
  have hadd : (new deployConfig context.timestamp : AppendableBlock H A).addTransfer
      (pendingItem entry) entry.2.info = .ok { new deployConfig context.timestamp with
        deployAndTransferSet := [entry.1]
        totalApprovals := usizeAdd 0 entry.2.approvals.length
        transfers := [pendingItem entry] } := by
    rw [addTransfer, if_neg (by simp [new]), if_neg (by simpa [new] using hvalid),
      if_neg (by simp [new, hasMaxTransferCount]; omega), if_neg (by simpa [pendingItem] using hexceed)]
    rfl
  obtain ⟨hash, pendingDeployInfo⟩ := entry
  have hpayload : sets.proposeBlockPayload deployDelay deployConfig context accusations randomBit =
      ⟨[], [pendingItem (hash, pendingDeployInfo)], accusations, randomBit⟩ := by
    simp only [proposeBlockPayload, hpending, hdeploys, addTransfers, hskip, Bool.false_eq_true,
      ↓reduceIte]
    rw [show (⟨hash, pendingDeployInfo.approvals⟩ : DeployWithApprovals H A) =
      pendingItem (hash, pendingDeployInfo) from rfl, hadd]
    rfl
  rw [hpayload]
  exact ⟨rfl, by simpa [pendingItem] using hmany⟩

theorem proposeBlockPayload_exceeds_approval_count_example :
    approvalExampleConfig.blockMaxApprovalCount.toNat + 1 <
        approvalExampleConfig.blockMaxTransferCount.toNat +
          approvalExampleConfig.blockMaxDeployCount.toNat ∧
    (approvalExampleSets.proposeBlockPayload 0 approvalExampleConfig
        (⟨0, []⟩ : BlockContext Nat Unit Unit) [] false).transfers = [⟨7, [()]⟩] ∧
      approvalExampleConfig.blockMaxApprovalCount.toNat <
        (((approvalExampleSets.proposeBlockPayload 0 approvalExampleConfig
            (⟨0, []⟩ : BlockContext Nat Unit Unit) [] false).deploys ++
          (approvalExampleSets.proposeBlockPayload 0 approvalExampleConfig
            (⟨0, []⟩ : BlockContext Nat Unit Unit) [] false).transfers).map
          (·.approvals.length)).sum :=
  ⟨by decide, proposeBlockPayload_exceeds_approval_count approvalExampleSets 0 approvalExampleConfig
    ⟨0, []⟩ (by decide) (by decide) rfl rfl
    ⟨by simp [pastDeploys], by decide, by simp, by decide, by decide⟩ (by decide) (by decide) [] false⟩

end Payload

end BlockProposerDeploySets

end CasperNode
