import Mathlib

/-!
# Proposing a block payload

`BlockProposer::propose_block_payload` fills an `AppendableBlock`, first from the pending
transfers, then from the pending deploys.  It passes over an entry whose dependencies are
neither finalized nor in an ancestor of the new block, that an ancestor already holds, that is
finalized, or that arrived less than `deploy_delay` ago.  `AppendableBlock::add_transfer` and
`add_deploy` refuse a duplicate, a deploy whose header is not valid at the block's timestamp,
and one that would exceed a limit of the `DeployConfig`: the transfer or deploy count and the
approval count, and for deploys the block size and the gas limit.  Which refusal ends a loop
and which only skips the entry is the source's.

Counts and sizes are `usize`, 64 bits, with the wrapping arithmetic of a release build, which
sets no `overflow-checks` (`usizeAdd`, `usizeSub`).  `would_exceed_approval_limits` subtracts
the remaining deploy and transfer slots from the remaining approval slots; the difference
wraps unless the approval limit is at least the two count limits together, and
`Chainspec::is_valid` does not check that.  The `DeployConfig` fields keep their widths.
Timestamps and time differences are milliseconds, `ℕ` with the saturation of the source.  Gas
is a `U512`, `ℕ` with the overflow of `checked_add`.  The pending and finalized sets are
`HashMap`s, lists here in their iteration order; the approvals of a deploy are a `BTreeSet`, a
list here.
-/

namespace CasperNode

/-! ## `usize` -/

/-- `usize` has 64 bits. -/
def usizeModulus : Nat := 2 ^ 64

/-- `+` on `usize` in a release build: it wraps. -/
def usizeAdd (a b : Nat) : Nat := (a + b) % usizeModulus

/-- `-` on `usize` in a release build: it wraps. -/
def usizeSub (a b : Nat) : Nat := (a + (usizeModulus - b % usizeModulus)) % usizeModulus

/-- `usize::checked_add`. -/
def usizeCheckedAdd (a b : Nat) : Option Nat :=
  if a + b < usizeModulus then some (a + b) else none

theorem usizeModulus_eq : usizeModulus = 18446744073709551616 := rfl

/-- Below the modulus, `+` does not wrap. -/
theorem usizeAdd_of_lt {a b : Nat} (h : a + b < usizeModulus) : usizeAdd a b = a + b :=
  Nat.mod_eq_of_lt h

/-- Below the modulus, `-` of a smaller value does not wrap. -/
theorem usizeSub_of_le {a b : Nat} (ha : a < usizeModulus) (h : b ≤ a) : usizeSub a b = a - b := by
  have hb : b % usizeModulus = b := Nat.mod_eq_of_lt (by omega)
  rw [usizeSub, hb]
  rw [show a + (usizeModulus - b) = (a - b) + usizeModulus by omega, Nat.add_mod_right]
  exact Nat.mod_eq_of_lt (by omega)

@[simp]
theorem usizeSub_zero {a : Nat} (ha : a < usizeModulus) : usizeSub a 0 = a := by
  rw [usizeSub_of_le ha (Nat.zero_le a), Nat.sub_zero]

/-- Below the modulus, `-` of a larger value wraps to the modulus less the difference. -/
theorem usizeSub_of_lt {a b : Nat} (hb : b < usizeModulus) (h : a < b) :
    usizeSub a b = usizeModulus - (b - a) := by
  rw [usizeSub, Nat.mod_eq_of_lt hb, show a + (usizeModulus - b) = usizeModulus - (b - a) by omega]
  exact Nat.mod_eq_of_lt (by omega)

/-! ## Deploys and the deploy config -/

/-- `DeployConfig`, with the fields a block proposal reads. -/
structure DeployConfig where
  maxTtl : Nat
  maxDependencies : UInt8
  maxBlockSize : UInt32
  blockMaxDeployCount : UInt32
  blockMaxTransferCount : UInt32
  blockMaxApprovalCount : UInt32
  blockGasLimit : UInt64
deriving DecidableEq

/-- `DeployHeader`, with the fields a block proposal reads. -/
structure DeployHeader (H : Type) where
  timestamp : Nat
  ttl : Nat
  gasPrice : Nat
  dependencies : List H
deriving DecidableEq

namespace DeployHeader

variable {H : Type}

/-- `DeployHeader::expires`: `Timestamp::saturating_add` of the time to live. -/
def expires (header : DeployHeader H) : Nat := min (header.timestamp + header.ttl) (2 ^ 64 - 1)

/-- `DeployHeader::expired`. -/
def expired (header : DeployHeader H) (currentInstant : Nat) : Bool :=
  decide (header.expires < currentInstant)

/-- `DeployHeader::is_valid`. -/
def isValid (header : DeployHeader H) (deployConfig : DeployConfig) (currentTimestamp : Nat) :
    Bool :=
  decide (header.ttl ≤ deployConfig.maxTtl) && decide (header.timestamp ≤ currentTimestamp) &&
    !header.expired currentTimestamp &&
    decide (header.dependencies.length ≤ deployConfig.maxDependencies.toNat)

end DeployHeader

/-- `DeployInfo`: the header, the payment amount in motes and the serialized size. -/
structure DeployInfo (H : Type) where
  header : DeployHeader H
  paymentAmount : Nat
  size : Nat
deriving DecidableEq

/-- `DeployWithApprovals`. -/
structure DeployWithApprovals (H A : Type) where
  deployHash : H
  approvals : List A
deriving DecidableEq

/-- `Gas::from_motes`: `checked_div` by the gas price. -/
def gasFromMotes (motes convRate : Nat) : Option Nat :=
  if convRate = 0 then none else some (motes / convRate)

/-- `Gas::checked_add`, on `U512`. -/
def gasCheckedAdd (a b : Nat) : Option Nat := if a + b < 2 ^ 512 then some (a + b) else none

/-- `AddError`. -/
inductive AddError where
  | transferCount
  | deployCount
  | approvalCount
  | gasLimit
  | blockSize
  | duplicate
  | invalidGasAmount
  | invalidDeploy
deriving DecidableEq

/-! ## `AppendableBlock` -/

/-- `AppendableBlock`: the deploys and transfers so far, their hashes, and the running totals
of gas, size and approvals. -/
structure AppendableBlock (H A : Type) where
  deployConfig : DeployConfig
  deploys : List (DeployWithApprovals H A)
  transfers : List (DeployWithApprovals H A)
  deployAndTransferSet : List H
  timestamp : Nat
  totalGas : Nat
  totalSize : Nat
  totalApprovals : Nat

/-- `BlockPayload`. -/
structure BlockPayload (H A K : Type) where
  deploys : List (DeployWithApprovals H A)
  transfers : List (DeployWithApprovals H A)
  accusations : List K
  randomBit : Bool

namespace AppendableBlock

variable {H A : Type}

/-- `AppendableBlock::new`. -/
def new (deployConfig : DeployConfig) (timestamp : Nat) : AppendableBlock H A :=
  ⟨deployConfig, [], [], [], timestamp, 0, 0, 0⟩

/-- `has_max_transfer_count`. -/
def hasMaxTransferCount (b : AppendableBlock H A) : Bool :=
  b.transfers.length == b.deployConfig.blockMaxTransferCount.toNat

/-- `has_max_deploy_count`. -/
def hasMaxDeployCount (b : AppendableBlock H A) : Bool :=
  b.deploys.length == b.deployConfig.blockMaxDeployCount.toNat

/-- The remaining approval slots of `would_exceed_approval_limits`. -/
def remainingApprovalSlots (b : AppendableBlock H A) : Nat :=
  usizeSub b.deployConfig.blockMaxApprovalCount.toNat b.totalApprovals

/-- The remaining deploy slots of `would_exceed_approval_limits`: transfers and deploys
together, evaluated left to right. -/
def remainingDeploySlots (b : AppendableBlock H A) : Nat :=
  usizeSub (usizeAdd (usizeSub b.deployConfig.blockMaxTransferCount.toNat b.transfers.length)
    b.deployConfig.blockMaxDeployCount.toNat) b.deploys.length

/-- `would_exceed_approval_limits`: an item may not take the approval slots that the remaining
deploy slots need, one each. -/
def wouldExceedApprovalLimits (b : AppendableBlock H A) (additionalApprovals : Nat) : Bool :=
  decide (usizeAdd (usizeSub b.remainingApprovalSlots b.remainingDeploySlots) 1 < additionalApprovals)

variable [DecidableEq H]

/-- `AppendableBlock::add_transfer`. -/
def addTransfer (b : AppendableBlock H A) (transfer : DeployWithApprovals H A)
    (deployInfo : DeployInfo H) : Except AddError (AppendableBlock H A) :=
  if transfer.deployHash ∈ b.deployAndTransferSet then .error .duplicate
  else if !deployInfo.header.isValid b.deployConfig b.timestamp then .error .invalidDeploy
  else if b.hasMaxTransferCount then .error .transferCount
  else if b.wouldExceedApprovalLimits transfer.approvals.length then .error .approvalCount
  else
    .ok { b with
      deployAndTransferSet := transfer.deployHash :: b.deployAndTransferSet
      totalApprovals := usizeAdd b.totalApprovals transfer.approvals.length
      transfers := b.transfers ++ [transfer] }

/-- `AppendableBlock::add_deploy`: only deploys count towards the size and gas limits. -/
def addDeploy (b : AppendableBlock H A) (deploy : DeployWithApprovals H A)
    (deployInfo : DeployInfo H) : Except AddError (AppendableBlock H A) :=
  if deploy.deployHash ∈ b.deployAndTransferSet then .error .duplicate
  else if !deployInfo.header.isValid b.deployConfig b.timestamp then .error .invalidDeploy
  else if b.hasMaxDeployCount then .error .deployCount
  else if b.wouldExceedApprovalLimits deploy.approvals.length then .error .approvalCount
  else
    match (usizeCheckedAdd b.totalSize deployInfo.size).filter
        (· ≤ b.deployConfig.maxBlockSize.toNat) with
    | none => .error .blockSize
    | some newTotalSize =>
      match gasFromMotes deployInfo.paymentAmount deployInfo.header.gasPrice with
      | none => .error .invalidGasAmount
      | some gas =>
        match gasCheckedAdd b.totalGas gas with
        | none => .error .gasLimit
        | some newTotalGas =>
          if b.deployConfig.blockGasLimit.toNat < newTotalGas then .error .gasLimit
          else
            .ok { b with
              totalGas := newTotalGas
              totalSize := newTotalSize
              totalApprovals := usizeAdd b.totalApprovals deploy.approvals.length
              deployAndTransferSet := deploy.deployHash :: b.deployAndTransferSet
              deploys := b.deploys ++ [deploy] }

/-- `AppendableBlock::into_block_payload`. -/
def intoBlockPayload {K : Type} (b : AppendableBlock H A) (accusations : List K)
    (randomBit : Bool) : BlockPayload H A K :=
  ⟨b.deploys, b.transfers, accusations, randomBit⟩

end AppendableBlock

/-! ## The block proposer -/

/-- `PendingDeployInfo`: the approvals, the deploy info and when the entry was received. -/
structure PendingDeployInfo (H A : Type) where
  approvals : List A
  info : DeployInfo H
  timestamp : Nat

/-- `BlockProposerDeploySets`, with the sets a proposal reads: the pending deploys and
transfers, and the finalized ones with their expiry. -/
structure BlockProposerDeploySets (H A : Type) where
  pendingDeploys : List (H × PendingDeployInfo H A)
  pendingTransfers : List (H × PendingDeployInfo H A)
  finalizedDeploys : List (H × Nat)
  finalizedTransfers : List (H × Nat)

/-- `BlockContext`: the timestamp of the new block and the payloads of its ancestors, its
parent first. -/
structure BlockContext (H A K : Type) where
  timestamp : Nat
  ancestorValues : List (BlockPayload H A K)

/-- `BlockPayload::deploys_and_transfers_iter`, as hashes. -/
def BlockPayload.deploysAndTransfers {H A K : Type} (payload : BlockPayload H A K) : List H :=
  payload.deploys.map (·.deployHash) ++ payload.transfers.map (·.deployHash)

/-- `DEPLOY_APPROX_MIN_SIZE`. -/
def deployApproxMinSize : Nat := 300

namespace BlockProposerDeploySets

variable {H A K : Type} [DecidableEq H] (sets : BlockProposerDeploySets H A)

/-- `BlockProposer::contains_finalized`. -/
def containsFinalized (hash : H) : Bool :=
  sets.finalizedDeploys.any (·.1 == hash) || sets.finalizedTransfers.any (·.1 == hash)

/-- `BlockProposer::deps_resolved`. -/
def depsResolved (header : DeployHeader H) (pastDeploys : List H) : Bool :=
  header.dependencies.all fun dep => pastDeploys.contains dep || sets.containsFinalized dep

/-- The `past_deploys` of `propose_block_payload`: the hashes of the ancestors' payloads,
newest first, up to the first that is finalized. -/
def pastDeploys (context : BlockContext H A K) : List H :=
  (context.ancestorValues.flatMap BlockPayload.deploysAndTransfers).takeWhile
    fun hash => !sets.containsFinalized hash

/-- The test of both loops of `propose_block_payload` that passes over an entry. -/
def skips (deployDelay : Nat) (pastDeploys : List H) (blockTimestamp : Nat) (hash : H)
    (pendingDeployInfo : PendingDeployInfo H A) : Bool :=
  !sets.depsResolved pendingDeployInfo.info.header pastDeploys || pastDeploys.contains hash ||
    sets.containsFinalized hash ||
    decide (blockTimestamp - pendingDeployInfo.timestamp < deployDelay)

/-- The loop of `propose_block_payload` over the pending transfers.  A full block ends it, and
so does an approval count exceeded by a transfer with one approval; other refusals skip the
transfer. -/
def addTransfers (deployDelay : Nat) (pastDeploys : List H) (blockTimestamp : Nat) :
    AppendableBlock H A → List (H × PendingDeployInfo H A) → AppendableBlock H A
  | b, [] => b
  | b, (hash, pendingDeployInfo) :: rest =>
    if sets.skips deployDelay pastDeploys blockTimestamp hash pendingDeployInfo then
      addTransfers deployDelay pastDeploys blockTimestamp b rest
    else
      match b.addTransfer ⟨hash, pendingDeployInfo.approvals⟩ pendingDeployInfo.info with
      | .ok b => addTransfers deployDelay pastDeploys blockTimestamp b rest
      | .error .transferCount | .error .gasLimit | .error .blockSize => b
      | .error .approvalCount =>
        if 1 < pendingDeployInfo.approvals.length then
          addTransfers deployDelay pastDeploys blockTimestamp b rest
        else b
      | .error _ => addTransfers deployDelay pastDeploys blockTimestamp b rest

/-- The loop of `propose_block_payload` over the pending deploys.  A full deploy count ends it,
and so does a block too big for one more small deploy (measured against the gas limit, as in
the source), and an approval count exceeded by a deploy with one approval; other refusals skip
the deploy. -/
def addDeploys (deployConfig : DeployConfig) (deployDelay : Nat) (pastDeploys : List H)
    (blockTimestamp : Nat) :
    AppendableBlock H A → List (H × PendingDeployInfo H A) → AppendableBlock H A
  | b, [] => b
  | b, (hash, pendingDeployInfo) :: rest =>
    if sets.skips deployDelay pastDeploys blockTimestamp hash pendingDeployInfo then
      addDeploys deployConfig deployDelay pastDeploys blockTimestamp b rest
    else
      match b.addDeploy ⟨hash, pendingDeployInfo.approvals⟩ pendingDeployInfo.info with
      | .ok b => addDeploys deployConfig deployDelay pastDeploys blockTimestamp b rest
      | .error .deployCount => b
      | .error .blockSize =>
        if deployConfig.blockGasLimit.toNat < usizeAdd b.totalSize deployApproxMinSize then b
        else addDeploys deployConfig deployDelay pastDeploys blockTimestamp b rest
      | .error .approvalCount =>
        if 1 < pendingDeployInfo.approvals.length then
          addDeploys deployConfig deployDelay pastDeploys blockTimestamp b rest
        else b
      | .error _ => addDeploys deployConfig deployDelay pastDeploys blockTimestamp b rest

/-- `BlockProposer::propose_block_payload`, with `deployDelay` the local config's
`deploy_delay`. -/
def proposeBlockPayload (deployDelay : Nat) (deployConfig : DeployConfig)
    (context : BlockContext H A K) (accusations : List K) (randomBit : Bool) :
    BlockPayload H A K :=
  let pastDeploys := sets.pastDeploys context
  let blockTimestamp := context.timestamp
  let b := sets.addTransfers deployDelay pastDeploys blockTimestamp
    (AppendableBlock.new deployConfig blockTimestamp) sets.pendingTransfers
  let b := sets.addDeploys deployConfig deployDelay pastDeploys blockTimestamp b
    sets.pendingDeploys
  b.intoBlockPayload accusations randomBit

end BlockProposerDeploySets

end CasperNode
