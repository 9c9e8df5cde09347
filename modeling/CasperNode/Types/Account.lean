import CasperNode.Library.OrdMap

/-!
# Associated keys and action thresholds of an account

An account is authorized by its associated keys, each with a `u8` weight.  A deploy needs keys
whose weights sum to the deployment threshold, and managing keys needs the key management
threshold.  Weights are summed with saturating `u8` addition.  The four management calls each
check a condition before changing the account: a new threshold must not exceed the keys' total
weight, removing a key must leave enough weight for both thresholds, lowering a key's weight
likewise, and the deployment threshold stays at most the key management threshold.

From an account with `deployment ≤ key_management ≤ total weight` (`KeysOk`), every sequence of
calls keeps it, so the account's own keys can always deploy and manage keys
(`KeysOk.run_authorizes`).  A weight is a `Fin 256`.

`Account` here is the view of `casper_types::account::Account` with the fields its key
management reads; `CasperNode.Account` is its view as a stored value.
-/

namespace CasperNode.KeyManagement

/-! ## The model -/

/-- `u8::saturating_add`. -/
def u8SaturatingAdd (a b : Fin 256) : Fin 256 := ⟨min (a.val + b.val) 255, by omega⟩

/-- `AddKeyFailure`. -/
inductive AddKeyFailure where
  | maxKeysLimit
  | duplicateKey
  | permissionDenied
deriving DecidableEq, Repr

/-- `RemoveKeyFailure`. -/
inductive RemoveKeyFailure where
  | missingKey
  | permissionDenied
  | thresholdViolation
deriving DecidableEq, Repr

/-- `UpdateKeyFailure`. -/
inductive UpdateKeyFailure where
  | missingKey
  | permissionDenied
  | thresholdViolation
deriving DecidableEq, Repr

/-- `SetThresholdFailure`. -/
inductive SetThresholdFailure where
  | keyManagementThreshold
  | deploymentThreshold
  | permissionDeniedError
  | insufficientTotalWeight
deriving DecidableEq, Repr

/-- `ActionType`. -/
inductive ActionType where
  | deployment
  | keyManagement
deriving DecidableEq, Repr

/-- `AssociatedKeys`: the weight of each associated key, by account hash. -/
structure AssociatedKeys (K : Type) [LinearOrder K] where
  weights : OrdMap K (Fin 256)

namespace AssociatedKeys

variable {K : Type} [LinearOrder K]

/-- `AssociatedKeys::add_key`. -/
def addKey (associatedKeys : AssociatedKeys K) (key : K) (weight : Fin 256) :
    Except AddKeyFailure (AssociatedKeys K) :=
  match associatedKeys.weights.find? key with
  | none => .ok ⟨associatedKeys.weights.insert key weight⟩
  | some _ => .error .duplicateKey

/-- `AssociatedKeys::remove_key`. -/
def removeKey (associatedKeys : AssociatedKeys K) (key : K) :
    Except RemoveKeyFailure (AssociatedKeys K) :=
  match associatedKeys.weights.find? key with
  | some _ => .ok ⟨associatedKeys.weights.erase key⟩
  | none => .error .missingKey

/-- `AssociatedKeys::update_key`. -/
def updateKey (associatedKeys : AssociatedKeys K) (key : K) (weight : Fin 256) :
    Except UpdateKeyFailure (AssociatedKeys K) :=
  match associatedKeys.weights.find? key with
  | none => .error .missingKey
  | some _ => .ok ⟨associatedKeys.weights.insert key weight⟩

/-- `AssociatedKeys::calculate_any_keys_weight`: the weights of the keys that are associated,
summed with saturation. -/
def calculateAnyKeysWeight (associatedKeys : AssociatedKeys K) (keys : List K) : Fin 256 :=
  (keys.filterMap associatedKeys.weights.find?).foldl u8SaturatingAdd 0

/-- `AssociatedKeys::calculate_keys_weight`, of a `BTreeSet` given by its elements in order. -/
def calculateKeysWeight (associatedKeys : AssociatedKeys K) (authorizationKeys : List K) :
    Fin 256 :=
  associatedKeys.calculateAnyKeysWeight authorizationKeys

/-- `AssociatedKeys::total_keys_weight`. -/
def totalKeysWeight (associatedKeys : AssociatedKeys K) : Fin 256 :=
  associatedKeys.calculateAnyKeysWeight associatedKeys.weights.keys

/-- `AssociatedKeys::total_keys_weight_excluding`. -/
def totalKeysWeightExcluding (associatedKeys : AssociatedKeys K) (accountHash : K) : Fin 256 :=
  associatedKeys.calculateAnyKeysWeight (associatedKeys.weights.keys.filter (· ≠ accountHash))

end AssociatedKeys

/-- `ActionThresholds`. -/
structure ActionThresholds where
  deployment : Fin 256
  keyManagement : Fin 256
deriving DecidableEq, Repr

namespace ActionThresholds

/-- `ActionThresholds::new`. -/
def new (deployment keyManagement : Fin 256) : Except SetThresholdFailure ActionThresholds :=
  if deployment > keyManagement then .error .deploymentThreshold else .ok ⟨deployment, keyManagement⟩

/-- `ActionThresholds::set_deployment_threshold`. -/
def setDeploymentThreshold (thresholds : ActionThresholds) (newThreshold : Fin 256) :
    Except SetThresholdFailure ActionThresholds :=
  if newThreshold > thresholds.keyManagement then .error .deploymentThreshold
  else .ok { thresholds with deployment := newThreshold }

/-- `ActionThresholds::set_key_management_threshold`. -/
def setKeyManagementThreshold (thresholds : ActionThresholds) (newThreshold : Fin 256) :
    Except SetThresholdFailure ActionThresholds :=
  if thresholds.deployment > newThreshold then .error .keyManagementThreshold
  else .ok { thresholds with keyManagement := newThreshold }

/-- `ActionThresholds::set_threshold`. -/
def setThreshold (thresholds : ActionThresholds) (actionType : ActionType)
    (newThreshold : Fin 256) : Except SetThresholdFailure ActionThresholds :=
  match actionType with
  | .deployment => thresholds.setDeploymentThreshold newThreshold
  | .keyManagement => thresholds.setKeyManagementThreshold newThreshold

end ActionThresholds

/-- `Account`, with the fields its key management reads. -/
structure Account (K : Type) [LinearOrder K] where
  associatedKeys : AssociatedKeys K
  actionThresholds : ActionThresholds

namespace Account

variable {K : Type} [LinearOrder K]

/-- `Account::add_associated_key`. -/
def addAssociatedKey (account : Account K) (accountHash : K) (weight : Fin 256) :
    Except AddKeyFailure (Account K) :=
  (account.associatedKeys.addKey accountHash weight).map
    fun associatedKeys => { account with associatedKeys }

/-- `Account::can_remove_key`. -/
def canRemoveKey (account : Account K) (accountHash : K) : Bool :=
  let totalWeightWithout := account.associatedKeys.totalKeysWeightExcluding accountHash
  totalWeightWithout ≥ account.actionThresholds.deployment &&
    totalWeightWithout ≥ account.actionThresholds.keyManagement

/-- `Account::can_update_key`. -/
def canUpdateKey (account : Account K) (accountHash : K) (weight : Fin 256) : Bool :=
  let totalWeight := account.associatedKeys.totalKeysWeightExcluding accountHash
  let newWeight := u8SaturatingAdd totalWeight weight
  newWeight ≥ account.actionThresholds.deployment &&
    newWeight ≥ account.actionThresholds.keyManagement

/-- `Account::remove_associated_key`. -/
def removeAssociatedKey (account : Account K) (accountHash : K) :
    Except RemoveKeyFailure (Account K) :=
  if (account.associatedKeys.weights.find? accountHash).isSome &&
      !account.canRemoveKey accountHash then
    .error .thresholdViolation
  else
    (account.associatedKeys.removeKey accountHash).map
      fun associatedKeys => { account with associatedKeys }

/-- `Account::update_associated_key`: only a lowered weight is checked. -/
def updateAssociatedKey (account : Account K) (accountHash : K) (weight : Fin 256) :
    Except UpdateKeyFailure (Account K) :=
  let violation :=
    match account.associatedKeys.weights.find? accountHash with
    | some currentWeight => weight < currentWeight && !account.canUpdateKey accountHash weight
    | none => false
  if violation then .error .thresholdViolation
  else
    (account.associatedKeys.updateKey accountHash weight).map
      fun associatedKeys => { account with associatedKeys }

/-- `Account::can_set_threshold`. -/
def canSetThreshold (account : Account K) (newThreshold : Fin 256) :
    Except SetThresholdFailure Unit :=
  if newThreshold > account.associatedKeys.totalKeysWeight then .error .insufficientTotalWeight
  else .ok ()

/-- `Account::set_action_threshold`. -/
def setActionThreshold (account : Account K) (actionType : ActionType) (weight : Fin 256) :
    Except SetThresholdFailure (Account K) := do
  account.canSetThreshold weight
  let actionThresholds ← account.actionThresholds.setThreshold actionType weight
  pure { account with actionThresholds }

/-- `Account::can_deploy_with`. -/
def canDeployWith (account : Account K) (authorizationKeys : List K) : Bool :=
  account.associatedKeys.calculateKeysWeight authorizationKeys ≥ account.actionThresholds.deployment

/-- `Account::can_manage_keys_with`. -/
def canManageKeysWith (account : Account K) (authorizationKeys : List K) : Bool :=
  account.associatedKeys.calculateKeysWeight authorizationKeys ≥
    account.actionThresholds.keyManagement

/-- A call that manages an account's keys or thresholds. -/
inductive Call (K : Type) where
  | addAssociatedKey (accountHash : K) (weight : Fin 256)
  | removeAssociatedKey (accountHash : K)
  | updateAssociatedKey (accountHash : K) (weight : Fin 256)
  | setActionThreshold (actionType : ActionType) (weight : Fin 256)

/-- A call's account; a failed call leaves the account as it was. -/
def step (account : Account K) : Call K → Account K
  | .addAssociatedKey accountHash weight =>
    (account.addAssociatedKey accountHash weight).toOption.getD account
  | .removeAssociatedKey accountHash =>
    (account.removeAssociatedKey accountHash).toOption.getD account
  | .updateAssociatedKey accountHash weight =>
    (account.updateAssociatedKey accountHash weight).toOption.getD account
  | .setActionThreshold actionType weight =>
    (account.setActionThreshold actionType weight).toOption.getD account

/-- The account after a sequence of calls. -/
def run (account : Account K) (calls : List (Call K)) : Account K := calls.foldl step account

end Account

/-! ## Total weights -/

theorem u8SaturatingAdd_val (a b : Fin 256) :
    (u8SaturatingAdd a b).val = min (a.val + b.val) 255 := rfl

/-- Summing with saturation is the sum capped at `255`. -/
theorem foldl_u8SaturatingAdd_val (l : List (Fin 256)) (acc : Fin 256) :
    (l.foldl u8SaturatingAdd acc).val = min (acc.val + (l.map Fin.val).sum) 255 := by
  induction l generalizing acc with
  | nil =>
    have := acc.isLt
    simp only [List.foldl_nil, List.map_nil, List.sum_nil, Nat.add_zero]
    omega
  | cons w rest ih =>
    rw [List.foldl_cons, ih, u8SaturatingAdd_val, List.map_cons, List.sum_cons]
    omega

namespace AssociatedKeys

variable {K : Type} [LinearOrder K]

/-- The keys' weights summed without saturation. -/
def keysWeight (associatedKeys : AssociatedKeys K) : ℕ :=
  associatedKeys.weights.sumBy fun _ w => w.val

/-- The weight of some of the associated keys is their weight capped at `255`. -/
theorem calculateAnyKeysWeight_val (associatedKeys : AssociatedKeys K) {l : List (K × Fin 256)}
    (hl : ∀ e ∈ l, e ∈ associatedKeys.weights.entries) :
    (associatedKeys.calculateAnyKeysWeight (l.map Prod.fst)).val =
      min (l.map fun e => e.2.val).sum 255 := by
  rw [calculateAnyKeysWeight, OrdMap.filterMap_find?_map_fst _ hl, foldl_u8SaturatingAdd_val,
    List.map_map]
  simp [Function.comp_def]

theorem totalKeysWeight_val (associatedKeys : AssociatedKeys K) :
    associatedKeys.totalKeysWeight.val = min associatedKeys.keysWeight 255 :=
  associatedKeys.calculateAnyKeysWeight_val fun _ he => he

/-- The weight without a key is the capped weight of the keys after removing it. -/
theorem totalKeysWeightExcluding_val (associatedKeys : AssociatedKeys K) (accountHash : K) :
    (associatedKeys.totalKeysWeightExcluding accountHash).val =
      min (⟨associatedKeys.weights.erase accountHash⟩ : AssociatedKeys K).keysWeight 255 := by
  have hkeys : associatedKeys.weights.keys.filter (· ≠ accountHash) =
      (associatedKeys.weights.entries.filter (·.1 ≠ accountHash)).map Prod.fst := by
    simp [OrdMap.keys, List.filter_map, Function.comp_def]
  rw [totalKeysWeightExcluding, hkeys,
    calculateAnyKeysWeight_val _ fun _ he => (List.mem_filter.mp he).1]
  rfl

/-- Setting a key's weight changes the total by the difference. -/
theorem keysWeight_insert (associatedKeys : AssociatedKeys K) (key : K) (weight : Fin 256) :
    (⟨associatedKeys.weights.insert key weight⟩ : AssociatedKeys K).keysWeight +
        ((associatedKeys.weights.find? key).map Fin.val).getD 0 =
      associatedKeys.keysWeight + weight.val :=
  associatedKeys.weights.sumBy_insert key weight _

theorem keysWeight_erase (associatedKeys : AssociatedKeys K) (key : K) :
    (⟨associatedKeys.weights.erase key⟩ : AssociatedKeys K).keysWeight +
        ((associatedKeys.weights.find? key).map Fin.val).getD 0 =
      associatedKeys.keysWeight :=
  associatedKeys.weights.sumBy_erase key _

/-- A key's new weight replaces its old one: the total is that of the other keys plus the new
weight. -/
theorem keysWeight_insert_of_find? {associatedKeys : AssociatedKeys K} {key : K}
    {current : Fin 256} (h : associatedKeys.weights.find? key = some current) (weight : Fin 256) :
    (⟨associatedKeys.weights.insert key weight⟩ : AssociatedKeys K).keysWeight =
      (⟨associatedKeys.weights.erase key⟩ : AssociatedKeys K).keysWeight + weight.val := by
  have hinsert := keysWeight_insert associatedKeys key weight
  have herase := keysWeight_erase associatedKeys key
  rw [h, Option.map_some, Option.getD_some] at hinsert herase
  omega

/-- All the associated keys weigh the keys' total weight. -/
theorem calculateKeysWeight_keys (associatedKeys : AssociatedKeys K) :
    associatedKeys.calculateKeysWeight associatedKeys.weights.keys =
      associatedKeys.totalKeysWeight := rfl

end AssociatedKeys

/-- A threshold that was set keeps the deployment threshold at most the key management one, and
the key management threshold is the old one or the new one. -/
theorem ActionThresholds.setThreshold_ok {thresholds thresholds' : ActionThresholds}
    {actionType : ActionType} {newThreshold : Fin 256}
    (h : thresholds.setThreshold actionType newThreshold = .ok thresholds') :
    thresholds'.deployment ≤ thresholds'.keyManagement ∧
      (thresholds'.keyManagement = thresholds.keyManagement ∨
        thresholds'.keyManagement = newThreshold) := by
  cases actionType with
  | deployment =>
    simp only [setThreshold] at h
    unfold setDeploymentThreshold at h
    split at h
    · cases h
    next hle =>
      cases h
      exact ⟨Fin.not_lt.mp hle, Or.inl rfl⟩
  | keyManagement =>
    simp only [setThreshold] at h
    unfold setKeyManagementThreshold at h
    split at h
    · cases h
    next hle =>
      cases h
      exact ⟨Fin.not_lt.mp hle, Or.inr rfl⟩

/-! ## The thresholds stay reachable -/

namespace Account

variable {K : Type} [LinearOrder K]

open AssociatedKeys

/-- The thresholds are ordered and within the total weight of the account's keys. -/
structure KeysOk (account : Account K) : Prop where
  deployment_le : account.actionThresholds.deployment ≤ account.actionThresholds.keyManagement
  keyManagement_le : account.actionThresholds.keyManagement ≤
    account.associatedKeys.totalKeysWeight

/-- Keys of at least the old weight, under the same thresholds, keep the invariant. -/
theorem KeysOk.of_keysWeight_le {account : Account K} (hok : KeysOk account)
    {associatedKeys : AssociatedKeys K}
    (hle : account.associatedKeys.keysWeight ≤ associatedKeys.keysWeight) :
    KeysOk { account with associatedKeys } := by
  refine ⟨hok.deployment_le, ?_⟩
  show account.actionThresholds.keyManagement ≤ associatedKeys.totalKeysWeight
  have hkm := hok.keyManagement_le
  rw [Fin.le_def, totalKeysWeight_val] at hkm ⊢
  omega

theorem KeysOk.addAssociatedKey {account account' : Account K} (hok : KeysOk account)
    {accountHash : K} {weight : Fin 256}
    (h : account.addAssociatedKey accountHash weight = .ok account') : KeysOk account' := by
  unfold Account.addAssociatedKey AssociatedKeys.addKey at h
  split at h
  · case h_1 hnone =>
    cases h
    apply hok.of_keysWeight_le
    have hw := keysWeight_insert account.associatedKeys accountHash weight
    rw [hnone, Option.map_none, Option.getD_none, Nat.add_zero] at hw
    omega
  · cases h

theorem KeysOk.removeAssociatedKey {account account' : Account K} (hok : KeysOk account)
    {accountHash : K} (h : account.removeAssociatedKey accountHash = .ok account') :
    KeysOk account' := by
  unfold Account.removeAssociatedKey AssociatedKeys.removeKey at h
  split at h
  · cases h
  next hcheck =>
    cases hfind : account.associatedKeys.weights.find? accountHash with
    | none => simp [hfind, Except.map] at h
    | some current =>
      simp only [hfind, Except.map, Except.ok.injEq] at h
      subst h
      -- the key is present, so the check passed: the others weigh both thresholds
      have hcan : account.canRemoveKey accountHash = true := by simpa [hfind] using hcheck
      have hkm : account.actionThresholds.keyManagement ≤
          account.associatedKeys.totalKeysWeightExcluding accountHash := by
        simp only [canRemoveKey, Bool.and_eq_true, decide_eq_true_eq] at hcan
        exact hcan.2
      refine ⟨hok.deployment_le, ?_⟩
      show account.actionThresholds.keyManagement ≤
        totalKeysWeight ⟨account.associatedKeys.weights.erase accountHash⟩
      rw [Fin.le_def, totalKeysWeightExcluding_val] at hkm
      rwa [Fin.le_def, totalKeysWeight_val]

theorem KeysOk.updateAssociatedKey {account account' : Account K} (hok : KeysOk account)
    {accountHash : K} {weight : Fin 256}
    (h : account.updateAssociatedKey accountHash weight = .ok account') : KeysOk account' := by
  unfold Account.updateAssociatedKey AssociatedKeys.updateKey at h
  cases hfind : account.associatedKeys.weights.find? accountHash with
  | none => simp [hfind, Except.map] at h
  | some current =>
    simp only [hfind] at h
    split at h
    · cases h
    next hcheck =>
      simp only [Except.map, Except.ok.injEq] at h
      subst h
      have hweight := keysWeight_insert_of_find? hfind weight
      by_cases hlower : weight < current
      · -- a lowered weight passed the check: the others and the new weight reach both thresholds
        have hcan : account.canUpdateKey accountHash weight = true := by simpa [hlower] using hcheck
        have hkm : account.actionThresholds.keyManagement ≤
            u8SaturatingAdd (account.associatedKeys.totalKeysWeightExcluding accountHash) weight := by
          simp only [canUpdateKey, Bool.and_eq_true, decide_eq_true_eq] at hcan
          exact hcan.2
        refine ⟨hok.deployment_le, ?_⟩
        show account.actionThresholds.keyManagement ≤
          totalKeysWeight ⟨account.associatedKeys.weights.insert accountHash weight⟩
        rw [Fin.le_def, u8SaturatingAdd_val, totalKeysWeightExcluding_val] at hkm
        rw [Fin.le_def, totalKeysWeight_val, hweight]
        omega
      · -- a weight that is not lowered does not lower the total
        apply hok.of_keysWeight_le
        have hold := keysWeight_erase account.associatedKeys accountHash
        rw [hfind, Option.map_some, Option.getD_some] at hold
        rw [hweight]
        rw [Fin.lt_def] at hlower
        omega

theorem KeysOk.setActionThreshold {account account' : Account K} (hok : KeysOk account)
    {actionType : ActionType} {weight : Fin 256}
    (h : account.setActionThreshold actionType weight = .ok account') : KeysOk account' := by
  unfold Account.setActionThreshold Account.canSetThreshold at h
  split at h
  · cases h
  next hweight =>
    cases hset : account.actionThresholds.setThreshold actionType weight with
    | error e =>
      simp only [hset] at h
      cases h
    | ok actionThresholds =>
      simp only [hset] at h
      cases h
      obtain ⟨hdep, hkm⟩ := ActionThresholds.setThreshold_ok hset
      refine ⟨hdep, ?_⟩
      -- the keys are unchanged, and both candidates for the new threshold are within them
      rcases hkm with hkm | hkm
      · exact hkm ▸ hok.keyManagement_le
      · exact hkm ▸ Fin.not_lt.mp hweight

/-- A call's account keeps the invariant when its successful result does. -/
theorem KeysOk.toOption_getD {ε : Type} {account : Account K} (hok : KeysOk account)
    {result : Except ε (Account K)} (hresult : ∀ account', result = .ok account' → KeysOk account') :
    KeysOk (result.toOption.getD account) := by
  cases result with
  | error e => exact hok
  | ok account' => exact hresult account' rfl

theorem KeysOk.step {account : Account K} (hok : KeysOk account) (call : Call K) :
    KeysOk (account.step call) := by
  cases call with
  | addAssociatedKey accountHash weight => exact hok.toOption_getD fun _ => hok.addAssociatedKey
  | removeAssociatedKey accountHash => exact hok.toOption_getD fun _ => hok.removeAssociatedKey
  | updateAssociatedKey accountHash weight =>
    exact hok.toOption_getD fun _ => hok.updateAssociatedKey
  | setActionThreshold actionType weight =>
    exact hok.toOption_getD fun _ => hok.setActionThreshold

theorem KeysOk.run {account : Account K} (hok : KeysOk account) (calls : List (Call K)) :
    KeysOk (account.run calls) := by
  induction calls generalizing account with
  | nil => exact hok
  | cons call rest ih => exact ih (hok.step call)

/-- Under the invariant all the account's keys together can deploy. -/
theorem KeysOk.canDeployWith_keys {account : Account K} (hok : KeysOk account) :
    account.canDeployWith account.associatedKeys.weights.keys = true := by
  have hdep := Fin.le_trans hok.deployment_le hok.keyManagement_le
  simpa [canDeployWith, calculateKeysWeight_keys] using hdep

/-- Under the invariant all the account's keys together can manage keys. -/
theorem KeysOk.canManageKeysWith_keys {account : Account K} (hok : KeysOk account) :
    account.canManageKeysWith account.associatedKeys.weights.keys = true := by
  simpa [canManageKeysWith, calculateKeysWeight_keys] using hok.keyManagement_le

/-- An account whose thresholds are ordered and within its keys' weight keeps them so over any
calls, and its keys together can always deploy and manage keys. -/
theorem KeysOk.run_authorizes {account : Account K} (hok : KeysOk account)
    (calls : List (Call K)) :
    KeysOk (account.run calls) ∧
      (account.run calls).canDeployWith (account.run calls).associatedKeys.weights.keys = true ∧
      (account.run calls).canManageKeysWith
        (account.run calls).associatedKeys.weights.keys = true := by
  have hrun := hok.run calls
  exact ⟨hrun, hrun.canDeployWith_keys, hrun.canManageKeysWith_keys⟩

/-- One key of weight `1`, with thresholds `(1, 1)`. -/
def singleKeyAccount : Account ℕ := ⟨⟨OrdMap.singleton 1 1⟩, ⟨1, 1⟩⟩

/-- A second key is added, the key management threshold raised, the first key removed and the
second key's weight lowered below it, which fails. -/
def someKeyCalls : List (Call ℕ) :=
  [.addAssociatedKey 2 3, .setActionThreshold .keyManagement 4, .removeAssociatedKey 1,
    .updateAssociatedKey 2 0]

theorem KeysOk.run_authorizes_singleKeyAccount :
    KeysOk (singleKeyAccount.run someKeyCalls) ∧
      (singleKeyAccount.run someKeyCalls).canDeployWith
        (singleKeyAccount.run someKeyCalls).associatedKeys.weights.keys = true ∧
      (singleKeyAccount.run someKeyCalls).canManageKeysWith
        (singleKeyAccount.run someKeyCalls).associatedKeys.weights.keys = true :=
  KeysOk.run_authorizes ⟨by decide, by decide⟩ someKeyCalls

end Account

end CasperNode.KeyManagement
