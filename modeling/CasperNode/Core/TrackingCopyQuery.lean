import CasperNode.Storage.MerkleProof

/-!
# Queries and their proofs

`TrackingCopy::query` reads a value below a base key by a path of names.  Each round reads the
current key with a Merkle proof and keeps the proof.  If names are left, it follows the value:
the next name among the named keys of an account or a contract, or, for a `CLValue` of type
`Key`, that key, without using up a name.  When no names are left it returns the value with
the proofs of every key read.  The value of a dictionary key is unwrapped from its
`DictionaryValue` first; the proof keeps the stored value.

`validate_query_proof` checks the result of a query: one proof for the base key and one for
each name, each hashing to the state root, each key the one the previous value's named keys
give for the name, and the last value the one returned.  It has no case for a key followed
through a `CLValue`, so it rejects every successful query that followed one
(`query_key_hop_fails_validation`): such a query has more proofs than names plus one
(`queryLoop_success_length`).

The loop stops when the depth, the number of keys followed, reaches `max_query_depth`, so it is
a function here, terminating on what is left of the depth.  The `Debug` and `Display`
renderings the messages quote (`QueryText`) and the decoding of a `DictionaryValue`
(`dictionaryValueFromBytes`) are parameters.  Errors of the reader are passed on.
-/

namespace CasperNode

/-- `EngineConfig`, with the one field `query` reads. -/
structure EngineConfig where
  maxQueryDepth : Nat

/-- `TrackingCopyQueryResult`. -/
inductive TrackingCopyQueryResult (D : Type) where
  | success (value : StoredValue) (proofs : List (TrieMerkleProof Key StoredValue D))
  | valueNotFound (msg : String)
  | circularReference (msg : String)
  | depthLimit (depth : Nat)

/-- The renderings `query`'s messages quote: `Debug` of a key and of a `CLValue`, `Display` of
a `CLValueError`. -/
structure QueryText where
  key : Key → String
  clValue : CLValue → String
  clValueError : CLValueError → String

/-- `Query`: the state of a query. -/
structure Query where
  baseKey : Key
  visitedKeys : List Key
  currentKey : Key
  unvisitedNames : List String
  visitedNames : List String
  depth : Nat

namespace Query

variable {D : Type} (text : QueryText)

/-- `Query::new`. -/
def new (baseKey : Key) (path : List String) : Query :=
  ⟨baseKey, [], baseKey.normalize, path, [], 0⟩

/-- `Query::navigate`. -/
def navigate (q : Query) (key : Key) : Query :=
  { q with currentKey := key.normalize, depth := q.depth + 1 }

/-- `Query::current_path`: the base key, then the names followed. -/
def currentPath (q : Query) : String :=
  q.visitedNames.foldl (fun path name => path ++ "/" ++ name) (text.key q.baseKey)

/-- `Query::into_not_found_result`. -/
def intoNotFoundResult (q : Query) (msgPrefix : String) : TrackingCopyQueryResult D :=
  .valueNotFound (msgPrefix ++ " at path: " ++ q.currentPath text)

/-- `Query::into_circular_ref_result`. -/
def intoCircularRefResult (q : Query) : TrackingCopyQueryResult D :=
  .circularReference
    (text.key q.currentKey ++ " has formed a circular reference at path: " ++ q.currentPath text)

/-- `Query::into_depth_limit_result`. -/
def intoDepthLimitResult (q : Query) : TrackingCopyQueryResult D :=
  .depthLimit q.depth

end Query

/-- `dictionary::handle_stored_value`: the value of a dictionary key is the `CLValue` inside its
`DictionaryValue`. -/
def handleStoredValue (dictionaryValueFromBytes : List UInt8 → Decoded CLValue) (key : Key)
    (storedValue : StoredValue) : Except CLValueError StoredValue :=
  match key, storedValue with
  | .dictionary _, .clValue clValue =>
    (clValue.intoT .any dictionaryValueFromBytes).map StoredValue.clValue
  | _, storedValue => .ok storedValue

/-- `into_t::<Key>`. -/
def CLValue.intoKey (v : CLValue) : Except CLValueError Key :=
  v.intoT .key Key.fromBytes

/-- The named keys of an account or a contract, the values a path goes through by name. -/
def StoredValue.namedKeys? : StoredValue → Option NamedKeys
  | .account a => some a.namedKeys
  | .contract c => some c.namedKeys
  | _ => none

/-- A `CLValue` of type `Key`, which `query` follows without using up a name. -/
def StoredValue.holdsKey : StoredValue → Bool
  | .clValue v => v.clType = .key
  | _ => false

section Query

variable {D ε : Type} (config : EngineConfig) (text : QueryText)
  (dictionaryValueFromBytes : List UInt8 → Decoded CLValue)
  (reader : Key → Except ε (Option (TrieMerkleProof Key StoredValue D)))

/-- The loop of `TrackingCopy::query`, with the proofs kept so far. -/
def queryLoop (q : Query) (proofs : List (TrieMerkleProof Key StoredValue D)) :
    Except ε (TrackingCopyQueryResult D) :=
  if _hdepth : config.maxQueryDepth ≤ q.depth then .ok (q.intoDepthLimitResult)
  else if q.currentKey ∈ q.visitedKeys then .ok (q.intoCircularRefResult text)
  else
    let q := { q with visitedKeys := q.currentKey :: q.visitedKeys }
    match reader q.currentKey with
    | .error e => .error e
    | .ok none => .ok (q.intoNotFoundResult text "Failed to find base key")
    | .ok (some storedValue) =>
      match handleStoredValue dictionaryValueFromBytes q.currentKey storedValue.value with
      | .error error =>
        .ok (q.intoNotFoundResult text
          ("Failed to retrieve dictionary value: " ++ text.clValueError error))
      | .ok value =>
        let proofs := proofs ++ [storedValue]
        match q.unvisitedNames with
        | [] => .ok (.success value proofs)
        | name :: rest =>
          match storedValue.value with
          | .account account =>
            let q := { q with unvisitedNames := rest, visitedNames := q.visitedNames ++ [name] }
            match account.namedKeys.find? name with
            | some key => queryLoop (q.navigate key) proofs
            | none => .ok (q.intoNotFoundResult text ("Name " ++ name ++ " not found in Account"))
          | .clValue clValue =>
            if clValue.clType = .key then
              match clValue.intoKey with
              | .ok key => queryLoop (q.navigate key) proofs
              | .error _ => .ok (q.intoNotFoundResult text "Failed to parse CLValue as Key")
            else
              .ok (q.intoNotFoundResult text ("Query cannot continue as " ++ text.clValue clValue ++
                " is not an account, contract nor key to such.  Value found"))
          | .contract contract =>
            let q := { q with unvisitedNames := rest, visitedNames := q.visitedNames ++ [name] }
            match contract.namedKeys.find? name with
            | some key => queryLoop (q.navigate key) proofs
            | none => .ok (q.intoNotFoundResult text ("Name " ++ name ++ " not found in Contract"))
          | .contractPackage _ => .ok (q.intoNotFoundResult text "ContractPackage value found.")
          | .contractWasm _ => .ok (q.intoNotFoundResult text "ContractWasm value found.")
          | .transfer _ => .ok (q.intoNotFoundResult text "Transfer value found.")
          | .deployInfo _ => .ok (q.intoNotFoundResult text "DeployInfo value found.")
          | .eraInfo _ => .ok (q.intoNotFoundResult text "EraInfo value found.")
          | .bid _ => .ok (q.intoNotFoundResult text "Bid value found.")
          | .withdraw _ => .ok (q.intoNotFoundResult text "WithdrawPurses value found.")
          | .unbonding _ => .ok (q.intoNotFoundResult text "UnbondingPurses value found.")
termination_by config.maxQueryDepth - q.depth
decreasing_by all_goals (simp only [Query.navigate]; omega)

/-- `TrackingCopy::query`. -/
def query (baseKey : Key) (path : List String) : Except ε (TrackingCopyQueryResult D) :=
  queryLoop config text dictionaryValueFromBytes reader (Query.new baseKey path) []

/-- The proofs of values that `query` followed as a key, without using up a name. -/
def keyHops (proofs : List (TrieMerkleProof Key StoredValue D)) : Nat :=
  proofs.countP (·.value.holdsKey)

@[simp]
theorem keyHops_append_singleton (ps : List (TrieMerkleProof Key StoredValue D)) (p) :
    keyHops (ps ++ [p]) = keyHops ps + if p.value.holdsKey then 1 else 0 := by
  simp [keyHops, List.countP_append]

/-- Every round keeps one proof and uses up a name, except a round that follows a key held in a
`CLValue`: a successful query has one proof per name, one per such key and one for the base. -/
theorem queryLoop_success_length (q : Query) (ps : List (TrieMerkleProof Key StoredValue D))
    {value : StoredValue} {proofs : List (TrieMerkleProof Key StoredValue D)}
    (hinv : ps.length = q.visitedNames.length + keyHops ps)
    (h : queryLoop config text dictionaryValueFromBytes reader q ps = .ok (.success value proofs)) :
    proofs.length = q.visitedNames.length + q.unvisitedNames.length + keyHops proofs.dropLast + 1 := by
  fun_induction queryLoop config text dictionaryValueFromBytes reader q ps with
  | case6 q ps _ _ q₁ sv _ _ _ ps₁ hnil =>
    obtain ⟨-, rfl⟩ := TrackingCopyQueryResult.success.inj (Except.ok.inj h)
    have hnil : q.unvisitedNames = [] := hnil
    simp [ps₁, hnil, hinv]
  | case7 q ps _ _ q₁ sv _ _ _ ps₁ name rest hnames _ hsv q₂ key _ ih =>
    -- an account: the name is used up
    have hnames : q.unvisitedNames = name :: rest := hnames
    have := ih (by simp [ps₁, q₂, q₁, Query.navigate, hsv, StoredValue.holdsKey, hinv]; omega) h
    simp [q₂, q₁, Query.navigate] at this
    simp [hnames, this]; omega
  | case9 q ps _ _ q₁ sv _ _ _ ps₁ name rest hnames _ hsv hkey key _ ih =>
    -- a key held in a `CLValue`: the names are kept and the proof counts as a hop
    have hnames : q.unvisitedNames = name :: rest := hnames
    have := ih (by simp [ps₁, q₁, Query.navigate, hsv, StoredValue.holdsKey, hkey, hinv]; omega) h
    simp [q₁, Query.navigate] at this
    simp [hnames, this]
  | case12 q ps _ _ q₁ sv _ _ _ ps₁ name rest hnames _ hsv q₂ key _ ih =>
    have hnames : q.unvisitedNames = name :: rest := hnames
    have := ih (by simp [ps₁, q₂, q₁, Query.navigate, hsv, StoredValue.holdsKey, hinv]; omega) h
    simp [q₂, q₁, Query.navigate] at this
    simp [hnames, this]; omega
  | _ =>
    simp [Query.intoNotFoundResult, Query.intoCircularRefResult, Query.intoDepthLimitResult] at h

end Query

/-! ## Validating a query -/

/-- `tracking_copy::ValidationError`. -/
inductive ValidationError where
  | pathLengthDifferentThanProofLessOne
  | unexpectedKey
  | unexpectedValue
  | invalidProofHash
  | pathCold
  | bytesRepr (e : BytesreprError)
  | keyIsNotAURef (key : Key)
  | valueToCLValueConversion
  | clValueError (e : CLValueError)

section Validate

variable {D : Type} [DecidableEq D] (H : Hasher D) (valueBytes : StoredValue → List UInt8)

/-- The loop of `validate_query_proof` over the proofs after the first, each with its name. -/
def validateQuerySteps (hash : D) :
    StoredValue → List (TrieMerkleProof Key StoredValue D × String) →
      Except ValidationError StoredValue
  | proofValue, [] => .ok proofValue
  | proofValue, (proof, pathComponent) :: rest =>
    match proofValue.namedKeys? with
    | none => .error .pathCold
    | some namedKeys =>
      match namedKeys.find? pathComponent with
      | none => .error .pathCold
      | some key =>
        if proof.key ≠ key.normalize then .error .unexpectedKey
        else if hash ≠ proof.computeStateHash H Key.toBytes valueBytes then
          .error .invalidProofHash
        else validateQuerySteps hash proof.value rest

/-- `validate_query_proof`. -/
def validateQueryProof (hash : D) (proofs : List (TrieMerkleProof Key StoredValue D))
    (expectedFirstKey : Key) (path : List String) (expectedValue : StoredValue) :
    Except ValidationError Unit :=
  if proofs.length ≠ path.length + 1 then .error .pathLengthDifferentThanProofLessOne
  else
    match proofs with
    | [] => .error .pathLengthDifferentThanProofLessOne
    | firstProof :: rest =>
      if firstProof.key ≠ expectedFirstKey.normalize then .error .unexpectedKey
      else if hash ≠ firstProof.computeStateHash H Key.toBytes valueBytes then
        .error .invalidProofHash
      else
        match validateQuerySteps H valueBytes hash firstProof.value (rest.zip path) with
        | .error e => .error e
        | .ok proofValue => if proofValue ≠ expectedValue then .error .unexpectedValue else .ok ()

end Validate

/-! ## Queries through a key fail validation -/

section Checked

variable {D ε : Type} [DecidableEq D] (config : EngineConfig) (text : QueryText)
  (dictionaryValueFromBytes : List UInt8 → Decoded CLValue)
  (reader : Key → Except ε (Option (TrieMerkleProof Key StoredValue D)))
  (H : Hasher D) (valueBytes : StoredValue → List UInt8)

theorem query_key_hop_fails_validation (baseKey : Key) (path : List String) {value : StoredValue}
    {proofs : List (TrieMerkleProof Key StoredValue D)}
    (hq : query config text dictionaryValueFromBytes reader baseKey path = .ok (.success value proofs))
    (hhop : ∃ p ∈ proofs.dropLast, p.value.holdsKey) (hash : D) :
    validateQueryProof H valueBytes hash proofs baseKey path value =
      .error .pathLengthDifferentThanProofLessOne := by
  have hlen := queryLoop_success_length config text dictionaryValueFromBytes reader
    (Query.new baseKey path) [] (by simp [Query.new, keyHops]) hq
  have hpos : 0 < keyHops proofs.dropLast := List.countP_pos_iff.mpr hhop
  have hne : proofs.length ≠ path.length + 1 := by
    simp only [Query.new, List.length_nil, Nat.zero_add] at hlen
    omega
  simp [validateQueryProof, hne]

end Checked

/-- Three entries: the base key holds a `CLValue` of the key of an account, whose named key "a"
is the key of a `bool`. -/
def keyHopProofs : List (TrieMerkleProof Key StoredValue Unit) :=
  [⟨.eraInfo 0, .clValue ⟨.key, Key.toBytes (.eraInfo 1)⟩, []⟩,
    ⟨.eraInfo 1, .account ⟨Vector.replicate 32 0, OrdMap.singleton "a" (.eraInfo 2),
      ⟨Vector.replicate 32 0, AccessRights.none⟩⟩, []⟩,
    ⟨.eraInfo 2, .clValue ⟨.bool, [1]⟩, []⟩]

theorem query_key_hop_fails_validation_account :
    query ⟨8⟩ ⟨fun _ => "", fun _ => "", fun _ => ""⟩ (fun _ => .error .formatting)
        (fun k => (.ok (keyHopProofs.find? (·.key = k)) : Except Empty _)) (.eraInfo 0) ["a"] =
      .ok (.success (.clValue ⟨.bool, [1]⟩) keyHopProofs) ∧
    validateQueryProof ⟨fun _ => (), fun _ => [], ()⟩ (fun _ => []) () keyHopProofs (.eraInfo 0)
      ["a"] (.clValue ⟨.bool, [1]⟩) = .error .pathLengthDifferentThanProofLessOne := by
  have hkey : CLValue.intoT .key Key.fromBytes ⟨.key, (Key.eraInfo 1).toBytes⟩ = .ok (.eraInfo 1) :=
    rfl
  have hfind : (OrdMap.singleton "a" (Key.eraInfo 2)).find? "a" = some (.eraInfo 2) := by decide
  have hq : query ⟨8⟩ ⟨fun _ => "", fun _ => "", fun _ => ""⟩ (fun _ => .error .formatting)
        (fun k => (.ok (keyHopProofs.find? (·.key = k)) : Except Empty _)) (.eraInfo 0) ["a"] =
      .ok (.success (.clValue ⟨.bool, [1]⟩) keyHopProofs) := by
    -- one unfolding of the loop per key read
    rw [query, queryLoop]
    simp [Query.new, Key.normalize, keyHopProofs, handleStoredValue, CLValue.intoKey, hkey]
    rw [queryLoop]
    simp [Query.navigate, Key.normalize, handleStoredValue, hfind]
    rw [queryLoop]
    simp [handleStoredValue]
  exact ⟨hq, query_key_hop_fails_validation _ _ _ _ _ _ _ _ hq
    ⟨_, List.mem_cons_self, by decide⟩ ()⟩

end CasperNode
