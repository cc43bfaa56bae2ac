import Hedos.Discovery.Disk
import Hedos.Kernel.RegistryGeneration

/-!
# The discovery pass

`DiscoveryService::discover` (`kernel/src/discovery/service.rs`): what the scanners found is
reconciled against the records of a registry view and written back.

* `reconcile`, `retireAliases`, `migrateMovedConfig` and `absorb` are the code's own, over the
  records the view lists;
* `Pass` is what the pass comes to before it writes: the records to register and the donors
  taken into others, each with the id of the record that took it;
* `discover` runs the registry calls of a pass one by one. Another process may replace the
  store before any of them, and any of them may fail (`Surroundings`).

A parameter value is any type with the equality the code compares it by.
-/

namespace Hedos.Discovery

open Hedos.Kernel

/-! ## Records -/

structure Modality where
  value : String
deriving DecidableEq

def Modality.unknown : Modality := ⟨"unknown"⟩

structure Capability where
  value : String
deriving DecidableEq

structure SourceKind where
  value : String
deriving DecidableEq

namespace SourceKind

def ollama : SourceKind := ⟨"ollama"⟩
def huggingfaceCache : SourceKind := ⟨"huggingface-cache"⟩
def lmStudio : SourceKind := ⟨"lm-studio"⟩
def builtin : SourceKind := ⟨"builtin"⟩
def file : SourceKind := ⟨"file"⟩
def folder : SourceKind := ⟨"folder"⟩

end SourceKind

structure RuntimeId where
  value : String
deriving DecidableEq

inductive ExecutionMode
  | stream
  | job
  | sync
deriving DecidableEq

inductive RunTier
  | native
  | managed
  | remote
  | recipeNeeded
deriving DecidableEq

/-- How a model was resolved to its runtime. -/
inductive Resolution
  | auto
  | user
  | unresolved
deriving DecidableEq

structure RuntimeRef where
  id : Option RuntimeId := none
  resolved : Resolution := .unresolved
  tier : RunTier := .recipeNeeded
  alternatives : List RuntimeId := []
  confirmedAt : Option ℤ := none
deriving DecidableEq

structure ModelSource where
  kind : SourceKind
  path : String
  repo : Option String := none
  reference : Option String := none
deriving DecidableEq

/-- The fields of a record that the registry only carries. -/
structure Details (ν : Type) where
  name : String
  modality : Modality
  capabilities : List Capability
  source : ModelSource
  runtime : RuntimeRef := {}
  paramValues : Std.ExtTreeMap String ν := ∅
  systemPrompt : Option String := none
  displayAlias : Option String := none
  execution : ExecutionMode := .sync
  servingBytes : Option ℤ := none
  registeredAt : ℤ
  primaryWeightPath : Option String := none
  contextLength : Option ℤ := none
  hasChatTemplate : Option Bool := none
  supportsTools : Option Bool := none
  stopTokens : Option (List String) := none
  downloading : Bool := false
  contentFingerprint : Option String := none
deriving DecidableEq

abbrev Record (ν : Type) := ModelRecord (Details ν)

/-- A model a scanner found on disk. -/
structure DiscoveredModel where
  name : String
  source : ModelSource
  modalityHint : Option Modality := none
  capabilitiesHint : List Capability := []
  executionHint : ExecutionMode := .sync
  footprintBytes : ℤ := 0
  servingBytes : Option ℤ := none
  primaryWeightPath : Option String := none
  contextLengthHint : Option ℤ := none
  hasChatTemplateHint : Option Bool := none
  toolCapableHint : Option Bool := none
  stopTokensHint : Option (List String) := none
  downloading : Bool := false
deriving DecidableEq

structure ScanResult where
  discovered : List DiscoveredModel
  failedKinds : List SourceKind := []

/-- A scanner, as the kinds it answers for and what its scan gives. -/
structure StoreScanner where
  kinds : List SourceKind
  result : ScanResult

/-- What the pass reads beside the registry: the disk, the clock, and the case folding the
shelf is sorted by. -/
structure Host where
  disk : Disk
  nowMillis : ℤ
  toLowercase : String → String

variable {ν : Type} (host : Host)

/-- `stable_id`: the first bytes of the hash of the kind, path and repo, each with its
length. -/
def stableId (source : ModelSource) : String :=
  let field (text : String) : Bytes :=
    let bytes := text.toUTF8.toList
    (List.range 8).map (fun i => UInt8.ofNat (bytes.length / 256 ^ i)) ++ bytes
  Disk.hexEncode ((host.disk.sha256
    (field source.kind.value ++ field source.path ++ field (source.repo.getD ""))).take 8)

/-- Whether the record's weights are still on disk. -/
def weightsPresent (record : Record ν) : Bool :=
  match record.details.primaryWeightPath.filter (· ≠ "") with
  | none => false
  | some path =>
    let primary := Path.ofString path
    let source := Path.ofString record.details.source.path
    host.disk.isFile primary || (decide (source ≠ primary) && host.disk.existsAt source)

/-- Two sizes compared as the whole mebibytes they round to. -/
def sameSize (recorded scanned : Option ℤ) : Bool :=
  recorded.map (·.tdiv bytesPerMib) == scanned.map (·.tdiv bytesPerMib)

/-- The fingerprint of a found model; the record's own stands while path and size do. -/
def fingerprint (model : DiscoveredModel) (existing : Option (Record ν)) : Option String :=
  match model.primaryWeightPath with
  | none => existing.bind fun record => record.details.contentFingerprint
  | some path =>
    match existing.filter fun record =>
        record.details.contentFingerprint.isSome ∧
          record.details.primaryWeightPath = some path ∧
          sameSize record.footprintBytes (some model.footprintBytes) with
    | some record => record.details.contentFingerprint
    | none => host.disk.contentFingerprint (Path.ofString path)

/-! ## Reconciling what was found -/

/-- A known record with what the scan found put over it. -/
def refreshed (model : DiscoveredModel) (existing : Record ν) : Record ν :=
  let details := existing.details
  let modality := model.modalityHint.getD details.modality
  let modalityMoved := modality ≠ details.modality
  { existing with
    footprintBytes := some model.footprintBytes
    state := if existing.state = .missing then .unresolved else existing.state
    details := { details with
      contentFingerprint := fingerprint host model (some existing)
      name := model.name
      source := model.source
      servingBytes := model.servingBytes
      primaryWeightPath := model.primaryWeightPath
      modality
      -- an empty hint is nothing learned, unless the modality moved under it
      capabilities := if modalityMoved ∨ model.capabilitiesHint ≠ []
        then model.capabilitiesHint else details.capabilities
      contextLength := model.contextLengthHint <|> details.contextLength
      hasChatTemplate := model.hasChatTemplateHint <|> details.hasChatTemplate
      supportsTools := model.toolCapableHint <|> details.supportsTools
      stopTokens := model.stopTokensHint <|> details.stopTokens
      execution := model.executionHint
      downloading := model.downloading } }

/-- The record of a model found for the first time. -/
def newRecord (model : DiscoveredModel) : Record ν where
  id := stableId host model.source
  state := .unresolved
  footprintBytes := some model.footprintBytes
  legacyFootprintMb := none
  details :=
    { name := model.name
      modality := model.modalityHint.getD .unknown
      capabilities := model.capabilitiesHint
      source := model.source
      execution := model.executionHint
      servingBytes := model.servingBytes
      registeredAt := host.nowMillis
      primaryWeightPath := model.primaryWeightPath
      contextLength := model.contextLengthHint
      hasChatTemplate := model.hasChatTemplateHint
      supportsTools := model.toolCapableHint
      stopTokens := model.stopTokensHint
      downloading := model.downloading
      contentFingerprint := fingerprint host model (none : Option (Record ν)) }

/-- What the loop over the found models carries. -/
structure Reconciled (ν : Type) where
  seenIds : List String := []
  toRegister : List (Record ν) := []
  newRecordIds : List String := []

def reconcileOne (existing : List (Record ν)) (acc : Reconciled ν) (model : DiscoveredModel) :
    Reconciled ν :=
  let id := stableId host model.source
  if id ∈ acc.seenIds then acc
  else
    match existing.find? (·.id = id) with
    | some record =>
      { acc with
        seenIds := acc.seenIds ++ [id]
        toRegister := acc.toRegister ++ [refreshed host model record] }
    | none =>
      { seenIds := acc.seenIds ++ [id]
        toRegister := acc.toRegister ++ [newRecord host model]
        newRecordIds := acc.newRecordIds ++ [id] }

def reconcile (existing : List (Record ν)) (discovered : List DiscoveredModel) : Reconciled ν :=
  discovered.foldl (reconcileOne host existing) {}

/-- The known records of a scanned store that are neither found nor on disk any more. -/
def vanished (scannedKinds : List SourceKind) (seenIds : List String) (record : Record ν) : Bool :=
  decide (record.details.source.kind ∈ scannedKinds) && decide (record.id ∉ seenIds) &&
    decide (record.state ≠ .missing) && !weightsPresent host record

def stale (record : Record ν) : Record ν := { record with state := .missing }

/-! ## Taking a donor's settings -/

section Absorb

variable [DecidableEq ν]

def differ (ours theirs : Option String) : Bool :=
  match ours, theirs with
  | some ours, some theirs => ours ≠ theirs
  | _, _ => false

def paramsConflict (kept donor : Record ν) : Bool :=
  donor.details.paramValues.toList.any fun entry =>
    (kept.details.paramValues[entry.1]?).any (· ≠ entry.2)

def pinned (record : Record ν) : Bool := record.details.runtime.resolved = .user

def pinsConflict (kept donor : Record ν) : Bool :=
  pinned kept && pinned donor &&
    decide (kept.details.runtime.id ≠ donor.details.runtime.id)

/-- A pin is not set on a record that resolution has not made ready. -/
def pinWaits (kept donor : Record ν) : Bool := pinned donor && decide (kept.state ≠ .ready)

/-- Take what was set on `donor` onto `kept`; `none` when the two hold different values for
one thing, and the donor stays. -/
def absorb (kept donor : Record ν) : Option (Record ν) :=
  if paramsConflict kept donor || pinsConflict kept donor || pinWaits kept donor ||
      differ kept.details.systemPrompt donor.details.systemPrompt ||
      differ kept.details.displayAlias donor.details.displayAlias then none
  else
    some { kept with
      details := { kept.details with
        runtime := if pinned donor && !pinned kept
          then donor.details.runtime else kept.details.runtime
        paramValues := donor.details.paramValues.toList.foldl
          (fun values entry => values.insertIfNew entry.1 entry.2) kept.details.paramValues
        systemPrompt := kept.details.systemPrompt <|> donor.details.systemPrompt
        displayAlias := kept.details.displayAlias <|> donor.details.displayAlias } }

/-- What a pass has come to: the records to register, the donors taken into others (with the
id of the record that took each), and the aliases held back. -/
structure Pass (ν : Type) where
  toRegister : List (Record ν)
  absorbed : List (Record ν × String) := []
  held : List String := []

def loose (kind : SourceKind) : Bool := kind = .file ∨ kind = .folder

/-- `record` is the one a loose `donor` is another path to. -/
def samePlace (seenIds : List String) (donor record : Record ν) : Bool :=
  decide (record.id ∈ seenIds) && decide (record.id ≠ donor.id) &&
    decide (record.details.source.kind = donor.details.source.kind) &&
    decide (host.disk.placeOf (Path.ofString record.details.source.path) =
      host.disk.placeOf (Path.ofString donor.details.source.path))

/-- One round of the loop of `retire_aliases`. -/
def retireAlias (seenIds : List String) (pass : Pass ν) (donor : Record ν) : Pass ν :=
  if loose donor.details.source.kind ∧ donor.id ∉ seenIds ∧ weightsPresent host donor then
    match pass.toRegister.findIdx? (samePlace host seenIds donor) with
    | none => pass
    | some index =>
      match pass.toRegister[index]? with
      | none => pass
      | some kept =>
        match absorb kept donor with
        | some taken =>
          { pass with
            toRegister := pass.toRegister.set index taken
            absorbed := pass.absorbed ++ [(donor, kept.id)] }
        | none => { pass with held := pass.held ++ [donor.id] }
  else pass

/-- Loose records an earlier scan made for a model this scan found by another path. -/
def retireAliases (seenIds : List String) (existing toRegister : List (Record ν)) : Pass ν :=
  existing.foldl (retireAlias host seenIds) { toRegister }

/-- The one candidate with the fingerprint and size of `record` that is not claimed yet. -/
def orphanOf (candidates : List (Record ν)) (claimed : List String) (record : Record ν) :
    Option (Record ν) :=
  match record.details.contentFingerprint with
  | none => none
  | some mark =>
    match candidates.filter fun candidate =>
        decide (candidate.details.contentFingerprint = some mark) &&
          sameSize candidate.footprintBytes record.footprintBytes &&
          decide (candidate.id ∉ claimed) with
    | [orphan] => some orphan
    | _ => none

/-- One round of the loop of `migrate_moved_config`: the config of a moved model's old record
goes onto the record found in its place. A pin is not carried over. -/
def migrateOne (newRecordIds : List String) (candidates : List (Record ν))
    (claimed : List (Record ν × String)) (record : Record ν) :
    Record ν × List (Record ν × String) :=
  if record.id ∈ newRecordIds then
    match orphanOf candidates (claimed.map fun entry => entry.1.id) record with
    | none => (record, claimed)
    | some orphan =>
      match absorb record { orphan with details := { orphan.details with runtime := {} } } with
      | some taken => (taken, claimed ++ [(orphan, record.id)])
      | none => (record, claimed)
  else (record, claimed)

def migrateMovedConfig (newRecordIds : List String) (candidates : List (Record ν)) :
    List (Record ν) → List (Record ν × String) → List (Record ν) × List (Record ν × String)
  | [], claimed => ([], claimed)
  | record :: rest, claimed =>
    let (record, claimed) := migrateOne newRecordIds candidates claimed record
    let (rest, claimed) := migrateMovedConfig newRecordIds candidates rest claimed
    (record :: rest, claimed)

/-! ## The pass -/

def scannedKinds (scanners : List StoreScanner) : List SourceKind :=
  let failed := scanners.flatMap (·.result.failedKinds)
  (scanners.flatMap StoreScanner.kinds).filter (· ∉ failed)

def discovered (scanners : List StoreScanner) : List DiscoveredModel :=
  scanners.flatMap (·.result.discovered)

/-- Everything the pass decides, from the records its view lists. -/
def passOver (scanners : List StoreScanner) (existing : List (Record ν)) : Pass ν :=
  let kinds := scannedKinds scanners
  let found := reconcile host existing (discovered scanners)
  let gone := (existing.filter (vanished host kinds found.seenIds)).map stale
  let pass := retireAliases host found.seenIds existing (found.toRegister ++ gone)
  let candidates := existing.filter fun record =>
    decide (record.id ∉ found.seenIds) &&
      decide (record.id ∉ pass.absorbed.map fun entry => entry.1.id) &&
      decide (record.id ∉ pass.held) &&
      (decide (record.state = .missing) || decide (record.details.source.kind ∈ kinds))
  let (toRegister, claimed) := migrateMovedConfig found.newRecordIds candidates pass.toRegister []
  { pass with toRegister, absorbed := pass.absorbed ++ claimed }

def Pass.migratedAway (pass : Pass ν) : List String := pass.absorbed.map fun entry => entry.1.id

def Pass.keep (pass : Pass ν) : List (Record ν) :=
  pass.toRegister.filter (·.id ∉ pass.migratedAway)

end Absorb

/-! ## The registry calls -/

/-- `Registry::list`: sorted by name without regard to case, then by id. -/
def listed (models : Models (Details ν)) : List (Record ν) :=
  (models.toList.map Prod.snd).mergeSort fun a b =>
    decide (host.toLowercase a.details.name < host.toLowercase b.details.name) ||
      (decide (host.toLowercase a.details.name = host.toLowercase b.details.name) &&
        decide (a.id ≤ b.id))

/-- What happens around the calls: what other processes leave of the store before the `n`-th
one, whether it gets the lock, and whether its write succeeds. -/
structure Surroundings (ν : Type) where
  before : ℕ → StoreFile (Details ν) → StoreFile (Details ν)
  locked : ℕ → Bool
  written : ℕ → Bool

variable [DecidableEq ν]

/-- One registry call, and whether it returned `Ok`. -/
def call (surroundings : Surroundings ν) (n : ℕ) (view : View (Details ν))
    (op : Mutation (Details ν)) : View (Details ν) × Bool :=
  let view := { view with file := surroundings.before n view.file }
  if surroundings.locked n then
    match view.registry.read op view.file with
    | .error _ => ({ view with file := view.file.afterRead }, false)
    | .ok registry =>
      match registry.apply op with
      | (registry, .none) => ({ view with registry }, true)
      | (registry, commit) =>
        if surroundings.written n then (⟨registry.committed commit, registry.write⟩, true)
        else ({ view with registry }, false)
  else (view, false)

/-- The calls that drop the records taken into others, up to the first that fails. -/
def unregisterAll (surroundings : Surroundings ν) :
    ℕ → View (Details ν) → List String → View (Details ν) × Bool
  | _, view, [] => (view, true)
  | n, view, id :: ids =>
    match call surroundings n view (.unregister id) with
    | (view, true) => unregisterAll surroundings (n + 1) view ids
    | (view, false) => (view, false)

/-- The pass: decided from the view as it stands, then written. -/
def discover (surroundings : Surroundings ν) (scanners : List StoreScanner)
    (view : View (Details ν)) : View (Details ν) × Bool :=
  let pass := passOver host scanners (listed host view.models)
  match call surroundings 0 view (.registerAll pass.keep) with
  | (view, true) => unregisterAll surroundings 1 view pass.migratedAway
  | (view, false) => (view, false)

end Hedos.Discovery
