import Hedos.Auction.Profiles
import Hedos.Kernel.Values

/-!
# The runtime-bid auction

`ResolutionEngine` of `runtime/src/resolution.rs`: a record is identified, every adapter is asked
for a bid, and what follows from the two is written back onto the record (`applied`).

Identification and the bids are parameters: the first reads the model's files, the second are the
adapters' own.
-/

namespace Hedos.Auction

open Hedos.Kernel Hedos.Discovery

variable {ν : Type}

/-! ## Identification, bids and manifests -/

inductive ModelFormat
  | gguf
  | ggmlBin
  | safetensors
  | mlxSafetensors
  | diffusers
  | ollamaStore
  | builtin
  | endpoint
  | unknown
deriving DecidableEq

/-- What was read from a model's files. -/
structure IdentifiedModel (ν : Type) where
  format : ModelFormat
  modality : Option Modality
  capabilities : List Capability
  execution : ExecutionMode
  params : List (ParamSpec ν) := []
  pipelineClass : Option String := none
  contextLength : Option ℤ := none
  hasChatTemplate : Option Bool := none
  quantization : Option String := none
  ggufChatTemplate : Option Bool := none
  bundledEncoders : Option Bool := none
deriving DecidableEq

structure ManifestCompanion where
  role : String
  repo : String
deriving DecidableEq

/-- What a community runtime declares of the models it serves. -/
structure RuntimeManifest (ν : Type) where
  modalities : List Modality
  capabilities : List Capability
  execution : ExecutionMode
  params : List (ParamSpec ν)
  companions : List ManifestCompanion
deriving DecidableEq

structure RuntimeBid where
  tier : RunTier
  preference : ℤ
  alternatives : List RuntimeId := []
deriving DecidableEq

structure RuntimeAdapter (ν : Type) where
  id : RuntimeId
  wiresTools : Bool := false
  manifest : Option (RuntimeManifest ν) := none
  bid : ServedRecord ν → IdentifiedModel ν → Option RuntimeBid

structure BidEntry where
  id : RuntimeId
  tier : RunTier
  preference : ℤ
  alternatives : List RuntimeId
deriving DecidableEq

structure ResolutionPlan (ν : Type) where
  identified : IdentifiedModel ν
  bids : List BidEntry

structure ResolutionEngine (ν : Type) where
  adapters : List (RuntimeAdapter ν)
  profiles : ProfileRegistry ν
  numbers : Numbers ν
  identify : ServedRecord ν → IdentifiedModel ν

/-- The companions a manifest runtime names, as the shelf holds them. -/
abbrev CompanionsHeld := RuntimeId → Option (List Companion)

/-! ## The pieces of a resolution -/

/-- `ModelRecord::holds_hub_repo`. -/
def holdsHubRepo (record : ServedRecord ν) (repo : String) : Bool :=
  record.details.source.kind == SourceKind.huggingfaceCache &&
    record.details.source.repo.any (eqIgnoreAsciiCase ·.toList repo.toList) &&
    record.state != .missing && !record.details.downloading &&
    record.details.servingBytes.any (0 < ·)

/-- The record is the user's choice of a runtime that is there. -/
def isPinned (record : ServedRecord ν) (live : List RuntimeId) : Bool :=
  record.details.runtime.resolved == .user && record.details.runtime.id.any live.contains

/-- The runtime of the winning bid, with the others behind it. -/
def winnerRef (winner : BidEntry) (others : List BidEntry) (previous : RuntimeRef) :
    RuntimeRef where
  id := some winner.id
  resolved := .auto
  tier := winner.tier
  alternatives := winner.alternatives.foldl
    (fun alternatives declared =>
      if declared ≠ winner.id ∧ declared ∉ alternatives then alternatives ++ [declared]
      else alternatives)
    (others.map BidEntry.id)
  confirmedAt := if previous.id = some winner.id then previous.confirmedAt else none

def applyWinner (bids : List BidEntry) (updated : ServedRecord ν) (previous : RuntimeRef) :
    ServedRecord ν :=
  match bids with
  | [] => { updated with
      state := .unresolved
      details := { updated.details with runtime := {} } }
  | winner :: others => { updated with
      state := .ready
      details := { updated.details with runtime := winnerRef winner others previous } }

def conversational (capabilities : List Capability) : Bool :=
  capabilities.any fun capability => capability == ⟨"chat"⟩ || capability == ⟨"complete"⟩

/-- Tools are among the capabilities of a model that converses when its runtime forwards them and
its template does not lack them. -/
def foldToolCapability (runtimeWiresTools : Bool) (toolCapable : Option Bool)
    (capabilities : List Capability) : List Capability :=
  let hasTools := capabilities.any (· == ⟨"tools"⟩)
  let keep := conversational capabilities && runtimeWiresTools && toolCapable != some false
  match keep, hasTools with
  | true, false => capabilities ++ [⟨"tools"⟩]
  | false, true => capabilities.filter (· != ⟨"tools"⟩)
  | _, _ => capabilities

def readFromTheWeights (identified : IdentifiedModel ν) : Bool :=
  identified.format == .gguf || identified.format == .ggmlBin

/-- The modality was named and every capability withheld. -/
def withheld (identified : IdentifiedModel ν) : Bool :=
  identified.modality.isSome && identified.capabilities.isEmpty

/-- What was identified goes onto the record, each field only when it was determined. -/
def merge (identified : IdentifiedModel ν) (updated : ServedRecord ν) (runtimeWiresTools : Bool) :
    ServedRecord ν :=
  let capabilities :=
    if readFromTheWeights identified || withheld identified || !identified.capabilities.isEmpty then
      identified.capabilities
    else updated.details.capabilities
  { updated with details := { updated.details with
      modality := identified.modality.getD updated.details.modality
      params := if identified.params.isEmpty then updated.details.params else identified.params
      contextLength := identified.contextLength <|> updated.details.contextLength
      hasChatTemplate := identified.hasChatTemplate <|> updated.details.hasChatTemplate
      quantization := identified.quantization <|> updated.details.quantization
      execution := identified.execution
      capabilities :=
        foldToolCapability runtimeWiresTools updated.details.supportsTools capabilities } }

/-- What identification left blank is filled in from the manifest; whether the parameters are the
manifest's. -/
def backfill (manifest : RuntimeManifest ν) (identified : IdentifiedModel ν)
    (updated : ServedRecord ν) : ServedRecord ν × Bool :=
  let updated := { updated with details := { updated.details with
    modality :=
      if identified.modality.isNone then manifest.modalities.head?.getD updated.details.modality
      else updated.details.modality } }
  let updated :=
    if identified.capabilities.isEmpty then
      { updated with details := { updated.details with
          capabilities := manifest.capabilities
          execution := manifest.execution } }
    else updated
  if !identified.params.isEmpty then (updated, false)
  else
    ({ updated with details := { updated.details with params := manifest.params } },
      !manifest.params.isEmpty)

/-- What a manifest had filled in is taken back. -/
def withdrawBackfill (identified : IdentifiedModel ν) (updated : ServedRecord ν) :
    ServedRecord ν :=
  { updated with details := { updated.details with
      modality := if identified.modality.isNone then .unknown else updated.details.modality
      capabilities :=
        if identified.capabilities.isEmpty then [] else updated.details.capabilities
      params := if identified.params.isEmpty then [] else updated.details.params } }

namespace ResolutionEngine

/-- An engine with the built-in profiles. -/
def new (numbers : Numbers ν) (adapters : List (RuntimeAdapter ν))
    (identify : ServedRecord ν → IdentifiedModel ν) : ResolutionEngine ν where
  adapters := adapters
  profiles := builtin numbers
  numbers := numbers
  identify := identify

variable (engine : ResolutionEngine ν)

def liveAdapterIds : List RuntimeId := engine.adapters.map RuntimeAdapter.id

/-- The adapter behind a runtime id. -/
def adapter (id : Option RuntimeId) : Option (RuntimeAdapter ν) :=
  id.bind fun id => engine.adapters.find? (·.id == id)

def winningManifest (id : Option RuntimeId) : Option (RuntimeManifest ν) :=
  (engine.adapter id).bind RuntimeAdapter.manifest

def adapterWiresTools (id : Option RuntimeId) : Bool := (engine.adapter id).any (·.wiresTools)

/-- The runtime the record is losing was a manifest's. -/
def wasHeldByAManifest (previous : Option RuntimeId) (live : List RuntimeId) : Bool :=
  previous.any fun id => !live.contains id || (engine.winningManifest (some id)).isSome

/-- Every adapter's bid; the lower preference wins, and then the smaller id. -/
def collectBids (record : ServedRecord ν) (identified : IdentifiedModel ν) : List BidEntry :=
  (engine.adapters.filterMap fun adapter =>
    (adapter.bid record identified).map fun bid =>
      { id := adapter.id
        tier := bid.tier
        preference := bid.preference
        alternatives := bid.alternatives }).mergeSort fun left right =>
    decide (left.preference < right.preference ∨
      left.preference = right.preference ∧ left.id.value ≤ right.id.value)

def plan (record : ServedRecord ν) : Option (ResolutionPlan ν) :=
  if isPinned record engine.liveAdapterIds then none
  else if record.state = .missing then none
  else
    let identified := engine.identify record
    some { identified, bids := engine.collectBids record identified }

/-- The record with its winner, whether it is a manifest's or not, and what that brings along; and
whether the manifest lends it its parameters. -/
def withRuntime (plan : ResolutionPlan ν) (current : ServedRecord ν) (live : List RuntimeId)
    (companions : CompanionsHeld) : ServedRecord ν × Bool :=
  let updated := applyWinner plan.bids current current.details.runtime
  let wiresTools := engine.adapterWiresTools updated.details.runtime.id
  let updated := merge plan.identified updated wiresTools
  let updated := { updated with details := { updated.details with companions := [] } }
  match engine.winningManifest updated.details.runtime.id with
  | some manifest =>
    let (updated, lentParams) := backfill manifest plan.identified updated
    let held := (updated.details.runtime.id.bind companions).getD []
    -- a rule loose enough to match the companion itself must not make it its own
    let updated := { updated with details := { updated.details with
      companions := held.filter fun companion => !holdsHubRepo updated companion.repo } }
    ({ updated with details := { updated.details with
        capabilities := foldToolCapability wiresTools updated.details.supportsTools
          updated.details.capabilities } }, lentParams)
  | none =>
    if updated.details.runtime.id.isNone &&
        engine.wasHeldByAManifest current.details.runtime.id live then
      (withdrawBackfill plan.identified updated, false)
    else (updated, false)

/-- The record after a plan, for one that is neither pinned, missing nor downloading. -/
def resolved (plan : ResolutionPlan ν) (current : ServedRecord ν) (live : List RuntimeId)
    (companions : CompanionsHeld) : ServedRecord ν :=
  let (updated, lentParams) := engine.withRuntime plan current live companions
  if plan.identified.params.isEmpty && !lentParams then
    engine.profiles.refreshed engine.numbers updated
  else updated

/-- A record that is still downloading is not resolved. -/
def unresolved (current : ServedRecord ν) : ServedRecord ν :=
  { current with
    state := .unresolved
    details := { current.details with runtime := {} } }

/-- The record after a plan, for one that is neither pinned nor missing. -/
def afterPlan (plan : ResolutionPlan ν) (current : ServedRecord ν) (live : List RuntimeId)
    (companions : CompanionsHeld) : ServedRecord ν :=
  if current.details.downloading then unresolved current
  else engine.resolved plan current live companions

variable [DecidableEq ν]

/-- The record after a plan, if it is another one. -/
def applied (plan : ResolutionPlan ν) (current : ServedRecord ν) (live : List RuntimeId)
    (companions : CompanionsHeld) : Option (ServedRecord ν) :=
  if isPinned current live then none
  else if current.state = .missing then none
  else
    let updated := engine.afterPlan plan current live companions
    if updated ≠ current then some updated else none

/-- A record is planned for and the plan applied to it. -/
def resolveRecord (companions : CompanionsHeld) (record : ServedRecord ν) :
    Option (ServedRecord ν) :=
  (engine.plan record).bind fun plan =>
    engine.applied plan record engine.liveAdapterIds companions

end ResolutionEngine

end Hedos.Auction
