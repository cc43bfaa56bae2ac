import Hedos.Auction.Engine
import Hedos.Lib.Search

/-!
# What a model is

`identify` of `kernel/src/resolution/identity.rs`, with the tables of `format.rs` it looks up.

What the readers of the single file formats find is a parameter (`Disk`), as is the registry of
diffusers pipelines; nothing on the disk changes.
-/

namespace Hedos.Resolution

open Hedos.Kernel (JsonValue ModelRecord)
open Hedos.Discovery (Modality Capability SourceKind ExecutionMode Details)
open Hedos.Auction (ModelFormat ParamType)

abbrev Record := Hedos.Discovery.Record JsonValue

abbrev ParamSpec := Hedos.Auction.ParamSpec JsonValue

abbrev IdentifiedModel := Hedos.Auction.IdentifiedModel JsonValue

/-! ## Names -/

namespace Modality

def text : Modality := ⟨"text"⟩
def audio : Modality := ⟨"audio"⟩
def vision : Modality := ⟨"vision"⟩
def embedding : Modality := ⟨"embedding"⟩

end Modality

namespace Capability

def chat : Capability := ⟨"chat"⟩
def complete : Capability := ⟨"complete"⟩
def embed : Capability := ⟨"embed"⟩
def see : Capability := ⟨"see"⟩
def transcribe : Capability := ⟨"transcribe"⟩
def judge : Capability := ⟨"judge"⟩

end Capability

def endpointKind : SourceKind := ⟨"endpoint"⟩

/-! ## Paths -/

/-- `Path::join`. -/
def join (base part : String) : String :=
  if part.toList.head? = some '/' then part
  else if base.toList.getLast? = some '/' ∨ base = "" then base ++ part
  else base ++ "/" ++ part

/-- `Path::file_name`. -/
def fileName (path : String) : Option (List Char) :=
  (((path.toList.splitOn '/').filter fun part => part ≠ [] ∧ part ≠ ['.']).getLast?).filter
    fun part => part ≠ ['.', '.']

/-- `Path::extension`. -/
def extension (path : String) : Option (List Char) :=
  (fileName path).bind fun name =>
    match (name.splitOn '.').reverse with
    | [] | [_] => none
    | [_, []] => none
    | last :: _ => some last

/-- `is_mmproj_name`. -/
def isMmprojName (name : List Char) : Bool :=
  (Search.firstAt "mmproj".toList (name.map Char.toLower)).isSome

def hasGgufExtension (path : String) : Bool :=
  (extension path).any fun ext => eqIgnoreAsciiCase ext "gguf".toList

/-! ## The disk -/

inductive GgufPooling
  | none
  | mean
  | cls
  | last
  | rank
deriving DecidableEq

/-- What identification uses of a GGUF header. -/
structure GgufFacts where
  architecture : Option String := none
  contextLength : Option ℤ := none
  hasChatTemplate : Bool := false
  quantization : Option String := none
  pooling : Option GgufPooling := none
  decision : Option String := none
  embeddingLength : Option ℤ := none
  hasVisionEncoder : Bool := false
  bundledEncoders : Bool := false
  metadataComplete : Bool := false
  tensorDimensions : Option (List ℕ) := none
  tensorsPresent : Bool := false
  hasClassifierHead : Bool := false

structure Hint where
  modality : Option Modality
  capabilities : List Capability
  execution : ExecutionMode
  contextLength : Option ℤ := none
  quantization : Option String := none
  params : List ParamSpec := []

inductive SentenceTransformersLayout
  | embedder
  | crossEncoder
deriving DecidableEq

structure GgufTree where
  weights : List (String × ℕ) := []
  projectors : List (String × ℕ) := []

structure SchedulerFacts where
  className : Option String
  timestepSpacing : Option String

structure DiffusersPipelineProfile where
  modality : Modality
  capabilities : List Capability
  params : List ParamSpec

structure Metadata where
  /-- Where the system has one. -/
  modified : Option ℤ
  len : ℕ
  isDir : Bool

/-- What is read of files that stay as they are. -/
structure Disk where
  metadata : String → Option Metadata
  /-- The metadata of the entries of a directory, where it can be read. -/
  readDir : String → Option (List (Option Metadata))
  isThere : String → Bool
  /-- The entries of the directory that a file is in, with the sizes they lead to. -/
  siblings : String → List (String × ℕ)
  /-- `read_regular` and `serde_json::from_slice`. -/
  readJson : String → Option JsonValue
  hasGgufMagic : String → Bool
  hasGgmlMagic : String → Bool
  ggufFacts : String → Option GgufFacts
  ggufTree : String → GgufTree
  primaryOf : List (String × ℕ) → Option String
  fromSnapshot : String → Option Hint
  safetensorsFormat : String → String → Option ModelFormat
  sentenceTransformersLayout : String → Option SentenceTransformersLayout
  diffusersPipelineClass : String → Option String
  /-- `PipelineFamilyRegistry::profile`. -/
  pipelineProfile : String → Option SchedulerFacts → Option String → Option DiffusersPipelineProfile
  declaresProjector : String → Bool

/-! ## Architectures -/

structure GgufArchitectureProfile where
  modality : Modality
  capabilities : List Capability
  execution : ExecutionMode

def ggufArchitectureProfile (architecture : String) : Option GgufArchitectureProfile :=
  if architecture = "whisper" then some ⟨Modality.audio, [Capability.transcribe], .stream⟩
  else if ["qwen2vl", "qwen3vl", "qwen3vlmoe", "mllama", "cogvlm", "hunyuan-vl"].contains
      architecture then
    some ⟨Modality.text, [Capability.chat, Capability.complete, Capability.see], .stream⟩
  else if ["bert", "nomic-bert", "nomic-bert-moe", "jina-bert-v2", "jina-bert-v3", "neo-bert",
      "modern-bert", "eurobert", "gemma-embedding", "llama-embed", "t5encoder"].contains
      architecture then
    some ⟨Modality.embedding, [Capability.embed], .stream⟩
  else if architecture = "clip" then some ⟨Modality.vision, [], .sync⟩
  else if architecture = "wavtokenizer-dec" then some ⟨Modality.audio, [], .sync⟩
  else none

def ollamaChatProfile : GgufArchitectureProfile :=
  ⟨Modality.text, [Capability.chat, Capability.complete], .stream⟩

def ollamaVisionProfile : GgufArchitectureProfile :=
  ⟨Modality.text, [Capability.chat, Capability.complete, Capability.see], .stream⟩

def ollamaProfile (hasProjector : Bool) (architecture : Option String) :
    GgufArchitectureProfile :=
  if hasProjector then ollamaVisionProfile
  else (architecture.bind ggufArchitectureProfile).getD ollamaChatProfile

/-! ## GGUF -/

def imageDecisionTypes : List String := ["openjev", "clef"]

def decisionCapabilities (decision : String) (hasProjector : Bool) : List Capability :=
  if hasProjector && imageDecisionTypes.contains decision then [Capability.judge, Capability.see]
  else [Capability.judge]

/-- The capabilities and the modality of an architecture, less what these weights lack. -/
def withoutMissing (profile : GgufArchitectureProfile) (facts : Option GgufFacts)
    (hasProjector : Bool) : Modality × List Capability :=
  let capabilities :=
    if hasProjector then profile.capabilities
    else profile.capabilities.filter (· ≠ Capability.see)
  if capabilities = [Capability.embed] then
    (if facts.any (·.hasClassifierHead) then Modality.text else profile.modality, [])
  else (profile.modality, capabilities)

def profiled (facts : Option GgufFacts) (hasProjector : Bool) :
    Modality × List Capability × ExecutionMode :=
  match (facts.bind (·.architecture)).bind ggufArchitectureProfile with
  | none =>
    (Modality.text,
      [Capability.chat, Capability.complete] ++ (if hasProjector then [Capability.see] else []),
      .stream)
  | some profile =>
    let (modality, capabilities) := withoutMissing profile facts hasProjector
    (modality, capabilities, profile.execution)

def classifyGguf (facts : Option GgufFacts) (hasProjector : Bool) :
    Modality × List Capability × ExecutionMode :=
  match facts.bind (·.decision), facts.bind (·.pooling) with
  | some decision, _ => (Modality.text, decisionCapabilities decision hasProjector, .stream)
  | none, some .mean | none, some .cls | none, some .last =>
    (Modality.embedding, [Capability.embed], .stream)
  | none, some .rank => (Modality.text, [], .stream)
  | none, some .none | none, none => profiled facts hasProjector

def applyFacts (model : IdentifiedModel) (facts : Option GgufFacts) : IdentifiedModel :=
  { model with
    contextLength := facts.bind (·.contextLength)
    hasChatTemplate := facts.map (·.hasChatTemplate)
    quantization := facts.bind (·.quantization) }

def identifyGguf (d : Disk) (base : String) (hasProjector : Bool) : IdentifiedModel :=
  if isMmprojName ((fileName base).getD []) then
    { format := .gguf, modality := some Modality.vision, capabilities := [], execution := .sync }
  else
    let facts := d.ggufFacts base
    let (modality, capabilities, execution) := classifyGguf facts hasProjector
    applyFacts { format := .gguf, modality := some modality, capabilities, execution } facts

/-! ## Projectors -/

inductive ProjectorFit
  | fits
  | unread
  | misfit
deriving DecidableEq

def projectorFit (d : Disk) (width : Option ℤ) (projector : String) : ProjectorFit :=
  match (d.ggufFacts projector).filter fun facts => facts.architecture.isSome with
  | none => .unread
  | some facts =>
    if !facts.hasVisionEncoder then .misfit
    else
      match facts.tensorDimensions with
      | none => .unread
      | some dimensions =>
        if width.any fun width => 0 ≤ width && !dimensions.contains width.toNat then .misfit
        else if facts.tensorsPresent then .fits else .unread

/-- Each sibling that is named a projector, with its size. -/
def mmprojCompanions (d : Disk) (base : String) : List (String × ℕ) :=
  (d.siblings base).filter fun entry =>
    decide (fileName entry.1 ≠ fileName base) &&
      (fileName entry.1).any (fun name => decide (name.head? ≠ some '.') && isMmprojName name) &&
      hasGgufExtension entry.1

def projectorsOf (d : Disk) (weights : String) (candidates : List (String × ℕ)) :
    List (String × ℕ × ProjectorFit) :=
  let width := (d.ggufFacts weights).bind (·.embeddingLength)
  (candidates.map fun entry => (entry.1, entry.2, projectorFit d width entry.1)).filter
    fun entry => entry.2.2 ≠ .misfit

def isGgufFile (d : Disk) (base : String) : Bool := hasGgufExtension base || d.hasGgufMagic base

/-- The GGUF that a directory is served from, and whether it has a projector. -/
def ggufWeights (d : Disk) (container : String) (primary : Option String) :
    Option (String × Bool) :=
  if primary.any fun primary => !d.hasGgufMagic primary then none
  else
    let tree := d.ggufTree container
    (d.primaryOf tree.weights).map fun weights =>
      (weights, !(projectorsOf d weights tree.projectors).isEmpty)

/-! ## Other formats -/

def applyHint (model : IdentifiedModel) (hint : Option Hint) : IdentifiedModel :=
  { model with
    contextLength := hint.bind (·.contextLength)
    quantization := hint.bind (·.quantization)
    params := hint.elim [] (·.params) }

def refinedLayout : SentenceTransformersLayout → Modality × List Capability
  | .embedder => (Modality.embedding, [Capability.embed])
  | .crossEncoder => (Modality.text, [])

def identifySafetensors (d : Disk) (format : ModelFormat) (hint : Option Hint)
    (container : String) : IdentifiedModel :=
  let hintModality := hint.bind (·.modality)
  let refined :=
    if hintModality = none ∨ hintModality = some Modality.text then
      (d.sentenceTransformersLayout container).map refinedLayout
    else none
  match refined with
  | some (modality, capabilities) =>
    applyHint { format, modality := some modality, capabilities, execution := .stream } hint
  | none =>
    applyHint
      { format
        modality := hintModality
        capabilities := hint.elim [] (·.capabilities)
        execution := hint.elim .sync (·.execution) } hint

def schedulerFacts (d : Disk) (container : String) : Option SchedulerFacts :=
  ((d.readJson (join (join container "scheduler") "scheduler_config.json")).filter
    fun config => config.asObject.isSome).map fun config =>
      { className := (config.get "_class_name").bind JsonValue.asStr
        timestepSpacing := (config.get "timestep_spacing").bind JsonValue.asStr }

def fluxUsesGuidance (d : Disk) (container : String) : Bool :=
  (((d.readJson (join (join container "transformer") "config.json")).bind
    (·.get "guidance_embeds")).bind JsonValue.asBool).getD false

/-- `record.source.repo`, or the name. -/
def repoHint (record : Record) : String :=
  record.details.source.repo.getD record.details.name

def identifyDiffusers (d : Disk) (modelIndex container hint : String) : IdentifiedModel :=
  let pipelineClass := d.diffusersPipelineClass modelIndex
  let scheduler := schedulerFacts d container
  match pipelineClass.bind fun name => d.pipelineProfile name scheduler (some hint) with
  | none =>
    { format := .diffusers, modality := none, capabilities := [], execution := .job, pipelineClass }
  | some profile =>
    let params :=
      if pipelineClass = some "FluxPipeline" ∧ fluxUsesGuidance d container = false then
        profile.params.filter fun spec => spec.key ≠ "guidance"
      else profile.params
    { format := .diffusers, modality := some profile.modality
      capabilities := profile.capabilities, execution := .job, params, pipelineClass }

/-! ## Kinds -/

def param (key : String) (paramType : ParamType) (range : Option (List JsonValue)) : ParamSpec :=
  { key, paramType, range }

def builtinParams : List ParamSpec :=
  [param "temperature" .float (some [.double 0, .double 2]),
    param "top_p" .float (some [.double 0, .double 1]),
    param "top_k" .int (some [.int 0, .int 100]),
    param "max_tokens" .int (some [.int 1, .int 4096]),
    param "seed" .int none]

def endpointParams : List ParamSpec :=
  [param "temperature" .float (some [.double 0, .double 2]),
    param "top_p" .float (some [.double 0, .double 1]),
    param "max_tokens" .int (some [.int 1, .int 32768]),
    param "stop" .string none,
    param "seed" .int none,
    param "frequency_penalty" .float (some [.double (-2), .double 2]),
    param "presence_penalty" .float (some [.double (-2), .double 2])]

def chatModel (format : ModelFormat) (params : List ParamSpec) : IdentifiedModel :=
  { format, modality := some Modality.text
    capabilities := [Capability.chat, Capability.complete], execution := .stream, params }

/-- A model in Ollama's store. -/
def identifyOllama (d : Disk) (record : Record) : IdentifiedModel :=
  let hasProjector := d.declaresProjector record.details.source.path
  match record.details.primaryWeightPath.bind d.ggufFacts with
  | none =>
    let profile := ollamaProfile hasProjector none
    { format := .ollamaStore, modality := some profile.modality
      capabilities := profile.capabilities, execution := profile.execution }
  | some facts =>
    let sees := hasProjector || facts.bundledEncoders
    let (modality, capabilities, execution) := classifyGguf (some facts) sees
    let capabilities :=
      if sees && capabilities.contains Capability.chat && !capabilities.contains Capability.see then
        capabilities ++ [Capability.see]
      else capabilities
    let foundOrAbsent (found : Bool) : Option Bool :=
      if found || facts.metadataComplete then some found else none
    { format := .ollamaStore, modality := some modality, capabilities, execution
      ggufChatTemplate := foundOrAbsent facts.hasChatTemplate
      bundledEncoders := foundOrAbsent facts.bundledEncoders
      quantization := facts.quantization }

def containerUrl (d : Disk) (base : String) (record : Record) : String :=
  if record.details.source.kind = SourceKind.huggingfaceCache then
    match record.details.source.reference with
    | none => base
    | some reference =>
      let snapshot := join (join base "snapshots") reference
      if d.isThere snapshot then snapshot else base
  else base

def unknownModel (hint : Option Hint) : IdentifiedModel :=
  match hint with
  | some hint =>
    { format := .unknown, modality := hint.modality, capabilities := hint.capabilities
      execution := hint.execution, contextLength := hint.contextLength, params := hint.params }
  | none => { format := .unknown, modality := none, capabilities := [], execution := .sync }

/-- What the files at `base` are, looked for in `container`. -/
def identifyFiles (d : Disk) (base container hint : String) (primary : Option String) :
    IdentifiedModel :=
  if (extension base).map (·.map Char.toLower) = some "bin".toList ∧ d.hasGgmlMagic base then
    { format := .ggmlBin, modality := some Modality.audio
      capabilities := [Capability.transcribe], execution := .stream }
  else if isGgufFile d base then
    identifyGguf d base !(projectorsOf d base (mmprojCompanions d base)).isEmpty
  else if d.isThere (join container "model_index.json") then
    identifyDiffusers d (join container "model_index.json") container hint
  else
    let config := d.fromSnapshot container
    match d.safetensorsFormat container (join container "config.json") with
    | some format => identifySafetensors d format config container
    | none =>
      match ggufWeights d container primary with
      | some (weights, hasProjector) => identifyGguf d weights hasProjector
      | none => unknownModel config

def identify (d : Disk) (record : Record) : IdentifiedModel :=
  let kind := record.details.source.kind
  if kind = SourceKind.builtin then chatModel .builtin builtinParams
  else if kind = endpointKind then chatModel .endpoint endpointParams
  else if kind = SourceKind.ollama then identifyOllama d record
  else
    let base := record.details.source.path
    identifyFiles d base (containerUrl d base record) (repoHint record)
      record.details.primaryWeightPath

end Hedos.Resolution
