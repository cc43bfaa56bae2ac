import Hedos.Discovery.Service

/-!
# The parameters a model exposes

`kernel/src/profiles/profile.rs`: the profiles that match a record make up its parameter schema.
A value of a parameter is any type with the equality the code compares it by.

The built-in profiles look at a record's capabilities and runtime and at nothing else
(`steady_builtin`), so writing the schema into the record does not change it (`schema_congr`).
-/

namespace Hedos.Auction

open Hedos.Kernel Hedos.Discovery

variable {ν : Type}

/-! ## Records with what resolution writes -/

inductive ParamType
  | int
  | float
  | bool
  | string
  | enum
deriving DecidableEq

structure ParamSpec (ν : Type) where
  key : String
  paramType : ParamType
  defaultValue : Option ν := none
  range : Option (List ν) := none
  values : Option (List String) := none
deriving DecidableEq

/-- Another repository a model's runtime needs beside the model's own. -/
structure Companion where
  role : String
  repo : String
  path : Option String := none
  servingBytes : Option ℤ := none
deriving DecidableEq

/-- The details of a record with the fields that resolution alone writes. -/
structure ServedDetails (ν : Type) extends Details ν where
  params : List (ParamSpec ν) := []
  quantization : Option String := none
  companions : List Companion := []
deriving DecidableEq

abbrev ServedRecord (ν : Type) := ModelRecord (ServedDetails ν)

/-- `ModelRecord::can`. -/
def can (record : ServedRecord ν) (capability : String) : Bool :=
  record.details.capabilities.contains ⟨capability⟩

def hasRuntime (record : ServedRecord ν) (runtime : String) : Bool :=
  record.details.runtime.id == some ⟨runtime⟩

/-! ## Profiles -/

/-- The numbers among the values of parameters. -/
structure Numbers (ν : Type) where
  int : ℤ → ν
  double : ℚ → ν

structure ModelProfile (ν : Type) where
  id : String
  schema : List (ParamSpec ν)
  matcher : ServedRecord ν → Bool

structure ProfileRegistry (ν : Type) where
  profiles : List (ModelProfile ν)

def isText (record : ServedRecord ν) : Bool := can record "chat" || can record "complete"

def isContextHonoring (record : ServedRecord ν) : Bool :=
  hasRuntime record "ollama" || hasRuntime record "llama-cpp"

def isThinkingRuntime (record : ServedRecord ν) : Bool :=
  hasRuntime record "ollama" || hasRuntime record "python:mlx-lm"

section

variable (numbers : Numbers ν)

/-- The `context_length` spec of a text model on a runtime that honors one. -/
def contextLengthSpec (record : ServedRecord ν) : Option (ParamSpec ν) :=
  if isText record && isContextHonoring record then
    match record.details.contextLength.filter (0 < ·) with
    | some window => some {
        key := "context_length"
        paramType := .int
        defaultValue := some (numbers.int (min window 32768))
        range := some [numbers.int (min 512 window), numbers.int window] }
    | none => some {
        key := "context_length"
        paramType := .int
        range := some [numbers.int 512, numbers.int 131072] }
  else none

/-- The first spec of a key stays. -/
def addSpec (specs : List (ParamSpec ν)) (spec : ParamSpec ν) : List (ParamSpec ν) :=
  if specs.any (·.key == spec.key) then specs else specs ++ [spec]

def ProfileRegistry.schema (registry : ProfileRegistry ν) (record : ServedRecord ν) :
    List (ParamSpec ν) :=
  let specs := (registry.profiles.filter (·.matcher record)).foldl
    (fun specs profile => profile.schema.foldl addSpec specs) []
  if specs.any (·.key == "context_length") then specs
  else specs ++ (contextLengthSpec numbers record).toList

/-- The record with its schema, unless that is empty. -/
def ProfileRegistry.refreshed (registry : ProfileRegistry ν) (record : ServedRecord ν) :
    ServedRecord ν :=
  match registry.schema numbers record with
  | [] => record
  | schema => { record with details := { record.details with params := schema } }

def float (key : String) (low high : ℚ) : ParamSpec ν :=
  { key, paramType := .float, range := some [numbers.double low, numbers.double high] }

def int (key : String) (low high : ℤ) : ParamSpec ν :=
  { key, paramType := .int, range := some [numbers.int low, numbers.int high] }

def plain (key : String) (paramType : ParamType) : ParamSpec ν := { key, paramType }

def temperature : ParamSpec ν := float numbers "temperature" 0 2
def topP : ParamSpec ν := float numbers "top_p" 0 1
def topK : ParamSpec ν := int numbers "top_k" 0 100
def minP : ParamSpec ν := float numbers "min_p" 0 1
def maxTokens : ParamSpec ν := int numbers "max_tokens" 1 32768
def repeatPenalty : ParamSpec ν := float numbers "repeat_penalty" (1 / 2) 2
def frequencyPenalty : ParamSpec ν := float numbers "frequency_penalty" (-2) 2
def presencePenalty : ParamSpec ν := float numbers "presence_penalty" (-2) 2
def seed : ParamSpec ν := plain "seed" .int
def stop : ParamSpec ν := plain "stop" .string

def speed : ParamSpec ν where
  key := "speed"
  paramType := .float
  defaultValue := some (numbers.double 1)
  range := some [numbers.double (1 / 2), numbers.double 2]

/-- What one runtime offers beside the common parameters. -/
def runtimeExtras (id runtime : String) (schema : List (ParamSpec ν)) : ModelProfile ν where
  id := id
  schema := schema
  matcher record := isText record && hasRuntime record runtime

def builtin : ProfileRegistry ν where
  profiles := [
    ⟨"text-generation", [temperature numbers, topP numbers, maxTokens numbers], isText⟩,
    runtimeExtras "sampling-llama-cpp" "llama-cpp"
      [topK numbers, minP numbers, repeatPenalty numbers, frequencyPenalty numbers,
        presencePenalty numbers, seed, stop],
    runtimeExtras "sampling-mlx-swift" "mlx-swift" [repeatPenalty numbers, stop],
    runtimeExtras "sampling-mlx-lm" "python:mlx-lm"
      [topK numbers, minP numbers, repeatPenalty numbers, seed, stop],
    runtimeExtras "sampling-ollama" "ollama"
      [topK numbers, minP numbers, seed, repeatPenalty numbers, frequencyPenalty numbers,
        presencePenalty numbers, stop],
    runtimeExtras "sampling-endpoint" "generic:openai-server"
      [stop, seed, frequencyPenalty numbers, presencePenalty numbers],
    runtimeExtras "sampling-apple" "apple-foundation" [topK numbers, seed],
    ⟨"speech-synthesis", [plain "voice" .string, speed numbers], fun record => can record "speak"⟩,
    ⟨"transcription", [plain "language" .string, plain "translate" .bool],
      fun record => can record "transcribe"⟩,
    ⟨"togglable-thinking", [plain "thinking" .bool],
      fun record => can record "chat" && isThinkingRuntime record⟩]

/-! ## What a schema depends on -/

/-- The two records are the same to the profiles. -/
structure SameToProfiles (record record' : ServedRecord ν) : Prop where
  capabilities : record.details.capabilities = record'.details.capabilities
  runtime : record.details.runtime.id = record'.details.runtime.id
  contextLength : record.details.contextLength = record'.details.contextLength

/-- The profiles tell records apart by nothing else. -/
def Steady (registry : ProfileRegistry ν) : Prop :=
  ∀ profile ∈ registry.profiles, ∀ record record', SameToProfiles record record' →
    profile.matcher record = profile.matcher record'

variable {record record' : ServedRecord ν}

theorem SameToProfiles.can (h : SameToProfiles record record')
    (capability : String) : can record capability = can record' capability := by
  rw [Auction.can, Auction.can, h.capabilities]

theorem SameToProfiles.hasRuntime (h : SameToProfiles record record') (runtime : String) :
    hasRuntime record runtime = hasRuntime record' runtime := by
  rw [Auction.hasRuntime, Auction.hasRuntime, h.runtime]

theorem SameToProfiles.isText
    (h : SameToProfiles record record') : isText record = isText record' := by
  rw [Auction.isText, Auction.isText, h.can, h.can]

theorem steady_runtimeExtras (h : SameToProfiles record record')
    (id runtime : String) (schema : List (ParamSpec ν)) :
    (runtimeExtras id runtime schema).matcher record =
      (runtimeExtras id runtime schema).matcher record' := by
  simp only [runtimeExtras, h.isText, h.hasRuntime]

theorem steady_builtin : Steady (builtin numbers) := by
  intro profile hprofile record record' h
  simp only [builtin, List.mem_cons, List.not_mem_nil, or_false] at hprofile
  rcases hprofile with rfl | rfl | rfl | rfl | rfl | rfl | rfl | rfl | rfl | rfl
  · exact h.isText
  · exact steady_runtimeExtras h _ _ _
  · exact steady_runtimeExtras h _ _ _
  · exact steady_runtimeExtras h _ _ _
  · exact steady_runtimeExtras h _ _ _
  · exact steady_runtimeExtras h _ _ _
  · exact steady_runtimeExtras h _ _ _
  · exact h.can _
  · exact h.can _
  · simp only [h.can, isThinkingRuntime, h.hasRuntime]

theorem contextLengthSpec_congr (h : SameToProfiles record record') :
    contextLengthSpec numbers record = contextLengthSpec numbers record' := by
  unfold contextLengthSpec isContextHonoring
  rw [h.isText, h.hasRuntime, h.hasRuntime, h.contextLength]

theorem schema_congr {registry : ProfileRegistry ν} (hsteady : Steady registry)
    (h : SameToProfiles record record') :
    registry.schema numbers record = registry.schema numbers record' := by
  have hmatching : registry.profiles.filter (·.matcher record) =
      registry.profiles.filter (·.matcher record') :=
    List.filter_congr fun profile hprofile => hsteady profile hprofile record record' h
  unfold ProfileRegistry.schema
  rw [hmatching, contextLengthSpec_congr numbers h]

/-- The parameters of the record that is refreshed. -/
def refreshedParams (registry : ProfileRegistry ν) (record : ServedRecord ν) : List (ParamSpec ν) :=
  match registry.schema numbers record with
  | [] => record.details.params
  | schema => schema

theorem refreshed_eq (registry : ProfileRegistry ν) (record : ServedRecord ν) :
    registry.refreshed numbers record =
      { record with
        details := { record.details with params := refreshedParams numbers registry record } } := by
  unfold ProfileRegistry.refreshed refreshedParams
  split <;> rfl

/-- A schema that has been written stays as it is. -/
theorem refreshedParams_idem {registry : ProfileRegistry ν} (hsteady : Steady registry)
    (h : SameToProfiles record record')
    (hparams : record'.details.params = record.details.params ∨
      record'.details.params = refreshedParams numbers registry record) :
    refreshedParams numbers registry record' = refreshedParams numbers registry record := by
  unfold refreshedParams at hparams ⊢
  rw [← schema_congr numbers hsteady h]
  split
  · rename_i hnone
    rw [hnone] at hparams
    exact hparams.elim id id
  · rfl

end

end Hedos.Auction
