import Hedos.Auction.Fixpoint

/-!
# The passes over a stranded shelf

`ResolutionEngine::resolve_where` of `runtime/src/resolution.rs` plans the records a pass selects
and hands `Registry::update` a transform that applies the plans; the three passes over the models an
older shelf got wrong are instances of it.

What a pass reads besides the view (the files on disk, the adapters, the platform's case mapping) is
an `Outside`, which may be another one each time a pass runs.
-/

namespace Hedos.Auction

open Hedos.Kernel Hedos.Discovery

variable {ν : Type}

/-- What a pass reads besides the records. -/
structure Outside (ν : Type) where
  engine : ResolutionEngine ν
  fileExists : String → Bool
  /-- `SidecarModelPaths::resolve`. -/
  snapshot : ServedRecord ν → String
  /-- `str::to_lowercase`. -/
  toLowercase : String → String

/-! ## The shelf and the companions on it -/

/-- `Registry::list`: by display name without regard to case, then by id. -/
def shelfList (toLowercase : String → String) (models : Models (ServedDetails ν)) :
    List (ServedRecord ν) :=
  models.values.mergeSort fun left right =>
    let leftName := toLowercase left.details.name
    let rightName := toLowercase right.details.name
    decide (leftName < rightName ∨ leftName = rightName ∧ left.id ≤ right.id)

/-- `ModelRecord::own_serving_size`. -/
def ownServingSize (record : ServedRecord ν) : Option ℤ :=
  record.details.servingBytes.filter (0 < ·) <|> record.footprintBytes.filter (0 < ·)

def companionsOn (outside : Outside ν) (manifest : RuntimeManifest ν)
    (shelf : List (ServedRecord ν)) : List Companion :=
  manifest.companions.map fun companion =>
    let held := shelf.find? (holdsHubRepo · companion.repo)
    { role := companion.role
      repo := companion.repo
      path := held.map outside.snapshot
      servingBytes := held.bind ownServingSize }

/-- The companions of every manifest runtime that names some; of two adapters of one id the later
one counts. -/
def companionsHeld (outside : Outside ν) (models : Models (ServedDetails ν)) : CompanionsHeld :=
  let shelf := shelfList outside.toLowercase models
  let held := outside.engine.adapters.filterMap fun adapter =>
    (adapter.manifest.filter fun manifest => !manifest.companions.isEmpty).map fun manifest =>
      (adapter.id, companionsOn outside manifest shelf)
  fun id => held.reverse.lookup id

/-! ## What a record is identified by -/

structure IdentityInputs where
  source : String
  primaryWeightPath : Option String
  footprintBytes : Option ℤ
deriving DecidableEq

def IdentityInputs.of (record : ServedRecord ν) : IdentityInputs where
  source := record.details.source.path
  primaryWeightPath := record.details.primaryWeightPath
  footprintBytes := record.footprintBytes

/-- The GGUF of the record is there and its header could not be read. -/
def headerUnread (outside : Outside ν) (record : ServedRecord ν)
    (identified : IdentifiedModel ν) : Bool :=
  identified.format == .gguf && identified.hasChatTemplate.isNone &&
    outside.fileExists (record.details.primaryWeightPath.getD record.details.source.path)

/-! ## The passes -/

/-- A pass: the records it plans, the plans it keeps, and whether a header that could not be read
counts as unread. -/
structure StrandedPass (ν : Type) where
  select : ServedRecord ν → Bool
  keep : IdentifiedModel ν → Bool
  countsUnread : Bool

def eligible (record : ServedRecord ν) : Bool :=
  !record.details.downloading && record.details.runtime.resolved != .user

def claims (identified : IdentifiedModel ν) (capability : String) : Bool :=
  identified.capabilities.contains ⟨capability⟩

def servedAsChat (record : ServedRecord ν) : Bool :=
  hasRuntime record "llama-cpp" && can record "chat"

def resolveStrandedEmbedders : StrandedPass ν where
  select record :=
    (record.state == .unresolved && can record "embed" || servedAsChat record) && eligible record
  keep identified :=
    identified.format == .gguf && !claims identified "chat" && !claims identified "complete"
  countsUnread := true

def resolveStrandedJudges : StrandedPass ν where
  select record := (servedAsChat record || record.state == .unresolved) && eligible record
  keep identified := identified.format == .gguf && claims identified "judge"
  countsUnread := true

def resolveStrandedAudio : StrandedPass ν where
  select record :=
    (record.state == .unresolved || hasRuntime record "python:mlx-lm" ||
      hasRuntime record "python:mlx-audio") && eligible record
  keep identified := identified.modality == some ⟨"audio"⟩ || identified.modality == some ⟨"speech"⟩
  countsUnread := false

/-- The plans of a pass, by id. -/
abbrev Plans (ν : Type) := Std.ExtTreeMap String (IdentityInputs × ResolutionPlan ν)

/-- The records a pass selects, with their plans. -/
def StrandedPass.planned (pass : StrandedPass ν) (outside : Outside ν)
    (models : Models (ServedDetails ν)) : List (ServedRecord ν × ResolutionPlan ν) :=
  ((shelfList outside.toLowercase models).filter pass.select).filterMap fun record =>
    (outside.engine.plan record).map fun plan => (record, plan)

def StrandedPass.plans (pass : StrandedPass ν) (outside : Outside ν)
    (models : Models (ServedDetails ν)) : Plans ν :=
  .ofList <| ((pass.planned outside models).filter fun entry => pass.keep entry.2.identified).map
    fun entry => (entry.1.id, IdentityInputs.of entry.1, entry.2)

/-- How many of the planned rows were not kept because their file could not be read. -/
def StrandedPass.unread (pass : StrandedPass ν) (outside : Outside ν)
    (models : Models (ServedDetails ν)) : ℕ :=
  (pass.planned outside models).countP fun entry =>
    pass.countsUnread && !pass.keep entry.2.identified &&
      headerUnread outside entry.1 entry.2.identified

variable [DecidableEq ν]

/-- The transform `resolve_where` hands to `Registry::update`. A record that has been scanned again
since it was planned is left alone. -/
def planTransform (outside : Outside ν) (companions : CompanionsHeld) (plans : Plans ν)
    (current : ServedRecord ν) : Option (ServedRecord ν) :=
  plans[current.id]?.bind fun (plannedFrom, plan) =>
    if IdentityInputs.of current ≠ plannedFrom then none
    else outside.engine.applied plan current outside.engine.liveAdapterIds companions

/-! ## What an update with such a transform leaves -/

omit [DecidableEq ν] in
/-- A plan is applied to the record in place: its id stays, and so does what the loader folds. -/
theorem afterPlan_id (engine : ResolutionEngine ν) (plan : ResolutionPlan ν)
    (current : ServedRecord ν) (live : List RuntimeId) (companions : CompanionsHeld) :
    (engine.afterPlan plan current live companions).id = current.id ∧
      (engine.afterPlan plan current live companions).legacyFootprintMb =
        current.legacyFootprintMb := by
  unfold ResolutionEngine.afterPlan
  split
  · exact ⟨rfl, rfl⟩
  · rw [ResolutionEngine.resolved_eq]
    exact ⟨rfl, rfl⟩

theorem planTransform_id {outside : Outside ν} {companions : CompanionsHeld} {plans : Plans ν}
    {current next : ServedRecord ν}
    (h : planTransform outside companions plans current = some next) :
    next.id = current.id ∧ next.legacyFootprintMb = current.legacyFootprintMb := by
  unfold planTransform at h
  obtain ⟨⟨plannedFrom, plan⟩, -, h⟩ := Option.bind_eq_some_iff.1 h
  obtain ⟨-, h⟩ := Option.ite_none_left_eq_some.1 h
  rw [ResolutionEngine.applied_eq_some _ _ _ h]
  exact afterPlan_id _ _ _ _ _

section Update

variable {δ : Type} {transform : ModelRecord δ → Option (ModelRecord δ)}

/-- A round of `update` whose transform keeps the id touches that id alone. -/
theorem getElem?_moved {models : Models δ} (hkeyed : KeyedById models)
    (hid : ∀ record next, transform record = some next → next.id = record.id) (id key : String) :
    (moved transform models id)[key]? =
      if key = id then (models[key]?).map fun record => (transform record).getD record
      else models[key]? := by
  unfold moved
  cases hrecord : models[id]? with
  | none =>
    simp only [Option.bind_none]
    split
    · rename_i heq
      rw [heq, hrecord]
      rfl
    · rfl
  | some record =>
    simp only [Option.bind_some]
    cases hnext : transform record with
    | none =>
      simp only
      split
      · rename_i heq
        rw [heq, hrecord, Option.map_some, hnext]
        rfl
      · rfl
    | some next =>
      simp only
      have hsame : next.id = id := (hid record next hnext).trans (hkeyed id record hrecord)
      rw [hsame, insert_erase, Std.ExtTreeMap.getElem?_insert]
      by_cases hkey : key = id
      · rw [if_pos hkey, hkey, if_pos Std.ReflCmp.compare_self, hrecord, Option.map_some, hnext]
        rfl
      · rw [if_neg hkey, if_neg fun heq => hkey (Std.LawfulEqCmp.eq_of_compare heq).symm]

/-- And all rounds, over ids that are named once, touch those ids, each once. -/
theorem getElem?_foldl_moved {models : Models δ} (hkeyed : KeyedById models)
    (hid : ∀ record next, transform record = some next → next.id = record.id) {ids : List String}
    (hnodup : ids.Nodup) (key : String) :
    (ids.foldl (moved transform) models)[key]? =
      if key ∈ ids then (models[key]?).map fun record => (transform record).getD record
      else models[key]? := by
  induction ids generalizing models with
  | nil => simp
  | cons id ids ih =>
    obtain ⟨hnot, hrest⟩ := List.nodup_cons.1 hnodup
    rw [List.foldl_cons, ih (hkeyed.moved transform id) hrest, getElem?_moved hkeyed hid]
    by_cases hkey : key = id
    · have hout : key ∉ ids := hkey ▸ hnot
      rw [if_neg hout, if_pos hkey, if_pos (hkey ▸ List.mem_cons_self)]
    · by_cases hmem : key ∈ ids
      · rw [if_pos hmem, if_neg hkey, if_pos (List.mem_cons_of_mem id hmem)]
      · have hout : key ∉ id :: ids := fun h => (List.mem_cons.1 h).elim hkey hmem
        rw [if_neg hmem, if_neg hkey, if_neg hout]

end Update

end Hedos.Auction
