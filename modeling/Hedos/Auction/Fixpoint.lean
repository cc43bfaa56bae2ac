import Hedos.Auction.Engine

/-!
# Resolution settles

Applying a plan writes fields that the next plan reads: the runtime, which decides whether a
manifest's loan is taken back, the capabilities, which the tool fold and the profiles look at, and
the state. Each field is set by a function of the plan and of its old value that gives the same
again (`nextModality_idem` and so on), so with the same identification and bids the second
application finds nothing to change (`resolution_fixpoint`).
-/

namespace Hedos.Auction

open Hedos.Kernel Hedos.Discovery

variable {ν : Type}

/-! ## The fields after a plan -/

def nextRuntime (bids : List BidEntry) (previous : RuntimeRef) : RuntimeRef :=
  match bids with
  | [] => {}
  | winner :: others => winnerRef winner others previous

def nextState : List BidEntry → ModelState
  | [] => .unresolved
  | _ :: _ => .ready

def winnerId (bids : List BidEntry) : Option RuntimeId := bids.head?.map BidEntry.id

variable (bids : List BidEntry)

theorem applyWinner_eq (updated : ServedRecord ν) (previous : RuntimeRef) :
    applyWinner bids updated previous =
      { updated with
        state := nextState bids
        details := { updated.details with runtime := nextRuntime bids previous } } := by
  cases bids <;> rfl

@[simp] theorem nextRuntime_id (previous : RuntimeRef) :
    (nextRuntime bids previous).id = winnerId bids := by
  cases bids <;> rfl

theorem nextRuntime_idem (previous : RuntimeRef) :
    nextRuntime bids (nextRuntime bids previous) = nextRuntime bids previous := by
  cases bids with
  | nil => rfl
  | cons winner others => simp [nextRuntime, winnerRef]

/-! ### Tools -/

theorem conversational_add (capabilities : List Capability) :
    conversational (capabilities ++ [⟨"tools"⟩]) = conversational capabilities := by
  simp [conversational]

theorem conversational_remove (capabilities : List Capability) :
    conversational (capabilities.filter (· != ⟨"tools"⟩)) = conversational capabilities := by
  induction capabilities with
  | nil => rfl
  | cons capability capabilities ih =>
    by_cases htools : capability = ⟨"tools"⟩
    · subst htools
      rw [List.filter_cons_of_neg (by simp), ih]
      simp [conversational]
    · rw [List.filter_cons_of_pos (by simpa using htools)]
      simp only [conversational, List.any_cons] at ih ⊢
      rw [ih]

/-- The fold looks only at what it leaves alone and at what it has settled. -/
theorem foldToolCapability_idem (wires : Bool) (capable : Option Bool)
    (capabilities : List Capability) :
    foldToolCapability wires capable (foldToolCapability wires capable capabilities) =
      foldToolCapability wires capable capabilities := by
  by_cases hkeep : (conversational capabilities && wires && capable != some false) = true
  · by_cases htools : (capabilities.any (· == ⟨"tools"⟩)) = true
    · have hsame : foldToolCapability wires capable capabilities = capabilities := by
        simp only [foldToolCapability, hkeep, htools]
      rw [hsame, hsame]
    · rw [Bool.not_eq_true] at htools
      have hadd : foldToolCapability wires capable capabilities =
          capabilities ++ [⟨"tools"⟩] := by
        simp only [foldToolCapability, hkeep, htools]
      have hhas : ((capabilities ++ [(⟨"tools"⟩ : Capability)]).any (· == ⟨"tools"⟩)) = true := by
        simp
      rw [hadd]
      simp only [foldToolCapability, conversational_add, hkeep, hhas]
  · rw [Bool.not_eq_true] at hkeep
    by_cases htools : (capabilities.any (· == ⟨"tools"⟩)) = true
    · have hremove : foldToolCapability wires capable capabilities =
          capabilities.filter (· != ⟨"tools"⟩) := by
        simp only [foldToolCapability, hkeep, htools]
      have hhas : ((capabilities.filter (· != ⟨"tools"⟩)).any (· == ⟨"tools"⟩)) = false := by
        simp
      rw [hremove]
      simp only [foldToolCapability, conversational_remove, hkeep, hhas]
    · rw [Bool.not_eq_true] at htools
      have hsame : foldToolCapability wires capable capabilities = capabilities := by
        simp only [foldToolCapability, hkeep, htools]
      rw [hsame, hsame]

@[simp] theorem foldToolCapability_nil (wires : Bool) (capable : Option Bool) :
    foldToolCapability wires capable [] = [] := by
  cases wires <;> rfl

/-! ### What identification, a manifest and its withdrawal make of a field -/

section

variable (identified : IdentifiedModel ν) (manifest : Option (RuntimeManifest ν))

def nextModality (withdrawn : Bool) (old : Modality) : Modality :=
  identified.modality.getD
    (match manifest with
      | some manifest => manifest.modalities.head?.getD old
      | none => if withdrawn then .unknown else old)

/-- The capabilities of what was identified have the last word. -/
def overwrites : Bool :=
  readFromTheWeights identified || withheld identified || !identified.capabilities.isEmpty

def nextCapabilities (wires : Bool) (capable : Option Bool) (withdrawn : Bool)
    (old : List Capability) : List Capability :=
  let merged :=
    foldToolCapability wires capable
      (if overwrites identified then identified.capabilities else old)
  match manifest with
  | some manifest =>
    foldToolCapability wires capable
      (if identified.capabilities.isEmpty then manifest.capabilities else merged)
  | none => if withdrawn && identified.capabilities.isEmpty then [] else merged

/-- The parameters before the profiles are asked. -/
def lentParams (withdrawn : Bool) (old : List (ParamSpec ν)) : List (ParamSpec ν) :=
  if !identified.params.isEmpty then identified.params
  else
    match manifest with
    | some manifest => manifest.params
    | none => if withdrawn then [] else old

/-- The parameters are the manifest's own. -/
def lends : Bool :=
  match manifest with
  | some manifest => identified.params.isEmpty && !manifest.params.isEmpty
  | none => false

def nextExecution : ExecutionMode :=
  match manifest with
  | some manifest =>
    if identified.capabilities.isEmpty then manifest.execution else identified.execution
  | none => identified.execution

/-- A capability list that identification does not overwrite was not identified at all. -/
theorem capabilities_of_not_overwrites (h : overwrites identified = false) :
    identified.capabilities.isEmpty = true := by
  simp only [overwrites, Bool.or_eq_false_iff, Bool.not_eq_false'] at h
  exact h.2

theorem nextModality_idem (withdrawn : Bool) (old : Modality) :
    nextModality identified manifest false (nextModality identified manifest withdrawn old) =
      nextModality identified manifest withdrawn old := by
  unfold nextModality
  cases identified.modality with
  | some modality => rfl
  | none =>
    cases manifest with
    | none => rfl
    | some manifest =>
      simp only [Option.getD_none]
      cases manifest.modalities.head? <;> rfl

theorem nextCapabilities_idem (wires : Bool) (capable : Option Bool) (withdrawn : Bool)
    (old : List Capability) :
    nextCapabilities identified manifest wires capable false
        (nextCapabilities identified manifest wires capable withdrawn old) =
      nextCapabilities identified manifest wires capable withdrawn old := by
  unfold nextCapabilities
  cases hover : overwrites identified with
  | true =>
    cases manifest with
    | some manifest => rfl
    | none =>
      by_cases hempty : identified.capabilities = []
      · cases withdrawn <;> simp [hempty]
      · simp [hempty]
  | false =>
    have hempty := capabilities_of_not_overwrites identified hover
    cases manifest with
    | some manifest => simp [hempty]
    | none => cases withdrawn <;> simp [foldToolCapability_idem, hempty]

theorem lentParams_idem (withdrawn : Bool) (old : List (ParamSpec ν)) :
    lentParams identified manifest false (lentParams identified manifest withdrawn old) =
      lentParams identified manifest withdrawn old := by
  unfold lentParams
  cases identified.params.isEmpty with
  | false => rfl
  | true => cases manifest <;> rfl

end

/-! ## The record after a plan -/

/-- The manifest's loan field by field. -/
theorem backfill_eq (manifest : RuntimeManifest ν) (identified : IdentifiedModel ν)
    (updated : ServedRecord ν) :
    backfill manifest identified updated =
      ({ updated with details := { updated.details with
          modality :=
            if identified.modality.isNone then
              manifest.modalities.head?.getD updated.details.modality
            else updated.details.modality
          capabilities :=
            if identified.capabilities.isEmpty then manifest.capabilities
            else updated.details.capabilities
          execution :=
            if identified.capabilities.isEmpty then manifest.execution
            else updated.details.execution
          params :=
            if identified.params.isEmpty then manifest.params else updated.details.params } },
        identified.params.isEmpty && !manifest.params.isEmpty) := by
  unfold backfill
  cases identified.capabilities.isEmpty <;> cases identified.params.isEmpty <;> rfl

namespace ResolutionEngine

variable (engine : ResolutionEngine ν) (plan : ResolutionPlan ν) (companions : CompanionsHeld)

/-- The manifest runtime's companions but the record itself. -/
def nextCompanions (manifest : Option (RuntimeManifest ν)) (current : ServedRecord ν) :
    List Companion :=
  match manifest with
  | some _ => (((winnerId plan.bids).bind companions).getD []).filter fun companion =>
      !holdsHubRepo { current with state := nextState plan.bids } companion.repo
  | none => []

/-- Every field that a plan sets, as a function of the plan and of its old value. -/
def next (withdrawn : Bool) (current : ServedRecord ν) : ServedRecord ν :=
  let manifest := engine.winningManifest (winnerId plan.bids)
  let wires := engine.adapterWiresTools (winnerId plan.bids)
  { current with
    state := nextState plan.bids
    details := { current.details with
      runtime := nextRuntime plan.bids current.details.runtime
      modality := nextModality plan.identified manifest withdrawn current.details.modality
      capabilities := nextCapabilities plan.identified manifest wires
        current.details.supportsTools withdrawn current.details.capabilities
      params := lentParams plan.identified manifest withdrawn current.details.params
      contextLength := plan.identified.contextLength <|> current.details.contextLength
      hasChatTemplate := plan.identified.hasChatTemplate <|> current.details.hasChatTemplate
      quantization := plan.identified.quantization <|> current.details.quantization
      execution := nextExecution plan.identified manifest
      companions := nextCompanions plan companions manifest current } }

/-- The record loses a manifest runtime and gets no other. -/
def withdraws (live : List RuntimeId) (current : ServedRecord ν) : Bool :=
  (winnerId plan.bids).isNone && engine.wasHeldByAManifest current.details.runtime.id live

theorem withRuntime_eq (current : ServedRecord ν) (live : List RuntimeId) :
    engine.withRuntime plan current live companions =
      (engine.next plan companions (engine.withdraws plan live current) current,
        lends plan.identified (engine.winningManifest (winnerId plan.bids))) := by
  unfold withRuntime next withdraws
  rw [applyWinner_eq]
  simp only [merge, nextRuntime_id]
  cases hmanifest : engine.winningManifest (winnerId plan.bids) with
  | some manifest =>
    simp only [backfill_eq]
    have hmodality (withdrawn : Bool) (old : Modality) :
        (if plan.identified.modality.isNone then
          manifest.modalities.head?.getD (plan.identified.modality.getD old)
          else plan.identified.modality.getD old) =
            nextModality plan.identified (some manifest) withdrawn old := by
      unfold nextModality
      cases plan.identified.modality <;> rfl
    have hparams (withdrawn : Bool) (old : List (ParamSpec ν)) :
        (if plan.identified.params.isEmpty then manifest.params
          else if plan.identified.params.isEmpty then old else plan.identified.params) =
            lentParams plan.identified (some manifest) withdrawn old := by
      unfold lentParams
      cases plan.identified.params.isEmpty <;> rfl
    rw [hmodality (engine.withdraws plan live current),
      hparams (engine.withdraws plan live current), nextRuntime_id]
    rfl
  | none =>
    have hmodality (old : Modality) :
        (if plan.identified.modality.isNone then .unknown
          else plan.identified.modality.getD old) = nextModality plan.identified none true old := by
      unfold nextModality
      cases plan.identified.modality <;> rfl
    have hwithdrawn (old : List (ParamSpec ν)) :
        (if plan.identified.params.isEmpty then []
          else if plan.identified.params.isEmpty then old else plan.identified.params) =
            lentParams plan.identified none true old := by
      unfold lentParams
      cases plan.identified.params.isEmpty <;> rfl
    have hkept (old : List (ParamSpec ν)) :
        (if plan.identified.params.isEmpty then old else plan.identified.params) =
          lentParams plan.identified none false old := by
      unfold lentParams
      cases plan.identified.params.isEmpty <;> rfl
    cases (winnerId plan.bids).isNone &&
        engine.wasHeldByAManifest current.details.runtime.id live with
    | true =>
      simp only [withdrawBackfill, if_true]
      rw [hmodality, hwithdrawn]
      rfl
    | false =>
      simp only [Bool.false_eq_true, if_false]
      rw [hkept]
      rfl

/-- The parameters of the record after a plan. -/
def withParams (record : ServedRecord ν) (params : List (ParamSpec ν)) : ServedRecord ν :=
  { record with details := { record.details with params := params } }

/-- What a plan wrote it writes again, whatever the parameters are by then. -/
theorem next_next (withdrawn : Bool) (current : ServedRecord ν) (params : List (ParamSpec ν)) :
    engine.next plan companions false
        (withParams (engine.next plan companions withdrawn current) params) =
      withParams (engine.next plan companions withdrawn current)
        (lentParams plan.identified (engine.winningManifest (winnerId plan.bids)) false
          params) := by
  have horElse {α : Type} (a b : Option α) : (a <|> (a <|> b)) = (a <|> b) := by cases a <;> rfl
  have hcompanions : nextCompanions plan companions (engine.winningManifest (winnerId plan.bids))
      (withParams (engine.next plan companions withdrawn current) params) =
        nextCompanions plan companions (engine.winningManifest (winnerId plan.bids)) current := by
    unfold nextCompanions
    cases engine.winningManifest (winnerId plan.bids) <;> rfl
  unfold next at hcompanions ⊢
  simp only [withParams] at hcompanions ⊢
  rw [hcompanions, nextRuntime_idem, nextModality_idem, nextCapabilities_idem, horElse, horElse,
    horElse]

theorem withdraws_next (withdrawn : Bool) (current : ServedRecord ν)
    (params : List (ParamSpec ν)) (live : List RuntimeId) :
    engine.withdraws plan live
      (withParams (engine.next plan companions withdrawn current) params) = false := by
  unfold withdraws next withParams
  simp only [nextRuntime_id]
  cases winnerId plan.bids <;> rfl

/-- Whether the profiles have the last word on the parameters. -/
def refreshes : Bool :=
  plan.identified.params.isEmpty &&
    !lends plan.identified (engine.winningManifest (winnerId plan.bids))

def nextParams (updated : ServedRecord ν) : List (ParamSpec ν) :=
  if engine.refreshes plan then refreshedParams engine.numbers engine.profiles updated
  else updated.details.params

theorem resolved_eq (current : ServedRecord ν) (live : List RuntimeId) :
    engine.resolved plan current live companions =
      withParams (engine.next plan companions (engine.withdraws plan live current) current)
        (engine.nextParams plan
          (engine.next plan companions (engine.withdraws plan live current) current)) := by
  unfold resolved nextParams refreshes
  rw [withRuntime_eq]
  simp only
  split
  · rw [refreshed_eq]
    rfl
  · rfl

/-- The parameters are settled after one application. -/
theorem nextParams_settled (hsteady : Steady engine.profiles) (updated : ServedRecord ν)
    (old : List (ParamSpec ν)) (withdrawn : Bool)
    (hupdated : updated.details.params =
      lentParams plan.identified (engine.winningManifest (winnerId plan.bids)) withdrawn old) :
    engine.nextParams plan (withParams updated
        (lentParams plan.identified (engine.winningManifest (winnerId plan.bids)) false
          (engine.nextParams plan updated))) =
      engine.nextParams plan updated := by
  have hsame (params : List (ParamSpec ν)) : SameToProfiles updated (withParams updated params) :=
    ⟨rfl, rfl, rfl⟩
  unfold nextParams
  split
  · rename_i hrefreshes
    refine refreshedParams_idem engine.numbers hsteady (hsame _) ?_
    simp only [withParams]
    unfold refreshes at hrefreshes
    have hempty : plan.identified.params.isEmpty = true := (Bool.and_eq_true_iff.1 hrefreshes).1
    unfold lentParams at hupdated ⊢
    simp only [hempty, Bool.not_true, Bool.false_eq_true, if_false] at hupdated ⊢
    cases hmanifest : engine.winningManifest (winnerId plan.bids) with
    | some manifest =>
      rw [hmanifest] at hupdated
      exact .inl hupdated.symm
    | none => exact .inr rfl
  · simp only [withParams]
    rw [hupdated, lentParams_idem]

theorem resolved_idem (hsteady : Steady engine.profiles) (current : ServedRecord ν)
    (live : List RuntimeId) :
    engine.resolved plan (engine.resolved plan current live companions) live companions =
      engine.resolved plan current live companions := by
  rw [resolved_eq engine plan companions current live]
  rw [resolved_eq, withdraws_next, next_next]
  rw [nextParams_settled engine plan hsteady _ current.details.params
    (engine.withdraws plan live current) rfl]
  rfl

theorem afterPlan_idem (hsteady : Steady engine.profiles) (current : ServedRecord ν)
    (live : List RuntimeId) :
    engine.afterPlan plan (engine.afterPlan plan current live companions) live companions =
      engine.afterPlan plan current live companions := by
  cases hdownloading : current.details.downloading with
  | true =>
    have hfirst : engine.afterPlan plan current live companions = unresolved current :=
      if_pos hdownloading
    rw [hfirst]
    exact if_pos hdownloading
  | false =>
    have hnot : ¬ current.details.downloading = true := by simp [hdownloading]
    have hfirst : engine.afterPlan plan current live companions =
        engine.resolved plan current live companions := if_neg hnot
    have hstill : ¬ (engine.resolved plan current live companions).details.downloading = true := by
      rw [resolved_eq]
      exact hnot
    rw [hfirst]
    unfold afterPlan
    rw [if_neg hstill]
    exact engine.resolved_idem plan companions hsteady current live

/-- The same identification and the same bids make the same plan. -/
theorem plan_eq {record updated : ServedRecord ν} {plan plan' : ResolutionPlan ν}
    (hplan : engine.plan record = some plan) (hplan' : engine.plan updated = some plan')
    (hidentify : engine.identify updated = engine.identify record)
    (hbids : ∀ adapter ∈ engine.adapters, adapter.bid updated (engine.identify record) =
      adapter.bid record (engine.identify record)) : plan' = plan := by
  have hcollect : engine.collectBids updated (engine.identify record) =
      engine.collectBids record (engine.identify record) := by
    unfold collectBids
    congr 1
    exact List.filterMap_congr fun adapter hadapter => by rw [hbids adapter hadapter]
  unfold ResolutionEngine.plan at hplan hplan'
  simp only [Option.ite_none_left_eq_some, Option.some.injEq] at hplan hplan'
  rw [← hplan.2.2, ← hplan'.2.2, hidentify, hcollect]

variable [DecidableEq ν]

theorem applied_eq_some {current updated : ServedRecord ν} {live : List RuntimeId}
    (h : engine.applied plan current live companions = some updated) :
    updated = engine.afterPlan plan current live companions := by
  unfold applied at h
  simp only [Option.ite_none_left_eq_some, Option.ite_some_none_eq_some] at h
  exact h.2.2.2.symm

theorem applied_applied (hsteady : Steady engine.profiles) {current updated : ServedRecord ν}
    {live : List RuntimeId} (h : engine.applied plan current live companions = some updated) :
    engine.applied plan updated live companions = none := by
  have hsettled : engine.afterPlan plan updated live companions = updated := by
    rw [engine.applied_eq_some plan companions h]
    exact engine.afterPlan_idem plan companions hsteady current live
  unfold applied
  rw [hsettled]
  simp

end ResolutionEngine

/-- Once a record has been resolved, resolving it again changes nothing, as long as it is identified
the same and gets the same bids. -/
theorem resolution_fixpoint [DecidableEq ν] (numbers : Numbers ν)
    (adapters : List (RuntimeAdapter ν)) (identify : ServedRecord ν → IdentifiedModel ν)
    (companions : CompanionsHeld) (record : ServedRecord ν)
    (hidentify : identify
        (((ResolutionEngine.new numbers adapters identify).resolveRecord companions record).getD
          record) = identify record)
    (hbids : ∀ adapter ∈ adapters, adapter.bid
        (((ResolutionEngine.new numbers adapters identify).resolveRecord companions record).getD
          record) (identify record) = adapter.bid record (identify record)) :
    (ResolutionEngine.new numbers adapters identify).resolveRecord companions
      (((ResolutionEngine.new numbers adapters identify).resolveRecord companions record).getD
        record) = none := by
  set engine := ResolutionEngine.new numbers adapters identify with hengine
  cases hfirst : engine.resolveRecord companions record with
  | none => rwa [Option.getD_none]
  | some updated =>
    rw [hfirst, Option.getD_some] at hidentify hbids
    rw [Option.getD_some]
    obtain ⟨plan, hplan, happlied⟩ := Option.bind_eq_some_iff.1 hfirst
    unfold ResolutionEngine.resolveRecord
    cases hagain : engine.plan updated with
    | none => rfl
    | some plan' =>
      obtain rfl : plan' = plan := engine.plan_eq hplan hagain hidentify hbids
      exact engine.applied_applied plan' companions (steady_builtin numbers) happlied

/-! ## A record whose manifest runtime is gone -/

def rationals : Numbers ℚ where
  int := fun n => n
  double := id

/-- A model that nothing can be said of. -/
def unidentified : IdentifiedModel ℚ where
  format := .unknown
  modality := none
  capabilities := []
  execution := .sync

def parkedRecord : ServedRecord ℚ where
  id := "m"
  state := .ready
  footprintBytes := none
  legacyFootprintMb := none
  details := {
    name := "m"
    modality := ⟨"audio"⟩
    capabilities := [⟨"audio"⟩]
    source := { kind := .folder, path := "/m" }
    runtime := { id := some ⟨"community:song"⟩, resolved := .auto }
    params := [plain "lyrics" .string]
    registeredAt := 0 }

/-- The loan is taken back once. -/
theorem parked_fixpoint :
    (ResolutionEngine.new rationals [] fun _ => unidentified).resolveRecord (fun _ => none)
      (((ResolutionEngine.new rationals [] fun _ => unidentified).resolveRecord (fun _ => none)
        parkedRecord).getD parkedRecord) = none :=
  resolution_fixpoint rationals [] (fun _ => unidentified) (fun _ => none) parkedRecord rfl
    (fun _ hadapter => absurd hadapter List.not_mem_nil)

end Hedos.Auction
