import Hedos.Discovery.KeepsSettings

/-!
# Settings another process saved

`discover` decides from the view its registry loaded earlier and writes whole records under a
lock it takes only then. A setting that another process saved in between is overwritten unless
the run leaves the record alone or its view already carries the setting.
`discover_keeps_update_iff` says exactly when the setting survives.
-/

namespace Hedos.Discovery

open Hedos.Kernel

variable {ν : Type} [DecidableEq ν]

omit [DecidableEq ν] in
/-- The setting as the store holds it; the outer `none` is no such record. -/
def storedSetting (file : StoreFile (Details ν)) (id : String) (key : SettingKey) :
    Option (Option (SettingValue ν)) :=
  match load file with
  | .ok (models, _) => (models[id]?).map fun record => setting record key
  | .error _ => none

/-- The scan found the model, or noticed that its weights are gone. -/
def Rewritten (host : Host) (scanners : List StoreScanner) (view : View (Details ν))
    (id : String) : Prop :=
  (∃ model ∈ discovered scanners, id = stableId host model.source) ∨
    ∃ known, view.models[id]? = some known ∧ vanished host (scannedKinds scanners)
      (foundBy host scanners (listed host view.models)).seenIds known = true

/-- The record of the view under this id, and the records of the view folded into it. -/
def Source (host : Host) (scanners : List StoreScanner) (view : View (Details ν)) (id : String)
    (source : Record ν) : Prop :=
  view.models[id]? = some source ∨ (source, id) ∈ (runPass host scanners view).absorbed

/-- The view already carries the setting; a setting that was cleared is on none of its
sources. -/
def Carries (host : Host) (scanners : List StoreScanner) (view : View (Details ν)) (id : String)
    (key : SettingKey) : Option (SettingValue ν) → Prop
  | some value => ∃ source, Source host scanners view id source ∧ setting source key = some value
  | none => ∀ source, Source host scanners view id source → setting source key = none

/-- When a setting saved by another process survives the run. -/
def Survives (host : Host) (scanners : List StoreScanner) (view : View (Details ν)) (id : String)
    (key : SettingKey) (value : Option (SettingValue ν)) : Prop :=
  id ∉ (runPass host scanners view).migratedAway ∧
    (Rewritten host scanners view id → Carries host scanners view id key value)

variable {view : View (Details ν)}

/-- Two readings of one setting agree once they agree on what is set. -/
theorem eq_iff_carries {host : Host} {scanners : List StoreScanner}
    {id : String} {key : SettingKey} {held : Option (SettingValue ν)}
    (h : ∀ value, held = some value ↔
      ∃ source, Source host scanners view id source ∧ setting source key = some value)
    (value : Option (SettingValue ν)) :
    held = value ↔ Carries host scanners view id key value := by
  cases value with
  | some value => exact h value
  | none =>
    constructor
    · intro hnone source hsource
      cases hset : setting source key with
      | none => rfl
      | some value =>
        rw [(h value).2 ⟨source, hsource, hset⟩] at hnone
        cases hnone
    · intro hall
      cases hheld : held with
      | none => rfl
      | some value =>
        obtain ⟨source, hsource, hset⟩ := (h value).1 hheld
        rw [hall source hsource] at hset
        cases hset

/-- The record the pass writes for an id holds what its sources in the view hold. -/
theorem setting_kept (host : Host) (scanners : List StoreScanner) (hkeyed : KeyedById view.models)
    {record : Record ν} (hrecord : record ∈ (runPass host scanners view).toRegister)
    (key : SettingKey) (value : SettingValue ν) :
    setting record key = some value ↔
      ∃ source, Source host scanners view record.id source ∧ setting source key = some value := by
  have hids := listed_nodup host hkeyed
  have hpassed := passOver_passed host hids scanners
  change Passed host scanners _ (runPass host scanners view) at hpassed
  have hknown : ∀ source : Record ν, view.models[record.id]? = some source ↔
      source ∈ listed host view.models ∧ source.id = record.id := by
    intro source
    rw [mem_listed host hkeyed]
    constructor
    · intro h
      have hid := hkeyed _ _ h
      exact ⟨by rw [hid, h], hid⟩
    · rintro ⟨h, hid⟩
      rwa [hid] at h
  have hsources : (∃ source, Source host scanners view record.id source ∧
      setting source key = some value) ↔
      (∃ known ∈ listed host view.models, known.id = record.id ∧ setting known key = some value) ∨
        ∃ donor, (donor, record.id) ∈ (runPass host scanners view).absorbed ∧
          setting donor key = some value := by
    simp only [Source, hknown, or_and_right, exists_or, and_assoc]
  rw [hsources]
  rcases hpassed.written record hrecord with ⟨-, hsettings⟩ | ⟨known, hmem, hvanished, rfl⟩
  · exact hsettings key value
  · rw [setting_stale]
    constructor
    · exact fun hset => .inl ⟨known, hmem, rfl, hset⟩
    · rintro (⟨other, hother, hid, hset⟩ | ⟨donor, hdonor, -⟩)
      · rwa [List.inj_on_of_nodup_map hids hother hmem hid] at hset
      · -- no donor goes to a record that is gone
        obtain ⟨-, -, holder, -, hid, hseen, -⟩ := hpassed.donors _ hdonor
        have hsame : holder.id = known.id := hid
        exact absurd (hsame ▸ hseen) (vanished_unseen hvanished)

/-- The pass writes a record for the id exactly when it found the model or its weights gone. -/
theorem rewritten_iff (host : Host) (scanners : List StoreScanner)
    (hkeyed : KeyedById view.models) (id : String) :
    (∃ record ∈ (runPass host scanners view).toRegister, record.id = id) ↔
      Rewritten host scanners view id := by
  have hids := listed_nodup host hkeyed
  have hpassed := passOver_passed host hids scanners
  change Passed host scanners _ (runPass host scanners view) at hpassed
  have hseen := (reconcile_sound host hids (discovered scanners)).2 id
  change id ∈ (foundBy host scanners (listed host view.models)).seenIds ↔ _ at hseen
  unfold Rewritten
  rw [← hseen]
  constructor
  · rintro ⟨record, hrecord, rfl⟩
    rcases hpassed.written record hrecord with ⟨hfound, -⟩ | ⟨known, hknown, hvanished, rfl⟩
    · exact .inl hfound
    · exact .inr ⟨known, (mem_listed host hkeyed known).1 hknown, hvanished⟩
  · rintro (hfound | ⟨known, hknown, hvanished⟩)
    · exact hpassed.found id hfound
    · have hid := hkeyed id known hknown
      refine ⟨stale known, hpassed.gone known ?_ hvanished, hid⟩
      rw [mem_listed host hkeyed, hid, hknown]

/-- A setting that another process saved before the run takes the lock is there when the run
returns exactly when the run neither takes the record away as a donor nor writes it from a
view that does not carry the setting. -/
theorem discover_keeps_update_iff (host : Host) (surroundings : Surroundings ν)
    (scanners : List StoreScanner) (view : View (Details ν)) (hkeyed : KeyedById view.models)
    (id : String) (key : SettingKey) (value : Option (SettingValue ν))
    (hsaved : storedSetting (surroundings.before 0 view.file) id key = some value)
    (halone : surroundings.LeaveAlone 1 id)
    (hreturns : (discover host surroundings scanners view).2 = true) :
    storedSetting (discover host surroundings scanners view).1.file id key = some value ↔
      Survives host scanners view id key value := by
  unfold storedSetting at hsaved
  cases hload : load (surroundings.before 0 view.file) with
  | error e => simp [hload] at hsaved
  | ok stored =>
    obtain ⟨models, level⟩ := stored
    simp only [hload, Option.map_eq_some_iff] at hsaved
    obtain ⟨record, hrecord, hset⟩ := hsaved
    obtain ⟨models', level', hload', houtcome⟩ :=
      discover_stored host scanners hkeyed halone hload
    rw [hreturns] at houtcome
    have hregistered : (call surroundings 0 view
        (.registerAll (runPass host scanners view).keep)).2 = true := by
      by_contra hfailed
      rw [discover_eq, if_neg hfailed] at hreturns
      cases hreturns
    rw [hregistered, hrecord] at houtcome
    rw [storedSetting, hload']
    simp only
    by_cases haway : id ∈ (runPass host scanners view).migratedAway
    · rw [houtcome.gone rfl rfl haway]
      exact ⟨fun h => absurd h (by simp), fun h => absurd haway h.1⟩
    · by_cases hwritten : ∃ kept ∈ (runPass host scanners view).toRegister, kept.id = id
      · obtain ⟨kept, hkept, rfl⟩ := hwritten
        have hkeep : kept ∈ (runPass host scanners view).keep :=
          List.mem_filter.2 ⟨hkept, decide_eq_true haway⟩
        rw [houtcome.kept rfl kept hkeep rfl, Option.map_some, Option.some.injEq,
          setting_persisted, eq_iff_carries (setting_kept host scanners hkeyed hkept key) value]
        refine ⟨fun hcarries => ⟨haway, fun _ => hcarries⟩, fun hsurvives => hsurvives.2 ?_⟩
        exact (rewritten_iff host scanners hkeyed kept.id).1 ⟨kept, hkept, rfl⟩
      · have hother : ∀ kept ∈ (runPass host scanners view).keep, kept.id ≠ id :=
          fun kept hkeep hid => hwritten ⟨kept, (List.mem_filter.1 hkeep).1, hid⟩
        rw [houtcome.untouched hother haway, Option.map_some, hset]
        refine ⟨fun _ => ⟨haway, fun hrewritten => ?_⟩, fun _ => rfl⟩
        exact absurd ((rewritten_iff host scanners hkeyed id).2 hrewritten) hwritten

/-! ## A setting that is lost -/

/-- The model found at `/m/b.gguf` as an earlier run left it, with no alias. -/
def knownRecord : Record ℤ := foundRecord "fb9a7578960df0d3" "b" "/m/b.gguf" none

def knownView : View (Details ℤ) := viewOf knownRecord

/-- The alias the user gives the model. -/
def named (record : Record ℤ) : Option (Record ℤ) :=
  some { record with details := { record.details with displayAlias := some "nick" } }

/-- Another instance saves an alias before the run takes the lock. -/
def renamedMeanwhile : Surroundings ℤ where
  before := fun n file =>
    if n = 0 then
      (View.mutate ⟨⟨∅, 0, 0⟩, file⟩ (.update ["fb9a7578960df0d3"] named) true true).file
    else file
  locked := fun _ => true
  written := fun _ => true

/-- The run returns, and the alias that was in the store when it took the lock is gone. -/
theorem discover_loses_alias :
    storedSetting (renamedMeanwhile.before 0 knownView.file) "fb9a7578960df0d3" .displayAlias
        = some (some (.text "nick")) ∧
      (discover sampleHost renamedMeanwhile [sampleScanner] knownView).2 = true ∧
      storedSetting (discover sampleHost renamedMeanwhile [sampleScanner] knownView).1.file
        "fb9a7578960df0d3" .displayAlias = some none := by
  decide +kernel

/-- A view in which the model has the alias already. -/
def nickedRecord : Record ℤ :=
  { knownRecord with details := { knownRecord.details with displayAlias := some "nick" } }

def nickedView : View (Details ℤ) where
  registry := ⟨byId [nickedRecord], 0, 0⟩
  file := .envelope 1 0 [nickedRecord]

/-- A view that carries the alias: the run finds the model again and writes it with the alias. -/
theorem discover_keeps_update_scanned :
    storedSetting (discover sampleHost renamedMeanwhile [sampleScanner] nickedView).1.file
      "fb9a7578960df0d3" .displayAlias = some (some (.text "nick")) := by
  refine (discover_keeps_update_iff sampleHost renamedMeanwhile [sampleScanner] nickedView
    (load_sound (show load nickedView.file = .ok (_, 0) from rfl)).1
    "fb9a7578960df0d3" .displayAlias _
    (by decide +kernel) ?_ (by decide +kernel)).2 ⟨by decide +kernel, fun _ => ?_⟩
  · intro n hn file models level hload
    have hzero : n ≠ 0 := by omega
    exact ⟨models, level, by simp only [renamedMeanwhile, if_neg hzero, hload], rfl⟩
  · have hknown : nickedView.models["fb9a7578960df0d3"]? = some nickedRecord := by decide +kernel
    exact ⟨nickedRecord, .inl hknown, rfl⟩

end Hedos.Discovery
