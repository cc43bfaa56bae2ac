import Hedos.Discovery.KeepsSettings

/-!
# What a discovery run removes

A run unregisters the loose aliases it retired and the records `migrate_moved_config` took for the
old place of a model it found. The second goes by fingerprint and size among the records the scan
did not find, whether or not their own weights are still there, where `missing` is only marked
behind `weights_present`.

* `migrateMovedConfig_claims` says which records are taken so (`Sole`, `Fits`);
* `removes_only_gone_iff`: a run removes only what is gone exactly when none of these has its
  weights in place.
-/

namespace Hedos.Discovery

open Hedos.Kernel

variable {ν : Type}

/-! ## Which records are taken for moved -/

/-- Two records of one content, as far as fingerprint and size tell. -/
def SameContent (a b : Record ν) : Prop :=
  a.details.contentFingerprint.isSome ∧
    a.details.contentFingerprint = b.details.contentFingerprint ∧
    sameSize a.footprintBytes b.footprintBytes = true

/-- The candidate is the only one of its content. -/
structure Sole (candidates : List (Record ν)) (donor : Record ν) : Prop where
  mem : donor ∈ candidates
  only : ∀ other ∈ candidates, SameContent other donor → other = donor

/-- The record is found for the first time, with the content of the donor, and carries no setting
that conflicts with one of the donor. -/
structure Fits (newRecordIds : List String) (record donor : Record ν) : Prop where
  new : record.id ∈ newRecordIds
  content : SameContent record donor
  agrees : ¬ Conflict record donor

section Content

variable {a b c : Record ν}

theorem sameSize_iff {recorded scanned : Option ℤ} : sameSize recorded scanned = true ↔
    recorded.map (·.tdiv bytesPerMib) = scanned.map (·.tdiv bytesPerMib) := by
  unfold sameSize
  exact beq_iff_eq

theorem SameContent.symm (h : SameContent a b) : SameContent b a := by
  obtain ⟨hsome, hmark, hsize⟩ := h
  exact ⟨hmark ▸ hsome, hmark.symm, sameSize_iff.2 (sameSize_iff.1 hsize).symm⟩

theorem SameContent.trans (h : SameContent a b) (h' : SameContent b c) : SameContent a c := by
  obtain ⟨hsome, hmark, hsize⟩ := h
  obtain ⟨-, hmark', hsize'⟩ := h'
  exact ⟨hsome, hmark.trans hmark',
    sameSize_iff.2 ((sameSize_iff.1 hsize).trans (sameSize_iff.1 hsize'))⟩

end Content

section Migrate

variable [DecidableEq ν] {kept donor : Record ν} {newRecordIds : List String}
variable {candidates : List (Record ν)} {claimed : List (Record ν × String)} {record : Record ν}

theorem differ_eq_true {ours theirs : Option String} (h : differ ours theirs = true) :
    ∃ a b, ours = some a ∧ theirs = some b ∧ a ≠ b := by
  cases ours with
  | none => cases h
  | some a =>
    cases theirs with
    | none => cases h
    | some b => exact ⟨a, b, rfl, rfl, of_decide_eq_true h⟩

/-- A donor without a pin is taken unless a setting conflicts. -/
theorem absorb_isSome (hpin : pinned donor = false) (h : ¬ Conflict kept donor) :
    ∃ taken, absorb kept donor = some taken := by
  unfold absorb
  split
  · rename_i hrefused
    refine absurd ?_ h
    simp only [pinsConflict, pinWaits, hpin, Bool.and_false, Bool.false_and, Bool.or_false,
      Bool.or_eq_true] at hrefused
    rcases hrefused with (hparams | hprompt) | halias
    · obtain ⟨entry, hentry, hvalue⟩ := List.any_eq_true.1 hparams
      obtain ⟨ours, hours, hne⟩ := (Option.any_eq_true _ _).1 hvalue
      have htheirs := Std.ExtTreeMap.mem_toList_iff_getElem?_eq_some.1 hentry
      refine ⟨.param entry.1, .value ours, .value entry.2, ?_, ?_, fun heq => ?_⟩
      · exact congrArg (Option.map SettingValue.value) hours
      · exact congrArg (Option.map SettingValue.value) htheirs
      · exact of_decide_eq_true hne (SettingValue.value.inj heq)
    · obtain ⟨a, b, ha, hb, hne⟩ := differ_eq_true hprompt
      refine ⟨.systemPrompt, .text a, .text b, congrArg (Option.map SettingValue.text) ha,
        congrArg (Option.map SettingValue.text) hb, fun heq => ?_⟩
      exact hne (SettingValue.text.inj heq)
    · obtain ⟨a, b, ha, hb, hne⟩ := differ_eq_true halias
      refine ⟨.displayAlias, .text a, .text b, congrArg (Option.map SettingValue.text) ha,
        congrArg (Option.map SettingValue.text) hb, fun heq => ?_⟩
      exact hne (SettingValue.text.inj heq)
  · exact ⟨_, rfl⟩

omit [DecidableEq ν] in
theorem Conflict.of_runtime (runtime : RuntimeRef) :
    Conflict kept { donor with details := { donor.details with runtime } } ↔
      Conflict kept donor := by
  have hsame : ∀ key, setting { donor with details := { donor.details with runtime } } key =
      setting donor key := fun key => by cases key <;> rfl
  simp only [Conflict, hsame]

omit [DecidableEq ν] in
theorem mem_matches_iff {mark : String} (hmark : record.details.contentFingerprint = some mark)
    (ids : List String) (candidate : Record ν) :
    candidate ∈ candidates.filter (fun candidate =>
        decide (candidate.details.contentFingerprint = some mark) &&
          sameSize candidate.footprintBytes record.footprintBytes &&
          decide (candidate.id ∉ ids)) ↔
      candidate ∈ candidates ∧ SameContent candidate record ∧ candidate.id ∉ ids := by
  simp only [List.mem_filter, Bool.and_eq_true, decide_eq_true_eq, SameContent, hmark]
  constructor
  · rintro ⟨hmem, ⟨hfingerprint, hsize⟩, hfree⟩
    exact ⟨hmem, ⟨by rw [hfingerprint]; rfl, hfingerprint, hsize⟩, hfree⟩
  · rintro ⟨hmem, ⟨-, hfingerprint, hsize⟩, hfree⟩
    exact ⟨hmem, ⟨hfingerprint, hsize⟩, hfree⟩

omit [DecidableEq ν] in
/-- The sole candidate of its content is the orphan, unless it is claimed. -/
theorem orphanOf_of_sole (hids : (candidates.map ModelRecord.id).Nodup)
    (hsole : Sole candidates donor) (hcontent : SameContent record donor) {ids : List String}
    (hfree : donor.id ∉ ids) : orphanOf candidates ids record = some donor := by
  obtain ⟨mark, hmark⟩ := Option.isSome_iff_exists.1 hcontent.1
  unfold orphanOf
  rw [hmark]
  simp only
  have hiff := @mem_matches_iff ν candidates record mark hmark ids
  have hnodup := (List.Nodup.of_map _ hids).filter (fun candidate =>
    decide (candidate.details.contentFingerprint = some mark) &&
      sameSize candidate.footprintBytes record.footprintBytes && decide (candidate.id ∉ ids))
  generalize candidates.filter _ = matching at hiff hnodup
  have hmem := (hiff donor).2 ⟨hsole.mem, hcontent.symm, hfree⟩
  have hall : ∀ other ∈ matching, other = donor := by
    intro other hother
    obtain ⟨hcandidate, hother, -⟩ := (hiff other).1 hother
    exact hsole.only other hcandidate (hother.trans hcontent)
  have hreplicate := List.eq_replicate_of_mem hall
  rw [hreplicate] at hnodup hmem ⊢
  have hone : matching.length = 1 := by
    have hle := List.nodup_replicate.1 hnodup
    have hne : matching.length ≠ 0 := (List.mem_replicate.1 hmem).1
    omega
  rw [hone]
  rfl

omit [DecidableEq ν] in
/-- An orphan is the sole candidate of its content, if those claimed were. -/
theorem sole_of_orphanOf (hids : (candidates.map ModelRecord.id).Nodup)
    (hclaimed : ∀ entry ∈ claimed, Sole candidates entry.1)
    (h : orphanOf candidates (claimed.map fun entry => entry.1.id) record = some donor) :
    Sole candidates donor ∧ SameContent record donor := by
  unfold orphanOf at h
  split at h
  · cases h
  · rename_i mark hmark
    have hiff := @mem_matches_iff ν candidates record mark hmark
      (claimed.map fun entry => entry.1.id)
    generalize candidates.filter _ = matching at h hiff
    split at h
    · rename_i only
      obtain rfl := Option.some.inj h
      obtain ⟨hmem, hcontent, hfree⟩ := (hiff only).1 (.head _)
      refine ⟨⟨hmem, fun other hother hsame => ?_⟩, hcontent.symm⟩
      by_cases htaken : other.id ∈ claimed.map fun entry => entry.1.id
      · -- a claimed one is the only one of its content
        obtain ⟨entry, hentry, hid⟩ := List.mem_map.1 htaken
        have hsole := hclaimed entry hentry
        obtain rfl := List.inj_on_of_nodup_map hids hsole.mem hother hid
        exact (hsole.only only hmem hsame.symm).symm
      · exact List.mem_singleton.1 ((hiff other).2 ⟨hother, hsame.trans hcontent, htaken⟩)
    · cases h

/-- One record found for the first time takes the sole candidate of its content. -/
theorem migrateOne_claims (hids : (candidates.map ModelRecord.id).Nodup)
    (hclaimed : ∀ entry ∈ claimed, Sole candidates entry.1) :
    (∀ entry ∈ (migrateOne newRecordIds candidates claimed record).2, Sole candidates entry.1) ∧
      (donor ∈ (migrateOne newRecordIds candidates claimed record).2.map Prod.fst ↔
        donor ∈ claimed.map Prod.fst ∨ Sole candidates donor ∧ Fits newRecordIds record donor) := by
  -- a sole candidate that fits is claimed already, or is the orphan
  have hfits : Sole candidates donor → Fits newRecordIds record donor →
      donor ∈ claimed.map Prod.fst ∨
        orphanOf candidates (claimed.map fun entry => entry.1.id) record = some donor := by
    intro hsole hfits
    by_cases htaken : donor.id ∈ claimed.map fun entry => entry.1.id
    · obtain ⟨entry, hentry, hid⟩ := List.mem_map.1 htaken
      obtain rfl := List.inj_on_of_nodup_map hids (hclaimed entry hentry).mem hsole.mem hid
      exact .inl (List.mem_map_of_mem hentry)
    · exact .inr (orphanOf_of_sole hids hsole hfits.content htaken)
  have hkeeps : (¬ (Sole candidates donor ∧ Fits newRecordIds record donor) ∨
      donor ∈ claimed.map Prod.fst) →
      (donor ∈ claimed.map Prod.fst ↔
        donor ∈ claimed.map Prod.fst ∨ Sole candidates donor ∧ Fits newRecordIds record donor) := by
    tauto
  unfold migrateOne
  split
  · rename_i hnew
    split
    · rename_i hnone
      refine ⟨hclaimed, hkeeps ?_⟩
      by_contra hcontra
      push Not at hcontra
      obtain ⟨⟨hsole, hfit⟩, hfree⟩ := hcontra
      rcases hfits hsole hfit with htaken | horphan
      · exact hfree htaken
      · rw [hnone] at horphan
        cases horphan
    · rename_i orphan horphan
      obtain ⟨hsole, hcontent⟩ := sole_of_orphanOf hids hclaimed horphan
      split
      · rename_i taken htaken
        have hagrees : ¬ Conflict record orphan := fun hconflict =>
          absorb_not_conflict htaken ((Conflict.of_runtime {}).2 hconflict)
        constructor
        · intro entry hentry
          rcases List.mem_append.1 hentry with hentry | hentry
          · exact hclaimed entry hentry
          · rw [List.mem_singleton.1 hentry]
            exact hsole
        · rw [List.map_append, List.mem_append, List.map_singleton, List.mem_singleton]
          constructor
          · rintro (hold | rfl)
            · exact .inl hold
            · exact .inr ⟨hsole, hnew, hcontent, hagrees⟩
          · rintro (hold | ⟨hdonor, hfit⟩)
            · exact .inl hold
            · exact .inr (hsole.only donor hdonor.mem (hfit.content.symm.trans hcontent))
      · rename_i hrefused
        refine ⟨hclaimed, hkeeps (.inl ?_)⟩
        rintro ⟨hdonor, hfit⟩
        obtain rfl := hsole.only donor hdonor.mem (hfit.content.symm.trans hcontent)
        have hagrees : ¬ Conflict record
            { donor with details := { donor.details with runtime := {} } } :=
          fun hconflict => hfit.agrees ((Conflict.of_runtime {}).1 hconflict)
        obtain ⟨taken, htaken⟩ := absorb_isSome rfl hagrees
        rw [htaken] at hrefused
        cases hrefused
  · rename_i hold
    exact ⟨hclaimed, hkeeps (.inl fun h => hold h.2.new)⟩

/-- Taken for moved are the sole candidates that a record fits. -/
theorem migrateMovedConfig_claims (hids : (candidates.map ModelRecord.id).Nodup)
    (records : List (Record ν)) (hclaimed : ∀ entry ∈ claimed, Sole candidates entry.1) :
    donor ∈ (migrateMovedConfig newRecordIds candidates records claimed).2.map Prod.fst ↔
      donor ∈ claimed.map Prod.fst ∨
        Sole candidates donor ∧ ∃ record ∈ records, Fits newRecordIds record donor := by
  induction records generalizing claimed with
  | nil => simp [migrateMovedConfig]
  | cons record records ih =>
    obtain ⟨hnext, hone⟩ :=
      @migrateOne_claims ν _ donor newRecordIds candidates claimed record hids hclaimed
    simp only [migrateMovedConfig]
    rw [ih hnext, hone, or_assoc, List.exists_mem_cons_iff, and_or_left]

end Migrate

/-! ## What a pass moves away -/

variable [DecidableEq ν]

/-- The loop of `retire_aliases`, over what the scan found and the records that are gone. -/
def retiredBy (host : Host) (scanners : List StoreScanner) (existing : List (Record ν)) : Pass ν :=
  let found := foundBy host scanners existing
  retireAliases host found.seenIds existing (found.toRegister ++
    (existing.filter (vanished host (scannedKinds scanners) found.seenIds)).map stale)

/-- The records that a model found for the first time may have left behind: not found, no alias,
and marked missing or of a store that was scanned. -/
def missingCandidates (host : Host) (scanners : List StoreScanner) (existing : List (Record ν)) :
    List (Record ν) :=
  existing.filter fun record =>
    let pass := retiredBy host scanners existing
    decide (record.id ∉ (foundBy host scanners existing).seenIds) &&
      decide (record.id ∉ pass.absorbed.map fun entry => entry.1.id) &&
      decide (record.id ∉ pass.held) &&
      (decide (record.state = .missing) ||
        decide (record.details.source.kind ∈ scannedKinds scanners))

/-- The record was another path to a model the scan found, and what was set on it is there. -/
def Retired (host : Host) (scanners : List StoreScanner) (existing : List (Record ν))
    (record : Record ν) : Prop :=
  ∃ holder, (record, holder) ∈ (retiredBy host scanners existing).absorbed

/-- The record is the only candidate of its content, and a model of that content is found for the
first time and has no setting, taken from an alias, that conflicts. -/
def TakenForMoved (host : Host) (scanners : List StoreScanner) (existing : List (Record ν))
    (record : Record ν) : Prop :=
  Sole (missingCandidates host scanners existing) record ∧
    ∃ found ∈ (retiredBy host scanners existing).toRegister,
      Fits (foundBy host scanners existing).newRecordIds found record

section Pass

variable {host : Host} {scanners : List StoreScanner} {existing : List (Record ν)}

variable (host scanners existing) in
theorem passOver_absorbed : (passOver host scanners existing).absorbed =
    (retiredBy host scanners existing).absorbed ++
      (migrateMovedConfig (foundBy host scanners existing).newRecordIds
        (missingCandidates host scanners existing)
        (retiredBy host scanners existing).toRegister []).2 := rfl

/-- What a pass moves away was retired, or taken for moved. -/
theorem mem_migratedAway (hids : (existing.map ModelRecord.id).Nodup) {record : Record ν}
    (hrecord : record ∈ existing) :
    record.id ∈ (passOver host scanners existing).migratedAway ↔
      Retired host scanners existing record ∨ TakenForMoved host scanners existing record := by
  have hcandidates : ((missingCandidates host scanners existing).map ModelRecord.id).Nodup :=
    hids.sublist (List.filter_sublist.map _)
  have hclaims := @migrateMovedConfig_claims ν _ record
    (foundBy host scanners existing).newRecordIds (missingCandidates host scanners existing) []
    hcandidates (retiredBy host scanners existing).toRegister (fun _ h => nomatch h)
  rw [List.map_nil, or_iff_right List.not_mem_nil] at hclaims
  have hdonors := (passOver_passed host hids scanners).donors
  rw [Retired, TakenForMoved, ← hclaims, Pass.migratedAway, List.mem_map]
  constructor
  · rintro ⟨entry, hentry, hid⟩
    obtain rfl := List.inj_on_of_nodup_map hids (hdonors entry hentry).1 hrecord hid
    rw [passOver_absorbed] at hentry
    rcases List.mem_append.1 hentry with hretired | hmoved
    · exact .inl ⟨entry.2, hretired⟩
    · exact .inr (List.mem_map_of_mem hmoved)
  · rintro (⟨holder, hretired⟩ | hmoved)
    · refine ⟨(record, holder), ?_, rfl⟩
      rw [passOver_absorbed host scanners existing]
      exact List.mem_append_left _ hretired
    · obtain ⟨entry, hentry, rfl⟩ := List.mem_map.1 hmoved
      refine ⟨entry, ?_, rfl⟩
      rw [passOver_absorbed host scanners existing]
      exact List.mem_append_right _ hentry

/-- A record that is taken for moved was no alias. -/
theorem TakenForMoved.not_retired {record : Record ν}
    (h : TakenForMoved host scanners existing record) :
    ¬ Retired host scanners existing record := by
  rintro ⟨holder, hretired⟩
  have hfilter := (List.mem_filter.1 h.1.mem).2
  simp only [Bool.and_eq_true, decide_eq_true_eq] at hfilter
  exact hfilter.1.1.2 (List.mem_map.2 ⟨_, hretired, rfl⟩)

end Pass

/-! ## What a run unregisters -/

/-- The ids of `unregisterAll` whose calls return `Ok`. -/
def unregisteredFrom (surroundings : Surroundings ν) :
    ℕ → View (Details ν) → List String → List String
  | _, _, [] => []
  | n, view, id :: ids =>
    match call surroundings n view (.unregister id) with
    | (view, true) => id :: unregisteredFrom surroundings (n + 1) view ids
    | (_, false) => []

/-- The ids that a run unregisters. -/
def unregistered (host : Host) (surroundings : Surroundings ν) (scanners : List StoreScanner)
    (view : View (Details ν)) : List String :=
  let pass := passOver host scanners (listed host view.models)
  match call surroundings 0 view (.registerAll pass.keep) with
  | (view, true) => unregisteredFrom surroundings 1 view pass.migratedAway
  | (_, false) => []

/-- Whatever a run unregisters was retired into another record, or its weights are not on disk. -/
def RemovesOnlyGone (host : Host) (surroundings : Surroundings ν) (scanners : List StoreScanner)
    (view : View (Details ν)) : Prop :=
  ∀ id ∈ unregistered host surroundings scanners view, ∀ record, view.models[id]? = some record →
    Retired host scanners (listed host view.models) record ∨ weightsPresent host record = false

section Run

variable {host : Host} {surroundings : Surroundings ν} {scanners : List StoreScanner}
variable {view : View (Details ν)}

theorem unregisteredFrom_subset (ids : List String) {n : ℕ} {id : String}
    (h : id ∈ unregisteredFrom surroundings n view ids) : id ∈ ids := by
  induction ids generalizing n view with
  | nil => exact h
  | cons first ids ih =>
    rw [unregisteredFrom] at h
    split at h
    · rcases List.mem_cons.1 h with rfl | h
      · exact .head _
      · exact .tail _ (ih h)
    · cases h

theorem unregisteredFrom_all (ids : List String) {n : ℕ}
    (h : (unregisterAll surroundings n view ids).2 = true) :
    unregisteredFrom surroundings n view ids = ids := by
  induction ids generalizing n view with
  | nil => rfl
  | cons first ids ih =>
    rcases hcall : call surroundings n view (.unregister first) with ⟨after, served⟩
    rw [unregisterAll, hcall] at h
    rw [unregisteredFrom, hcall]
    cases served with
    | true => exact congrArg _ (ih h)
    | false => cases h

/-- A run unregisters among what its pass moves away, and all of it when it goes through. -/
theorem unregistered_migratedAway :
    (∀ id ∈ unregistered host surroundings scanners view,
        id ∈ (passOver host scanners (listed host view.models)).migratedAway) ∧
      ((discover host surroundings scanners view).2 = true →
        unregistered host surroundings scanners view =
          (passOver host scanners (listed host view.models)).migratedAway) := by
  unfold unregistered discover
  simp only
  generalize call surroundings 0 view _ = result
  obtain ⟨after, registered⟩ := result
  cases registered with
  | true => exact ⟨fun id hid => unregisteredFrom_subset _ hid, unregisteredFrom_all _⟩
  | false => exact ⟨fun id hid => absurd hid List.not_mem_nil, fun h => by cases h⟩

end Run

/-- A run removes only what is gone if no record that it takes for moved has its weights in place,
and a run that goes through removes only what is gone in no other case. -/
theorem removes_only_gone_iff (host : Host) (surroundings : Surroundings ν)
    (scanners : List StoreScanner) (view : View (Details ν)) (hkeyed : KeyedById view.models) :
    ((∀ record ∈ listed host view.models,
        TakenForMoved host scanners (listed host view.models) record →
          weightsPresent host record = false) →
      RemovesOnlyGone host surroundings scanners view) ∧
    ((discover host surroundings scanners view).2 = true →
      (RemovesOnlyGone host surroundings scanners view ↔
        ∀ record ∈ listed host view.models,
          TakenForMoved host scanners (listed host view.models) record →
            weightsPresent host record = false)) := by
  have hids := listed_nodup host hkeyed
  obtain ⟨hamong, hall⟩ := @unregistered_migratedAway ν _ host surroundings scanners view
  have hsafe : (∀ record ∈ listed host view.models,
      TakenForMoved host scanners (listed host view.models) record →
        weightsPresent host record = false) →
      RemovesOnlyGone host surroundings scanners view := by
    intro hgone id hid record hrecord
    have hsame : record.id = id := hkeyed id record hrecord
    have hlisted : record ∈ listed host view.models := by
      rw [mem_listed host hkeyed, hsame, hrecord]
    rcases (mem_migratedAway hids hlisted).1 (hsame ▸ hamong id hid) with hretired | hmoved
    · exact .inl hretired
    · exact .inr (hgone record hlisted hmoved)
  refine ⟨hsafe, fun hreturns => ⟨fun h record hlisted hmoved => ?_, hsafe⟩⟩
  have hid : record.id ∈ unregistered host surroundings scanners view := by
    rw [hall hreturns]
    exact (mem_migratedAway hids hlisted).2 (.inr hmoved)
  rcases h record.id hid record ((mem_listed host hkeyed record).1 hlisted) with hretired | hgone
  · exact absurd hretired hmoved.not_retired
  · exact hgone

/-- A run that removes the record of a model that did move. -/
theorem moved_model_removed :
    unregistered sampleHost calm [sampleScanner] movedView = ["a333a58e829d7ed5"] ∧
      RemovesOnlyGone sampleHost calm [sampleScanner] movedView := by
  refine ⟨by decide +kernel, (removes_only_gone_iff sampleHost calm [sampleScanner] movedView
    (load_sound (show load movedView.file = .ok (_, 0) from rfl)).1).1 fun record hrecord _ => ?_⟩
  have hgone : ∀ record ∈ listed sampleHost movedView.models,
      weightsPresent sampleHost record = false := by
    decide +kernel
  exact hgone record hrecord

/-! ## A copy -/

/-- `/m/b.gguf` is a copy of `/x/a.gguf`, which is still there. -/
def copyHost : Host where
  nowMillis := 1
  toLowercase := fun text => text
  disk :=
    { sampleHost.disk with
      metadata := fun path =>
        if path = [.rootDir, .normal "x", .normal "a.gguf"] then some ⟨(1, 1), true, 3, 1⟩
        else sampleHost.disk.metadata path
      symlinkMetadata := fun path =>
        if path = [.rootDir, .normal "x", .normal "a.gguf"] then some ⟨(1, 1), false⟩
        else sampleHost.disk.symlinkMetadata path
      readDir := fun path =>
        if path = [.rootDir, .normal "x"] then some ["a.gguf"] else sampleHost.disk.readDir path
      openRegular := fun path =>
        if path = [.rootDir, .normal "x", .normal "a.gguf"] then some [97, 98, 99]
        else sampleHost.disk.openRegular path
      sha256 := fun bytes =>
        if bytes[21]? = some 120 then
          [86, 214, 93, 108, 201, 94, 47, 160, 237, 241, 163, 248, 9, 167, 116, 189, 139, 48, 179,
            206, 47, 100, 63, 173, 6, 136, 142, 7, 20, 114, 58, 152]
        else sampleSha256 bytes }

/-- The model at `/x/a.gguf`, found there while `/x` was watched. -/
def copiedRecord : Record ℤ := foundRecord "56d65d6cc95e2fa0" "a" "/x/a.gguf" (some "nick")

def copiedView : View (Details ℤ) := viewOf copiedRecord

/-- The scan finds the copy alone; the record of the model that is in place is unregistered. -/
theorem copied_model_removed :
    weightsPresent copyHost copiedRecord = true ∧
      unregistered copyHost calm [sampleScanner] copiedView = ["56d65d6cc95e2fa0"] ∧
      ¬ RemovesOnlyGone copyHost calm [sampleScanner] copiedView := by
  have hpresent : weightsPresent copyHost copiedRecord = true := by decide +kernel
  have hremoved : unregistered copyHost calm [sampleScanner] copiedView = ["56d65d6cc95e2fa0"] := by
    decide +kernel
  refine ⟨hpresent, hremoved, fun h => ?_⟩
  have hrecord : copiedView.models["56d65d6cc95e2fa0"]? = some copiedRecord := by decide +kernel
  rcases h "56d65d6cc95e2fa0" (by rw [hremoved]; exact (.head _)) copiedRecord hrecord with
    ⟨holder, hretired⟩ | hgone
  · have hnone : (retiredBy copyHost [sampleScanner] (listed copyHost copiedView.models)).absorbed =
        [] := by
      decide +kernel
    rw [hnone] at hretired
    cases hretired
  · rw [hpresent] at hgone
    cases hgone

end Hedos.Discovery
