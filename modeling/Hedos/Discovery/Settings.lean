import Hedos.Discovery.Service
import Hedos.Lib.Lists
import Mathlib.Data.List.Nodup

/-!
# User settings across a discovery pass

What a user set on a record (its parameter values, system prompt and alias) is read here as
one partial map, `setting`. `absorb` merges two such maps or refuses (`absorb_setting`), a pass
only ever extends the map of a record by those of its donors (`Extends`), and so what was set
on a record is afterwards on it or on the record that took it.
-/

namespace Hedos.Discovery

open Hedos.Kernel

variable {ν : Type}

/-! ## Settings -/

inductive SettingKey
  | displayAlias
  | systemPrompt
  | param (key : String)
deriving DecidableEq

inductive SettingValue (ν : Type)
  | text (text : String)
  | value (value : ν)
deriving DecidableEq

/-- What the user set on the record. -/
def setting (record : Record ν) : SettingKey → Option (SettingValue ν)
  | .displayAlias => record.details.displayAlias.map .text
  | .systemPrompt => record.details.systemPrompt.map .text
  | .param key => (record.details.paramValues[key]?).map .value

/-- Both are set, to different values. -/
def Conflict (kept donor : Record ν) : Prop :=
  ∃ key ours theirs, setting kept key = some ours ∧ setting donor key = some theirs ∧ ours ≠ theirs

/-- Every setting of `record` is on `holder`. -/
def Holds (holder record : Record ν) : Prop :=
  ∀ key value, setting record key = some value → setting holder key = some value

variable {record donor : Record ν} {key : String} {value : ν} {donors : List (Record ν × String)}

variable (entries : List (String × ν))

theorem foldl_insertIfNew_keeps (values : Std.ExtTreeMap String ν) (h : values[key]? = some value) :
    (entries.foldl (fun values entry => values.insertIfNew entry.1 entry.2) values)[key]?
      = some value := by
  induction entries generalizing values with
  | nil => exact h
  | cons entry entries ih =>
    apply ih
    rw [Std.ExtTreeMap.getElem?_insertIfNew]
    split
    · rename_i hnew
      have hmem : key ∈ values := by
        rw [Std.ExtTreeMap.mem_iff_isSome_getElem?, h]
        rfl
      rw [Std.LawfulEqCmp.eq_of_compare hnew.1] at hnew
      exact absurd hmem hnew.2
    · exact h

theorem mem_of_foldl_insertIfNew (values : Std.ExtTreeMap String ν)
    (h : (entries.foldl (fun values entry => values.insertIfNew entry.1 entry.2) values)[key]?
      = some value) : values[key]? = some value ∨ (key, value) ∈ entries := by
  induction entries generalizing values with
  | nil => exact .inl h
  | cons entry entries ih =>
    rcases ih _ h with hold | hmem
    · rw [Std.ExtTreeMap.getElem?_insertIfNew] at hold
      split at hold
      · rename_i hnew
        rw [← Std.LawfulEqCmp.eq_of_compare hnew.1, ← Option.some.inj hold]
        exact .inr (.head _)
      · exact .inl hold
    · exact .inr (.tail _ hmem)

theorem foldl_insertIfNew_isSome (values : Std.ExtTreeMap String ν) (h : (key, value) ∈ entries) :
    ((entries.foldl (fun values entry => values.insertIfNew entry.1 entry.2) values)[key]?).isSome
      := by
  induction entries generalizing values with
  | nil => nomatch h
  | cons entry entries ih =>
    cases h with
    | tail _ h => exact ih _ h
    | head =>
      have hset : ((values.insertIfNew key value)[key]?).isSome := by
        rw [Std.ExtTreeMap.getElem?_insertIfNew]
        split
        · rfl
        · rename_i hold
          have hmem : key ∈ values := by
            by_contra hfree
            exact hold ⟨Std.ReflCmp.compare_self, hfree⟩
          rwa [Std.ExtTreeMap.mem_iff_isSome_getElem?] at hmem
      obtain ⟨held, hheld⟩ := Option.isSome_iff_exists.1 hset
      rw [List.foldl_cons, foldl_insertIfNew_keeps entries _ hheld]
      rfl

section Absorb

variable [DecidableEq ν] {kept donor taken : Record ν}

theorem differ_eq_false {ours theirs : Option String} (h : differ ours theirs = false)
    {a b : String} (ha : ours = some a) (hb : theirs = some b) : a = b := by
  rw [ha, hb] at h
  simpa [differ] using h

/-- What `absorb` refuses for: settings that differ, or a pin. -/
theorem absorb_eq_some (h : absorb kept donor = some taken) :
    (∀ (key : String) (ours theirs : ν), kept.details.paramValues[key]? = some ours →
      donor.details.paramValues[key]? = some theirs → ours = theirs) ∧
    differ kept.details.systemPrompt donor.details.systemPrompt = false ∧
    differ kept.details.displayAlias donor.details.displayAlias = false := by
  unfold absorb at h
  split at h
  · cases h
  · rename_i hfree
    simp only [Bool.or_eq_true, not_or, Bool.not_eq_true] at hfree
    refine ⟨?_, hfree.1.2, hfree.2⟩
    intro key ours theirs hours htheirs
    have hparams := hfree.1.1.1.1
    rw [paramsConflict, List.any_eq_false] at hparams
    have hentry := hparams (key, theirs) (Std.ExtTreeMap.mem_toList_iff_getElem?_eq_some.2 htheirs)
    simpa [hours] using hentry

theorem absorb_not_conflict (h : absorb kept donor = some taken) : ¬ Conflict kept donor := by
  obtain ⟨hparams, hprompt, halias⟩ := absorb_eq_some h
  rintro ⟨key, ours, theirs, hours, htheirs, hne⟩
  cases key with
  | displayAlias =>
    obtain ⟨a, ha, rfl⟩ := Option.map_eq_some_iff.1 hours
    obtain ⟨b, hb, rfl⟩ := Option.map_eq_some_iff.1 htheirs
    exact hne (by rw [differ_eq_false halias ha hb])
  | systemPrompt =>
    obtain ⟨a, ha, rfl⟩ := Option.map_eq_some_iff.1 hours
    obtain ⟨b, hb, rfl⟩ := Option.map_eq_some_iff.1 htheirs
    exact hne (by rw [differ_eq_false hprompt ha hb])
  | param key =>
    obtain ⟨a, ha, rfl⟩ := Option.map_eq_some_iff.1 hours
    obtain ⟨b, hb, rfl⟩ := Option.map_eq_some_iff.1 htheirs
    exact hne (by rw [hparams key a b ha hb])

theorem orElse_eq_some_of_agree {α : Type} {ours theirs : Option α}
    (hagree : ∀ a b, ours = some a → theirs = some b → a = b) (value : α) :
    (ours <|> theirs) = some value ↔ ours = some value ∨ theirs = some value := by
  cases ours with
  | none => simp
  | some a =>
    cases theirs with
    | none => simp
    | some b => simp [hagree a b rfl rfl]

/-- A record that took a donor holds exactly what either held. -/
theorem absorb_setting (h : absorb kept donor = some taken) (key : SettingKey)
    (value : SettingValue ν) :
    setting taken key = some value ↔
      setting kept key = some value ∨ setting donor key = some value := by
  obtain ⟨hparams, hprompt, halias⟩ := absorb_eq_some h
  unfold absorb at h
  split at h
  · cases h
  cases h
  cases key with
  | displayAlias =>
    simp only [setting]
    have hor := orElse_eq_some_of_agree fun a b ha hb => differ_eq_false halias ha hb
    simp only [Option.map_eq_some_iff, hor, or_and_right, exists_or]
  | systemPrompt =>
    simp only [setting]
    have hor := orElse_eq_some_of_agree fun a b ha hb => differ_eq_false hprompt ha hb
    simp only [Option.map_eq_some_iff, hor, or_and_right, exists_or]
  | param key =>
    simp only [setting, Option.map_eq_some_iff, ← exists_or, ← or_and_right]
    refine exists_congr fun v => and_congr_left fun _ => ?_
    constructor
    · intro hv
      refine (mem_of_foldl_insertIfNew _ _ hv).imp_right fun hmem => ?_
      exact Std.ExtTreeMap.mem_toList_iff_getElem?_eq_some.1 hmem
    · rintro (hkept | hdonor)
      · exact foldl_insertIfNew_keeps _ _ hkept
      · -- what is there for the key is the donor's, or agrees with it
        have hmem := Std.ExtTreeMap.mem_toList_iff_getElem?_eq_some.2 hdonor
        obtain ⟨held, hheld⟩ := Option.isSome_iff_exists.1
          (foldl_insertIfNew_isSome _ kept.details.paramValues hmem)
        rcases mem_of_foldl_insertIfNew _ _ hheld with hkept | hentry
        · rw [hheld, hparams key held v hkept hdonor]
        · rw [hheld, ← hdonor]
          exact (Std.ExtTreeMap.mem_toList_iff_getElem?_eq_some.1 hentry).symm

/-- Nothing else by which a record is known changes. -/
theorem absorb_frame (h : absorb kept donor = some taken) :
    taken.id = kept.id ∧ taken.footprintBytes = kept.footprintBytes ∧
      taken.details.source = kept.details.source ∧
      taken.details.contentFingerprint = kept.details.contentFingerprint := by
  unfold absorb at h
  split at h
  · cases h
  · cases h
    exact ⟨rfl, rfl, rfl, rfl⟩

end Absorb

/-! ## Records extended by their donors -/

/-- `record` is `base` with the settings of the donors it took. -/
structure Extends (donors : List (Record ν × String)) (base record : Record ν) : Prop where
  id : record.id = base.id
  footprint : record.footprintBytes = base.footprintBytes
  source : record.details.source = base.details.source
  fingerprint : record.details.contentFingerprint = base.details.contentFingerprint
  setting : ∀ key value, setting record key = some value ↔
    setting base key = some value ∨
      ∃ donor, (donor, base.id) ∈ donors ∧ setting donor key = some value
  alone : (∀ donor, (donor, base.id) ∉ donors) → record = base

theorem Extends.refl (base : Record ν) : Extends [] base base where
  id := rfl
  footprint := rfl
  source := rfl
  fingerprint := rfl
  setting := by simp
  alone := fun _ => rfl

/-- Only the donors of the record itself count. -/
theorem Extends.congr {donors' : List (Record ν × String)} {base : Record ν}
    (h : Extends donors base record)
    (hsame : ∀ donor, (donor, base.id) ∈ donors' ↔ (donor, base.id) ∈ donors) :
    Extends donors' base record where
  id := h.id
  footprint := h.footprint
  source := h.source
  fingerprint := h.fingerprint
  setting := by
    intro key value
    simp only [h.setting, hsame]
  alone := fun hnone => h.alone fun donor hmem => hnone donor ((hsame donor).2 hmem)

/-- Extended by some donors and then by more. -/
theorem Extends.trans {more : List (Record ν × String)} {base middle : Record ν}
    (h : Extends donors base middle) (h' : Extends more middle record) :
    Extends (donors ++ more) base record where
  id := h'.id.trans h.id
  footprint := h'.footprint.trans h.footprint
  source := h'.source.trans h.source
  fingerprint := h'.fingerprint.trans h.fingerprint
  setting := by
    intro key value
    rw [h'.setting, h.setting, h.id, or_assoc, ← exists_or]
    simp only [List.mem_append, or_and_right]
  alone := by
    intro hnone
    have hmiddle := h.alone fun donor hmem => hnone donor (List.mem_append_left _ hmem)
    rw [← hmiddle]
    refine h'.alone fun donor hmem => hnone donor (List.mem_append_right _ ?_)
    rwa [h.id] at hmem

variable [DecidableEq ν]

/-- Taking one more donor extends by it. A donor may come with a runtime of its own. -/
theorem Extends.absorb {kept given taken : Record ν} (h : Discovery.absorb kept given = some taken)
    (hgiven : ∀ key, Discovery.setting given key = Discovery.setting donor key) :
    Extends [(donor, kept.id)] kept taken := by
  obtain ⟨hid, hfootprint, hsource, hfingerprint⟩ := absorb_frame h
  refine ⟨hid, hfootprint, hsource, hfingerprint, fun key value => ?_, fun hnone => ?_⟩
  · rw [absorb_setting h, hgiven]
    simp
  · exact absurd (.head _) (hnone donor)

/-! ## The loops of a pass -/

variable (host : Host)

/-- A record that may take the donor: found by the scan, it is the same file by another path,
or new with the content of the donor. -/
def Claims (found : Reconciled ν) (holder donor : Record ν) : Prop :=
  samePlace host found.seenIds donor holder = true ∨
    (holder.id ∈ found.newRecordIds ∧ holder.details.contentFingerprint.isSome ∧
      donor.details.contentFingerprint = holder.details.contentFingerprint ∧
      sameSize donor.footprintBytes holder.footprintBytes = true)

omit [DecidableEq ν] in
/-- A record may take a donor by what a donor never changes of it. -/
theorem Claims.congr {host : Host} {found : Reconciled ν} {base : Record ν}
    (h : Claims host found base donor)
    (hextends : Extends donors base record) : Claims host found record donor := by
  unfold Claims samePlace at h ⊢
  rwa [hextends.id, hextends.source, hextends.fingerprint, hextends.footprint]

/-- The donors of a pass over `existing`: known records, not found by the scan, each taken by
one that may. -/
def DonorsFrom (found : Reconciled ν) (existing base : List (Record ν))
    (donors : List (Record ν × String)) : Prop :=
  ∀ entry ∈ donors, entry.1 ∈ existing ∧ entry.1.id ∉ found.seenIds ∧
    ∃ holder ∈ base, holder.id = entry.2 ∧ Claims host found holder entry.1

variable {host} {found : Reconciled ν} {existing base : List (Record ν)}

omit [DecidableEq ν] in
theorem index_eq_of_id (hnodup : (base.map ModelRecord.id).Nodup) {i j : ℕ} {a b : Record ν}
    (ha : base[i]? = some a) (hb : base[j]? = some b) (hid : a.id = b.id) : i = j := by
  have hi : i < (base.map ModelRecord.id).length := by
    rw [List.length_map]
    exact (List.getElem?_eq_some_iff.1 ha).1
  refine (List.getElem?_inj hi hnodup).1 ?_
  rw [List.getElem?_map, List.getElem?_map, ha, hb, Option.map_some, Option.map_some, hid]

/-- One alias, tried against the record found in its place. -/
theorem retireAlias_extends (hnodup : (base.map ModelRecord.id).Nodup) {pass : Pass ν}
    (hdonor : donor ∈ existing)
    (hextends : List.Forall₂ (Extends pass.absorbed) base pass.toRegister)
    (hdonors : DonorsFrom host found existing base pass.absorbed) :
    List.Forall₂ (Extends (retireAlias host found.seenIds pass donor).absorbed) base
        (retireAlias host found.seenIds pass donor).toRegister ∧
      DonorsFrom host found existing base (retireAlias host found.seenIds pass donor).absorbed := by
  unfold retireAlias
  split
  · rename_i hloose
    split
    · exact ⟨hextends, hdonors⟩
    · rename_i index hindex
      split
      · exact ⟨hextends, hdonors⟩
      · rename_i kept hkept
        have hplace : samePlace host found.seenIds donor kept = true := by
          obtain ⟨hlt, hp, -⟩ := List.findIdx?_eq_some_iff_getElem.1 hindex
          rw [List.getElem?_eq_getElem hlt, Option.some.injEq] at hkept
          rwa [hkept] at hp
        obtain ⟨first, hfirst, hkin⟩ := Lists.forall₂_getElem? hextends hkept
        split
        · rename_i taken htaken
          constructor
          · refine Lists.forall₂_set hextends hkept ?_ ?_
            · intro record _ hrecord
              exact hrecord.trans (Extends.absorb htaken fun _ => rfl)
            · intro j record other hj hrecord _ hrelated
              refine hrelated.congr fun giver => ?_
              rw [List.mem_append, or_iff_left]
              -- two records of one id stand at one place
              intro hentry
              rw [List.mem_singleton, Prod.mk.injEq, hkin.id] at hentry
              exact hj (index_eq_of_id hnodup hrecord hfirst hentry.2)
          · intro entry hentry
            rcases List.mem_append.1 hentry with hentry | hentry
            · exact hdonors entry hentry
            · rw [List.mem_singleton.1 hentry]
              refine ⟨hdonor, hloose.2.1, first, List.mem_of_getElem? hfirst, hkin.id.symm, ?_⟩
              refine Or.inl ?_
              simpa only [samePlace, hkin.id, hkin.source] using hplace
        · exact ⟨hextends, hdonors⟩
  · exact ⟨hextends, hdonors⟩

variable (host found existing) in
theorem retireAliases_extends (hnodup : (base.map ModelRecord.id).Nodup) :
    List.Forall₂ (Extends (retireAliases host found.seenIds existing base).absorbed) base
        (retireAliases host found.seenIds existing base).toRegister ∧
      DonorsFrom host found existing base
        (retireAliases host found.seenIds existing base).absorbed := by
  -- over the aliases tried so far
  suffices h : ∀ (donors : List (Record ν)) (pass : Pass ν), donors ⊆ existing →
      List.Forall₂ (Extends pass.absorbed) base pass.toRegister →
      DonorsFrom host found existing base pass.absorbed →
      List.Forall₂ (Extends (donors.foldl (retireAlias host found.seenIds) pass).absorbed) base
          (donors.foldl (retireAlias host found.seenIds) pass).toRegister ∧
        DonorsFrom host found existing base
          (donors.foldl (retireAlias host found.seenIds) pass).absorbed by
    refine h existing { toRegister := base } (List.Subset.refl _) ?_
      (fun _ hentry => nomatch hentry)
    exact List.forall₂_same.2 fun record _ => Extends.refl record
  intro donors
  induction donors with
  | nil => exact fun pass _ hextends hdonors => ⟨hextends, hdonors⟩
  | cons donor donors ih =>
    intro pass hsub hextends hdonors
    obtain ⟨hdonor, hrest⟩ := List.cons_subset.1 hsub
    obtain ⟨hextends', hdonors'⟩ := retireAlias_extends hnodup hdonor hextends hdonors
    exact ih _ hrest hextends' hdonors'

omit [DecidableEq ν] in
theorem orphanOf_eq_some {candidates : List (Record ν)} {claimed : List String}
    {orphan : Record ν} (h : orphanOf candidates claimed record = some orphan) :
    orphan ∈ candidates ∧ record.details.contentFingerprint.isSome ∧
      orphan.details.contentFingerprint = record.details.contentFingerprint ∧
      sameSize orphan.footprintBytes record.footprintBytes = true := by
  unfold orphanOf at h
  split at h
  · cases h
  · rename_i mark hmark
    split at h
    · rename_i only honly
      obtain rfl := Option.some.inj h
      have hmem := List.mem_filter.1 (honly ▸ List.mem_singleton_self only)
      simp only [Bool.and_eq_true, decide_eq_true_eq] at hmem
      exact ⟨hmem.1, by rw [hmark]; rfl, by rw [hmark]; exact hmem.2.1.1, hmem.2.1.2⟩
    · cases h

/-- A moved model: the record found in its place takes its config. -/
theorem migrateOne_extends (newRecordIds : List String) (candidates : List (Record ν))
    (claimed : List (Record ν × String)) (record : Record ν) :
    ∃ own, (migrateOne newRecordIds candidates claimed record).2 = claimed ++ own ∧
      Extends own record (migrateOne newRecordIds candidates claimed record).1 ∧
      ∀ entry ∈ own, entry.1 ∈ candidates ∧ record.id = entry.2 ∧
        record.id ∈ newRecordIds ∧ record.details.contentFingerprint.isSome ∧
        entry.1.details.contentFingerprint = record.details.contentFingerprint ∧
        sameSize entry.1.footprintBytes record.footprintBytes = true := by
  have hstays : ∃ own, claimed = claimed ++ own ∧ Extends own record record ∧
      ∀ entry ∈ own, entry.1 ∈ candidates ∧ record.id = entry.2 ∧
        record.id ∈ newRecordIds ∧ record.details.contentFingerprint.isSome ∧
        entry.1.details.contentFingerprint = record.details.contentFingerprint ∧
        sameSize entry.1.footprintBytes record.footprintBytes = true :=
    ⟨[], (List.append_nil claimed).symm, Extends.refl record, fun _ h => nomatch h⟩
  unfold migrateOne
  split
  · rename_i hnew
    split
    · exact hstays
    · rename_i orphan horphan
      split
      · rename_i taken htaken
        obtain ⟨hmem, hsome, hmark, hsize⟩ := orphanOf_eq_some horphan
        have hextends : Extends [(orphan, record.id)] record taken :=
          Extends.absorb htaken fun key => by cases key <;> rfl
        refine ⟨_, rfl, hextends, fun entry hentry => ?_⟩
        rw [List.mem_singleton.1 hentry]
        exact ⟨hmem, rfl, hnew, hsome, hmark, hsize⟩
      · exact hstays
  · exact hstays

theorem migrateMovedConfig_extends (newRecordIds : List String) (candidates : List (Record ν))
    (records : List (Record ν)) (claimed : List (Record ν × String))
    (hnodup : (records.map ModelRecord.id).Nodup) :
    ∃ more, (migrateMovedConfig newRecordIds candidates records claimed).2 = claimed ++ more ∧
      List.Forall₂ (Extends more) records
        (migrateMovedConfig newRecordIds candidates records claimed).1 ∧
      ∀ entry ∈ more, entry.1 ∈ candidates ∧ ∃ holder ∈ records, holder.id = entry.2 ∧
        holder.id ∈ newRecordIds ∧ holder.details.contentFingerprint.isSome ∧
        entry.1.details.contentFingerprint = holder.details.contentFingerprint ∧
        sameSize entry.1.footprintBytes holder.footprintBytes = true := by
  induction records generalizing claimed with
  | nil => exact ⟨[], by simp [migrateMovedConfig], List.Forall₂.nil, fun _ h => nomatch h⟩
  | cons record rest ih =>
    rw [List.map_cons, List.nodup_cons] at hnodup
    obtain ⟨hfresh, hnodup⟩ := hnodup
    obtain ⟨own, hown, hextends, hentries⟩ :=
      migrateOne_extends newRecordIds candidates claimed record
    obtain ⟨more, hmore, hrest, hlater⟩ := ih (claimed ++ own) hnodup
    simp only [migrateMovedConfig]
    rw [hown]
    refine ⟨own ++ more, by rw [hmore, List.append_assoc], List.Forall₂.cons ?_ ?_, ?_⟩
    · refine hextends.congr fun donor => ?_
      rw [List.mem_append, or_iff_left]
      intro hentry
      obtain ⟨-, holder, hholder, hid, -⟩ := hlater _ hentry
      exact hfresh (List.mem_map.2 ⟨holder, hholder, hid⟩)
    · refine Lists.forall₂_imp_of_mem hrest fun other hother _ hrelated => ?_
      refine hrelated.congr fun donor => ?_
      rw [List.mem_append, or_iff_right]
      intro hentry
      obtain ⟨-, hid, -⟩ := hentries _ hentry
      exact hfresh (List.mem_map.2 ⟨other, hother, hid.symm⟩)
    · intro entry hentry
      rcases List.mem_append.1 hentry with hentry | hentry
      · obtain ⟨hmem, hid, hrecord⟩ := hentries entry hentry
        exact ⟨hmem, record, .head _, hid, hrecord⟩
      · obtain ⟨hmem, holder, hholder, hholds⟩ := hlater entry hentry
        exact ⟨hmem, holder, .tail _ hholder, hholds⟩

/-! ## What a pass comes to -/

/-- The loop over the found models: a record for each id, with the settings the known record
of that id has. -/
structure Reconciled.Sound (existing : List (Record ν)) (acc : Reconciled ν) : Prop where
  ids : acc.toRegister.map ModelRecord.id = acc.seenIds
  nodup : acc.seenIds.Nodup
  new : acc.newRecordIds ⊆ acc.seenIds
  settings : ∀ record ∈ acc.toRegister, ∀ key value,
    setting record key = some value ↔
      ∃ known ∈ existing, known.id = record.id ∧ setting known key = some value

variable (host) in
omit [DecidableEq ν] in
theorem reconcileOne_sound (hids : (existing.map ModelRecord.id).Nodup) {acc : Reconciled ν}
    (h : acc.Sound existing) (model : DiscoveredModel) :
    (reconcileOne host existing acc model).Sound existing ∧
      ∀ id, id ∈ (reconcileOne host existing acc model).seenIds ↔
        id ∈ acc.seenIds ∨ id = stableId host model.source := by
  unfold reconcileOne
  by_cases hseen : stableId host model.source ∈ acc.seenIds
  · rw [if_pos hseen]
    refine ⟨h, fun id => ?_⟩
    constructor
    · exact Or.inl
    · rintro (hid | rfl)
      · exact hid
      · exact hseen
  · rw [if_neg hseen]
    have hnodup : (acc.seenIds ++ [stableId host model.source]).Nodup := by
      rw [List.nodup_append]
      refine ⟨h.nodup, List.nodup_singleton _, fun a ha b hb => ?_⟩
      rw [List.mem_singleton.1 hb]
      rintro rfl
      exact hseen ha
    cases hknown : existing.find? (·.id = stableId host model.source) with
    | some known =>
      have hmem := List.mem_of_find?_eq_some hknown
      have hid : known.id = stableId host model.source := by
        simpa using List.find?_some hknown
      refine ⟨⟨?_, hnodup, fun id hid => List.mem_append_left _ (h.new hid), ?_⟩, by simp⟩
      · rw [List.map_append, h.ids, ← hid]
        rfl
      · intro record hrecord key value
        rcases List.mem_append.1 hrecord with hrecord | hrecord
        · exact h.settings record hrecord key value
        · rw [List.mem_singleton.1 hrecord]
          have hkept : setting (refreshed host model known) key = setting known key := by
            cases key <;> rfl
          rw [hkept]
          refine ⟨fun hset => ⟨known, hmem, rfl, hset⟩, ?_⟩
          rintro ⟨other, hother, hsame, hset⟩
          rwa [List.inj_on_of_nodup_map hids hother hmem hsame] at hset
    | none =>
      refine ⟨⟨?_, hnodup, ?_, ?_⟩, by simp⟩
      · rw [List.map_append, h.ids]
        rfl
      · intro id hid
        rcases List.mem_append.1 hid with hid | hid
        · exact List.mem_append_left _ (h.new hid)
        · exact List.mem_append_right _ hid
      · intro record hrecord key value
        rcases List.mem_append.1 hrecord with hrecord | hrecord
        · exact h.settings record hrecord key value
        · rw [List.mem_singleton.1 hrecord]
          have hnone : setting (newRecord host model : Record ν) key = none := by
            cases key with
            | displayAlias => rfl
            | systemPrompt => rfl
            | param key => simp [setting, newRecord]
          rw [hnone]
          refine ⟨(nofun), ?_⟩
          rintro ⟨other, hother, hsame, -⟩
          have hother' : ¬ other.id = stableId host model.source := by
            simpa using List.find?_eq_none.1 hknown other hother
          exact absurd hsame hother'

variable (host) in
omit [DecidableEq ν] in
theorem reconcile_sound (hids : (existing.map ModelRecord.id).Nodup)
    (models : List DiscoveredModel) :
    (reconcile host existing models).Sound existing ∧
      ∀ id, id ∈ (reconcile host existing models).seenIds ↔
        ∃ model ∈ models, id = stableId host model.source := by
  suffices h : ∀ acc : Reconciled ν, acc.Sound existing →
      (models.foldl (reconcileOne host existing) acc).Sound existing ∧
        ∀ id, id ∈ (models.foldl (reconcileOne host existing) acc).seenIds ↔
          id ∈ acc.seenIds ∨ ∃ model ∈ models, id = stableId host model.source by
    obtain ⟨hsound, hseen⟩ := h {} ⟨rfl, List.nodup_nil, List.Subset.refl _, fun _ h => nomatch h⟩
    exact ⟨hsound, fun id => (hseen id).trans (or_iff_right List.not_mem_nil)⟩
  induction models with
  | nil => exact fun acc hacc => ⟨hacc, by simp⟩
  | cons model models ih =>
    intro acc hacc
    obtain ⟨hone, hseen⟩ := reconcileOne_sound host hids hacc model
    obtain ⟨hsound, hmore⟩ := ih _ hone
    refine ⟨hsound, fun id => ?_⟩
    rw [List.foldl_cons, hmore, hseen, or_assoc]
    simp

/-- What the pass found, before any donor. -/
def foundBy (host : Host) (scanners : List StoreScanner) (existing : List (Record ν)) :
    Reconciled ν :=
  reconcile host existing (discovered scanners)

/-- What a pass over `existing` comes to. -/
structure Passed (host : Host) (scanners : List StoreScanner) (existing : List (Record ν))
    (pass : Pass ν) : Prop where
  nodup : (pass.toRegister.map ModelRecord.id).Nodup
  found : ∀ id ∈ (foundBy host scanners existing).seenIds,
    ∃ record ∈ pass.toRegister, record.id = id
  gone : ∀ record ∈ existing,
    vanished host (scannedKinds scanners) (foundBy host scanners existing).seenIds record = true →
      stale record ∈ pass.toRegister
  written : ∀ record ∈ pass.toRegister,
    (record.id ∈ (foundBy host scanners existing).seenIds ∧
      ∀ key value, setting record key = some value ↔
        (∃ known ∈ existing, known.id = record.id ∧ setting known key = some value) ∨
          ∃ donor, (donor, record.id) ∈ pass.absorbed ∧ setting donor key = some value) ∨
    ∃ known ∈ existing,
      vanished host (scannedKinds scanners) (foundBy host scanners existing).seenIds known = true ∧
        record = stale known
  donors : ∀ entry ∈ pass.absorbed, entry.1 ∈ existing ∧
    entry.1.id ∉ (foundBy host scanners existing).seenIds ∧
    ∃ holder ∈ pass.toRegister, holder.id = entry.2 ∧
      holder.id ∈ (foundBy host scanners existing).seenIds ∧
      Claims host (foundBy host scanners existing) holder entry.1

omit [DecidableEq ν] in
theorem Claims.seen {holder : Record ν} (h : Claims host found holder donor)
    (hnew : found.newRecordIds ⊆ found.seenIds) : holder.id ∈ found.seenIds := by
  rcases h with h | h
  · simp only [samePlace, Bool.and_eq_true, decide_eq_true_eq] at h
    exact h.1.1.1
  · exact hnew h.1

omit [DecidableEq ν] in
theorem vanished_unseen {kinds : List SourceKind} {seenIds : List String}
    (h : vanished host kinds seenIds record = true) : record.id ∉ seenIds := by
  simp only [vanished, Bool.and_eq_true, decide_eq_true_eq] at h
  exact h.1.1.2

variable (host) in
omit [DecidableEq ν] in
/-- Records found and records gone have ids of their own. -/
theorem base_nodup (hids : (existing.map ModelRecord.id).Nodup) (hsound : found.Sound existing)
    (kinds : List SourceKind) :
    ((found.toRegister ++ (existing.filter (vanished host kinds found.seenIds)).map stale).map
      ModelRecord.id).Nodup := by
  have hgone : ((existing.filter (vanished host kinds found.seenIds)).map stale).map ModelRecord.id
      = (existing.filter (vanished host kinds found.seenIds)).map ModelRecord.id := by
    rw [List.map_map]
    rfl
  rw [List.map_append, hsound.ids, hgone, List.nodup_append]
  refine ⟨hsound.nodup, hids.sublist (List.filter_sublist.map _), fun a ha b hb => ?_⟩
  obtain ⟨record, hrecord, rfl⟩ := List.mem_map.1 hb
  rintro rfl
  exact vanished_unseen (List.mem_filter.1 hrecord).2 ha

omit [DecidableEq ν] in
theorem map_id_of_extends {records : List (Record ν)}
    (h : List.Forall₂ (Extends donors) base records) :
    records.map ModelRecord.id = base.map ModelRecord.id := by
  induction h with
  | nil => rfl
  | cons hextends _ ih => rw [List.map_cons, List.map_cons, ih, hextends.id]

variable (host) in
/-- The two loops together: one list of donors over the records the pass started from. -/
theorem passOver_extends (hids : (existing.map ModelRecord.id).Nodup)
    (scanners : List StoreScanner) (hfound : foundBy host scanners existing = found)
    (hbase : found.toRegister ++
      (existing.filter (vanished host (scannedKinds scanners) found.seenIds)).map stale = base) :
    List.Forall₂ (Extends (passOver host scanners existing).absorbed) base
        (passOver host scanners existing).toRegister ∧
      DonorsFrom host found existing base (passOver host scanners existing).absorbed := by
  have hsound : found.Sound existing :=
    hfound ▸ (reconcile_sound host hids (discovered scanners)).1
  have hnodup : (base.map ModelRecord.id).Nodup :=
    hbase ▸ base_nodup host hids hsound (scannedKinds scanners)
  obtain ⟨hretired, hdonors⟩ := retireAliases_extends host found existing hnodup
  generalize hpass : retireAliases host found.seenIds existing base = pass at hretired hdonors
  generalize hcandidates : (existing.filter fun record =>
    decide (record.id ∉ found.seenIds) &&
      decide (record.id ∉ pass.absorbed.map fun entry => entry.1.id) &&
      decide (record.id ∉ pass.held) && (decide (record.state = .missing) ||
        decide (record.details.source.kind ∈ scannedKinds scanners))) = candidates
  obtain ⟨more, hmore, hmigrated, hentries⟩ :=
    migrateMovedConfig_extends found.newRecordIds candidates pass.toRegister []
      (map_id_of_extends hretired ▸ hnodup)
  have heq : passOver host scanners existing =
      { pass with
        toRegister := (migrateMovedConfig found.newRecordIds candidates pass.toRegister []).1
        absorbed := pass.absorbed ++ more } := by
    unfold foundBy at hfound
    simp only [passOver, hfound, hbase, hpass, hcandidates, hmore, List.nil_append]
  rw [heq]
  constructor
  · exact Lists.forall₂_comp hretired hmigrated fun _ _ _ hfirst hsecond => hfirst.trans hsecond
  · intro entry hentry
    rcases List.mem_append.1 hentry with hentry | hentry
    · exact hdonors entry hentry
    · obtain ⟨hcandidate, holder, hholder, hid, hnew, hsome, hmark, hsize⟩ := hentries entry hentry
      rw [← hcandidates, List.mem_filter] at hcandidate
      simp only [Bool.and_eq_true, decide_eq_true_eq] at hcandidate
      obtain ⟨index, hindex⟩ := List.getElem?_of_mem hholder
      obtain ⟨first, hfirst, hkin⟩ := Lists.forall₂_getElem? hretired hindex
      refine ⟨hcandidate.1, hcandidate.2.1.1.1, first, List.mem_of_getElem? hfirst,
        hkin.id.symm.trans hid, Or.inr ⟨hkin.id ▸ hnew, ?_, ?_, ?_⟩⟩
      · rwa [← hkin.fingerprint]
      · rwa [← hkin.fingerprint]
      · rwa [← hkin.footprint]

variable (host) in
theorem passOver_passed (hids : (existing.map ModelRecord.id).Nodup)
    (scanners : List StoreScanner) :
    Passed host scanners existing (passOver host scanners existing) := by
  have hsound : (foundBy host scanners existing).Sound existing :=
    (reconcile_sound host hids (discovered scanners)).1
  obtain ⟨hextends, hdonors⟩ := passOver_extends host hids scanners rfl rfl
  have hfrom : ∀ record ∈ (passOver host scanners existing).toRegister, ∃ start,
      (start ∈ (foundBy host scanners existing).toRegister ∨
        ∃ known ∈ existing, vanished host (scannedKinds scanners)
          (foundBy host scanners existing).seenIds known = true ∧ start = stale known) ∧
      Extends (passOver host scanners existing).absorbed start record := by
    intro record hrecord
    obtain ⟨index, hindex⟩ := List.getElem?_of_mem hrecord
    obtain ⟨start, hstart, hkin⟩ := Lists.forall₂_getElem? hextends hindex
    refine ⟨start, ?_, hkin⟩
    rcases List.mem_append.1 (List.mem_of_getElem? hstart) with hstart | hstart
    · exact .inl hstart
    · obtain ⟨known, hknown, rfl⟩ := List.mem_map.1 hstart
      exact .inr ⟨known, (List.mem_filter.1 hknown).1, (List.mem_filter.1 hknown).2, rfl⟩
  have hto : ∀ start ∈ (foundBy host scanners existing).toRegister ++
      (existing.filter (vanished host (scannedKinds scanners)
        (foundBy host scanners existing).seenIds)).map stale,
      ∃ record ∈ (passOver host scanners existing).toRegister,
        Extends (passOver host scanners existing).absorbed start record := by
    intro start hstart
    obtain ⟨index, hindex⟩ := List.getElem?_of_mem hstart
    obtain ⟨record, hrecord, hkin⟩ := Lists.forall₂_getElem? hextends.flip hindex
    exact ⟨record, List.mem_of_getElem? hrecord, hkin⟩
  -- no donor goes to a record that is gone
  have hgone : ∀ known : Record ν, vanished host (scannedKinds scanners)
      (foundBy host scanners existing).seenIds known = true →
      ∀ donor, (donor, (stale known).id) ∉ (passOver host scanners existing).absorbed := by
    intro known hvanished donor hentry
    obtain ⟨-, -, holder, -, hid, hclaims⟩ := hdonors _ hentry
    have hsame : holder.id = known.id := hid
    exact vanished_unseen hvanished (hsame ▸ hclaims.seen hsound.new)
  refine ⟨?_, ?_, ?_, ?_, ?_⟩
  · rw [map_id_of_extends hextends]
    exact base_nodup host hids hsound _
  · intro id hid
    rw [← hsound.ids] at hid
    obtain ⟨start, hstart, rfl⟩ := List.mem_map.1 hid
    obtain ⟨record, hrecord, hkin⟩ := hto start (List.mem_append_left _ hstart)
    exact ⟨record, hrecord, hkin.id⟩
  · intro known hknown hvanished
    obtain ⟨record, hrecord, hkin⟩ := hto (stale known) (List.mem_append_right _
      (List.mem_map_of_mem (List.mem_filter.2 ⟨hknown, hvanished⟩)))
    rwa [← hkin.alone (hgone known hvanished)]
  · intro record hrecord
    obtain ⟨start, hstart | ⟨known, hknown, hvanished, rfl⟩, hkin⟩ := hfrom record hrecord
    · have hseen : start.id ∈ (foundBy host scanners existing).seenIds := by
        rw [← hsound.ids]
        exact List.mem_map_of_mem hstart
      refine .inl ⟨hkin.id ▸ hseen, fun key value => ?_⟩
      rw [hkin.setting, hsound.settings start hstart, hkin.id]
    · exact .inr ⟨known, hknown, hvanished, hkin.alone (hgone known hvanished)⟩
  · intro entry hentry
    obtain ⟨hdonor, hunseen, start, hstart, hid, hclaims⟩ := hdonors entry hentry
    obtain ⟨record, hrecord, hkin⟩ := hto start hstart
    exact ⟨hdonor, hunseen, record, hrecord, hkin.id.trans hid,
      hkin.id ▸ hclaims.seen hsound.new, hclaims.congr hkin⟩

end Hedos.Discovery
