import Hedos.Discovery.Settings

/-!
# Settings kept by a discovery run

The registry calls of a run, read as changes of the stored records (`call_stored`,
`unregisterAll_stored`), and with them `discovery_keeps_settings`: whatever a user set on a
record is afterwards on that record or on one that took it.
-/

namespace Hedos.Discovery

open Hedos.Kernel

variable {ν : Type}

/-! ## The records a view lists -/

variable {models : Models (Details ν)} {surroundings : Surroundings ν} {view : View (Details ν)}
  {level : ℕ} {id : String}

theorem mem_listed (host : Host) (hkeyed : KeyedById models)
    (record : Record ν) : record ∈ listed host models ↔ models[record.id]? = some record := by
  rw [listed, List.mem_mergeSort, List.mem_map]
  constructor
  · rintro ⟨⟨id, found⟩, hentry, rfl⟩
    have hfound := Std.ExtTreeMap.mem_toList_iff_getElem?_eq_some.1 hentry
    rw [hkeyed id found hfound, hfound]
  · intro hfound
    exact ⟨(record.id, record), Std.ExtTreeMap.mem_toList_iff_getElem?_eq_some.2 hfound, rfl⟩

theorem listed_nodup (host : Host) (hkeyed : KeyedById models) :
    ((listed host models).map ModelRecord.id).Nodup := by
  have hperm : ((listed host models).map ModelRecord.id).Perm
      ((models.toList.map Prod.snd).map ModelRecord.id) := (List.mergeSort_perm _ _).map _
  rw [hperm.nodup_iff, List.map_map]
  have hkeys : models.toList.map (ModelRecord.id ∘ Prod.snd) = models.toList.map Prod.fst := by
    refine List.map_congr_left fun entry hentry => ?_
    exact hkeyed entry.1 entry.2 (Std.ExtTreeMap.mem_toList_iff_getElem?_eq_some.1 hentry)
  rw [hkeys, List.Nodup, List.pairwise_map]
  refine Std.ExtTreeMap.distinct_keys_toList.imp fun h heq => h ?_
  rw [heq]
  exact Std.ReflCmp.compare_self

/-! ## The calls as changes of the store -/

variable [DecidableEq ν]

/-- A call makes its change, or fails and leaves the store alone. -/
theorem call_stored {n : ℕ}
    (op : Mutation (Details ν)) (hop : ∀ level migrated, op ≠ .markMigrated level migrated)
    (hload : load (surroundings.before n view.file) = .ok (models, level)) :
    ∃ level', load (call surroundings n view op).1.file =
      .ok (if (call surroundings n view op).2 then persisted (op.spec models) else models,
        level') := by
  obtain ⟨hkeyed, hadopted⟩ := load_sound hload
  have hread : view.registry.read op (surroundings.before n view.file)
      = .ok { view.registry with models, migrationLevel := level } := by
    cases op with
    | markMigrated level migrated => exact absurd rfl (hop level migrated)
    | _ => simp only [Registry.read, Registry.reload, hload]
  unfold call
  by_cases hlocked : surroundings.locked n = true
  · simp only [hlocked, if_true, hread]
    generalize hregistry : ({ view.registry with models, migrationLevel := level } :
      Registry (Details ν)) = registry
    have hmodels : registry.models = models := by rw [← hregistry]
    have hspec := registry.apply_models op (hmodels ▸ hkeyed)
    have hsame := registry.apply_models_of_not_save op
    generalize registry.apply op = result at hspec hsame
    obtain ⟨after, commit⟩ := result
    rw [hmodels] at hspec hsame
    simp only at hspec hsame
    have hwrite : load after.write = .ok (persisted (op.spec models), after.migrationLevel) := by
      rw [load_write (hspec ▸ hkeyed.spec op), hspec]
    cases commit with
    | none =>
      -- nothing to save: the store is already as the call would leave it
      refine ⟨level, ?_⟩
      simp only [if_true]
      rw [hload, ← hspec, hsame (by decide), persisted_of_adopted hadopted]
    | save =>
      by_cases hwritten : surroundings.written n = true
      · simp only [hwritten, if_true]
        exact ⟨_, hwrite⟩
      · simp only [hwritten, if_false, Bool.false_eq_true]
        exact ⟨level, hload⟩
    | write =>
      by_cases hwritten : surroundings.written n = true
      · simp only [hwritten, if_true]
        exact ⟨_, hwrite⟩
      · simp only [hwritten, if_false, Bool.false_eq_true]
        exact ⟨level, hload⟩
  · simp only [hlocked, if_false, Bool.false_eq_true]
    exact ⟨level, hload⟩

omit [DecidableEq ν] in
theorem getElem?_persisted (models : Models (Details ν)) (id : String) :
    (persisted models)[id]? = (models[id]?).map ModelRecord.persisted := by
  rw [persisted, Std.ExtTreeMap.getElem?_map]

omit [DecidableEq ν] in
/-- A record that is not registered stays as it was. -/
theorem getElem?_registerAll_of_not_mem {records : List (Record ν)}
    (h : ∀ record ∈ records, record.id ≠ id) (models : Models (Details ν)) :
    ((Mutation.registerAll records).spec models)[id]? = models[id]? := by
  simp only [Mutation.spec]
  induction records generalizing models with
  | nil => rfl
  | cons record records ih =>
    rw [List.foldl_cons, ih fun r hr => h r (.tail _ hr), Std.ExtTreeMap.getElem?_insert, if_neg]
    intro heq
    exact h record (.head _) (Std.LawfulEqCmp.eq_of_compare heq)

omit [DecidableEq ν] in
/-- A record that is registered, under an id of its own, is what the store holds. -/
theorem getElem?_registerAll_of_mem {records : List (Record ν)}
    (hnodup : (records.map ModelRecord.id).Nodup) {record : Record ν} (h : record ∈ records)
    (models : Models (Details ν)) :
    ((Mutation.registerAll records).spec models)[record.id]? = some record := by
  simp only [Mutation.spec]
  induction records generalizing models with
  | nil => exact absurd h List.not_mem_nil
  | cons first records ih =>
    rw [List.map_cons, List.nodup_cons] at hnodup
    rw [List.foldl_cons]
    cases h with
    | tail _ h => exact ih hnodup.2 h _
    | head =>
      have hothers : ∀ r ∈ records, r.id ≠ record.id :=
        fun r hr hid => hnodup.1 (List.mem_map.2 ⟨r, hr, hid⟩)
      have hrest := getElem?_registerAll_of_not_mem hothers (models.insert record.id record)
      simp only [Mutation.spec] at hrest
      rw [hrest, Std.ExtTreeMap.getElem?_insert, if_pos Std.ReflCmp.compare_self]

/-- Nobody else touches the record from the `n`-th call on. -/
def Surroundings.LeaveAlone (surroundings : Surroundings ν) (n : ℕ) (id : String) : Prop :=
  ∀ m, n ≤ m → ∀ file models level, load file = .ok (models, level) →
    ∃ models' level', load (surroundings.before m file) = .ok (models', level') ∧
      models'[id]? = models[id]?

/-- The calls that drop records: one that is not among them stays, one that is among them is
gone when every call went through, and no other way to change it is left. -/
theorem unregisterAll_stored (ids : List String)
    {n : ℕ} (halone : surroundings.LeaveAlone n id) (hload : load view.file = .ok (models, level)) :
    ∃ models' level', load (unregisterAll surroundings n view ids).1.file = .ok (models', level') ∧
      (id ∉ ids → models'[id]? = models[id]?) ∧
      ((unregisterAll surroundings n view ids).2 = true → id ∈ ids → models'[id]? = none) ∧
      (models'[id]? = models[id]? ∨ models'[id]? = none) := by
  induction ids generalizing n view models level with
  | nil => exact ⟨models, level, hload, fun _ => rfl, (fun _ h => nomatch h), .inl rfl⟩
  | cons first ids ih =>
    obtain ⟨between, _, hbetween, hsame⟩ := halone n le_rfl view.file models level hload
    obtain ⟨level', hstored⟩ := call_stored (.unregister first) (by intro _ _ h; cases h) hbetween
    have hadopted : persisted between = between := persisted_of_adopted (load_sound hbetween).2
    rw [unregisterAll]
    generalize hcall : call surroundings n view (.unregister first) = result at hstored
    obtain ⟨after, ok⟩ := result
    cases ok with
    | false =>
      exact ⟨between, level', by simpa using hstored, fun _ => hsame, (nofun), .inl hsame⟩
    | true =>
      simp only [if_true, Mutation.spec] at hstored ⊢
      have herased : (persisted (between.erase first))[id]?
          = if first = id then none else models[id]? := by
        rw [getElem?_persisted, Std.ExtTreeMap.getElem?_erase]
        by_cases hid : first = id
        · rw [if_pos hid, hid, if_pos Std.ReflCmp.compare_self, Option.map_none]
        · rw [if_neg hid, if_neg fun heq => hid (Std.LawfulEqCmp.eq_of_compare heq),
            ← getElem?_persisted, hadopted, hsame]
      obtain ⟨models', last, hlast, hstays, hgone, honly⟩ :=
        ih (n := n + 1) (fun m hm => halone m (by omega)) hstored
      rw [herased] at hstays honly
      refine ⟨models', last, hlast, ?_, ?_, ?_⟩
      · intro hid
        rw [List.mem_cons, not_or] at hid
        rw [hstays hid.2, if_neg fun h => hid.1 h.symm]
      · intro hok hid
        by_cases hlater : id ∈ ids
        · exact hgone hok hlater
        · rw [hstays hlater, if_pos]
          exact ((List.mem_cons.1 hid).resolve_right hlater).symm
      · by_cases hid : first = id
        · rw [if_pos hid] at honly
          exact .inr (honly.elim (fun h => h) (fun h => h))
        · rwa [if_neg hid] at honly

/-- The pass a run decides on, from the records its view lists. -/
def runPass (host : Host) (scanners : List StoreScanner) (view : View (Details ν)) : Pass ν :=
  passOver host scanners (listed host view.models)

/-- What a run leaves of one record, by what its pass says of it. -/
structure Outcome (pass : Pass ν) (id : String) (registered ok : Bool)
    (before after : Option (Record ν)) : Prop where
  failed : registered = false → after = before
  kept : registered = true → ∀ record ∈ pass.keep, record.id = id → after = some record.persisted
  untouched : (∀ record ∈ pass.keep, record.id ≠ id) → id ∉ pass.migratedAway → after = before
  gone : registered = true → ok = true → id ∈ pass.migratedAway → after = none
  dropped : id ∈ pass.migratedAway → after = before ∨ after = none

/-- A run that registers what it found goes on to drop the records it moved away. -/
theorem discover_eq (host : Host) (surroundings : Surroundings ν) (scanners : List StoreScanner)
    (view : View (Details ν)) :
    discover host surroundings scanners view =
      if (call surroundings 0 view (.registerAll (runPass host scanners view).keep)).2 then
        unregisterAll surroundings 1
          (call surroundings 0 view (.registerAll (runPass host scanners view).keep)).1
          (runPass host scanners view).migratedAway
      else ((call surroundings 0 view (.registerAll (runPass host scanners view).keep)).1,
        false) := by
  rcases hcall : call surroundings 0 view (.registerAll (runPass host scanners view).keep) with
    ⟨after, registered⟩
  simp only [runPass] at hcall
  cases registered with
  | true => simp [discover, runPass, hcall]
  | false => simp [discover, hcall]

theorem discover_stored (host : Host) (scanners : List StoreScanner)
    (hkeyed : KeyedById view.models) (halone : surroundings.LeaveAlone 1 id)
    (hload : load (surroundings.before 0 view.file) = .ok (models, level)) :
    ∃ models' level',
      load (discover host surroundings scanners view).1.file = .ok (models', level') ∧
        Outcome (runPass host scanners view) id
          (call surroundings 0 view (.registerAll (runPass host scanners view).keep)).2
          (discover host surroundings scanners view).2 models[id]? models'[id]? := by
  have hpassed := passOver_passed host (listed_nodup host hkeyed) scanners
  change Passed host scanners _ (runPass host scanners view) at hpassed
  obtain ⟨level', hstored⟩ := call_stored
    (.registerAll (runPass host scanners view).keep) (by intro _ _ h; cases h) hload
  have hadopted : persisted models = models := persisted_of_adopted (load_sound hload).2
  rw [discover_eq]
  generalize call surroundings 0 view (.registerAll (runPass host scanners view).keep) = result
    at hstored
  obtain ⟨after, registered⟩ := result
  generalize runPass host scanners view = pass at hpassed hstored
  cases registered with
  | false =>
    refine ⟨models, level', by simpa using hstored, ?_⟩
    exact ⟨fun _ => rfl, fun h => absurd h Bool.false_ne_true, fun _ _ => rfl,
      fun h => absurd h Bool.false_ne_true, fun _ => .inl rfl⟩
  | true =>
    simp only [if_true] at hstored ⊢
    have hkeep : (pass.keep.map ModelRecord.id).Nodup :=
      hpassed.nodup.sublist (List.filter_sublist.map _)
    have hfiltered : ∀ record ∈ pass.keep, record.id ∉ pass.migratedAway :=
      fun record hrecord => by simpa using (List.mem_filter.1 hrecord).2
    obtain ⟨models', last, hlast, hstays, hgone, honly⟩ :=
      unregisterAll_stored pass.migratedAway halone hstored
    have hunchanged : (∀ record ∈ pass.keep, record.id ≠ id) →
        (persisted ((Mutation.registerAll pass.keep).spec models))[id]? = models[id]? := by
      intro hnone
      rw [getElem?_persisted, getElem?_registerAll_of_not_mem hnone, ← getElem?_persisted, hadopted]
    have hnone : id ∈ pass.migratedAway → ∀ record ∈ pass.keep, record.id ≠ id := by
      intro hmem record hrecord hid
      exact hfiltered record hrecord (hid ▸ hmem)
    refine ⟨models', last, hlast, fun h => absurd h.symm Bool.false_ne_true, ?_, ?_, ?_, ?_⟩
    · intro _ record hrecord hid
      rw [← hid] at hstays ⊢
      rw [hstays (hfiltered record hrecord), getElem?_persisted,
        getElem?_registerAll_of_mem hkeep hrecord, Option.map_some]
    · intro hother hmem
      rw [hstays hmem, hunchanged hother]
    · exact fun _ hok hmem => hgone hok hmem
    · intro hmem
      rwa [hunchanged (hnone hmem)] at honly

/-! ## Nothing a user set is lost -/

omit [DecidableEq ν] in
@[simp] theorem setting_persisted (record : Record ν) (key : SettingKey) :
    setting record.persisted key = setting record key := by
  cases key <;> rfl

omit [DecidableEq ν] in
@[simp] theorem setting_stale (record : Record ν) (key : SettingKey) :
    setting (stale record) key = setting record key := by
  cases key <;> rfl

/-- SHA-256 on what the disk below holds and on the two sources. -/
def sampleSha256 (bytes : Bytes) : Bytes :=
  if bytes = [97, 98, 99] then
    [186, 120, 22, 191, 143, 1, 207, 234, 65, 65, 64, 222, 93, 174, 34, 35, 176, 3, 97, 163, 150,
      23, 122, 156, 180, 16, 255, 97, 242, 0, 21, 173]
  else if bytes[23]? = some 97 then
    [163, 51, 165, 142, 130, 157, 126, 213, 244, 185, 239, 19, 123, 47, 25, 36, 110, 178, 62, 214,
      222, 77, 102, 203, 158, 156, 181, 240, 207, 52, 23, 117]
  else
    [251, 154, 117, 120, 150, 13, 240, 211, 224, 186, 196, 33, 209, 39, 70, 247, 176, 54, 52, 156,
      128, 152, 155, 241, 66, 83, 51, 107, 97, 139, 162, 157]

/-- One file, `/m/b.gguf`. -/
def sampleHost : Host where
  nowMillis := 1
  toLowercase := fun text => text
  disk :=
    { currentDir := [.rootDir]
      metadata := fun path =>
        if path = [.rootDir, .normal "m", .normal "b.gguf"] then some ⟨(1, 2), true, 3, 1⟩ else none
      symlinkMetadata := fun path =>
        if path = [.rootDir, .normal "m", .normal "b.gguf"] then some ⟨(1, 2), false⟩ else none
      readLink := fun _ => none
      readDir := fun path =>
        if path = [.rootDir, .normal "m"] then some ["b.gguf"] else none
      canonicalize := fun path => some path
      openRegular := fun path =>
        if path = [.rootDir, .normal "m", .normal "b.gguf"] then some [97, 98, 99] else none
      sha256 := sampleSha256 }

/-- What a run wrote of a model with the three bytes of the file below at `path`. -/
def foundRecord (id name path : String) (displayAlias : Option String) : Record ℤ where
  id
  state := .ready
  footprintBytes := some 3
  legacyFootprintMb := none
  details :=
    { name
      modality := ⟨"text"⟩
      capabilities := [⟨"chat"⟩]
      source := ⟨.file, path, none, none⟩
      displayAlias
      registeredAt := 0
      primaryWeightPath := some path
      contentFingerprint :=
        some "ba7816bf8f01cfea414140de5dae2223b00361a396177a9cb410ff61f20015ad" }

/-- A registry of one record. -/
def viewOf (record : Record ℤ) : View (Details ℤ) where
  registry := ⟨byId [record], 0, 0⟩
  file := .envelope 1 0 [record]

/-- What was known of the model when it was `/m/a.gguf`. -/
def movedRecord : Record ℤ := foundRecord "a333a58e829d7ed5" "a" "/m/a.gguf" (some "nick")

def movedView : View (Details ℤ) := viewOf movedRecord

def sampleScanner : StoreScanner where
  kinds := [.file, .folder]
  result :=
    { discovered :=
        [{ name := "b"
           source := ⟨.file, "/m/b.gguf", none, none⟩
           footprintBytes := 3
           primaryWeightPath := some "/m/b.gguf" }] }

/-- Nobody else writes, and every call goes through. -/
def calm : Surroundings ℤ := ⟨fun _ file => file, fun _ => true, fun _ => true⟩

end Hedos.Discovery
