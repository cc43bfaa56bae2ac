import Hedos.Discovery.OnDisk
import Hedos.Lib.CountOnce
import Mathlib.Data.String.Basic

/-!
# Disk accounting counts each file once

* what a store has after a run is what it is charged when each file goes to the first model that
  lists it (`countModels_perKind`), up to saturation;
* sorted by store, the first to list a file is of the least store, so the figures do not depend
  on the order of the records (`disk_counts_each_file_once`).
-/

namespace Hedos.Discovery

open CountOnce (Item)

variable {ι ν : Type} [DecidableEq ι]

/-! ## What is to be counted -/

section

variable (volume : Volume ι ν) (records : List (Record ν))

/-- The records whose weights are there. -/
def present (records : List (Record ν)) : List (Record ν) :=
  records.filter fun record => record.state ≠ .missing

/-- The files a record lists, each once. -/
def listedFiles (record : Record ν) : Finset ι :=
  (((volume.footprintFiles record).getD []).filterMap volume.regular).toFinset

def distinctFiles : Finset ι :=
  (((present records).flatMap fun record => (volume.footprintFiles record).getD []).filterMap
    volume.regular).toFinset

def fileBytes (id : ι) : ℤ := (volume.inode id).size

/-- The sizes on disk of the records of a kind whose files cannot be listed. -/
def unlistedBytes (kinds : SourceKind → Bool) : ℤ :=
  (((present records).filter fun record =>
    (volume.footprintFiles record).isNone && kinds record.details.source.kind).map
      fun record => (sizeOnDisk record).getD 0).sum

def diskTotal : ℤ :=
  ∑ id ∈ distinctFiles volume records, fileBytes volume id +
    unlistedBytes volume records fun _ => true

/-- The store comes first among those that list the file. -/
def CountedUnder (id : ι) (kind : SourceKind) : Prop :=
  (∃ record ∈ present records, record.details.source.kind = kind ∧ id ∈ listedFiles volume record) ∧
  ∀ record ∈ present records, id ∈ listedFiles volume record →
    StoreLe kind record.details.source.kind

open Classical in
noncomputable def storeFigure (kind : SourceKind) : ℤ :=
  ∑ id ∈ (distinctFiles volume records).filter fun id => CountedUnder volume records id kind,
    fileBytes volume id +
  unlistedBytes volume records fun other => other = kind

end

/-! ## Counting -/

section

variable {volume : Volume ι ν} {tally : DiskTally ι} {kind : SourceKind} {models : List StoreModel}

/-- A model as what it lists and what it has besides. -/
def StoreModel.item (volume : Volume ι ν) (model : StoreModel) : Item String ι where
  key := model.kind.value
  things := ((model.files.getD []).filterMap volume.regular).toFinset
  besides := if model.files.isSome then 0 else model.footprint

theorem saturatingAddI64_eq {a b : ℤ} (ha : 0 ≤ a) (hb : 0 ≤ b) :
    saturatingAddI64 a b = min i64Max (a + b) := by
  unfold saturatingAddI64 i64Max
  omega

theorem getElem?_insert_name (bytes : Std.ExtTreeMap String ℤ) (key name : String) (v : ℤ) :
    (bytes.insert key v)[name]? = if name = key then some v else bytes[name]? := by
  rw [Std.ExtTreeMap.getElem?_insert]
  simp only [Std.compare_eq_iff_eq, @eq_comm _ key name]

/-- A file is counted under the store when it is not counted yet. -/
theorem countFiles_spec (files : List Path) {v : ℤ}
    (hv : tally.perKind[kind.value]? = some v) (hnonneg : 0 ≤ v) (hmax : v ≤ i64Max) :
    (files.foldl (DiskTally.countFile volume kind) tally).counted =
        tally.counted ∪ (files.filterMap volume.regular).toFinset ∧
      ∀ name, (files.foldl (DiskTally.countFile volume kind) tally).perKind[name]? =
        if name = kind.value then
          some (min i64Max (v +
            ∑ id ∈ (files.filterMap volume.regular).toFinset \ tally.counted, fileBytes volume id))
        else tally.perKind[name]? := by
  induction files generalizing tally v with
  | nil =>
    refine ⟨by simp, fun name => ?_⟩
    split
    · rename_i hname
      simp [hname, hv, hmax]
    · rfl
  | cons file files ih =>
    rw [List.foldl_cons, DiskTally.countFile, List.filterMap_cons]
    cases hfile : volume.regular file with
    | none => exact ih hv hnonneg hmax
    | some id =>
      dsimp only
      rw [List.toFinset_cons]
      by_cases hmem : id ∈ tally.counted
      · rw [if_pos hmem, Finset.insert_sdiff_of_mem _ hmem, Finset.union_insert,
          Finset.insert_eq_of_mem (Finset.mem_union_left _ hmem)]
        exact ih hv hnonneg hmax
      · have hsize : (0 : ℤ) ≤ fileBytes volume id := Int.natCast_nonneg _
        have hbytes : saturatingAddI64 (tally.bytes kind) (volume.inode id).size =
            min i64Max (v + fileBytes volume id) := by
          rw [DiskTally.bytes, hv]
          exact saturatingAddI64_eq hnonneg hsize
        have hadded : ({ tally.add kind (volume.inode id).size with
            counted := insert id tally.counted } : DiskTally ι).perKind[kind.value]? =
            some (min i64Max (v + fileBytes volume id)) := by
          rw [← hbytes]
          exact Std.ExtTreeMap.getElem?_insert_self
        have hpos : (0 : ℤ) ≤ i64Max := by decide
        obtain ⟨hcounted, hperKind⟩ := ih hadded (by omega) (by omega)
        rw [if_neg hmem]
        refine ⟨?_, fun name => ?_⟩
        · rw [hcounted]
          show insert id tally.counted ∪ _ = _
          rw [Finset.insert_union, Finset.union_insert]
        · rw [hperKind]
          split
          · have hrest : insert id (files.filterMap volume.regular).toFinset \ tally.counted =
                insert id ((files.filterMap volume.regular).toFinset \
                  insert id tally.counted) := by
              ext other
              by_cases hother : other = id <;> simp [hother, hmem]
            have hnew : id ∉ (files.filterMap volume.regular).toFinset \
                insert id tally.counted := by simp
            have hsum : 0 ≤ ∑ other ∈ (files.filterMap volume.regular).toFinset \
                insert id tally.counted, fileBytes volume other :=
              Finset.sum_nonneg fun other _ => Int.natCast_nonneg _
            rw [hrest, Finset.sum_insert hnew]
            show some (min i64Max (min i64Max (v + fileBytes volume id) + ∑ other ∈
              (files.filterMap volume.regular).toFinset \ insert id tally.counted, _)) = _
            congr 1
            omega
          · rename_i hname
            show (tally.perKind.insert kind.value _)[name]? = _
            rw [getElem?_insert_name, if_neg hname]

/-- The bytes of every store are in range. -/
def DiskTally.InRange (tally : DiskTally ι) : Prop :=
  ∀ kind, 0 ≤ tally.bytes kind ∧ tally.bytes kind ≤ i64Max

theorem countModel_spec (model : StoreModel) (hrange : tally.InRange)
    (hfootprint : 0 ≤ model.footprint) :
    (tally.countModel volume model).counted = tally.counted ∪ (model.item volume).things ∧
      ∀ name, (tally.countModel volume model).perKind[name]? =
        if name = model.kind.value then
          some (min i64Max (tally.bytes model.kind +
            (∑ id ∈ (model.item volume).things \ tally.counted, fileBytes volume id +
              (model.item volume).besides)))
        else tally.perKind[name]? := by
  obtain ⟨hnonneg, hmax⟩ := hrange model.kind
  have hself : (tally.perKind.insert model.kind.value (tally.bytes model.kind))[model.kind.value]? =
      some (tally.bytes model.kind) := Std.ExtTreeMap.getElem?_insert_self
  unfold DiskTally.countModel
  dsimp only
  cases hfiles : model.files with
  | none =>
    have hitem : (model.item volume).things = ∅ := by simp [StoreModel.item, hfiles]
    have hbesides : (model.item volume).besides = model.footprint := by
      simp [StoreModel.item, hfiles]
    rw [hitem, hbesides, Finset.union_empty, Finset.empty_sdiff, Finset.sum_empty, zero_add]
    refine ⟨rfl, fun name => ?_⟩
    show ((tally.perKind.insert model.kind.value _).insert model.kind.value _)[name]? = _
    rw [getElem?_insert_name, getElem?_insert_name]
    split
    · rw [DiskTally.bytes, hself, Option.getD_some, saturatingAddI64_eq hnonneg hfootprint]
    · rfl
  | some files =>
    have hitem : (model.item volume).things = (files.filterMap volume.regular).toFinset := by
      simp [StoreModel.item, hfiles]
    have hbesides : (model.item volume).besides = 0 := by simp [StoreModel.item, hfiles]
    obtain ⟨hcounted, hperKind⟩ := @countFiles_spec _ _ _ volume
      { tally with perKind := tally.perKind.insert model.kind.value (tally.bytes model.kind) }
      model.kind files _ hself hnonneg hmax
    rw [hitem, hbesides, add_zero]
    refine ⟨hcounted, fun name => ?_⟩
    rw [hperKind]
    split
    · rfl
    · rename_i hname
      rw [getElem?_insert_name, if_neg hname]

theorem item_besides_nonneg {model : StoreModel} (hfootprint : 0 ≤ model.footprint) :
    0 ≤ (model.item volume).besides := by
  unfold StoreModel.item
  dsimp only
  split
  · exact le_rfl
  · exact hfootprint

theorem countModel_inRange (model : StoreModel) (hrange : tally.InRange)
    (hfootprint : 0 ≤ model.footprint) : (tally.countModel volume model).InRange := by
  intro kind
  have hpos : (0 : ℤ) ≤ i64Max := by decide
  have hspec := (@countModel_spec _ _ _ volume tally model hrange hfootprint).2 kind.value
  unfold DiskTally.bytes
  rw [hspec]
  split
  · have hsum : 0 ≤ ∑ id ∈ (model.item volume).things \ tally.counted, fileBytes volume id :=
      Finset.sum_nonneg fun id _ => Int.natCast_nonneg _
    have hbesides := @item_besides_nonneg _ _ _ volume model hfootprint
    have hnonneg := (hrange model.kind).1
    rw [Option.getD_some]
    omega
  · exact hrange kind

/-- A run over the models gives each store what it is charged, up to saturation. -/
theorem countModels_perKind (hrange : tally.InRange)
    (hfootprints : ∀ model ∈ models, 0 ≤ model.footprint) (name : String) :
    (models.foldl (DiskTally.countModel volume) tally).perKind[name]? =
      if (tally.perKind[name]?).isSome ∨ ∃ model ∈ models, model.kind.value = name then
        some (min i64Max (tally.perKind[name]?.getD 0 +
          CountOnce.charge (fileBytes volume) (models.map (StoreModel.item volume))
            tally.counted name))
      else none := by
  induction models generalizing tally with
  | nil =>
    have hle := (hrange ⟨name⟩).2
    unfold DiskTally.bytes at hle
    rw [List.foldl_nil, List.map_nil, CountOnce.charge, add_zero, min_eq_right hle]
    cases tally.perKind[name]? <;> simp
  | cons model models ih =>
    have hfootprint := hfootprints model (.head _)
    have hrest := fun other hother => hfootprints other (.tail _ hother)
    obtain ⟨hcounted, hperKind⟩ := @countModel_spec _ _ _ volume tally model hrange hfootprint
    have hcharge : 0 ≤ CountOnce.charge (fileBytes volume) (models.map (StoreModel.item volume))
        (tally.counted ∪ (model.item volume).things) name := by
      apply CountOnce.charge_nonneg fun id => Int.natCast_nonneg _
      intro item hitem
      obtain ⟨other, hother, rfl⟩ := List.mem_map.1 hitem
      exact item_besides_nonneg (hrest other hother)
    rw [List.foldl_cons, ih (countModel_inRange model hrange hfootprint) hrest, hperKind, hcounted,
      List.map_cons, CountOnce.charge]
    by_cases hname : name = model.kind.value
    · subst hname
      have hkey : (model.item volume).key = model.kind.value := rfl
      rw [if_pos rfl, if_pos (Or.inl Option.isSome_some),
        if_pos (Or.inr ⟨model, .head _, rfl⟩), if_pos hkey, Option.getD_some,
        DiskTally.bytes]
      congr 1
      omega
    · have hkey : ¬ (model.item volume).key = name := fun h => hname h.symm
      have hothers : (∃ other ∈ model :: models, other.kind.value = name) ↔
          ∃ other ∈ models, other.kind.value = name := by
        simp [Ne.symm hname]
      rw [if_neg hname, if_neg hkey, zero_add]
      simp only [hothers]

end

/-! ## In the order of the stores -/

section

variable {volume : Volume ι ν} {records : List (Record ν)}

theorem StoreLe.refl (a : SourceKind) : StoreLe a a := .inr ⟨rfl, le_rfl⟩

theorem StoreLe.antisymm {a b : SourceKind} (h : StoreLe a b) (h' : StoreLe b a) : a = b := by
  have hvalue : a.value = b.value := by
    rcases h with hlt | ⟨hrank, hle⟩ <;> rcases h' with hlt' | ⟨hrank', hle'⟩
    · omega
    · omega
    · omega
    · exact le_antisymm hle hle'
  cases a
  cases b
  exact congrArg SourceKind.mk hvalue

theorem StoreLe.trans {a b c : SourceKind} (h : StoreLe a b) (h' : StoreLe b c) : StoreLe a c := by
  rcases h with hlt | ⟨hrank, hle⟩ <;> rcases h' with hlt' | ⟨hrank', hle'⟩
  · exact .inl (hlt.trans hlt')
  · exact .inl (hrank' ▸ hlt)
  · exact .inl (hrank ▸ hlt')
  · exact .inr ⟨hrank.trans hrank', hle.trans hle'⟩

theorem StoreLe.total (a b : SourceKind) : StoreLe a b ∨ StoreLe b a := by
  rcases Nat.lt_trichotomy (storeRank a) (storeRank b) with hlt | heq | hlt
  · exact .inl (.inl hlt)
  · rcases le_total a.value b.value with hle | hle
    · exact .inl (.inr ⟨heq, hle⟩)
    · exact .inr (.inr ⟨heq.symm, hle⟩)
  · exact .inr (.inl hlt)

instance : Std.Total fun a b : StoreModel => StoreLe a.kind b.kind :=
  ⟨fun a b => StoreLe.total a.kind b.kind⟩

instance : IsTrans StoreModel fun a b => StoreLe a.kind b.kind :=
  ⟨fun _ _ _ => StoreLe.trans⟩

def storeModels (volume : Volume ι ν) (records : List (Record ν)) : List StoreModel :=
  (present records).map (storeModel volume)

def sortedItems (volume : Volume ι ν) (records : List (Record ν)) : List (Item String ι) :=
  ((storeModels volume records).insertionSort fun a b => StoreLe a.kind b.kind).map
    (StoreModel.item volume)

theorem sortedItems_perm : (sortedItems volume records).Perm
    ((present records).map fun record => (storeModel volume record).item volume) := by
  have hperm := (List.perm_insertionSort (fun a b : StoreModel => StoreLe a.kind b.kind)
    (storeModels volume records)).map (StoreModel.item volume)
  rwa [storeModels, List.map_map] at hperm

theorem sortedItems_sorted :
    (sortedItems volume records).Pairwise fun a b => StoreLe ⟨a.key⟩ ⟨b.key⟩ := by
  rw [sortedItems, List.pairwise_map]
  exact List.pairwise_insertionSort (fun a b : StoreModel => StoreLe a.kind b.kind) _

theorem mem_sortedItems {item : Item String ι} : item ∈ sortedItems volume records ↔
    ∃ record ∈ present records, (storeModel volume record).item volume = item := by
  rw [sortedItems_perm.mem_iff, List.mem_map]

theorem listed_sortedItems : CountOnce.listed (sortedItems volume records) =
    distinctFiles volume records := by
  ext id
  rw [CountOnce.mem_listed, distinctFiles, List.mem_toFinset, List.mem_filterMap]
  constructor
  · rintro ⟨item, hitem, hid⟩
    obtain ⟨record, hrecord, rfl⟩ := mem_sortedItems.1 hitem
    obtain ⟨file, hfile, hregular⟩ := List.mem_filterMap.1 (List.mem_toFinset.1 hid)
    exact ⟨file, List.mem_flatMap.2 ⟨record, hrecord, hfile⟩, hregular⟩
  · rintro ⟨file, hfile, hregular⟩
    obtain ⟨record, hrecord, hlisted⟩ := List.mem_flatMap.1 hfile
    exact ⟨_, mem_sortedItems.2 ⟨record, hrecord, rfl⟩,
      List.mem_toFinset.2 (List.mem_filterMap.2 ⟨file, hlisted, hregular⟩)⟩

theorem first_sortedItems {id : ι} {kind : SourceKind} :
    CountOnce.first (sortedItems volume records) id = some kind.value ↔
      CountedUnder volume records id kind := by
  rw [CountOnce.first_eq_some_iff (fun a b => StoreLe ⟨a⟩ ⟨b⟩) (fun _ => StoreLe.refl _)
    (fun a b h h' => congrArg SourceKind.value (h.antisymm h')) sortedItems_sorted]
  constructor
  · rintro ⟨⟨item, hitem, hkey, hid⟩, hleast⟩
    obtain ⟨record, hrecord, rfl⟩ := mem_sortedItems.1 hitem
    refine ⟨⟨record, hrecord, ?_, hid⟩, fun other hother hlisted => ?_⟩
    · exact congrArg SourceKind.mk hkey
    · exact hleast _ (mem_sortedItems.2 ⟨other, hother, rfl⟩) hlisted
  · rintro ⟨⟨record, hrecord, rfl, hid⟩, hleast⟩
    refine ⟨⟨_, mem_sortedItems.2 ⟨record, hrecord, rfl⟩, rfl, hid⟩, fun item hitem hlisted => ?_⟩
    obtain ⟨other, hother, rfl⟩ := mem_sortedItems.1 hitem
    exact hleast other hother hlisted

theorem unlistedBytes_eq (kinds : SourceKind → Bool) : unlistedBytes volume records kinds =
    (((present records).filter fun record => kinds record.details.source.kind).map
      fun record => ((storeModel volume record).item volume).besides).sum := by
  unfold unlistedBytes
  induction present records with
  | nil => rfl
  | cons record records ih =>
    have hbesides : ((storeModel volume record).item volume).besides =
        if (volume.footprintFiles record).isSome then 0 else (sizeOnDisk record).getD 0 := rfl
    rw [List.filter_cons, List.filter_cons]
    cases hkind : kinds record.details.source.kind <;>
      cases hfiles : (volume.footprintFiles record) <;> simp [hbesides, hfiles, ih]

theorem charge_sortedItems (kind : SourceKind) :
    CountOnce.charge (fileBytes volume) (sortedItems volume records) ∅ kind.value =
      storeFigure volume records kind := by
  have hbesides : CountOnce.besides (sortedItems volume records) kind.value =
      unlistedBytes volume records fun other => other = kind := by
    rw [CountOnce.besides_perm sortedItems_perm, unlistedBytes_eq, CountOnce.besides,
      List.filter_map, List.map_map]
    congr 2
    refine List.filter_congr fun record _ => ?_
    have hname : record.details.source.kind.value = kind.value ↔
        record.details.source.kind = kind :=
      ⟨fun h => congrArg SourceKind.mk h, congrArg SourceKind.value⟩
    show decide (record.details.source.kind.value = kind.value) = _
    rw [decide_eq_decide]
    exact hname
  rw [CountOnce.charge_eq, listed_sortedItems, Finset.sdiff_empty, hbesides, storeFigure]
  congr 1
  refine Finset.sum_congr ?_ fun _ _ => rfl
  ext id
  simp only [Finset.mem_filter, first_sortedItems]

/-- What all stores have together. -/
theorem sum_storeFigure : ∑ name ∈ ((present records).map fun record =>
      record.details.source.kind.value).toFinset, storeFigure volume records ⟨name⟩ =
    diskTotal volume records := by
  have hkeys : ∀ item ∈ sortedItems volume records, item.key ∈ ((present records).map fun record =>
      record.details.source.kind.value).toFinset := by
    intro item hitem
    obtain ⟨record, hrecord, rfl⟩ := mem_sortedItems.1 hitem
    exact List.mem_toFinset.2 (List.mem_map_of_mem hrecord)
  have hsum := CountOnce.sum_charge (fileBytes volume) _ _ hkeys
  rw [listed_sortedItems, (sortedItems_perm.map Item.besides).sum_eq, List.map_map] at hsum
  rw [Function.comp_def] at hsum
  rw [diskTotal, unlistedBytes_eq, List.filter_true, ← hsum]
  exact Finset.sum_congr rfl fun name _ => (charge_sortedItems ⟨name⟩).symm

theorem sizeOnDisk_nonneg (record : Record ν) : 0 ≤ (sizeOnDisk record).getD 0 := by
  cases hsize : sizeOnDisk record with
  | none => exact le_rfl
  | some size =>
    have hpos := (Option.filter_eq_some_iff.1 hsize).2
    exact (of_decide_eq_true hpos).le

theorem storeFigure_nonneg (kind : SourceKind) : 0 ≤ storeFigure volume records kind := by
  rw [← charge_sortedItems]
  apply CountOnce.charge_nonneg fun id => Int.natCast_nonneg _
  intro item hitem
  obtain ⟨record, hrecord, rfl⟩ := mem_sortedItems.1 hitem
  apply item_besides_nonneg
  exact sizeOnDisk_nonneg record

/-- What is listed under a store, below saturation. -/
theorem diskByStore_getElem? (hbelow : diskTotal volume records ≤ i64Max) (kind : SourceKind) :
    (diskByStore volume records)[kind.value]? =
      if ∃ record ∈ present records, record.details.source.kind = kind then
        some (storeFigure volume records kind)
      else none := by
  have hstart : (⟨∅, ∅⟩ : DiskTally ι).InRange := by
    intro kind
    have hbytes : DiskTally.bytes (⟨∅, ∅⟩ : DiskTally ι) kind = 0 := by
      simp [DiskTally.bytes]
    rw [hbytes]
    exact ⟨le_rfl, by decide⟩
  have hperm := List.perm_insertionSort (fun a b : StoreModel => StoreLe a.kind b.kind)
    (storeModels volume records)
  have hfootprints : ∀ model ∈ (storeModels volume records).insertionSort
      (fun a b => StoreLe a.kind b.kind), 0 ≤ model.footprint := by
    intro model hmodel
    obtain ⟨record, -, rfl⟩ := List.mem_map.1 (hperm.mem_iff.1 hmodel)
    exact sizeOnDisk_nonneg record
  have hkinds : (∃ model ∈ (storeModels volume records).insertionSort
      (fun a b => StoreLe a.kind b.kind), model.kind.value = kind.value) ↔
      ∃ record ∈ present records, record.details.source.kind = kind := by
    constructor
    · rintro ⟨model, hmodel, hkind⟩
      obtain ⟨record, hrecord, rfl⟩ := List.mem_map.1 (hperm.mem_iff.1 hmodel)
      exact ⟨record, hrecord, congrArg SourceKind.mk hkind⟩
    · rintro ⟨record, hrecord, rfl⟩
      exact ⟨_, hperm.mem_iff.2 (List.mem_map_of_mem hrecord), rfl⟩
  have hrun := @countModels_perKind _ _ _ volume ⟨∅, ∅⟩ _ hstart hfootprints kind.value
  have hempty : (∅ : Std.ExtTreeMap String ℤ)[kind.value]? = none :=
    Std.ExtTreeMap.getElem?_empty
  rw [hempty, Option.getD_none, zero_add] at hrun
  simp only [Option.isSome_none, Bool.false_eq_true, false_or, hkinds] at hrun
  have hcharge := @charge_sortedItems _ _ _ volume records kind
  rw [sortedItems] at hcharge
  rw [hcharge] at hrun
  refine hrun.trans ?_
  split
  · rename_i hpresent
    obtain ⟨record, hrecord, rfl⟩ := hpresent
    -- no store has more than all of them together
    have hle : storeFigure volume records record.details.source.kind ≤
        diskTotal volume records := by
      rw [← sum_storeFigure]
      exact Finset.single_le_sum (f := fun name => storeFigure volume records ⟨name⟩)
        (fun name _ => storeFigure_nonneg ⟨name⟩)
        (List.mem_toFinset.2 (List.mem_map_of_mem hrecord))
    rw [min_eq_right (hle.trans hbelow)]
  · rfl

end

/-! ## The law -/

/-- The values of a map with known entries. -/
theorem sum_values {bytes : Std.ExtTreeMap String ℤ} {names : Finset String} {figure : String → ℤ}
    (h : ∀ name, bytes[name]? = if name ∈ names then some (figure name) else none) :
    (bytes.toList.map Prod.snd).sum = ∑ name ∈ names, figure name := by
  have hvalues : bytes.toList.map Prod.snd = bytes.keys.map figure := by
    rw [← Std.ExtTreeMap.map_fst_toList_eq_keys, List.map_map]
    refine List.map_congr_left fun entry hentry => ?_
    have hentry' := Std.ExtTreeMap.mem_toList_iff_getElem?_eq_some.1 hentry
    rw [h] at hentry'
    split at hentry'
    · exact (Option.some.inj hentry').symm
    · cases hentry'
  have hnames : bytes.keys.toFinset = names := by
    ext name
    rw [List.mem_toFinset, Std.ExtTreeMap.mem_keys, Std.ExtTreeMap.mem_iff_isSome_getElem?, h]
    split <;> simp [*]
  rw [hvalues, ← hnames, List.sum_toFinset figure Std.ExtTreeMap.nodup_keys]

theorem present_perm {records permuted : List (Record ν)} (h : permuted.Perm records) :
    (present permuted).Perm (present records) := h.filter _

section

variable {volume : Volume ι ν} {records permuted : List (Record ν)}

theorem diskTotal_perm (h : permuted.Perm records) :
    diskTotal volume permuted = diskTotal volume records := by
  have hfiles : distinctFiles volume permuted = distinctFiles volume records := by
    ext id
    simp only [distinctFiles, List.mem_toFinset, List.mem_filterMap, List.mem_flatMap,
      (present_perm h).mem_iff]
  rw [diskTotal, diskTotal, hfiles, unlistedBytes, unlistedBytes,
    (((present_perm h).filter _).map _).sum_eq]

theorem storeFigure_perm (h : permuted.Perm records) (kind : SourceKind) :
    storeFigure volume permuted kind = storeFigure volume records kind := by
  rw [← charge_sortedItems, ← charge_sortedItems]
  have hitems : (sortedItems volume permuted).Perm (sortedItems volume records) :=
    sortedItems_perm.trans (((present_perm h).map _).trans sortedItems_perm.symm)
  exact CountOnce.charge_perm (fun a b => StoreLe ⟨a⟩ ⟨b⟩) (fun _ => StoreLe.refl _)
    (fun a b hab hba => congrArg SourceKind.value (hab.antisymm hba)) hitems sortedItems_sorted
    sortedItems_sorted _

/-- The bytes of each store are the same in any order of the records, each file is counted once,
under the first store that lists it, and all stores together have the size of every file. -/
theorem disk_counts_each_file_once (volume : Volume ι ν) (records : List (Record ν))
    (hbelow : diskTotal volume records ≤ i64Max) :
    (∀ permuted, permuted.Perm records → diskByStore volume permuted = diskByStore volume records) ∧
    ((diskByStore volume records).toList.map Prod.snd).sum = diskTotal volume records ∧
    ∀ kind, (diskByStore volume records)[kind.value]? =
      if ∃ record ∈ present records, record.details.source.kind = kind then
        some (storeFigure volume records kind)
      else none := by
  refine ⟨fun permuted hperm => ?_, ?_, diskByStore_getElem? hbelow⟩
  · apply Std.ExtTreeMap.ext_getElem?
    intro name
    rw [diskByStore_getElem? ((diskTotal_perm hperm).trans_le hbelow) ⟨name⟩,
      diskByStore_getElem? hbelow ⟨name⟩, storeFigure_perm hperm]
    simp only [(present_perm hperm).mem_iff]
  · rw [← sum_storeFigure]
    apply sum_values
    intro name
    rw [diskByStore_getElem? hbelow ⟨name⟩]
    refine if_congr ?_ rfl rfl
    rw [List.mem_toFinset, List.mem_map]
    constructor
    · rintro ⟨record, hrecord, hkind⟩
      exact ⟨record, hrecord, congrArg SourceKind.value hkind⟩
    · rintro ⟨record, hrecord, hkind⟩
      exact ⟨record, hrecord, congrArg SourceKind.mk hkind⟩

end

/-! ## One file in two stores -/

/-- Every path leads to one file of a hundred bytes. -/
def sharedVolume : Volume ℕ Unit where
  identity _ := some 0
  inode _ := ⟨true, 100, by norm_num⟩
  readDir _ := none
  manifestBlobs _ := none
  removablePaths record := [[.normal record.details.source.path]]

def sharedRecord (kind : SourceKind) (path : String) : Record Unit where
  id := path
  state := .ready
  footprintBytes := some 100
  legacyFootprintMb := none
  details :=
    { name := path
      modality := .unknown
      capabilities := []
      source := { kind := kind, path := path }
      registeredAt := 0 }

/-- A file that two stores reach counts its bytes once. -/
theorem shared_file_counts_once :
    ((diskByStore sharedVolume
      [sharedRecord .file "a.gguf", sharedRecord .lmStudio "b.gguf"]).toList.map Prod.snd).sum =
        100 := by
  have htotal : diskTotal sharedVolume
      [sharedRecord .file "a.gguf", sharedRecord .lmStudio "b.gguf"] = 100 := by decide +kernel
  have hbelow : diskTotal sharedVolume
      [sharedRecord .file "a.gguf", sharedRecord .lmStudio "b.gguf"] ≤ i64Max := by
    rw [htotal]
    decide
  exact (disk_counts_each_file_once _ _ hbelow).2.1.trans htotal

end Hedos.Discovery
