import Hedos.Discovery.Duplicates
import Hedos.Lib.Lists
import Mathlib.Data.Prod.Lex
import Mathlib.Data.List.Pairwise
import Mathlib.Data.List.Dedup
import Mathlib.Data.List.Lex

/-!
# Comparing files sample by sample

`identical` (`kernel/src/discovery/duplicates.rs`) as it reads: a pass reads one more sample of each
file that another still matches, and lets a file go whose sample cannot be read.

* the classes after a number of samples are the groups of the files that read alike so far, and one
  more pass keeps them so (`Refined.next`);
* all passes together make the groups that one look at all samples makes (`identical_refines`);
* they find the classes of `Discovery.identical`, which reads a file from its start for every sample
  (`identical_perm`).
-/

namespace Hedos.Discovery.Sampling

open Function

variable {δ : Type} [LinearOrder δ] (read : Path → ℕ × ℕ → Option Bytes) (sha256 : Bytes → δ)

/-! ## Reading -/

/-- A file being read, sample by sample. -/
structure FileReading where
  path : Path
  size : ℕ
  plan : List (ℕ × ℕ)
  /-- What the hasher was given. -/
  hasher : Bytes

namespace FileReading

def of (file : StoredFile) : FileReading where
  path := file.path
  size := file.size
  plan := samples file.size
  hasher := []

/-- Read sample `step`, when the file has one. -/
def advance (reading : FileReading) (step : ℕ) : Option FileReading :=
  match reading.plan[step]? with
  | some range =>
    (read reading.path range).map fun bytes => { reading with hasher := reading.hasher ++ bytes }
  | none => some reading

/-- The size and the digest so far. -/
def key (reading : FileReading) : ℕ ×ₗ δ := toLex (reading.size, sha256 reading.hasher)

end FileReading

abbrev Readings := ℕ → Option FileReading

/-- The lists of a sorted map after each value is pushed to the list of its key. -/
def valuesByKey {κ : Type} [LinearOrder κ] (keyed : List (κ × ℕ)) : List (List ℕ) :=
  ((keyed.map Prod.fst).dedup.mergeSort (· ≤ ·)).map fun key =>
    (keyed.filter (·.1 = key)).map Prod.snd

def readOne (step : ℕ) (state : Readings × List ((ℕ ×ₗ δ) × ℕ)) (index : ℕ) :
    Readings × List ((ℕ ×ₗ δ) × ℕ) :=
  match (state.1 index).bind fun reading => reading.advance read step with
  | some reading =>
    (update state.1 index (some reading), state.2 ++ [(reading.key sha256, index)])
  | none => (update state.1 index none, state.2)

def splitOne (step : ℕ) (state : Readings × List (List ℕ)) (files : List ℕ) :
    Readings × List (List ℕ) :=
  let (readings, keyed) := files.foldl (readOne read sha256 step) (state.1, [])
  (readings, state.2 ++ (valuesByKey keyed).filter (1 < ·.length))

/-- One more sample of every file that is still in a class. -/
def pass (step : ℕ) (state : Readings × List (List ℕ)) : Readings × List (List ℕ) :=
  state.2.foldl (splitOne read sha256 step) (state.1, [])

def passes : List ℕ → Readings × List (List ℕ) → List (List ℕ)
  | [], state => state.2
  | step :: steps, state =>
    let state := pass read sha256 step state
    if state.2.isEmpty then state.2 else passes steps state

/-- The classes as places in the list of files. -/
def identicalPlaces (files : FileMap) : List (List ℕ) :=
  let readings : Readings := fun index => files[index]?.map fun entry => FileReading.of entry.2
  let steps := (files.map fun entry => (samples entry.2.size).length).max?.getD 0
  passes read sha256 (List.range steps) (readings, [List.range files.length])

def identities (files : FileMap) (places : List ℕ) : List Identity :=
  places.filterMap fun index => files[index]?.map Prod.fst

/-- Split the files, all of one size, into the classes of two or more whose samples are the same. -/
def identical (files : FileMap) : List (List Identity) :=
  (identicalPlaces read sha256 files).map (identities files)

/-! ## One look at all samples -/

/-- All samples of a file, when they can be read. -/
def content (files : FileMap) (index : ℕ) : Option (List Bytes) :=
  files[index]?.bind fun entry => (samples entry.2.size).mapM (read entry.2.path)

/-- The readable files grouped by their samples, and the groups of two or more. -/
def oneShot (files : FileMap) : List (List ℕ) :=
  ((((List.range files.length).filterMap (content read files)).dedup).map fun bytes =>
    (List.range files.length).filter (content read files · = some bytes)).filter (1 < ·.length)

/-! ## One class -/

section OneClass

variable {read sha256}

/-- The reading of a file after one more sample, if it is being read and the sample can be. -/
def advanced (read : Path → ℕ × ℕ → Option Bytes) (step : ℕ) (readings : Readings) (index : ℕ) :
    Option FileReading :=
  (readings index).bind fun reading => reading.advance read step

variable (step : ℕ)

omit [LinearOrder δ] in
theorem readOne_eq (state : Readings × List ((ℕ ×ₗ δ) × ℕ)) (index : ℕ) :
    readOne read sha256 step state index =
      (update state.1 index (advanced read step state.1 index),
        state.2 ++ ((advanced read step state.1 index).map fun reading =>
          (reading.key sha256, index)).toList) := by
  unfold readOne advanced
  cases (state.1 index).bind fun reading => reading.advance read step with
  | none => simp
  | some reading => rfl

omit [LinearOrder δ] in
theorem foldl_readOne (step : ℕ) {files : List ℕ} (hnodup : files.Nodup)
    (state : Readings × List ((ℕ ×ₗ δ) × ℕ)) :
    (∀ index, (files.foldl (readOne read sha256 step) state).1 index =
      if index ∈ files then advanced read step state.1 index else state.1 index) ∧
    (files.foldl (readOne read sha256 step) state).2 =
      state.2 ++ files.filterMap fun index =>
        (advanced read step state.1 index).map fun reading => (reading.key sha256, index) := by
  induction files generalizing state with
  | nil => simp
  | cons first files ih =>
    obtain ⟨hfirst, hrest⟩ := List.nodup_cons.1 hnodup
    obtain ⟨hreadings, hkeyed⟩ := ih hrest (readOne read sha256 step state first)
    rw [readOne_eq] at hreadings hkeyed
    dsimp only at hreadings hkeyed
    rw [List.foldl_cons, readOne_eq]
    have hother (index : ℕ) (h : index ≠ first) :
        advanced read step
          (update state.1 first (advanced read step state.1 first)) index =
            advanced read step state.1 index := by
      rw [advanced, update_of_ne h, advanced]
    constructor
    · intro index
      rw [hreadings index]
      by_cases hindex : index = first
      · subst hindex
        rw [if_neg hfirst, if_pos (.head _), update_self]
      · rw [hother index hindex, update_of_ne hindex]
        simp [hindex]
    · rw [hkeyed, List.append_assoc]
      congr 1
      have hsame : (files.filterMap fun index =>
          (advanced read step (update state.1 first (advanced read step state.1 first))
            index).map fun reading => (reading.key sha256, index)) =
          files.filterMap fun index =>
            (advanced read step state.1 index).map fun reading => (reading.key sha256, index) := by
        refine List.filterMap_congr fun index hindex => ?_
        rw [hother index fun h => hfirst (h ▸ hindex)]
      rw [hsame, List.filterMap_cons]
      cases advanced read step state.1 first <;> rfl

/-- The files of a class by the key each has. -/
theorem valuesByKey_filterMap {κ : Type} [LinearOrder κ] (files : List ℕ) (keyOf : ℕ → Option κ) :
    valuesByKey (files.filterMap fun index => (keyOf index).map fun key => (key, index)) =
      ((files.filterMap keyOf).dedup.mergeSort (· ≤ ·)).map fun key =>
        files.filter (keyOf · = some key) := by
  have hkeys : (files.filterMap fun index => (keyOf index).map fun key => (key, index)).map
      Prod.fst = files.filterMap keyOf := by
    rw [List.map_filterMap]
    refine List.filterMap_congr fun index _ => ?_
    cases keyOf index <;> rfl
  have hfiles (key : κ) : ((files.filterMap fun index =>
      (keyOf index).map fun key => (key, index)).filter (·.1 = key)).map Prod.snd =
        files.filter (keyOf · = some key) := by
    rw [List.filter_filterMap, List.map_filterMap, ← List.filterMap_eq_filter]
    refine List.filterMap_congr fun index _ => ?_
    cases hread : keyOf index with
    | none => simp [Option.guard, hread]
    | some other =>
      by_cases hkey : other = key <;> simp [Option.guard, Option.filter, hread, hkey]
  unfold valuesByKey
  rw [hkeys]
  exact List.map_congr_left fun key _ => hfiles key

/-- The key of a file after one more sample. -/
def keyAt (read : Path → ℕ × ℕ → Option Bytes) (sha256 : Bytes → δ) (step : ℕ)
    (readings : Readings) (index : ℕ) : Option (ℕ ×ₗ δ) :=
  (advanced read step readings index).map fun reading => reading.key sha256

/-- What a pass makes of one class. -/
def parts (read : Path → ℕ × ℕ → Option Bytes) (sha256 : Bytes → δ) (step : ℕ)
    (readings : Readings) (files : List ℕ) : List (List ℕ) :=
  (((files.filterMap (keyAt read sha256 step readings)).dedup.mergeSort (· ≤ ·)).map fun key =>
    files.filter (keyAt read sha256 step readings · = some key)).filter (1 < ·.length)

variable {files : List ℕ}

theorem parts_congr {step : ℕ} {readings other : Readings}
    (h : ∀ index ∈ files, other index = readings index) :
    parts read sha256 step other files = parts read sha256 step readings files := by
  have hkey : ∀ index ∈ files,
      keyAt read sha256 step other index = keyAt read sha256 step readings index := by
    intro index hindex
    rw [keyAt, advanced, h index hindex, keyAt, advanced]
  unfold parts
  rw [List.filterMap_congr hkey]
  congr 1
  refine List.map_congr_left fun key _ => List.filter_congr fun index hindex => ?_
  rw [hkey index hindex]

theorem mem_parts {step : ℕ} {readings : Readings} {part : List ℕ} :
    part ∈ parts read sha256 step readings files ↔
      1 < part.length ∧ ∃ index ∈ files, ∃ key, keyAt read sha256 step readings index = some key ∧
        part = files.filter (keyAt read sha256 step readings · = some key) := by
  unfold parts
  simp only [List.mem_filter, List.mem_map, List.mem_mergeSort, List.mem_dedup, List.mem_filterMap,
    decide_eq_true_eq]
  constructor
  · rintro ⟨⟨key, ⟨index, hindex, hkey⟩, rfl⟩, hlength⟩
    exact ⟨hlength, index, hindex, key, hkey, rfl⟩
  · rintro ⟨hlength, index, hindex, key, hkey, rfl⟩
    exact ⟨⟨key, ⟨index, hindex, hkey⟩, rfl⟩, hlength⟩

theorem parts_disjoint (readings : Readings) (files : List ℕ) :
    (parts read sha256 step readings files).Pairwise List.Disjoint := by
  unfold parts
  refine List.Pairwise.filter _ (List.pairwise_map.2 ?_)
  have hnodup : ((files.filterMap (keyAt read sha256 step readings)).dedup.mergeSort
      (· ≤ ·)).Nodup := (List.mergeSort_perm _ _).nodup_iff.2 (List.nodup_dedup _)
  refine hnodup.imp fun {a b} hne index ha hb => hne ?_
  simp only [List.mem_filter, decide_eq_true_eq] at ha hb
  exact Option.some.inj (ha.2.symm.trans hb.2)

/-- The parts of two classes have no file in common, nor two parts of one. -/
theorem flatMap_parts_disjoint (readings : Readings) {classes : List (List ℕ)}
    (h : classes.Pairwise List.Disjoint) :
    (classes.flatMap (parts read sha256 step readings)).Pairwise List.Disjoint := by
  refine List.pairwise_flatMap.2 ⟨fun members _ => parts_disjoint step readings members, ?_⟩
  refine h.imp fun {a b} hab p hp q hq index hindexp hindexq => ?_
  obtain ⟨_, _, _, _, _, rfl⟩ := mem_parts.1 hp
  obtain ⟨_, _, _, _, _, rfl⟩ := mem_parts.1 hq
  exact hab (List.mem_filter.1 hindexp).1 (List.mem_filter.1 hindexq).1

theorem splitOne_eq (state : Readings × List (List ℕ)) (hnodup : files.Nodup) :
    splitOne read sha256 step state files =
      (fun index => if index ∈ files then advanced read step state.1 index else state.1 index,
        state.2 ++ parts read sha256 step state.1 files) := by
  obtain ⟨hreadings, hkeyed⟩ := @foldl_readOne _ read sha256 step _ hnodup (state.1, [])
  have hparts := valuesByKey_filterMap files (keyAt read sha256 step state.1)
  unfold splitOne
  generalize hfold : files.foldl (readOne read sha256 step) (state.1, []) = read' at *
  obtain ⟨readings, keyed⟩ := read'
  dsimp only at hreadings hkeyed ⊢
  refine Prod.ext (funext hreadings) ?_
  rw [hkeyed, List.nil_append, parts, ← hparts]
  simp only [keyAt, Option.map_map, comp_def]

/-! ## One pass -/

/-- The pass gives every file in a class one more sample, and splits each class. -/
theorem foldl_splitOne (step : ℕ) {classes : List (List ℕ)}
    (hdisjoint : classes.Pairwise List.Disjoint) (hnodup : ∀ files ∈ classes, files.Nodup)
    (state : Readings × List (List ℕ)) :
    classes.foldl (splitOne read sha256 step) state =
      (fun index => if ∃ files ∈ classes, index ∈ files then advanced read step state.1 index
        else state.1 index,
        state.2 ++ classes.flatMap (parts read sha256 step state.1)) := by
  induction classes generalizing state with
  | nil => simp
  | cons files classes ih =>
    obtain ⟨hfirst, hrest⟩ := List.pairwise_cons.1 hdisjoint
    rw [List.foldl_cons, splitOne_eq step state (hnodup files (.head _)),
      ih hrest fun other hother => hnodup other (.tail _ hother)]
    -- a later class has none of the files read so far
    have houtside {other : List ℕ} (hother : other ∈ classes) {index : ℕ} (hindex : index ∈ other) :
        index ∉ files := fun hmem => hfirst other hother hmem hindex
    refine Prod.ext (funext fun index => ?_) ?_
    · dsimp only
      by_cases hhere : index ∈ files
      · have hnot : ¬ ∃ other ∈ classes, index ∈ other :=
          fun ⟨other, hother, hmem⟩ => houtside hother hmem hhere
        rw [if_neg hnot, if_pos hhere, if_pos ⟨files, .head _, hhere⟩]
      · by_cases hlater : ∃ other ∈ classes, index ∈ other
        · obtain ⟨other, hother, hmem⟩ := hlater
          rw [if_pos ⟨other, hother, hmem⟩, if_pos ⟨other, .tail _ hother, hmem⟩,
            advanced, if_neg hhere, advanced]
        · have hnone : ¬ ∃ other ∈ files :: classes, index ∈ other := by
            rintro ⟨other, hother, hmem⟩
            rcases List.mem_cons.1 hother with rfl | hother
            · exact hhere hmem
            · exact hlater ⟨other, hother, hmem⟩
          rw [if_neg hlater, if_neg hhere, if_neg hnone]
    · dsimp only
      rw [List.append_assoc, List.flatMap_cons]
      congr 2
      refine List.flatMap_congr fun other hother => parts_congr fun index hindex => ?_
      exact if_neg (houtside hother hindex)

end OneClass

/-! ## What the classes are -/

section Classes

variable (files : FileMap)

/-- The first `step` samples of a file, when they can be read. -/
def samplesOf (step index : ℕ) : Option (List Bytes) :=
  files[index]?.bind fun entry => ((samples entry.2.size).take step).mapM (read entry.2.path)

/-- The files whose first `step` samples are these. -/
def group (step : ℕ) (bytes : List Bytes) : List ℕ :=
  (List.range files.length).filter (samplesOf read files step · = some bytes)

variable {read sha256 files}

variable {step index size : ℕ} {bytes : List Bytes} {entry : Identity × StoredFile} {range : ℕ × ℕ}
  {state : Readings × List (List ℕ)}

theorem mem_group :
    index ∈ group read files step bytes ↔ samplesOf read files step index = some bytes := by
  rw [group, List.mem_filter, List.mem_range, decide_eq_true_eq]
  refine and_iff_right_of_imp fun h => ?_
  obtain ⟨entry, hentry, _⟩ := Option.bind_eq_some_iff.1 h
  exact (List.getElem?_eq_some_iff.1 hentry).1

theorem samplesOf_succ
    (hentry : files[index]? = some entry) (hrange : (samples entry.2.size)[step]? = some range) :
    samplesOf read files (step + 1) index =
      (samplesOf read files step index).bind fun bytes =>
        (read entry.2.path range).map fun sample => bytes ++ [sample] := by
  unfold samplesOf
  rw [hentry, Option.bind_some, Option.bind_some, List.take_add_one, hrange, List.mapM_append]
  cases ((samples entry.2.size).take step).mapM (read entry.2.path) with
  | none => rfl
  | some bytes =>
    cases hread : read entry.2.path range with
    | none => simp [hread]
    | some sample => simp [hread]

/-- What the passes have made after the first `step` samples of files of one size. -/
structure Refined (read : Path → ℕ × ℕ → Option Bytes) (files : FileMap) (step : ℕ)
    (state : Readings × List (List ℕ)) : Prop where
  disjoint : state.2.Pairwise List.Disjoint
  classes : ∀ members ∈ state.2, ∃ bytes, members = group read files step bytes
  groups : ∀ bytes, 1 < (group read files step bytes).length → group read files step bytes ∈ state.2
  held : ∀ members ∈ state.2, ∀ index ∈ members, ∀ entry bytes, files[index]? = some entry →
    samplesOf read files step index = some bytes →
    state.1 index = some { FileReading.of entry.2 with hasher := bytes.flatten }

/-- Every file has as many samples as the others. -/
def OneSize (files : FileMap) (size : ℕ) : Prop := ∀ entry ∈ files, entry.2.size = size

theorem entry_of_group (h : index ∈ group read files step bytes) :
    ∃ entry, files[index]? = some entry ∧ entry ∈ files := by
  obtain ⟨entry, hentry, _⟩ := Option.bind_eq_some_iff.1 (mem_group.1 h)
  exact ⟨entry, hentry, List.mem_of_getElem? hentry⟩

theorem Refined.nodup (h : Refined read files step state) : ∀ members ∈ state.2, members.Nodup := by
  intro members hmembers
  obtain ⟨bytes, rfl⟩ := h.classes members hmembers
  exact List.nodup_range.filter _

/-- What a file of a class reads next, and the key it then has. -/
theorem Refined.advanced_eq (h : Refined read files step state) (hsize : OneSize files size)
    (hrange : (samples size)[step]? = some range) (hclass : group read files step bytes ∈ state.2)
    (hindex : index ∈ group read files step bytes) (hentry : files[index]? = some entry) :
    advanced read step state.1 index =
      (read entry.2.path range).map fun sample =>
        { FileReading.of entry.2 with hasher := bytes.flatten ++ sample } := by
  have hplan : (samples entry.2.size)[step]? = some range := by
    rw [hsize entry (List.mem_of_getElem? hentry), hrange]
  rw [advanced, h.held _ hclass index hindex entry bytes hentry (mem_group.1 hindex),
    Option.bind_some, FileReading.advance]
  simp only [FileReading.of, hplan]

theorem samplesOf_group (hsize : OneSize files size) (hrange : (samples size)[step]? = some range)
    (hindex : index ∈ group read files step bytes) (hentry : files[index]? = some entry) :
    samplesOf read files (step + 1) index =
      (read entry.2.path range).map fun sample => bytes ++ [sample] := by
  have hplan : (samples entry.2.size)[step]? = some range := by
    rw [hsize entry (List.mem_of_getElem? hentry), hrange]
  rw [samplesOf_succ hentry hplan, mem_group.1 hindex, Option.bind_some]

theorem samplesOf_earlier
    {sample : Bytes} (hsize : OneSize files size) (hrange : (samples size)[step]? = some range)
    (h : samplesOf read files (step + 1) index = some (bytes ++ [sample])) :
    samplesOf read files step index = some bytes := by
  obtain ⟨found, hfound, _⟩ := Option.bind_eq_some_iff.1 h
  have hplan : (samples found.2.size)[step]? = some range := by
    rw [hsize found (List.mem_of_getElem? hfound), hrange]
  rw [samplesOf_succ hfound hplan] at h
  obtain ⟨earlier, hearlier, hmap⟩ := Option.bind_eq_some_iff.1 h
  obtain ⟨last, _, hlast⟩ := Option.map_eq_some_iff.1 hmap
  rw [hearlier, (List.append_inj' hlast rfl).1]

omit [LinearOrder δ] in
/-- The key of a file of a class says which sample it has read. -/
theorem Refined.keyAt_eq {size step : ℕ} {range : ℕ × ℕ} {state : Readings × List (List ℕ)}
    (h : Refined read files step state) (hsize : OneSize files size)
    (hrange : (samples size)[step]? = some range) {bytes : List Bytes}
    (hclass : group read files step bytes ∈ state.2) {index : ℕ}
    (hindex : index ∈ group read files step bytes) {entry : Identity × StoredFile}
    (hentry : files[index]? = some entry) :
    keyAt read sha256 step state.1 index =
      (read entry.2.path range).map fun sample =>
        toLex (size, sha256 (bytes.flatten ++ sample)) := by
  rw [keyAt, h.advanced_eq hsize hrange hclass hindex hentry, Option.map_map]
  congr 1
  funext sample
  show toLex (entry.2.size, sha256 (bytes.flatten ++ sample)) = _
  rw [hsize entry (List.mem_of_getElem? hentry)]

/-- The parts of a class are the groups of its files by one more sample. -/
theorem Refined.part_eq (h : Refined read files step state) (hsize : OneSize files size)
    (hrange : (samples size)[step]? = some range) (hinj : Injective sha256)
    (hclass : group read files step bytes ∈ state.2) (sample : Bytes) :
    (group read files step bytes).filter (keyAt read sha256 step state.1 · =
      some (toLex (size, sha256 (bytes.flatten ++ sample)))) =
        group read files (step + 1) (bytes ++ [sample]) := by
  rw [group, group, List.filter_filter]
  refine List.filter_congr fun other hother => ?_
  rw [← Bool.decide_and, decide_eq_decide]
  constructor
  · rintro ⟨hkey, hsame⟩
    have hmem : other ∈ group read files step bytes := mem_group.2 hsame
    obtain ⟨found, hfound, _⟩ := entry_of_group hmem
    rw [h.keyAt_eq hsize hrange hclass hmem hfound] at hkey
    obtain ⟨bytes', hread, hdigest⟩ := Option.map_eq_some_iff.1 hkey
    have hpair : (size, sha256 (bytes.flatten ++ bytes'))
        = (size, sha256 (bytes.flatten ++ sample)) := hdigest
    have hbytes := List.append_cancel_left (hinj (Prod.mk.inj hpair).2)
    rw [samplesOf_group hsize hrange hmem hfound, hread, hbytes]
    rfl
  · intro hnext
    have hearlier := samplesOf_earlier hsize hrange hnext
    have hmem : other ∈ group read files step bytes := mem_group.2 hearlier
    obtain ⟨found, hfound, _⟩ := entry_of_group hmem
    refine ⟨?_, hearlier⟩
    rw [samplesOf_group hsize hrange hmem hfound] at hnext
    obtain ⟨last, hread, hlast⟩ := Option.map_eq_some_iff.1 hnext
    rw [h.keyAt_eq hsize hrange hclass hmem hfound, hread,
      List.singleton_inj.1 (List.append_cancel_left hlast)]
    rfl

/-- One more sample refines the classes, and none of one file is left. -/
theorem Refined.next (h : Refined read files step state) (hsize : OneSize files size)
    (hrange : (samples size)[step]? = some range) (hinj : Injective sha256) :
    Refined read files (step + 1) (pass read sha256 step state) ∧
      ∀ members ∈ (pass read sha256 step state).2, 1 < members.length := by
  have hpass : pass read sha256 step state = _ :=
    foldl_splitOne step h.disjoint h.nodup (state.1, [])
  have hpart {members part : List ℕ} (hmembers : members ∈ state.2)
      (hpart : part ∈ parts read sha256 step state.1 members) :
      1 < part.length ∧ ∃ bytes sample, members = group read files step bytes ∧
        part = group read files (step + 1) (bytes ++ [sample]) := by
    obtain ⟨bytes, rfl⟩ := h.classes members hmembers
    obtain ⟨hlength, index, hindex, key, hkey, rfl⟩ := mem_parts.1 hpart
    obtain ⟨entry, hentry, _⟩ := entry_of_group hindex
    rw [h.keyAt_eq hsize hrange hmembers hindex hentry] at hkey
    obtain ⟨sample, _, rfl⟩ := Option.map_eq_some_iff.1 hkey
    exact ⟨hlength, bytes, sample, rfl, h.part_eq hsize hrange hinj hmembers sample⟩
  rw [hpass]
  dsimp only [List.nil_append]
  refine ⟨⟨?_, ?_, ?_, ?_⟩, ?_⟩
  · exact flatMap_parts_disjoint step state.1 h.disjoint
  · intro part hmem
    obtain ⟨members, hmembers, hin⟩ := List.mem_flatMap.1 hmem
    obtain ⟨_, bytes, sample, _, hgroup⟩ := hpart hmembers hin
    exact ⟨_, hgroup⟩
  · intro bytes hlength
    obtain ⟨index, hindex⟩ := List.exists_mem_of_length_pos (Nat.zero_lt_of_lt hlength)
    obtain ⟨entry, hentry, hfile⟩ := entry_of_group hindex
    have hplan : (samples entry.2.size)[step]? = some range := by rw [hsize entry hfile, hrange]
    have hnext := mem_group.1 hindex
    rw [samplesOf_succ hentry hplan] at hnext
    obtain ⟨earlier, hearlier, hmap⟩ := Option.bind_eq_some_iff.1 hnext
    obtain ⟨sample, hsample, rfl⟩ := Option.map_eq_some_iff.1 hmap
    have hsub : (group read files (step + 1) (earlier ++ [sample])).Sublist
        (group read files step earlier) :=
      List.monotone_filter_right _ fun other hother =>
        decide_eq_true (samplesOf_earlier hsize hrange (of_decide_eq_true hother))
    have hbefore : 1 < (group read files step earlier).length :=
      hlength.trans_le hsub.length_le
    have hclass := h.groups earlier hbefore
    refine List.mem_flatMap.2 ⟨_, hclass, mem_parts.2 ⟨hlength, index, hsub.subset hindex, _, ?_,
      (h.part_eq hsize hrange hinj hclass sample).symm⟩⟩
    rw [h.keyAt_eq hsize hrange hclass (hsub.subset hindex) hentry, hsample]
    rfl
  · intro part hmem index hindex entry bytes hentry hbytes
    obtain ⟨members, hmembers, hin⟩ := List.mem_flatMap.1 hmem
    obtain ⟨_, earlier, sample, rfl, rfl⟩ := hpart hmembers hin
    have hbefore : index ∈ group read files step earlier :=
      mem_group.2 (samplesOf_earlier hsize hrange (mem_group.1 hindex))
    refine (if_pos ⟨_, hmembers, hbefore⟩).trans ?_
    rw [h.advanced_eq hsize hrange hmembers hbefore hentry]
    rw [samplesOf_group hsize hrange hbefore hentry] at hbytes
    obtain ⟨last, hread, rfl⟩ := Option.map_eq_some_iff.1 hbytes
    rw [hread, Option.map_some, List.flatten_append, List.flatten_singleton]
  · intro part hmem
    obtain ⟨members, hmembers, hin⟩ := List.mem_flatMap.1 hmem
    exact (hpart hmembers hin).1

end Classes

/-! ## All passes -/

section Runs

variable {read sha256} {files : FileMap}

/-- Stopping early changes nothing. -/
theorem passes_eq (steps : List ℕ) (state : Readings × List (List ℕ)) :
    passes read sha256 steps state =
      (steps.foldl (fun state step => pass read sha256 step state) state).2 := by
  induction steps generalizing state with
  | nil => rfl
  | cons step steps ih =>
    rw [passes, List.foldl_cons]
    split
    · rename_i hempty
      have hnone := List.isEmpty_iff.1 hempty
      generalize pass read sha256 step state = next at hnone ⊢
      obtain ⟨readings, classes⟩ := next
      obtain rfl : classes = [] := hnone
      clear ih hempty
      induction steps with
      | nil => rfl
      | cons step steps ih => exact ih
    · exact ih _

/-- The readings and the one class at the start. -/
def begun (files : FileMap) : Readings × List (List ℕ) :=
  (fun index => files[index]?.map fun entry => FileReading.of entry.2, [List.range files.length])

theorem begun_refined (files : FileMap) : Refined read files 0 (begun files) := by
  have hall (index : ℕ) (h : index < files.length) : samplesOf read files 0 index = some [] := by
    rw [samplesOf, List.getElem?_eq_getElem h]
    rfl
  have hrange : List.range files.length = group read files 0 [] := by
    refine (List.filter_eq_self.2 fun index hindex => ?_).symm
    exact decide_eq_true (hall index (List.mem_range.1 hindex))
  refine ⟨List.pairwise_singleton _ _, ?_, ?_, ?_⟩
  · intro members hmembers
    exact ⟨[], (List.mem_singleton.1 hmembers).trans hrange⟩
  · intro bytes hlength
    obtain ⟨index, hindex⟩ := List.exists_mem_of_length_pos (Nat.zero_lt_of_lt hlength)
    have hsome := mem_group.1 hindex
    rw [hall index (List.mem_range.1 (List.mem_filter.1 hindex).1)] at hsome
    rw [← Option.some.inj hsome, ← hrange]
    exact List.mem_singleton_self _
  · intro members hmembers index hindex entry bytes hentry hbytes
    rw [hall index (List.getElem?_eq_some_iff.1 hentry).1] at hbytes
    cases hbytes
    show files[index]?.map _ = _
    rw [hentry]
    rfl

variable {size : ℕ}

theorem run_refined (hsize : OneSize files size) (hinj : Injective sha256)
    {steps : ℕ} (hsteps : steps ≤ (samples size).length) :
    Refined read files steps
      ((List.range steps).foldl (fun state step => pass read sha256 step state) (begun files)) ∧
    (0 < steps → ∀ members ∈
      ((List.range steps).foldl (fun state step => pass read sha256 step state) (begun files)).2,
        1 < members.length) := by
  induction steps with
  | zero => exact ⟨begun_refined files, fun h => absurd h (Nat.lt_irrefl 0)⟩
  | succ steps ih =>
    obtain ⟨range, hrange⟩ : ∃ range, (samples size)[steps]? = some range :=
      ⟨_, List.getElem?_eq_getElem (by omega)⟩
    rw [List.range_succ, List.foldl_append, List.foldl_cons, List.foldl_nil]
    obtain ⟨hrefined, hlarge⟩ := (ih (by omega)).1.next hsize hrange hinj
    exact ⟨hrefined, fun _ => hlarge⟩

/-- There is a sample at least, also of an empty file. -/
theorem samples_length_pos (size : ℕ) : 0 < (samples size).length :=
  Nat.succ_pos _

theorem steps_eq (hsize : OneSize files size) (hfiles : files ≠ []) :
    (files.map fun entry => (samples entry.2.size).length).max?.getD 0 = (samples size).length := by
  have hlengths : (files.map fun entry => (samples entry.2.size).length) =
      List.replicate files.length (samples size).length := by
    refine List.eq_replicate_iff.2 ⟨List.length_map _, fun length hlength => ?_⟩
    obtain ⟨entry, hentry, rfl⟩ := List.mem_map.1 hlength
    rw [hsize entry hentry]
  rw [hlengths, List.max?_replicate_of_pos (List.length_pos_of_ne_nil hfiles), Option.getD_some]

theorem content_eq (hsize : OneSize files size) (index : ℕ) :
    content read files index = samplesOf read files (samples size).length index := by
  unfold content samplesOf
  cases hentry : files[index]? with
  | none => rfl
  | some entry =>
    rw [Option.bind_some, Option.bind_some, hsize entry (List.mem_of_getElem? hentry),
      List.take_length]

theorem mem_oneShot (hsize : OneSize files size) {members : List ℕ} :
    members ∈ oneShot read files ↔ 1 < members.length ∧
      ∃ bytes, members = group read files (samples size).length bytes := by
  have hgroup (bytes : List Bytes) :
      ((List.range files.length).filter (content read files · = some bytes)) =
        group read files (samples size).length bytes := by
    refine List.filter_congr fun index _ => ?_
    rw [content_eq hsize]
  simp only [oneShot, List.mem_filter, List.mem_map, List.mem_dedup, decide_eq_true_eq, hgroup]
  constructor
  · rintro ⟨⟨bytes, _, rfl⟩, hlength⟩
    exact ⟨hlength, bytes, rfl⟩
  · rintro ⟨hlength, bytes, rfl⟩
    obtain ⟨index, hindex⟩ := List.exists_mem_of_length_pos (Nat.zero_lt_of_lt hlength)
    refine ⟨⟨bytes, List.mem_filterMap.2 ⟨index, (List.mem_filter.1 hindex).1, ?_⟩, rfl⟩, hlength⟩
    rw [content_eq hsize, mem_group.1 hindex]

theorem oneShot_nodup (read : Path → ℕ × ℕ → Option Bytes) (files : FileMap) :
    (oneShot read files).Nodup := by
  refine List.Nodup.filter _ (List.Nodup.map_on ?_ (List.nodup_dedup _))
  intro a ha b _ hsame
  obtain ⟨index, hindex, ha⟩ := List.mem_filterMap.1 (List.mem_dedup.1 ha)
  have hmem : index ∈ (List.range files.length).filter (content read files · = some a) :=
    List.mem_filter.2 ⟨hindex, decide_eq_true ha⟩
  rw [hsame] at hmem
  have hb := of_decide_eq_true (List.mem_filter.1 hmem).2
  exact Option.some.inj (ha.symm.trans hb)

/-- Whatever reads fail, the classes are the groups that one look at all the samples makes. -/
theorem identical_refines (read : Path → ℕ × ℕ → Option Bytes) (sha256 : Bytes → δ)
    (files : FileMap) (size : ℕ) (hsize : OneSize files size) (hfiles : files ≠ [])
    (hinj : Injective sha256) :
    (identical read sha256 files).Perm ((oneShot read files).map (identities files)) := by
  refine List.Perm.map _ ?_
  rw [identicalPlaces, steps_eq hsize hfiles, passes_eq]
  obtain ⟨hrefined, hlarge⟩ := run_refined hsize hinj (le_refl (samples size).length)
  have hlarge := hlarge (samples_length_pos size)
  change (List.foldl _ (begun files) _).2.Perm _
  generalize (List.range (samples size).length).foldl
    (fun state step => pass read sha256 step state) (begun files) = state at hrefined hlarge ⊢
  have hnodup : state.2.Nodup := by
    refine hrefined.disjoint.imp_of_mem fun {a b} ha _ hdisjoint hsame => ?_
    obtain ⟨index, hindex⟩ := List.exists_mem_of_length_pos (Nat.zero_lt_of_lt (hlarge a ha))
    exact hdisjoint hindex (hsame ▸ hindex)
  refine (List.perm_ext_iff_of_nodup hnodup (oneShot_nodup read files)).2 fun members => ?_
  rw [mem_oneShot hsize]
  constructor
  · exact fun hmembers => ⟨hlarge members hmembers, hrefined.classes members hmembers⟩
  · rintro ⟨hlength, bytes, rfl⟩
    exact hrefined.groups bytes hlength

end Runs

/-- Three files of three bytes; the last cannot be read. -/
def threeFiles : FileMap :=
  [((1, 1), { path := [.normal "a"], size := 3, links := 1, bookkeeping := false }),
    ((1, 2), { path := [.normal "b"], size := 3, links := 1, bookkeeping := false }),
    ((1, 3), { path := [.normal "c"], size := 3, links := 1, bookkeeping := false })]

def readTwo (path : Path) (_ : ℕ × ℕ) : Option Bytes :=
  if path = [.normal "c"] then none else some [7, 8, 9]

theorem identical_refines_three :
    threeFiles ≠ [] ∧
      (identical readTwo (List.map UInt8.toNat) threeFiles).Perm
        ((oneShot readTwo threeFiles).map (identities threeFiles)) :=
  ⟨by simp [threeFiles], identical_refines readTwo _ threeFiles 3 (by simp [OneSize, threeFiles])
    (by simp [threeFiles]) (List.map_injective_iff.2 fun _ _ h => UInt8.toNat_inj.1 h)⟩

/-! ## The classes in one look after the other -/

section Stepwise

variable {disk : Disk} {rank : Bytes → δ} {files : FileMap} {step : ℕ}
  {state : Readings × List (List ℕ)}

/-- The files at some places. -/
def entriesAt (files : FileMap) (places : List ℕ) : FileMap := places.filterMap (files[·]?)

/-- The classes are apart, and each of their files has been read so far. -/
structure Stepped (disk : Disk) (files : FileMap) (step : ℕ)
    (state : Readings × List (List ℕ)) : Prop where
  disjoint : state.2.Pairwise List.Disjoint
  nodup : ∀ members ∈ state.2, members.Nodup
  held : ∀ members ∈ state.2, ∀ index ∈ members, ∃ entry bytes, files[index]? = some entry ∧
    sampled disk entry.2 step = some bytes ∧
    state.1 index = some { FileReading.of entry.2 with hasher := bytes }

theorem sampled_succ (disk : Disk) (file : StoredFile) (step : ℕ) :
    sampled disk file (step + 1) = (sampled disk file step).bind fun bytes =>
      match (samples file.size)[step]? with
      | some range => (hashRange disk file.path range).map (bytes ++ ·)
      | none => some bytes := by
  unfold sampled
  rw [List.take_add_one, List.mapM_append]
  cases ((samples file.size).take step).mapM (hashRange disk file.path) with
  | none => rfl
  | some read =>
    cases (samples file.size)[step]? with
    | none => simp
    | some range =>
      cases hread : hashRange disk file.path range with
      | none => simp [hread]
      | some bytes => simp [hread]

/-- What a file of a class has read after one more sample. -/
theorem Stepped.advanced_eq (h : Stepped disk files step state) {members : List ℕ}
    (hmembers : members ∈ state.2) {index : ℕ} (hindex : index ∈ members) :
    ∃ entry, files[index]? = some entry ∧ advanced (hashRange disk) step state.1 index =
      (sampled disk entry.2 (step + 1)).map fun bytes =>
        { FileReading.of entry.2 with hasher := bytes } := by
  obtain ⟨entry, bytes, hentry, hbytes, hread⟩ := h.held members hmembers index hindex
  refine ⟨entry, hentry, ?_⟩
  rw [advanced, hread, Option.bind_some, sampled_succ, hbytes, Option.bind_some,
    FileReading.advance]
  show (match (samples entry.2.size)[step]? with | some range => _ | none => _) = _
  cases (samples entry.2.size)[step]? with
  | none => rfl
  | some range => exact Option.map_map .. |>.symm

/-- A key in the order of the digests. -/
def ranked (rank : Bytes → δ) (key : ℕ × Bytes) : ℕ ×ₗ δ := toLex (key.1, rank key.2)

omit [LinearOrder δ] in
theorem ranked_injective (hrank : Injective rank) : Injective (ranked rank) := by
  intro a b h
  have hpair : (a.1, rank a.2) = (b.1, rank b.2) := toLex_inj.1 h
  exact Prod.ext (Prod.mk.inj hpair).1 (hrank (Prod.mk.inj hpair).2)

omit [LinearOrder δ] in
theorem Stepped.keyAt_eq (h : Stepped disk files step state) {members : List ℕ}
    (hmembers : members ∈ state.2) {index : ℕ} (hindex : index ∈ members) :
    ∃ entry, files[index]? = some entry ∧
      keyAt (hashRange disk) (rank ∘ disk.sha256) step state.1 index =
        (Discovery.advance disk entry.2 step).map (ranked rank) := by
  obtain ⟨entry, hentry, hadvanced⟩ := h.advanced_eq hmembers hindex
  refine ⟨entry, hentry, ?_⟩
  rw [keyAt, hadvanced, Option.map_map, Discovery.advance, Option.map_map]
  rfl

/-- One class, split in the one way and in the other. -/
theorem Stepped.parts_perm (h : Stepped disk files step state) (hrank : Injective rank)
    {members : List ℕ} (hmembers : members ∈ state.2) :
    ((parts (hashRange disk) (rank ∘ disk.sha256) step state.1 members).map (entriesAt files)).Perm
      (splitClass disk step (entriesAt files members)) := by
  have hkey := fun index hindex =>
    @Stepped.keyAt_eq δ disk rank files step state h members hmembers index hindex
  obtain ⟨keyOf, hkeyOf⟩ : ∃ keyOf, keyOf =
    keyAt (hashRange disk) (rank ∘ disk.sha256) step state.1 := ⟨_, rfl⟩
  rw [← hkeyOf] at hkey
  have hkeys : members.filterMap keyOf = ((entriesAt files members).filterMap fun entry =>
      Discovery.advance disk entry.2 step).map (ranked rank) := by
    rw [entriesAt, List.filterMap_filterMap, List.map_filterMap]
    refine List.filterMap_congr fun index hindex => ?_
    obtain ⟨entry, hentry, hread⟩ := hkey index hindex
    rw [hentry, hread, Option.bind_some]
  have hclass (key : ℕ × Bytes) :
      entriesAt files (members.filter (keyOf · = some (ranked rank key))) =
      (entriesAt files members).filter fun entry =>
        Discovery.advance disk entry.2 step = some key := by
    rw [entriesAt, entriesAt, List.filterMap_filter, List.filter_filterMap]
    refine List.filterMap_congr fun index hindex => ?_
    obtain ⟨entry, hentry, hread⟩ := hkey index hindex
    rw [hentry, hread]
    cases hadvance : Discovery.advance disk entry.2 step with
    | none => simp [hadvance, Option.filter]
    | some read => simp [hadvance, Option.filter, (ranked_injective hrank).eq_iff]
  have hlength (part : List ℕ) (hpart : part ⊆ members) :
      (entriesAt files part).length = part.length := by
    refine List.filterMap_length_eq_length.2 fun index hindex => ?_
    obtain ⟨entry, hentry, -⟩ := hkey index (hpart hindex)
    rw [hentry, Option.isSome_some]
  unfold parts splitClass
  rw [← hkeyOf, hkeys]
  generalize (entriesAt files members).filterMap _ = keys
  have hsorted : ((keys.map (ranked rank)).dedup.mergeSort (· ≤ ·)).Perm
      (keys.eraseDups.map (ranked rank)) := by
    refine (List.mergeSort_perm _ _).trans ?_
    rw [List.dedup_map_of_injective (ranked_injective hrank)]
    refine ((List.perm_ext_iff_of_nodup (List.nodup_dedup _) (Lists.nodup_eraseDups keys)).2
      fun key => ?_).map _
    rw [List.mem_dedup, List.mem_eraseDups]
  refine (((hsorted.map _).filter _).map _).trans (List.Perm.of_eq ?_)
  simp only [List.map_map, List.filter_map]
  have hlarge (key : ℕ × Bytes) : 1 < (members.filter (keyOf · = some (ranked rank key))).length ↔
      1 < ((entriesAt files members).filter fun entry =>
        Discovery.advance disk entry.2 step = some key).length := by
    rw [← hclass, hlength _ (List.filter_subset_self members)]
  simp only [comp_def, hlarge, hclass]

/-- One more pass over the classes. -/
theorem Stepped.next (h : Stepped disk files step state) (hrank : Injective rank) :
    Stepped disk files (step + 1) (pass (hashRange disk) (rank ∘ disk.sha256) step state) ∧
    ((pass (hashRange disk) (rank ∘ disk.sha256) step state).2.map (entriesAt files)).Perm
      ((state.2.map (entriesAt files)).flatMap (splitClass disk step)) := by
  have hpass := @foldl_splitOne δ _ (hashRange disk) (rank ∘ disk.sha256) step state.2 h.disjoint
    h.nodup (state.1, [])
  rw [List.nil_append] at hpass
  rw [pass, hpass]
  refine ⟨⟨?_, ?_, ?_⟩, ?_⟩
  · exact flatMap_parts_disjoint step state.1 h.disjoint
  · intro members hmembers
    obtain ⟨whole, hwhole, hpart⟩ := List.mem_flatMap.1 hmembers
    obtain ⟨-, index, -, key, -, rfl⟩ := mem_parts.1 hpart
    exact (h.nodup whole hwhole).filter _
  · intro members hmembers index hindex
    obtain ⟨whole, hwhole, hpart⟩ := List.mem_flatMap.1 hmembers
    obtain ⟨-, other, -, key, -, rfl⟩ := mem_parts.1 hpart
    obtain ⟨hold, hkey⟩ := List.mem_filter.1 hindex
    obtain ⟨entry, hentry, hadvanced⟩ := h.advanced_eq hwhole hold
    rw [decide_eq_true_eq, keyAt, hadvanced, Option.map_map] at hkey
    obtain ⟨bytes, hbytes, -⟩ := Option.map_eq_some_iff.1 hkey
    refine ⟨entry, bytes, hentry, hbytes, ?_⟩
    dsimp only
    rw [if_pos ⟨whole, hwhole, hold⟩, hadvanced, hbytes, Option.map_some]
  · dsimp only
    rw [List.map_flatMap, List.flatMap_map]
    exact List.Perm.flatMap_left _ fun members hmembers => h.parts_perm hrank hmembers

theorem begun_stepped (disk : Disk) (files : FileMap) : Stepped disk files 0 (begun files) := by
  refine ⟨List.pairwise_singleton _ _, ?_, ?_⟩
  · intro members hmembers
    rw [List.mem_singleton.1 hmembers]
    exact List.nodup_range
  · intro members hmembers index hindex
    rw [List.mem_singleton.1 hmembers, List.mem_range] at hindex
    refine ⟨files[index], [], List.getElem?_eq_getElem hindex, rfl, ?_⟩
    show (files[index]?).map _ = _
    rw [List.getElem?_eq_getElem hindex, Option.map_some]
    rfl

theorem run_stepped (disk : Disk) (files : FileMap) (hrank : Injective rank) (steps : ℕ) :
    let state := (List.range steps).foldl
      (fun state step => pass (hashRange disk) (rank ∘ disk.sha256) step state) (begun files)
    Stepped disk files steps state ∧ (state.2.map (entriesAt files)).Perm
      ((List.range steps).foldl (fun classes step => classes.flatMap (splitClass disk step))
        [files]) := by
  induction steps with
  | zero =>
    have hall : entriesAt files (List.range files.length) = files := by
      induction files with
      | nil => rfl
      | cons entry files ih =>
        simpa [entriesAt, List.range_succ_eq_map, List.filterMap_map, comp_def] using ih
    exact ⟨begun_stepped disk files, List.Perm.of_eq (congrArg (fun whole => [whole]) hall)⟩
  | succ steps ih =>
    simp only [List.range_succ, List.foldl_append, List.foldl_cons, List.foldl_nil]
    obtain ⟨hstepped, hperm⟩ := ih.1.next hrank
    exact ⟨hstepped, hperm.trans (ih.2.flatMap_right _)⟩

/-- The passes find the classes that `Discovery.identical` finds, whatever order the digests are
put in. -/
theorem identical_perm (disk : Disk) (files : FileMap) (hrank : Injective rank) :
    (identical (hashRange disk) (rank ∘ disk.sha256) files).Perm
      ((Discovery.identical disk files).map fun members => members.map Prod.fst) := by
  have hsteps (lengths : List ℕ) : lengths.max?.getD 0 = lengths.foldl max 0 := by
    cases lengths with
    | nil => rfl
    | cons first lengths =>
      rw [List.max?_cons', List.foldl_cons, Nat.zero_max, Option.getD_some]
  have hnames : identities files = List.map Prod.fst ∘ entriesAt files :=
    funext fun places => (List.map_filterMap ..).symm
  rw [identical, identicalPlaces, hsteps, passes_eq, hnames, ← List.map_map]
  exact (run_stepped disk files hrank _).2.map _

end Stepwise
end Hedos.Discovery.Sampling
