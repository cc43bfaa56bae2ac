import Hedos.Lib.Memo
import Hedos.Resolution.Identity

/-!
# The identification cache

`kernel/src/resolution/identification_cache.rs`, on a disk that does not change, and exactly when it
answers as `identify` does.

* a call is one step of a table of kept answers (`identify_step`);
* identification reads the path, the container, the repository's name and whether the primary weight
  is refused, and of these the key names the path alone (`identify_congr`, `cacheKey`).
-/

namespace Hedos.Resolution

open Function

open Hedos.Discovery (SourceKind)

/-! ## The cache -/

structure Entry where
  mtime : ℤ
  size : ℤ
  identified : IdentifiedModel

structure CacheState where
  entries : String → Option Entry := fun _ => none
  hits : ℕ := 0

def isUncached (kind : SourceKind) : Bool :=
  kind.value == "builtin" || kind.value == "endpoint" || kind.value == "ollama"

/-- What stands between the parts of a key. -/
def unitSeparator : String := "\x1f"

def cacheKey (record : Record) : String :=
  record.details.source.path ++ unitSeparator ++ record.details.source.reference.getD "" ++
    unitSeparator ++ record.details.source.repo.getD ""

/-- The newest time and the sum of the sizes, with one more entry of the directory. -/
def addEntry (signature : ℤ × ℤ) : Option Metadata → ℤ × ℤ
  | none => signature
  | some child =>
    (child.modified.elim signature.1 (max signature.1), wrapI64 (signature.2 + wrapI64 child.len))

def freshnessSignature (d : Disk) (path : String) : Option (ℤ × ℤ) := do
  let metadata ← d.metadata path
  let mtime ← metadata.modified
  let size := wrapI64 metadata.len
  if metadata.isDir then some (((d.readDir path).getD []).foldl addEntry (mtime, size))
  else some (mtime, size)

/-- `IdentificationCache::identify`. -/
def CacheState.identify (d : Disk) (state : CacheState) (record : Record) :
    CacheState × IdentifiedModel :=
  if isUncached record.details.source.kind then (state, Resolution.identify d record)
  else
    match freshnessSignature d record.details.source.path with
    | none => (state, Resolution.identify d record)
    | some (mtime, size) =>
      let key := cacheKey record
      match (state.entries key).filter fun entry => entry.mtime = mtime ∧ entry.size = size with
      | some entry => ({ state with hits := state.hits + 1 }, entry.identified)
      | none =>
        let identified := Resolution.identify d record
        ({ state with
            entries := update state.entries key (some { mtime, size, identified }) },
          identified)

/-- The answers to some calls, one after the other. -/
def CacheState.identifyAll (d : Disk) : CacheState → List Record → List IdentifiedModel
  | _, [] => []
  | state, record :: records =>
    (state.identify d record).2 :: identifyAll d (state.identify d record).1 records

/-! ## A table of kept answers -/

/-- The key and the signature a record's answer is kept under. -/
def place (d : Disk) (record : Record) : Option (String × (ℤ × ℤ)) :=
  if isUncached record.details.source.kind then none
  else
    (freshnessSignature d record.details.source.path).map fun signature =>
      (cacheKey record, signature)

def Entry.kept (entry : Entry) : (ℤ × ℤ) × IdentifiedModel :=
  ((entry.mtime, entry.size), entry.identified)

def CacheState.table (state : CacheState) : Memo.Table String (ℤ × ℤ) IdentifiedModel :=
  fun key => (state.entries key).map Entry.kept

variable {d : Disk}
variable (state : CacheState)

theorem table_update (key : String) (entry : Entry) :
    ({ state with entries := update state.entries key (some entry) } : CacheState).table =
      update state.table key (some entry.kept) := by
  funext other
  by_cases hkey : other = key
  · subst hkey
    simp [CacheState.table]
  · simp [CacheState.table, update_of_ne hkey]

theorem filter_table (key : String) (mtime size : ℤ) :
    (state.table key).filter (fun entry => entry.1 = (mtime, size)) =
      ((state.entries key).filter fun entry => entry.mtime = mtime ∧ entry.size = size).map
        Entry.kept := by
  rw [CacheState.table]
  cases state.entries key with
  | none => rfl
  | some entry => simp [Option.filter, Entry.kept, Prod.ext_iff]

/-- A call is a step of the table. -/
theorem identify_step (record : Record) :
    (state.identify d record).2 = (Memo.step (place d) (identify d) state.table record).2 ∧
      (state.identify d record).1.table =
        (Memo.step (place d) (identify d) state.table record).1 := by
  rw [CacheState.identify, Memo.step, place]
  by_cases huncached : isUncached record.details.source.kind
  · simp [huncached]
  · simp only [huncached, Bool.false_eq_true, if_false]
    cases freshnessSignature d record.details.source.path with
    | none => exact ⟨rfl, rfl⟩
    | some signature =>
      obtain ⟨mtime, size⟩ := signature
      simp only [Option.map_some, filter_table]
      cases (state.entries (cacheKey record)).filter fun entry =>
          entry.mtime = mtime ∧ entry.size = size with
      | some entry => exact ⟨rfl, rfl⟩
      | none => exact ⟨rfl, table_update state _ _⟩

theorem identifyAll_eq_run (records : List Record) :
    state.identifyAll d records = Memo.run (place d) (identify d) state.table records := by
  induction records generalizing state with
  | nil => rfl
  | cons record records ih =>
    obtain ⟨hanswer, htable⟩ := identify_step (d := d) state record
    rw [CacheState.identifyAll, Memo.run, hanswer, ← htable, ih]

/-! ## What identification reads -/

/-- The primary weight is given and is no GGUF. -/
def refuses (d : Disk) (record : Record) : Bool :=
  record.details.primaryWeightPath.any fun primary => !d.hasGgufMagic primary

/-- Records of which identification reads the same. -/
structure SameReads (d : Disk) (a b : Record) : Prop where
  path : a.details.source.path = b.details.source.path
  container : containerUrl d a.details.source.path a = containerUrl d b.details.source.path b
  hint : repoHint a = repoHint b
  primary : refuses d a = refuses d b

theorem identify_of_cached {record : Record} (h : isUncached record.details.source.kind = false) :
    identify d record = identifyFiles d record.details.source.path
      (containerUrl d record.details.source.path record) (repoHint record)
      record.details.primaryWeightPath := by
  have hne : ∀ kind : SourceKind, isUncached kind = true → record.details.source.kind ≠ kind := by
    rintro kind hkind rfl
    rw [h] at hkind
    cases hkind
  rw [identify]
  simp only
  rw [if_neg (hne _ rfl), if_neg (hne _ rfl), if_neg (hne _ rfl)]

theorem ggufWeights_congr {container : String} {p q : Option String}
    (h : (p.any fun primary => !d.hasGgufMagic primary) =
      q.any fun primary => !d.hasGgufMagic primary) :
    ggufWeights d container p = ggufWeights d container q := by
  rw [ggufWeights, ggufWeights, h]

/-- Files are identified alike in the same container and under the same name, unless one primary
weight is refused and the other is not. -/
theorem identify_congr {a b : Record} (ha : isUncached a.details.source.kind = false)
    (hb : isUncached b.details.source.kind = false) (h : SameReads d a b) :
    identify d a = identify d b := by
  rw [identify_of_cached ha, identify_of_cached hb, h.container, h.hint, h.path, identifyFiles,
    identifyFiles, ggufWeights_congr h.primary]

/-! ## Exactly when the cache agrees -/

/-- A record's answer is taken from the entry of another that is told apart from it. -/
def Collides (d : Disk) (before : List Record) (record : Record) : Prop :=
  ∃ key signature earlier, place d record = some (key, signature) ∧
    Memo.latest (place d) key before = some earlier ∧
    place d earlier = some (key, signature) ∧ identify d earlier ≠ identify d record

theorem agreesAt_iff (before : List Record) (record : Record) :
    Memo.AgreesAt (place d) (identify d) before record ↔ ¬ Collides d before record := by
  constructor
  · rintro hagrees ⟨key, signature, earlier, hplace, hlatest, hearlier, hne⟩
    exact hne (hagrees key signature hplace earlier hlatest hearlier)
  · intro hnot key signature hplace earlier hlatest hearlier
    by_contra hne
    exact hnot ⟨key, signature, earlier, hplace, hlatest, hearlier, hne⟩

theorem of_place {record : Record} {key : String} {signature : ℤ × ℤ}
    (h : place d record = some (key, signature)) :
    isUncached record.details.source.kind = false ∧ cacheKey record = key := by
  rw [place] at h
  split at h
  · cases h
  · rename_i hcached
    obtain ⟨_, -, heq⟩ := Option.map_eq_some_iff.1 h
    cases heq
    exact ⟨by simpa using hcached, rfl⟩

/-- Every call answers as `identify` does exactly when no record comes behind one with its key and
signature, the last with that key, that is told apart from it; so it is enough that records with one
key differ in nothing identification reads. -/
theorem cache_agrees_iff (d : Disk) (records : List Record) :
    (CacheState.identifyAll d {} records = records.map (identify d) ↔
      ∀ before record behind, records = before ++ record :: behind → ¬ Collides d before record) ∧
    ((∀ a ∈ records, ∀ b ∈ records, cacheKey a = cacheKey b → SameReads d a b) →
      CacheState.identifyAll d {} records = records.map (identify d)) := by
  have hempty : ({} : CacheState).table = fun _ => none := rfl
  have hiff : CacheState.identifyAll d {} records = records.map (identify d) ↔
      ∀ before record behind, records = before ++ record :: behind →
        ¬ Collides d before record := by
    rw [identifyAll_eq_run, hempty, Memo.run_eq_map_iff Memo.kept_nil]
    simp only [List.nil_append, agreesAt_iff]
  refine ⟨hiff, fun hsame => hiff.2 ?_⟩
  rintro before record behind rfl ⟨key, signature, earlier, hplace, hlatest, hearlier, hne⟩
  obtain ⟨hcached, hkey⟩ := of_place hplace
  obtain ⟨hcached', hkey'⟩ := of_place hearlier
  have hmem : earlier ∈ before ++ record :: behind :=
    List.mem_append_left _ (Memo.mem_of_latest hlatest)
  have hmem' : record ∈ before ++ record :: behind :=
    List.mem_append_right _ (.head _)
  have hreads := hsame earlier hmem record hmem' (hkey'.trans hkey.symm)
  exact hne (identify_congr hcached' hcached hreads)

/-! ## One directory, with and without a primary weight -/

/-- `/m` holds `w.gguf` and `w.bin`. -/
def ggufDirectory : Disk where
  metadata path :=
    if path = "/m" then some { modified := some 1, len := 64, isDir := true } else none
  readDir path :=
    if path = "/m" then
      some [some { modified := some 1, len := 9, isDir := false },
        some { modified := some 1, len := 4, isDir := false }]
    else none
  isThere path := ["/m", "/m/w.gguf", "/m/w.bin"].contains path
  siblings path :=
    if path = "/m/w.gguf" ∨ path = "/m/w.bin" then [("/m/w.bin", 4), ("/m/w.gguf", 9)] else []
  readJson _ := none
  hasGgufMagic path := path == "/m/w.gguf"
  hasGgmlMagic _ := false
  ggufFacts path := if path = "/m/w.gguf" then some {} else none
  ggufTree path := if path = "/m" then { weights := [("/m/w.gguf", 9)] } else {}
  primaryOf weights := weights.head?.map Prod.fst
  fromSnapshot _ := none
  safetensorsFormat _ _ := none
  sentenceTransformersLayout _ := none
  diffusersPipelineClass _ := none
  pipelineProfile _ _ _ := none
  declaresProjector _ := false

/-- A record of the directory, with the primary weight given. -/
def directoryRecord (primary : Option String) : Record where
  id := "m"
  state := .ready
  footprintBytes := none
  legacyFootprintMb := none
  details :=
    { name := "m", modality := Modality.text, capabilities := []
      source := { kind := SourceKind.folder, path := "/m" }
      registeredAt := 0, primaryWeightPath := primary }

def directoryRecords : List Record :=
  [directoryRecord none, directoryRecord (some "/m/w.bin")]

/-- Behind a record that names no primary weight, one that names a file that is no GGUF is answered
as a GGUF, which `identify` says it is not. -/
theorem other_primary_answered :
    (CacheState.identifyAll ggufDirectory {} directoryRecords).map (·.format) = [.gguf, .gguf] ∧
      (directoryRecords.map (identify ggufDirectory)).map (·.format) = [.gguf, .unknown] ∧
      CacheState.identifyAll ggufDirectory {} directoryRecords ≠
        directoryRecords.map (identify ggufDirectory) := by
  have hcache : (CacheState.identifyAll ggufDirectory {} directoryRecords).map (·.format) =
      [.gguf, .gguf] := by decide +kernel
  have hdirect : (directoryRecords.map (identify ggufDirectory)).map (·.format) =
      [.gguf, .unknown] := by decide +kernel
  refine ⟨hcache, hdirect, fun heq => ?_⟩
  rw [heq, hdirect] at hcache
  cases hcache

end Hedos.Resolution
