import Hedos.Kernel.Time
import Hedos.Lib.Transition
import Mathlib.Data.Char
import Mathlib.Data.List.AList
import Mathlib.Data.List.Lex
import Mathlib.Data.Prod.Lex

/-!
# The artifact store

`kernel/src/artifacts/store.rs` over the part of `kernel/src/persistence.rs` it uses: outputs
`<year>/<slug>_<hash12>.<ext>`, previews `blobs/<hash>` and provenance sidecars
`<year>/<id>.json` under one root, with an index that is rebuilt by scanning the sidecars.

* `Env` holds what the store takes from elsewhere: the digest, the JSON codec and the Unicode
  tables;
* `State` is the root directory and the store object on it, `step` an operation or a
  reopening;
* `Intact` is what the store promises of a state.

The file system is a map from paths to contents, a path being a directory under the root and
a file name in it; an extension with a `/` in it, which would name further directories, is
not described by it.
-/

namespace Hedos.Artifacts

/-! ## Names -/

/-- The directories under the root. -/
inductive Dir
  | year (n : ℤ)
  | blobs
deriving DecidableEq

/-- A path relative to the root. -/
structure Path where
  dir : Dir
  name : Text
deriving DecidableEq

/-- `is_year_dir`. -/
def Dir.isYear : Dir → Bool
  | year _ => true
  | blobs => false

/-- `Path::extension` of a file name: what follows the last dot, unless the name begins with
it. -/
def extension (name : Text) : Option Text :=
  if name = ['.', '.'] then none
  else
    match name.reverse.dropWhile (· ≠ '.') with
    | _ :: _ :: _ => some (name.reverse.takeWhile (· ≠ '.')).reverse
    | _ => none

/-! ## Records -/

variable {ν : Type}

/-- A stored generated output; `ν` is the type of JSON values. -/
structure Artifact (ν : Type) where
  id : Text
  path : Path
  contentHash : Text
  previewPath : Option Path
  model : Text
  modelId : Text
  runtime : Text
  capability : Text
  params : ν
  createdAt : ℤ
  durationMs : ℤ
  jobId : Text
  sessionId : Option Text
deriving DecidableEq

/-- Everything needed to store one output. -/
structure ArtifactDraft (ν : Type) where
  data : Bytes
  fileExtension : Text
  preview : Option Bytes
  model : Text
  modelId : Text
  runtime : Text
  capability : Text
  params : ν
  jobId : Text
  durationMs : ℤ
  sessionId : Option Text
deriving DecidableEq

/-- What the store uses and does not define: `hex::encode(Sha256::digest(..))`, `serde_json`
on artifacts, `str::to_lowercase`, `char::is_alphanumeric` and the suffix that
`persistence::quarantine` makes of its counter. -/
structure Env (ν : Type) where
  digest : Bytes → Text
  toVecPretty : Artifact ν → Bytes
  fromSlice : Bytes → Option (Artifact ν)
  toLowercase : Text → Text
  isAlphanumeric : Char → Bool
  uniqueSuffix : ℕ → Text

/-! ## The calendar -/

/-- The Gregorian year for an epoch-millisecond timestamp. -/
def yearOf (millis : ℤ) : ℤ := (Kernel.Time.civilFromDays (millis / 86400000)).1

/-! ## The store -/

/-- The root directory and the store object on it. `stored` is what was stored and not
deleted since, with the draft it came from; no function of the code reads it. -/
structure State (ν : Type) where
  files : AList fun _ : Path => Bytes
  artifacts : AList fun _ : Text => Artifact ν
  loaded : Bool
  quarantined : ℕ
  stored : List (Artifact ν × ArtifactDraft ν)

namespace State

/-- A store on a root that does not exist yet. -/
def empty : State ν where
  files := ∅
  artifacts := ∅
  loaded := false
  quarantined := 0
  stored := []

/-- `ArtifactStore::new` on the same root. -/
def reopen (s : State ν) : State ν := { s with artifacts := ∅, loaded := false }

def read (s : State ν) (path : Path) : Option Bytes := s.files.lookup path

/-- `persistence::write_atomic`. -/
def writeAtomic (s : State ν) (path : Path) (bytes : Bytes) : State ν :=
  { s with files := s.files.insert path bytes }

def removeIfPresent (s : State ν) (path : Path) : State ν :=
  { s with files := s.files.erase path }

/-- `persistence::quarantine`: the file is renamed to a sibling of its own. -/
def quarantine (env : Env ν) (s : State ν) (path : Path) (bytes : Bytes) : State ν :=
  let target := { path with
    name := path.name ++ ".corrupt-".toList ++ env.uniqueSuffix s.quarantined }
  { s with
    files := (s.files.erase path).insert target bytes
    quarantined := s.quarantined + 1 }

/-- One entry of the scan of `load_if_needed`: a file that looks like a sidecar is read, and
quarantined when it does not decode. -/
def scanEntry (env : Env ν) (s : State ν) (entry : Sigma fun _ : Path => Bytes) : State ν :=
  if entry.1.dir.isYear && extension entry.1.name == some "json".toList then
    match env.fromSlice entry.2 with
    | some artifact => { s with artifacts := s.artifacts.insert artifact.id artifact }
    | none => s.quarantine env entry.1 entry.2
  else s

/-- `load_if_needed`, the directories listed in the order of `entries`. -/
def loadIfNeeded (env : Env ν) (entries : List (Sigma fun _ : Path => Bytes)) (s : State ν) :
    State ν :=
  if s.loaded then s
  else entries.foldl (scanEntry env) { s with artifacts := ∅, loaded := true }

def writeIfAbsent (s : State ν) (data : Bytes) (path : Path) : State ν :=
  if (s.read path).isSome then s else s.writeAtomic path data

end State

/-- `slug`: the first letters and digits of a model's name. -/
def slug (env : Env ν) (name : Text) : Text :=
  let kept := ((env.toLowercase name).filter env.isAlphanumeric).take 24
  if kept.isEmpty then "artifact".toList else kept

/-- `<slug>_<hash12>.<ext>`. -/
def outputName (slug hash ext : Text) : Text := slug ++ '_' :: (hash.take 12 ++ '.' :: ext)

def outputPath (env : Env ν) (draft : ArtifactDraft ν) (createdAt : ℤ) : Path where
  dir := .year (yearOf createdAt)
  name := outputName (slug env draft.model) (env.digest draft.data) draft.fileExtension

/-- The path `spill` writes a preview to. -/
def previewPath (env : Env ν) (preview : Bytes) : Path where
  dir := .blobs
  name := env.digest preview

/-- `<base>-<counter>`. -/
def numbered (base : Text) (counter : ℕ) : Text := base ++ '-' :: Nat.toDigits 10 counter

/-- The loop of `unique_id`; `tries` bounds it by the ids that can be taken. -/
def nextFree (taken : Text → Bool) (base : Text) : ℕ → ℕ → Text
  | 0, counter => numbered base counter
  | tries + 1, counter =>
    if taken (numbered base counter) then nextFree taken base tries (counter + 1)
    else numbered base counter

def uniqueId (env : Env ν) (artifacts : AList fun _ : Text => Artifact ν)
    (slug hash jobId : Text) : Text :=
  let jobPrefix := env.toLowercase (jobId.take 8)
  let base := slug ++ '_' :: (hash.take 12 ++ '_' :: jobPrefix)
  let taken := fun id => (artifacts.lookup id).isSome
  if taken base then nextFree taken base artifacts.entries.length 2 else base

def sidecarPath (artifact : Artifact ν) : Path where
  dir := .year (yearOf artifact.createdAt)
  name := artifact.id ++ ".json".toList

namespace State

/-- The output written unless it is there, and the preview spilled. -/
def writeFiles (env : Env ν) (draft : ArtifactDraft ν) (createdAt : ℤ) (s : State ν) : State ν :=
  let s := s.writeIfAbsent draft.data (outputPath env draft createdAt)
  match draft.preview with
  | some preview => s.writeIfAbsent preview (previewPath env preview)
  | none => s

/-- The body of `store`, once the index is loaded. -/
def store (env : Env ν) (draft : ArtifactDraft ν) (createdAt : ℤ) (s : State ν) :
    Artifact ν × State ν :=
  let hash := env.digest draft.data
  let s := s.writeFiles env draft createdAt
  let artifact := {
    id := uniqueId env s.artifacts (slug env draft.model) hash draft.jobId
    path := outputPath env draft createdAt
    contentHash := hash
    previewPath := draft.preview.map (previewPath env)
    model := draft.model
    modelId := draft.modelId
    runtime := draft.runtime
    capability := draft.capability
    params := draft.params
    createdAt := createdAt
    durationMs := draft.durationMs
    jobId := draft.jobId
    sessionId := draft.sessionId }
  let s := s.writeAtomic (sidecarPath artifact) (env.toVecPretty artifact)
  (artifact, { s with
    artifacts := s.artifacts.insert artifact.id artifact
    stored := (artifact, draft) :: s.stored })

def values (s : State ν) : List (Artifact ν) := s.artifacts.entries.map Sigma.snd

/-- `gallery::newest`, as an order on artifacts. -/
def newest (a b : Artifact ν) : Bool :=
  decide (toLex (b.createdAt, b.id) ≤ toLex (a.createdAt, a.id))

/-- `list`, once the index is loaded. -/
def list (s : State ν) : List (Artifact ν) := s.values.mergeSort newest

/-- A file of a deleted artifact goes unless an artifact in the index shares it. -/
def removeUnshared (s : State ν) (shared : Artifact ν → Bool) (path : Path) : State ν :=
  if s.values.any shared then s else s.removeIfPresent path

/-- The body of `delete`; `none` is `ArtifactStoreError::NotFound`. -/
def delete (id : Text) (s : State ν) : Option (State ν) := do
  let artifact ← s.artifacts.lookup id
  let s := { s with
    artifacts := s.artifacts.erase id
    stored := s.stored.filter fun kept => kept.1.id ≠ id }
  let s := s.removeIfPresent (sidecarPath artifact)
  let s := s.removeUnshared (fun other => other.path == artifact.path) artifact.path
  match artifact.previewPath with
  | none => some s
  | some path => some (s.removeUnshared (fun other => other.previewPath == some path) path)

end State

/-! ## Operations -/

/-- An operation on the store, with the time it reads and the order in which it finds the
files when it has to load the index first; or opening the root anew. -/
inductive Op (ν : Type)
  | store (draft : ArtifactDraft ν) (createdAt : ℤ) (entries : List (Sigma fun _ : Path => Bytes))
  | delete (id : Text) (entries : List (Sigma fun _ : Path => Bytes))
  | list (entries : List (Sigma fun _ : Path => Bytes))
  | reopen

/-- What a listing of the root gives: its files, in any order. -/
def Lists (s : State ν) (entries : List (Sigma fun _ : Path => Bytes)) : Prop :=
  entries.Perm s.files.entries

instance [DecidableEq (Sigma fun _ : Path => Bytes)] (s : State ν)
    (entries : List (Sigma fun _ : Path => Bytes)) : Decidable (Lists s entries) :=
  inferInstanceAs (Decidable (entries.Perm s.files.entries))

def step (env : Env ν) (s : State ν) : Op ν → Option (State ν)
  | .store draft createdAt entries =>
    if Lists s entries then some ((s.loadIfNeeded env entries).store env draft createdAt).2
    else none
  | .delete id entries =>
    if Lists s entries then
      let s := s.loadIfNeeded env entries
      some ((s.delete id).getD s)
    else none
  | .list entries => if Lists s entries then some (s.loadIfNeeded env entries) else none
  | .reopen => some s.reopen

end Hedos.Artifacts
