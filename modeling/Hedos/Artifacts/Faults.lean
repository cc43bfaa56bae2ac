import Hedos.Artifacts.Files

/-!
# The artifact store when the disk fails

`store`, `delete` and `load_if_needed` of `kernel/src/artifacts/store.rs` once more, with each I/O
step failing or not as `Io` says: a directory or a sidecar that cannot be read, a quarantine that
cannot be moved, a write or a removal that stops the call. When nothing fails they are those of
`Store.lean` (`storeOr_good`, `deleteOr_good`).

A name with a `/` is a file in a directory further down, which the scan does not read.
-/

namespace Hedos.Artifacts

variable {ν : Type}

/-! ## Steps that fail -/

inductive IoStep
  | readRoot
  | readYear (n : ℤ)
  | readSidecar (path : Path)
  | quarantine (path : Path)
  | writeOutput
  | writePreview
  | writeSidecar
  | removeSidecar
  | removeOutput
  | removePreview
deriving DecidableEq

/-- What one call meets. -/
structure Io where
  /-- The text of the error, when the step fails. -/
  fails : IoStep → Option String
  /-- The temporary file of a write that failed, when it could not be removed. -/
  temp : IoStep → Option Bytes

/-- Nothing fails. -/
def Io.good : Io where
  fails _ := none
  temp _ := none

@[simp] theorem good_fails (step : IoStep) : Io.good.fails step = none := rfl

inductive ArtifactStoreError
  | notFound (id : Text)
  | io (text : String)
  | sidecar (text : String)
deriving DecidableEq

/-- The file is read as a sidecar when the index is loaded. -/
def isSidecar (path : Path) : Bool :=
  path.dir.isYear && !path.name.contains '/' && extension path.name == some "json".toList

/-- The scan does not get at the file. -/
def Io.unread (io : Io) (path : Path) : Bool :=
  match path.dir with
  | .blobs => false
  | .year n =>
    (io.fails .readRoot).isSome || (io.fails (.readYear n)).isSome ||
      (io.fails (.readSidecar path)).isSome

@[simp] theorem good_unread (path : Path) : Io.good.unread path = false := by
  unfold Io.unread
  cases path.dir <;> rfl

/-- `temp_sibling`. -/
def tempSibling (env : Env ν) (path : Path) (n : ℕ) : Path :=
  { path with name := '.' :: (path.name ++ ".tmp-".toList ++ env.uniqueSuffix n) }

namespace State

/-! ## Loading -/

def scanEntryOr (env : Env ν) (io : Io) (s : State ν) (entry : Sigma fun _ : Path => Bytes) :
    State ν :=
  if isSidecar entry.1 && !io.unread entry.1 then
    match env.fromSlice entry.2 with
    | some artifact => { s with artifacts := s.artifacts.insert artifact.id artifact }
    | none =>
      match io.fails (.quarantine entry.1) with
      | some _ => s
      | none => s.quarantine env entry.1 entry.2
  else s

/-- `load_if_needed`: it does not return an error, whatever it cannot read. -/
def loadOr (env : Env ν) (io : Io) (entries : List (Sigma fun _ : Path => Bytes)) (s : State ν) :
    State ν :=
  if s.loaded then s
  else match io.fails .readRoot with
    | some _ => { s with loaded := true }
    | none => entries.foldl (scanEntryOr env io) { s with artifacts := ∅, loaded := true }

/-! ## Storing -/

/-- `persistence::write_atomic`. -/
def writeOr (env : Env ν) (io : Io) (step : IoStep) (path : Path) (bytes : Bytes) (s : State ν) :
    Except String Unit × State ν :=
  match io.fails step with
  | none => (.ok (), s.writeAtomic path bytes)
  | some error =>
    match io.temp step with
    | none => (.error error, s)
    | some part =>
      (.error error,
        { s.writeAtomic (tempSibling env path s.quarantined) part with
          quarantined := s.quarantined + 1 })

def writeIfAbsentOr (env : Env ν) (io : Io) (step : IoStep) (data : Bytes) (path : Path)
    (s : State ν) : Except String Unit × State ν :=
  if (s.read path).isSome then (.ok (), s) else s.writeOr env io step path data

/-- `spill`, when the draft has a preview. -/
def spillOr (env : Env ν) (io : Io) (preview : Option Bytes) (s : State ν) :
    Except String Unit × State ν :=
  match preview with
  | none => (.ok (), s)
  | some preview => s.writeIfAbsentOr env io .writePreview preview (previewPath env preview)

/-- The record of a draft. -/
def record (env : Env ν) (draft : ArtifactDraft ν) (createdAt : ℤ) (s : State ν) : Artifact ν where
  id := uniqueId env s.artifacts (slug env draft.model) (env.digest draft.data) draft.jobId
  path := outputPath env draft createdAt
  contentHash := env.digest draft.data
  previewPath := draft.preview.map (previewPath env)
  model := draft.model
  modelId := draft.modelId
  runtime := draft.runtime
  capability := draft.capability
  params := draft.params
  createdAt := createdAt
  durationMs := draft.durationMs
  jobId := draft.jobId
  sessionId := draft.sessionId

def storeOr (env : Env ν) (io : Io) (entries : List (Sigma fun _ : Path => Bytes))
    (draft : ArtifactDraft ν) (createdAt : ℤ) (s : State ν) :
    Except ArtifactStoreError (Artifact ν) × State ν :=
  let s := s.loadOr env io entries
  match s.writeIfAbsentOr env io .writeOutput draft.data (outputPath env draft createdAt) with
  | (.error error, s) => (.error (.io error), s)
  | (.ok (), s) =>
    match s.spillOr env io draft.preview with
    | (.error error, s) => (.error (.io error), s)
    | (.ok (), s) =>
      let artifact := s.record env draft createdAt
      match s.writeOr env io .writeSidecar (sidecarPath artifact) (env.toVecPretty artifact) with
      | (.error error, s) => (.error (.sidecar ("store io error: " ++ error)), s)
      | (.ok (), s) =>
        (.ok artifact,
          { s with
            artifacts := s.artifacts.insert artifact.id artifact
            stored := (artifact, draft) :: s.stored })

/-! ## Deleting -/

/-- `remove_if_present`: that there is no file is no failure. -/
def removeOr (io : Io) (step : IoStep) (path : Path) (s : State ν) : Except String Unit × State ν :=
  match io.fails step with
  | none => (.ok (), s.removeIfPresent path)
  | some error => (.error error, s)

def removeUnsharedOr (io : Io) (step : IoStep) (shared : Artifact ν → Bool) (path : Path)
    (s : State ν) : Except String Unit × State ν :=
  if s.values.any shared then (.ok (), s) else s.removeOr io step path

def removePreviewOr (io : Io) (preview : Option Path) (s : State ν) :
    Except String Unit × State ν :=
  match preview with
  | none => (.ok (), s)
  | some path =>
    s.removeUnsharedOr io .removePreview (fun other => other.previewPath == some path) path

def deleteOr (env : Env ν) (io : Io) (entries : List (Sigma fun _ : Path => Bytes)) (id : Text)
    (s : State ν) : Except ArtifactStoreError Unit × State ν :=
  let s := s.loadOr env io entries
  match s.artifacts.lookup id with
  | none => (.error (.notFound id), s)
  | some artifact =>
    -- The index forgets the artifact before any of its files is gone.
    let s := { s with
      artifacts := s.artifacts.erase id
      stored := s.stored.filter fun kept => kept.1.id ≠ id }
    match s.removeOr io .removeSidecar (sidecarPath artifact) with
    | (.error error, s) => (.error (.io error), s)
    | (.ok (), s) =>
      match s.removeUnsharedOr io .removeOutput (fun other => other.path == artifact.path)
          artifact.path with
      | (.error error, s) => (.error (.io error), s)
      | (.ok (), s) =>
        match s.removePreviewOr io artifact.previewPath with
        | (.error error, s) => (.error (.io error), s)
        | (.ok (), s) => (.ok (), s)

end State

/-! ## Calls -/

/-- A call, with the order in which it finds the files and what fails in it. -/
inductive Call (ν : Type)
  | store (draft : ArtifactDraft ν) (createdAt : ℤ)
  | delete (id : Text)
  | list

/-- A call on the store, or opening the root anew. -/
inductive Event (ν : Type)
  | call (io : Io) (entries : List (Sigma fun _ : Path => Bytes)) (call : Call ν)
  | reopen

namespace State

def callStep (env : Env ν) (s : State ν) : Event ν → Option (State ν)
  | .reopen => some s.reopen
  | .call io entries call =>
    if Lists s entries then
      match call with
      | .store draft createdAt => some (s.storeOr env io entries draft createdAt).2
      | .delete id => some (s.deleteOr env io entries id).2
      | .list => some (s.loadOr env io entries)
    else none

/-- `ArtifactStore::new` on a root with any files. -/
def Opened (s : State ν) : Prop := s.loaded = false ∧ s.artifacts = ∅

end State

/-! ## Nothing fails -/

section Good

variable {env : Env ν} {s : State ν} {entries : List (Sigma fun _ : Path => Bytes)}

theorem loadOr_good (hnames : ∀ entry ∈ entries, '/' ∉ entry.1.name) :
    s.loadOr env .good entries = s.loadIfNeeded env entries := by
  unfold State.loadOr State.loadIfNeeded
  split
  · rfl
  · refine List.foldl_ext _ _ _ fun t entry hentry => ?_
    cases hslice : env.fromSlice entry.2 <;>
      simp [State.scanEntryOr, State.scanEntry, isSidecar, hnames entry hentry, hslice,
        -String.reduceToList]

/-- Storing is that of `Store.lean`. -/
theorem storeOr_good (hnames : ∀ entry ∈ entries, '/' ∉ entry.1.name) (draft : ArtifactDraft ν)
    (createdAt : ℤ) :
    s.storeOr env .good entries draft createdAt =
      (.ok ((s.loadIfNeeded env entries).store env draft createdAt).1,
        ((s.loadIfNeeded env entries).store env draft createdAt).2) := by
  have hwrite (step : IoStep) (data : Bytes) (path : Path) (t : State ν) :
      t.writeIfAbsentOr env .good step data path = (.ok (), t.writeIfAbsent data path) := by
    unfold State.writeIfAbsentOr State.writeIfAbsent
    split <;> rfl
  have hfiles (t : State ν) :
      (t.writeIfAbsent draft.data (outputPath env draft createdAt)).spillOr env .good
        draft.preview = (.ok (), t.writeFiles env draft createdAt) := by
    unfold State.spillOr State.writeFiles
    cases draft.preview with
    | none => rfl
    | some preview => exact hwrite _ _ _ _
  simp only [State.storeOr, loadOr_good hnames, hwrite, hfiles]
  rfl

/-- Deleting is that of `Store.lean`. -/
theorem deleteOr_good (hnames : ∀ entry ∈ entries, '/' ∉ entry.1.name) (id : Text) :
    s.deleteOr env .good entries id =
      match (s.loadIfNeeded env entries).delete id with
      | some t => (.ok (), t)
      | none => (.error (.notFound id), s.loadIfNeeded env entries) := by
  have hremove (step : IoStep) (path : Path) (t : State ν) :
      t.removeOr .good step path = (.ok (), t.removeIfPresent path) := rfl
  have hunshared (step : IoStep) (shared : Artifact ν → Bool) (path : Path) (t : State ν) :
      t.removeUnsharedOr .good step shared path = (.ok (), t.removeUnshared shared path) := by
    unfold State.removeUnsharedOr State.removeUnshared
    split <;> rfl
  simp only [State.deleteOr, loadOr_good hnames, State.delete]
  cases hlookup : (s.loadIfNeeded env entries).artifacts.lookup id with
  | none => rfl
  | some artifact =>
    simp only [hremove, hunshared, State.removePreviewOr]
    cases hpreview : artifact.previewPath with
    | none => simp only [Option.bind_eq_bind, Option.bind_some, hpreview]
    | some path => simp only [Option.bind_eq_bind, Option.bind_some, hpreview]

end Good

end Hedos.Artifacts
