import Hedos.Lib.Primitives
import Mathlib.Data.List.Nodup
import Mathlib.Algebra.Group.Int.Defs

/-!
# Pull jobs on disk

`kernel/src/install/pulls.rs`: one directory for each pull, with its descriptor (written once),
the live record, the history, the lock a worker holds for as long as it runs and the control
file a client writes to ask for a pause or a cancel. The rules that read a job off those files
are here, over one snapshot of the store.

* `JobDir.status`, `JobDir.shown`, `PullStore.reading`: the record with the liveness rules
  applied, as every surface shows it;
* `PullStore.pulledAgain`: whether a sibling took the place of a job nobody took up;
* `PullStore.settleSuperseded`: writing that reading down.

A directory with no readable descriptor is not a job and is left out, as the listing leaves it
out; so is the transfer progress a record carries along.
-/

namespace Hedos.Install

/-! ## The files of one job -/

/-- Where a pull is in its life. `interrupted` and `unreadable` are concluded by a reader. -/
inductive PullState
  | queued
  | running
  | paused
  | done
  | failed
  | cancelled
  | interrupted
  | unreadable
deriving DecidableEq

/-- The job has ended for good. -/
def PullState.isTerminal : PullState → Bool
  | .done | .failed | .cancelled => true
  | _ => false

/-- A worker could pick the job up again. -/
def PullState.isResumable : PullState → Bool
  | .paused | .interrupted => true
  | _ => false

/-- A worker should be running for this job right now. -/
def PullState.isLive : PullState → Bool
  | .queued | .running => true
  | _ => false

/-- The job may still be doing something: not ended, and not a record nobody can read. -/
def PullState.going (state : PullState) : Bool := !state.isTerminal && state != .unreadable

/-- What a client asked a running worker to do. -/
inductive PullControl
  | pause
  | cancel
deriving DecidableEq

/-- The state a worker lands in after honouring the control. -/
def PullControl.resultingState : PullControl → PullState
  | .pause => .paused
  | .cancel => .cancelled

/-- What was asked for, written once when the job is created. -/
structure PullJob where
  id : String
  provider : String
  reference : String
  createdAtMs : ℤ
deriving DecidableEq

/-- The live record, rewritten as the transfer moves. -/
structure PullStatus where
  state : PullState
  statusLine : Option String := none
  attempt : ℕ := 0
  nextAttemptAtMs : Option ℤ := none
  registeringUntilMs : Option ℤ := none
  message : Option String := none
  pid : Option ℕ := none
  updatedAtMs : ℤ
deriving DecidableEq

def PullStatus.queued (now : ℤ) : PullStatus := { state := .queued, updatedAtMs := now }

def PullStatus.unreadable (updatedAtMs : ℤ) (reason : String) : PullStatus :=
  { PullStatus.queued updatedAtMs with state := .unreadable, message := some reason }

/-- What the status file holds: nothing yet, bytes that do not decode with the time the file
last changed and the reason, or a record. -/
inductive RecordFile
  | missing
  | damaged (modifiedMs : Option ℤ) (reason : String)
  | stored (status : PullStatus)
deriving DecidableEq

inductive PullEventKind
  | state (state : PullState)
  | status (text : String)
  | retry (attempt : ℕ) (reason : String) (delayMs : ℤ)
deriving DecidableEq

structure PullEvent where
  atMs : ℤ
  kind : PullEventKind
deriving DecidableEq

/-- The files of a job that change: the record, the history, the control file, and the process
that holds the exclusive lock. -/
structure JobFiles where
  record : RecordFile
  events : List PullEvent := []
  control : Option PullControl := none
  holder : Option ℕ := none
deriving DecidableEq

/-- A job directory: where it is, its descriptor and its files. -/
structure JobDir where
  path : String
  job : PullJob
  files : JobFiles
deriving DecidableEq

def startGraceMs : ℤ := 3000

def pulledAgainLine : String := "no worker took it up; the model was pulled again"

/-- `i64::saturating_sub`. -/
def saturatingSub (a b : ℤ) : ℤ := max (-(2 ^ 63)) (min (2 ^ 63 - 1) (a - b))

/-! ## Reading one job -/

/-- A worker was meant to be holding a job with this record. -/
def PullStatus.expectsWorker (status : PullStatus) : Bool :=
  match status.state with
  | .running => true
  | .queued => status.pid.isSome
  | _ => false

/-- Queued, no worker's pid written, and untouched for the grace period. -/
def PullStatus.unclaimed (status : PullStatus) (now graceMs : ℤ) : Bool :=
  status.state == .queued && status.pid.isNone &&
    decide (saturatingSub now status.updatedAtMs ≥ graceMs)

/-- The record with the lock rule applied, `alive` being the answer of the lock probe. -/
def PullStatus.withLiveness (status : PullStatus) (alive : Bool) : PullStatus :=
  if status.expectsWorker && !alive then
    { status with state := .interrupted, statusLine := none, registeringUntilMs := none }
  else status

structure PullReading where
  status : PullStatus
  abandoned : Bool
  superseded : Bool
deriving DecidableEq

/-- A job as it is shown without asking the other jobs anything. -/
def PullStatus.shownWith (stored : PullStatus) (alive : Bool) (now : ℤ) : PullReading :=
  let status := stored.withLiveness alive
  let abandoned := status.unclaimed now startGraceMs && !alive
  { status := if abandoned then { status with state := .interrupted } else status
    abandoned
    superseded := false }

/-- A pull of the model could still be going through the job. -/
def PullReading.takesPart (shown : PullReading) : Bool :=
  shown.status.state.going && !shown.abandoned

/-- The record was written `done` after `atMs`. -/
def PullStatus.landedAfter (stored : PullStatus) (atMs : ℤ) : Bool :=
  stored.state == .done && decide (stored.updatedAtMs > atMs)

/-- A reading once a sibling is known to have pulled the model again, or not. -/
def PullReading.withSibling (shown : PullReading) (pulledAgain : Bool) : PullReading :=
  if shown.abandoned && pulledAgain then
    { status := { shown.status with state := .failed, message := some pulledAgainLine }
      abandoned := false
      superseded := true }
  else shown

def RecordFile.storedStatus (createdAtMs : ℤ) : RecordFile → PullStatus
  | .missing => PullStatus.queued createdAtMs
  | .damaged modifiedMs reason =>
    PullStatus.unreadable (modifiedMs.getD createdAtMs)
      ("its record could not be read: " ++ reason)
  | .stored status => status

namespace JobDir

variable (dir : JobDir)

/-- The record as written, without the liveness rule applied. -/
def storedStatus : PullStatus := dir.files.record.storedStatus dir.job.createdAtMs

/-- A process holds the job's lock. -/
def workerAlive : Bool := dir.files.holder.isSome

def status : PullStatus := dir.storedStatus.withLiveness dir.workerAlive

def shown (now : ℤ) : PullReading := dir.storedStatus.shownWith dir.workerAlive now

def takesPart (now : ℤ) : Bool := (dir.shown now).takesPart

def landedAfter (atMs : ℤ) : Bool := dir.storedStatus.landedAfter atMs

/-- The two jobs pull the same model. -/
def sameModel (other : JobDir) : Bool :=
  other.job.provider == dir.job.provider &&
    eqIgnoreAsciiCase other.job.reference.toList dir.job.reference.toList

/-- `other` has taken the job's place: it is under way, or landed after the job was created. -/
def replacedBy (other : JobDir) (now : ℤ) : Bool :=
  other.path != dir.path && dir.sameModel other &&
    (other.takesPart now || other.landedAfter dir.job.createdAtMs)

end JobDir

/-! ## The store -/

/-- The directory of pull jobs, in the order the file system lists them. -/
structure PullStore where
  jobs : List JobDir
  distinct : (jobs.map JobDir.path).Nodup

namespace PullStore

theorem ext_jobs {s t : PullStore} (h : s.jobs = t.jobs) : s = t := by
  cases s
  cases t
  simpa using h

def find (store : PullStore) (path : String) : Option JobDir :=
  store.jobs.find? fun dir => dir.path == path

/-- Rewrite the files of the job at `path`. -/
def modify (store : PullStore) (path : String) (change : JobFiles → JobFiles) : PullStore where
  jobs := store.jobs.map fun dir =>
    if dir.path = path then { dir with files := change dir.files } else dir
  distinct := by
    rw [List.map_map]
    have hsame : (JobDir.path ∘ fun dir : JobDir =>
        if dir.path = path then { dir with files := change dir.files } else dir) = JobDir.path := by
      funext dir
      simp only [Function.comp_apply]
      split <;> rfl
    rw [hsame]
    exact store.distinct

/-- Oldest first, ties by id. -/
def older (a b : JobDir) : Bool :=
  decide (a.job.createdAtMs < b.job.createdAtMs) ||
    (a.job.createdAtMs == b.job.createdAtMs && decide (a.job.id ≤ b.job.id))

/-- Every readable job, oldest first. -/
def list (store : PullStore) : List JobDir := store.jobs.mergeSort older

/-- Another job of this one's model is under way, or landed after this one was created. -/
def pulledAgain (store : PullStore) (dir : JobDir) (now : ℤ) : Bool :=
  store.list.any fun other => dir.replacedBy other now

/-- The job as every surface shows it. -/
def reading (store : PullStore) (dir : JobDir) (now : ℤ) : PullReading :=
  (dir.shown now).withSibling (store.pulledAgain dir now)

/-- The newest job of the reference that a client could join. -/
def underWay (store : PullStore) (provider reference : String) (now : ℤ) : Option JobDir :=
  (store.list.reverse.filter fun dir =>
    dir.job.provider == provider && eqIgnoreAsciiCase dir.job.reference.toList
      reference.toList).find?
      fun dir => dir.takesPart now

end PullStore

/-! ## Writing a record -/

/-- Read the stored record, change it and write it back stamped `now`; a record nobody can read
is refused. -/
def JobDir.updateStatus (dir : JobDir) (now : ℤ) (change : PullStatus → PullStatus) :
    Option JobFiles :=
  if dir.storedStatus.state = .unreadable then none
  else some { dir.files with record := .stored { change dir.storedStatus with updatedAtMs := now } }

/-- The record of a job whose model was pulled again. -/
def PullStatus.pulledAgain (status : PullStatus) : PullStatus :=
  { status with
    state := .failed
    message := some pulledAgainLine
    pid := none
    nextAttemptAtMs := none
    registeringUntilMs := none
    statusLine := none }

namespace PullStore

/-- Write down a job that reads superseded as the failure it reads. The job's own lock is held
for the second look and the write. -/
def settleSuperseded (store : PullStore) (dir : JobDir) (now : ℤ) : PullStore × Bool :=
  if !(store.reading dir now).superseded then (store, false)
  else if dir.workerAlive then (store, false)
  else if !dir.storedStatus.unclaimed now startGraceMs || !store.pulledAgain dir now then
    (store, false)
  else
    match dir.updateStatus now PullStatus.pulledAgain with
    | none => (store, false)
    | some files =>
      let events := dir.files.events ++ [⟨now, .state .failed⟩]
      (store.modify dir.path fun _ => { files with events }, true)

/-- Settle the job at `path`, if it is there. -/
def settlePath (store : PullStore) (now : ℤ) (path : String) : PullStore :=
  match store.find path with
  | none => store
  | some dir => (store.settleSuperseded dir now).1

/-- Settle one job after another, in the order given. -/
def settleAll (store : PullStore) (now : ℤ) (paths : List String) : PullStore :=
  paths.foldl (fun store path => store.settlePath now path) store

end PullStore

end Hedos.Install
