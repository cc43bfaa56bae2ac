import Hedos.Install.HfCache
import Hedos.Install.Pulls
import Hedos.Lib.Programs

/-!
# The pull store as its processes share it

Clients and workers coordinate through files only: the record, the history and the control file
of each job, the job's lock, and one claim for each reference. Here is what one file operation
does (`exec`), so that the functions of `kernel/src/install/pulls.rs` and
`runtime/src/install/worker.rs` can be written as the sequences of operations they are.

A record is written and the control file is compared and deleted in one operation, as the atomic
rename and the control lock make them; reading a record and writing it back are two. Locks go
with the process that held them. The clock only goes forward. A filesystem error ends the
process that meets it, like a kill. Removing a job is not modelled.
-/

namespace Hedos.Install

open Programs

/-- A handle on a job: its directory and its descriptor. -/
structure PullJobDir where
  path : String
  job : PullJob
deriving DecidableEq

/-- What two pulls of one model share: the provider, and the reference regardless of case. The
claim of a reference is a file named by the hash of the two. -/
structure ModelKey where
  provider : String
  reference : List Char
deriving DecidableEq

def ModelKey.of (provider reference : String) : ModelKey :=
  ⟨provider, reference.toList.map Char.toLower⟩

def PullJob.key (job : PullJob) : ModelKey := ModelKey.of job.provider job.reference

/-! ## What the surroundings answer -/

/-- An event of a running install; of the progress only the byte count is read. -/
inductive InstallEvent
  | progress (bytesDownloaded : ℤ)
  | status (text : String)
  | done
  | failed (message : String)
  | cancelled
  | queued
  | preparing
deriving DecidableEq

/-- What a worker following an install hears next: an event, the end of the feed, or its own
tick. -/
inductive Heard
  | event (event : InstallEvent)
  | closed
  | tick
deriving DecidableEq

/-- How a registration ended. -/
inductive Registration
  | done
  | failed (message : String)
  | cutShort
deriving DecidableEq

/-- What a process asks of its surroundings, the pull store apart. -/
inductive Question
  /-- How many rounds a loop goes. -/
  | rounds
  /-- Whether a wait is over. -/
  | due
  /-- Whether one of the slots is free. -/
  | slot
  /-- `Session::open`: the error, if it fails. -/
  | session
  /-- Whether the plan is resolved by now, and if so how it failed. -/
  | planned
  /-- `InstallService::begin`: the error, with the text it is shown with. -/
  | begun
  | heard
  /-- `InstallService::failure`. -/
  | failure
  | registered
  /-- `spawn_detached`: the new process's pid, or why there is none. -/
  | spawned
deriving DecidableEq

abbrev Question.Answer : Question → Type
  | .rounds => ℕ
  | .due => Bool
  | .slot => Bool
  | .session => Option String
  | .planned => Option (Option (String × InstallError))
  | .begun => Option (String × InstallError)
  | .heard => Heard
  | .failure => Option InstallError
  | .registered => Registration
  | .spawned => Except String ℕ

/-- Surroundings in which nothing goes wrong and nothing goes on. -/
def Question.quietly : (question : Question) → question.Answer
  | .rounds => 1
  | .due => true
  | .slot => true
  | .session => none
  | .planned => some none
  | .begun => none
  | .heard => .event .done
  | .failure => none
  | .registered => .done
  | .spawned => .ok 0

/-- What an operation meets: a lock refused for a reader's passing probe, a control lock held
for too long, and the answers of the surroundings. -/
structure Input where
  refused : Bool := false
  busy : Bool := false
  said : (question : Question) → question.Answer := Question.quietly

/-! ## The shared state -/

/-- The store, who holds the claim of a reference, the workers spawned and not yet started, and
the time. `asked` is history no operation reads: the jobs that were asked to cancel before they
had ended. -/
structure World where
  store : PullStore
  claims : ModelKey → Option ℕ
  coming : List String
  clock : ℤ
  asked : List String

/-- The record has ended for good. -/
def RecordFile.ended : RecordFile → Bool
  | .stored status => status.state.isTerminal
  | _ => false

/-- The record can be read. -/
def RecordFile.readable : RecordFile → Bool
  | .missing => true
  | .damaged _ _ => false
  | .stored status => status.state != .unreadable

/-- The record has not ended and can be read. -/
def RecordFile.going (record : RecordFile) : Bool := !record.ended && record.readable

namespace PullStore

/-- The files of the job at `path`; a job that is not there has none. -/
def files (store : PullStore) (path : String) : JobFiles :=
  match store.find path with
  | some dir => dir.files
  | none => { record := .missing }

/-- The descriptor of the job at `path`. -/
def job (store : PullStore) (path : String) : Option PullJob := (store.find path).map JobDir.job

/-- Add a job nobody has written a record for. -/
def add (store : PullStore) (path : String) (job : PullJob) (h : store.find path = none) :
    PullStore where
  jobs := store.jobs ++ [{ path, job, files := { record := .missing } }]
  distinct := by
    rw [List.map_append, List.map_singleton]
    refine List.nodup_append.2 ⟨store.distinct, List.nodup_singleton _, ?_⟩
    intro a ha b hb
    rw [List.mem_singleton] at hb
    obtain ⟨dir, hdir, rfl⟩ := List.mem_map.1 ha
    intro heq
    have hnone := List.find?_eq_none.1 h dir hdir
    exact hnone (by simpa [hb] using heq)

/-- Let go of every lock that process `i` holds. -/
def letGo (store : PullStore) (i : ℕ) : PullStore where
  jobs := store.jobs.map fun dir =>
    if dir.files.holder = some i then { dir with files := { dir.files with holder := none } }
    else dir
  distinct := by
    rw [List.map_map]
    have hsame : (JobDir.path ∘ fun dir : JobDir =>
        if dir.files.holder = some i then { dir with files := { dir.files with holder := none } }
        else dir) = JobDir.path := by
      funext dir
      simp only [Function.comp_apply]
      split <;> rfl
    rw [hsame]
    exact store.distinct

end PullStore

namespace World

variable (w : World)

def files (path : String) : JobFiles := w.store.files path

def record (path : String) : RecordFile := (w.files path).record

def control (path : String) : Option PullControl := (w.files path).control

def holder (path : String) : Option ℕ := (w.files path).holder

def job (path : String) : Option PullJob := w.store.job path

def modify (path : String) (change : JobFiles → JobFiles) : World :=
  { w with store := w.store.modify path change }

end World

/-! ## The operations -/

/-- What a lock or a claim is taken for; taking it is the same for all. -/
inductive Purpose
  /-- A worker takes its job up. -/
  | hold
  /-- A client rewrites the record of a job nobody holds. -/
  | rewrite
  /-- A client is about to look for a pull to join. -/
  | look
  /-- A client that found none, and let its claim go or never had it, is about to start one. -/
  | create
  /-- A worker is about to transfer. -/
  | transfer
deriving DecidableEq

inductive Op
  /-- `now_millis`. -/
  | now
  /-- `std::process::id`. -/
  | pid
  /-- `PullStore::jobs`. -/
  | jobs
  /-- `PullJobDir::open`. -/
  | descriptor (path : String)
  /-- The read of `PullJobDir::stored_status`. -/
  | read (path : String)
  /-- `PullJobDir::write_status`. -/
  | write (path : String) (status : PullStatus)
  /-- The write of `PullJobDir::append`. -/
  | append (path : String) (event : PullEvent)
  /-- `PullJobDir::worker_alive`. -/
  | probe (path : String)
  /-- `PullJobDir::claim`. -/
  | claim (path : String) (purpose : Purpose)
  /-- The lock of a job is dropped. -/
  | release (path : String)
  /-- `claim_reference`. -/
  | claimReference (key : ModelKey) (purpose : Purpose)
  /-- The claim of a reference is dropped. -/
  | releaseReference (key : ModelKey)
  /-- `PullJobDir::control`. -/
  | control (path : String)
  /-- `PullJobDir::request_within`; `none` when the control lock stays busy. -/
  | request (path : String) (control : PullControl)
  /-- `PullJobDir::clear_control`. -/
  | clear (path : String) (honoured : PullControl)
  /-- `PullJobDir::clear_control_within`; `none` when the control lock stays busy. -/
  | clearWithin (path : String) (honoured : PullControl)
  /-- `create_dir` and the descriptor written into it; `false` when the id is taken. -/
  | create (path : String) (job : PullJob)
  /-- `spawn_detached`. -/
  | spawn (path : String)
  | hear (question : Question)
deriving DecidableEq

abbrev Op.Answer : Op → Type
  | .now => ℤ
  | .pid => ℕ
  | .jobs => List PullJobDir
  | .descriptor _ => Option PullJob
  | .read _ => RecordFile
  | .write _ _ => Unit
  | .append _ _ => Unit
  | .probe _ => Bool
  | .claim _ _ => Bool
  | .release _ => Unit
  | .claimReference _ _ => Bool
  | .releaseReference _ => Unit
  | .control _ => Option PullControl
  | .request _ _ => Option PullControl
  | .clear _ _ => Option PullControl
  | .clearWithin _ _ => Option (Option PullControl)
  | .create _ _ => Bool
  | .spawn _ => Except String ℕ
  | .hear question => question.Answer

namespace World

variable (w : World)

/-- Ask the job's worker for `control`; a pause does not replace a cancel. -/
def request (path : String) (control : PullControl) : PullControl × World :=
  if control = .pause ∧ w.control path = some .cancel then (.cancel, w)
  else
    let asked :=
      if control = .cancel ∧ (w.job path).isSome ∧ !(w.record path).ended then path :: w.asked
      else w.asked
    (control, { w.modify path fun files => { files with control := some control } with asked })

/-- Delete the control file if it says `honoured`, and say what is left. -/
def clear (path : String) (honoured : PullControl) : Option PullControl × World :=
  if w.control path = some honoured then
    (none, w.modify path fun files => { files with control := none })
  else (w.control path, w)

/-- Take the job's lock for process `i`. -/
def claim (i : ℕ) (path : String) (refused : Bool) : Bool × World :=
  if refused = false ∧ (w.job path).isSome ∧ w.holder path = none then
    (true, w.modify path fun files => { files with holder := some i })
  else (false, w)

def release (i : ℕ) (path : String) : World :=
  if w.holder path = some i then w.modify path fun files => { files with holder := none } else w

def claimReference (i : ℕ) (key : ModelKey) (refused : Bool) : Bool × World :=
  if refused = false ∧ w.claims key = none then
    (true, { w with claims := Function.update w.claims key (some i) })
  else (false, w)

def releaseReference (i : ℕ) (key : ModelKey) : World :=
  if w.claims key = some i then { w with claims := Function.update w.claims key none } else w

def create (path : String) (job : PullJob) (refused : Bool) : Bool × World :=
  if h : refused = false ∧ w.store.find path = none then
    (true, { w with store := w.store.add path job h.2 })
  else (false, w)

end World

/-- One operation of process `i`. -/
def exec (i : ℕ) (op : Op) (input : Input) (w : World) : op.Answer × World :=
  match op with
  | .now => (w.clock, w)
  | .pid => (i, w)
  | .jobs => (w.store.list.map fun dir => ⟨dir.path, dir.job⟩, w)
  | .descriptor path => (w.job path, w)
  | .read path => (w.record path, w)
  | .write path status => ((), w.modify path fun files => { files with record := .stored status })
  | .append path event =>
    ((), w.modify path fun files => { files with events := files.events ++ [event] })
  | .probe path => ((w.holder path).isSome, w)
  | .claim path _ => w.claim i path input.refused
  | .release path => ((), w.release i path)
  | .claimReference key _ => w.claimReference i key input.refused
  | .releaseReference key => ((), w.releaseReference i key)
  | .control path => (w.control path, w)
  | .request path control =>
    if input.busy then (none, w)
    else
      let (standing, w) := w.request path control
      (some standing, w)
  | .clear path honoured => w.clear path honoured
  | .clearWithin path honoured =>
    if input.busy then (none, w)
    else
      let (waiting, w) := w.clear path honoured
      (some waiting, w)
  | .create path job => w.create path job input.refused
  | .spawn path =>
    match input.said .spawned with
    | .ok pid => (.ok pid, { w with coming := w.coming ++ [path] })
    | .error reason => (.error reason, w)
  | .hear question => (input.said question, w)

/-- The process `i` is gone, and with it every lock and claim it held. -/
def World.reap (w : World) (i : ℕ) : World :=
  { w with
    store := w.store.letGo i
    claims := fun key => if w.claims key = some i then none else w.claims key }

/-- Time goes on. -/
def World.tick (w : World) (later : ℕ) : World := { w with clock := w.clock + later }

/-- A store no process has opened yet, with the workers spawned on it before. -/
def World.opened (store : PullStore) (coming : List String) (clock : ℤ) : World where
  store := store
  claims := fun _ => none
  coming := coming
  clock := clock
  asked := (store.jobs.filter fun dir =>
    dir.files.control == some .cancel && !dir.files.record.ended).map JobDir.path

end Hedos.Install
