import Hedos.Governor.Policy
import Hedos.Jobs.Job

/-!
# The job scheduler

`JobScheduler` runs jobs one at a time in submission order (`runtime/src/jobs/scheduler.rs`).
Its state is behind one mutex that is never held across an await, so what runs at once are
lock sections: those of `submit`, `events` and `cancel`, those of `drive`, which executes one
job, and those of `conclude`, which stamps a job, records it and only then emits the terminal
event and evicts it.

A call of `cancel` goes on after its first section as a task of its own, next to the task that
`start_next_if_idle` spawns for each job. A task is a job and a program counter; `DrivePc.edge`
is the program text of `drive`, one line for each way out of each counter, with its section as
an `Effect`. What admission, the runner and the artifact sink answer is a `Choice`, and so is
that one of them panics: `ExecuteGuard` then concludes the job.

`subscribers` is not a table here: a stream knows whether its sending half is in it. Marks that
no section reads say what has happened to which job: `submitted`, `started`, `withdrawn`
(cancelled while queued), `invoked` and `stamped`.
-/

namespace Hedos.Jobs

open Function

open Hedos.Governor (RamVerdict)

/-! ## Tasks -/

/-- The counters of `drive`. -/
inductive DrivePc
  | start
  | waitAdmission
  | admitted (verdict : RamVerdict)
  | prepare (verdict : RamVerdict)
  | emitPreparing (verdict : RamVerdict)
  | emitTight
  | invoke
  | invoked
  | check
  | recv
  | finish
  | apply (event : JobRuntimeEvent)
  | progress (step totalSteps : ℤ)
  | persist
  | sink
  | write
  | pushResult (artifactId : String)
deriving DecidableEq

inductive TaskPc
  /-- `cancel`, about to notify the executing job. -/
  | notify
  | drive (pc : DrivePc)
  /-- `conclude`, about to stamp. -/
  | conclude (terminal : JobState) (failure : Option Failure)
  /-- `conclude` with a state that is not terminal. -/
  | evict
  | record (recorded : Job) (event : JobEvent)
  | emit (event : JobEvent)
  | done
deriving DecidableEq

/-- An execution of a job, or a cancellation of it. -/
structure Task where
  job : String
  executor : Bool
  pc : TaskPc
deriving DecidableEq

/-! ## Streams -/

/-- Where the sending half of a stream is: in the call of `events`, or with `subscribers`. -/
inductive Sender
  | caller
  | subscribed
  | dropped
deriving DecidableEq

/-- A stream of events. `live` marks that its job was not terminal when it was subscribed. -/
structure Stream where
  job : String
  sender : Sender
  receiver : Bool
  live : Bool
  events : List JobEvent
deriving DecidableEq

/-- `send`, which fails once the receiver is gone; the sending half is then let go. -/
def Stream.deliver (id : String) (event : JobEvent) (stream : Stream) : Stream :=
  if stream.job = id ∧ stream.sender = .subscribed then
    if stream.receiver then { stream with events := stream.events ++ [event] }
    else { stream with sender := .dropped }
  else stream

/-- The subscribers of a job are removed. -/
def Stream.close (id : String) (stream : Stream) : Stream :=
  if stream.job = id ∧ stream.sender = .subscribed then { stream with sender := .dropped }
  else stream

/-! ## The scheduler and its lock sections -/

structure Scheduler where
  jobs : String → Option Job
  queue : List String
  runners : String → Bool
  executing : Option String
  cancelRequested : String → Bool
  /-- The permit of the `Notify` of each execution. -/
  notified : String → Bool
  hasSink : Bool
  history : JobHistory
  streams : List Stream
  tasks : List Task
  submitted : List String
  started : List String
  withdrawn : List String
  invoked : List String
  stamped : List String

namespace Scheduler

/-- `JobScheduler::new`. -/
def new (history : JobHistory) (hasSink : Bool) : Scheduler where
  jobs := fun _ => none
  queue := []
  runners := fun _ => false
  executing := none
  cancelRequested := fun _ => false
  notified := fun _ => false
  hasSink := hasSink
  history := history
  streams := []
  tasks := []
  submitted := []
  started := []
  withdrawn := []
  invoked := []
  stamped := []

def emitInto (s : Scheduler) (id : String) (event : JobEvent) : Scheduler :=
  { s with streams := s.streams.map (Stream.deliver id event) }

def mutate (s : Scheduler) (id : String) (change : Job → Job) : Scheduler :=
  { s with jobs := update s.jobs id ((s.jobs id).map change) }

/-- `start_next_if_idle`: the first of the queue takes the slot, and a task executes it. -/
def startNextIfIdle (s : Scheduler) : Scheduler :=
  match s.executing, s.queue with
  | none, id :: rest =>
    { s with
      executing := some id
      queue := rest
      started := s.started ++ [id]
      tasks := s.tasks ++ [⟨id, true, .drive .start⟩] }
  | _, _ => s

/-- What `evict_and_advance` removes. -/
def evict (s : Scheduler) (id : String) : Scheduler :=
  { s with
    streams := s.streams.map (Stream.close id)
    jobs := update s.jobs id none
    runners := update s.runners id false
    cancelRequested := update s.cancelRequested id false
    executing := if s.executing = some id then none else s.executing }

def evictAndAdvance (s : Scheduler) (id : String) : Scheduler := (s.evict id).startNextIfIdle

def enqueue (s : Scheduler) (id : String) (now : ℤ) : Scheduler :=
  { s with
    jobs := update s.jobs id (some (.new id now))
    runners := update s.runners id true
    queue := s.queue ++ [id]
    submitted := s.submitted ++ [id] }

def submit (s : Scheduler) (id : String) (now : ℤ) : Scheduler :=
  (s.enqueue id now).startNextIfIdle

/-- The first section of `events`. -/
def events (s : Scheduler) (id : String) : Scheduler :=
  match s.jobs id with
  | some job =>
    let sender := if job.state.isTerminal then Sender.dropped else .subscribed
    { s with streams := s.streams ++ [⟨id, sender, true, !job.state.isTerminal, replay job⟩] }
  | none => { s with streams := s.streams ++ [⟨id, .caller, true, false, []⟩] }

/-- What `events` finds in the history. -/
def historyReplay (s : Scheduler) (id : String) : List JobEvent :=
  match s.history.get id with
  | some job => if job.state.isTerminal then replay job else []
  | none => []

/-- The second section of `events`, for a job that was not in memory. -/
def lookup (s : Scheduler) (stream : Stream) : Stream :=
  { stream with sender := .dropped, events := s.historyReplay stream.job }

/-- `Action::Notify`: the executing job is asked to stop. -/
def requestCancel (s : Scheduler) (id : String) : Scheduler :=
  { s with
    cancelRequested := update s.cancelRequested id true
    tasks := s.tasks ++ [⟨id, false, .notify⟩] }

/-- `Action::ConcludeQueued`: the job leaves the queue. -/
def withdraw (s : Scheduler) (id : String) : Scheduler :=
  { s with
    queue := s.queue.filter fun queued => queued ≠ id
    withdrawn := s.withdrawn ++ [id]
    tasks := s.tasks ++ [⟨id, false, .conclude .cancelled none⟩] }

/-- The first section of `cancel`. -/
def cancel (s : Scheduler) (id : String) : Scheduler :=
  match s.jobs id with
  | none => s
  | some job =>
    if job.state.isTerminal then s
    else if s.executing = some id then s.requestCancel id
    else s.withdraw id

def markRunning (s : Scheduler) (id : String) : Scheduler :=
  match s.jobs id with
  | some job =>
    if job.state = .running then s
    else (s.mutate id fun job => { job with state := .running }).emitInto id .running
  | none => s

def markWaiting (s : Scheduler) (id reason : String) : Scheduler :=
  match s.jobs id with
  | some job =>
    if job.state = .queued then
      (s.mutate id fun job => { job with queueReason := some reason }).emitInto id
        (.queued (some reason))
    else s
  | none => s

/-- The fraction of a number of steps, between zero and one. -/
def fraction (step totalSteps : ℤ) : ℚ :=
  if totalSteps > 0 then max 0 (min 1 (step / totalSteps)) else 0

/-- The second section of `apply` for a progress event: progress does not go back. -/
def markProgress (s : Scheduler) (id : String) (step totalSteps : ℤ) : Scheduler :=
  match s.jobs id with
  | some job =>
    if fraction step totalSteps < job.progress.fraction then s
    else
      let progress : JobProgress := ⟨fraction step totalSteps, some step, some totalSteps⟩
      (s.mutate id fun job => { job with progress := progress }).emitInto id (.progress progress)
  | none => s

/-- The first section of `conclude`: stamp the job if it is in memory and not terminal. -/
def stamp (s : Scheduler) (id : String) (terminal : JobState) (failure : Option Failure)
    (now : ℤ) : Scheduler :=
  { s.mutate id fun job => job.stamp terminal failure now with stamped := s.stamped ++ [id] }

def goto (s : Scheduler) (i : ℕ) (task : Task) (pc : TaskPc) : Scheduler :=
  { s with tasks := s.tasks.set i { task with pc := pc } }

end Scheduler

/-! ## `drive` -/

/-- The sections of `drive`; one that reads carries the answer it got. -/
inductive Effect
  | pause
  /-- Whether the job and its runner are there; the runner is taken. -/
  | takeRunner (found : Bool)
  | cancelRequested (answer : Bool)
  /-- `cancel.notified()`. -/
  | takePermit
  | prepare (now : ℤ)
  | emit (event : JobEvent)
  | invoke
  | markRunning
  | markProgress (step totalSteps : ℤ)
  | preview (frame : List UInt8)
  | extendResult (ids : List String)
  | inMemory (answer : Bool)
  | hasSink (answer : Bool)
deriving DecidableEq

/-- What a section of `drive` of job `id` does. -/
def Effect.run (id : String) (s : Scheduler) : Effect → Option Scheduler
  | .pause => some s
  | .takeRunner found =>
    if ((s.jobs id).isSome && s.runners id) = found then
      some { s with runners := update s.runners id false }
    else none
  | .cancelRequested answer => if s.cancelRequested id = answer then some s else none
  | .takePermit =>
    if s.notified id then some { s with notified := update s.notified id false } else none
  | .prepare now =>
    some (s.mutate id fun job =>
      { job with state := .preparing, queueReason := none, startedAt := some now })
  | .emit event => some (s.emitInto id event)
  | .invoke => some { s with invoked := s.invoked ++ [id] }
  | .markRunning => some (s.markRunning id)
  | .markProgress step totalSteps => some (s.markProgress id step totalSteps)
  | .preview frame =>
    some ((s.mutate id fun job => { job with preview := some frame }).emitInto id (.preview frame))
  | .extendResult ids => some (s.mutate id fun job => { job with result := job.result ++ ids })
  | .inMemory answer => if (s.jobs id).isSome = answer then some s else none
  | .hasSink answer => if s.hasSink = answer then some s else none

/-- How a choice of a task falls out, and what is answered to it. -/
inductive Choice
  | go
  | yes
  | no
  | clock (now : ℤ)
  | verdict (verdict : RamVerdict)
  | error (error : JobError)
  /-- The runner's stream has ended. -/
  | ended
  | event (event : JobRuntimeEvent)
  /-- `cancel` has notified. -/
  | notified
  | written (artifactId : String)
  | notWritten (message : String)
  /-- The code called panics, or the task is dropped where it waits. -/
  | panic
deriving DecidableEq

def missingSink : String := "No artifact store is attached to the job scheduler."

def panicMessage : String := "the job runner panicked"

def tightMessage : String := "Memory is tight — running anyway"

def lostRunner (id : String) : String := "job " ++ id ++ " lost its runner"

/-- `drive` returns what `conclude` is called with. -/
def TaskPc.fails (message : String) : TaskPc := .conclude .failed (some (.of message))

def TaskPc.endsIn (error : JobError) : TaskPc := .conclude (ended error).1 (ended error).2

def DrivePc.afterPreparing : RamVerdict → DrivePc
  | .tight => .emitTight
  | .ok => .invoke

/-- Where an event of the runner is handled. -/
def DrivePc.handle : JobRuntimeEvent → DrivePc
  | .result _ _ => .persist
  | event => .apply event

/-- The section an event of the runner takes first. -/
def JobRuntimeEvent.effect : JobRuntimeEvent → Effect
  | .status message => .emit (.status message)
  | .started => .markRunning
  | .progress _ _ => .markRunning
  | .preview frame => .preview frame
  | .artifacts ids => .extendResult ids
  | .result _ _ => .pause

def DrivePc.afterApply : JobRuntimeEvent → DrivePc
  | .progress step totalSteps => .progress step totalSteps
  | _ => .check

/-- The steps of `drive` for job `id`. -/
def DrivePc.edge (id : String) : DrivePc → Choice → Option (Effect × TaskPc)
  -- the job and its runner are taken; both are there unless the job was evicted
  | .start, .yes => some (.takeRunner true, .drive .waitAdmission)
  | .start, .no => some (.takeRunner false, .fails (lostRunner id))
  | .waitAdmission, .verdict verdict => some (.pause, .drive (.admitted verdict))
  | .waitAdmission, .error error => some (.pause, .endsIn error)
  | .waitAdmission, .notified => some (.takePermit, .conclude .cancelled none)
  | .waitAdmission, .panic => some (.pause, .fails panicMessage)
  -- a cancellation that came during admission, then the way to the runner
  | .admitted _, .yes => some (.cancelRequested true, .conclude .cancelled none)
  | .admitted verdict, .no => some (.cancelRequested false, .drive (.prepare verdict))
  | .prepare verdict, .clock now => some (.prepare now, .drive (.emitPreparing verdict))
  | .emitPreparing verdict, .go => some (.emit .preparing, .drive (afterPreparing verdict))
  | .emitTight, .go => some (.emit (.status tightMessage), .drive .invoke)
  -- `runner()` is called once, and may panic
  | .invoke, .go => some (.invoke, .drive .invoked)
  | .invoked, .go => some (.pause, .drive .check)
  | .invoked, .panic => some (.pause, .fails panicMessage)
  -- the loop over the events of the runner
  | .check, .yes => some (.cancelRequested true, .conclude .cancelled none)
  | .check, .no => some (.cancelRequested false, .drive .recv)
  | .recv, .event event => some (.pause, .drive (handle event))
  | .recv, .ended => some (.pause, .drive .finish)
  | .recv, .error error => some (.pause, .endsIn error)
  | .recv, .notified => some (.takePermit, .conclude .cancelled none)
  | .recv, .panic => some (.pause, .fails panicMessage)
  | .finish, .yes => some (.cancelRequested true, .conclude .cancelled none)
  | .finish, .no => some (.cancelRequested false, .conclude .done none)
  | .apply event, .go => some (event.effect, .drive (afterApply event))
  | .progress step totalSteps, .go => some (.markProgress step totalSteps, .drive .check)
  -- `persist`, for an event that carries a result
  | .persist, .yes => some (.inMemory true, .drive .sink)
  | .persist, .no => some (.inMemory false, .drive .check)
  | .sink, .yes => some (.hasSink true, .drive .write)
  | .sink, .no => some (.hasSink false, .fails missingSink)
  | .write, .written artifactId => some (.pause, .drive (.pushResult artifactId))
  | .write, .notWritten message => some (.pause, .fails message)
  | .write, .panic => some (.pause, .fails panicMessage)
  | .pushResult artifactId, .go => some (.extendResult [artifactId], .drive .check)
  | _, _ => none

/-! ## Steps -/

inductive SchedulerAction
  /-- `submit`, with an id that `new_job_id` has not given before. -/
  | submit (id : String) (now : ℤ)
  | events (id : String)
  /-- The `events` call of stream `k` goes on to the history. -/
  | lookup (k : ℕ)
  /-- The receiver of stream `k` is dropped. -/
  | unsubscribe (k : ℕ)
  | cancel (id : String)
  /-- Admission reports through the `on_wait` that task `i` gave it. -/
  | waiting (i : ℕ) (reason : String)
  | move (i : ℕ) (choice : Choice)

/-- Where `conclude` goes on after it has stamped. -/
def TaskPc.afterStamp (recorded : Job) (terminal : JobState) (failure : Option Failure) : TaskPc :=
  match terminalEvent recorded failure terminal with
  | some event => .record recorded event
  | none => .evict

namespace Scheduler

/-- Task `i` moves. -/
def move (s : Scheduler) (i : ℕ) (task : Task) : TaskPc → Choice → Option Scheduler
  | .notify, .go =>
    some { s.goto i task .done with notified := update s.notified task.job true }
  | .drive pc, choice =>
    (pc.edge task.job choice).bind fun next =>
      (next.1.run task.job s).map fun t => t.goto i task next.2
  | .conclude terminal failure, .clock now =>
    match s.jobs task.job with
    | some job =>
      -- stamped by somebody else: evicted at once, whether or not its event has been sent
      if job.state.isTerminal then some ((s.goto i task .done).evictAndAdvance task.job)
      else
        let recorded := job.stamp terminal failure now
        some ((s.goto i task (.afterStamp recorded terminal failure)).stamp task.job terminal
          failure now)
    | none => some ((s.goto i task .done).evictAndAdvance task.job)
  | .evict, .go => some ((s.goto i task .done).evictAndAdvance task.job)
  | .record recorded event, .go =>
    some { s.goto i task (.emit event) with history := s.history.record recorded }
  | .emit event, .go =>
    some (((s.goto i task .done).emitInto task.job event).evictAndAdvance task.job)
  | _, _ => none

def step (s : Scheduler) : SchedulerAction → Option Scheduler
  | .submit id now => if id ∈ s.submitted then none else some (s.submit id now)
  | .events id => some (s.events id)
  | .lookup k =>
    match s.streams[k]? with
    | some ⟨job, .caller, receiver, live, events⟩ =>
      some { s with streams := s.streams.set k (s.lookup ⟨job, .caller, receiver, live, events⟩) }
    | _ => none
  | .unsubscribe k =>
    some { s with streams := s.streams.modify k fun stream => { stream with receiver := false } }
  | .cancel id => some (s.cancel id)
  | .waiting i reason =>
    match s.tasks[i]? with
    | some task =>
      if task.executor && task.pc != .drive .start then some (s.markWaiting task.job reason)
      else none
    | none => none
  | .move i choice => (s.tasks[i]?).bind fun task => s.move i task task.pc choice

/-- A scheduler that has run nothing, over any history. -/
def Fresh (s : Scheduler) : Prop := ∃ history hasSink, s = .new history hasSink

theorem new_fresh (history : JobHistory) (hasSink : Bool) : (new history hasSink).Fresh :=
  ⟨_, _, rfl⟩

end Scheduler

end Hedos.Jobs
