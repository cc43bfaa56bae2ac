import Hedos.Install.PullClients

/-!
# The process that owns one pull

The worker half of `runtime/src/install/worker.rs` and the command that runs it
(`cli/src/commands/pull/worker.rs`), as the file operations they perform: the worker takes its
job up (`hold`), claims the reference, transfers until the pull lands, is stopped or is not worth
another attempt, and writes what it is doing into the record as it goes.

A loop that only its surroundings end goes for a number of rounds they choose beforehand and
hangs after that: every run of the process up to any moment is a run with enough rounds. The
install service, its events and the registrar are the surroundings; that they are told to stop
(`stop_keeping`, `cancel`) shows only in what they say next.
-/

namespace Hedos.Install

open Programs

/-! ## When to try again -/

/-- The waits between attempts in milliseconds, shortest first, and how long a streak may last. -/
structure RetryPolicy where
  steps : List ℤ
  windowMs : ℤ

namespace RetryPolicy

/-- How long to wait before attempt number `attempt` of a streak. -/
def delay (policy : RetryPolicy) (attempt : ℕ) : ℤ :=
  (policy.steps[min (max attempt 1 - 1) (policy.steps.length - 1)]?).getD 0

/-- A streak that began at `began` has run out of window. -/
def spent (policy : RetryPolicy) (began now : ℤ) : Bool :=
  decide (saturatingSub now began ≥ policy.windowMs)

def retryable : InstallError → Bool
  | .transferFailed _ | .providerUnavailable _ => true
  | _ => false

end RetryPolicy

/-- What a worker is set up with: its retry policy, whether there is a registrar, and how long
it is waited on. -/
structure PullWorker where
  policy : RetryPolicy
  registrar : Bool
  registerWindowMs : ℤ

/-! ## What a worker writes -/

/-- The record of a job a worker has just taken up. -/
def PullStatus.takenUp (pid : ℕ) (status : PullStatus) : PullStatus :=
  { status with
    state := .queued
    pid := some pid
    message := none
    nextAttemptAtMs := none }

/-- The record a worker moves to `state`. -/
def PullStatus.movedTo (state : PullState) (message : Option String) (pid : ℕ)
    (status : PullStatus) : PullStatus :=
  { status with
    state := state
    nextAttemptAtMs := none
    registeringUntilMs := none
    message := if message.isSome then message else status.message
    pid := if state.isTerminal then none else some pid
    statusLine := if state.isLive then status.statusLine else none }

/-- The record at the start of an attempt. -/
def PullStatus.attempting (attempt : ℕ) (status : PullStatus) : PullStatus :=
  { status with
    attempt := attempt
    nextAttemptAtMs := none
    registeringUntilMs := none
    message := none
    statusLine := none }

def PullStatus.waitingToRetry (untilMs : ℤ) (message : String) (status : PullStatus) :
    PullStatus :=
  { status with nextAttemptAtMs := some untilMs, message := some message }

def PullStatus.doneWaiting (status : PullStatus) : PullStatus :=
  { status with nextAttemptAtMs := none, message := none }

def PullStatus.saying (text : String) (status : PullStatus) : PullStatus :=
  { status with statusLine := some text }

def PullStatus.registering (untilMs : ℤ) (status : PullStatus) : PullStatus :=
  { status with statusLine := some registeringLine, registeringUntilMs := some untilMs }

/-- The record with new progress, and the provider's line taken off with it. -/
def PullStatus.progressed (clearLine : Bool) (status : PullStatus) : PullStatus :=
  { status with statusLine := if clearLine then none else status.statusLine }

/-- The word a control file holds. -/
def PullControl.asStr : PullControl → String
  | .pause => "pause"
  | .cancel => "cancel"

namespace PullWorker

/-- Move the job to `state`. -/
def settle (dir : PullJobDir) (state : PullState) (message : Option String) : Act PullState := do
  let now ← nowMillis
  let pid ← perform .pid
  let _ ← dir.updateStatus now (PullStatus.movedTo state message pid)
  dir.append (.state state) now
  return state

/-- Move the job to `state` if it is not there. -/
def mark (dir : PullJobDir) (state : PullState) (message : Option String) : Act PullState := do
  let stored ← dir.storedStatus
  if stored.state = state then return state else settle dir state message

def say (dir : PullJobDir) (text : String) : Act Unit := do
  let now ← nowMillis
  dir.append (.status text) now
  let _ ← dir.updateStatus now (PullStatus.saying text)

/-! ## Controls -/

def appendLate (dir : PullJobDir) : List PullControl → Act Unit
  | [] => return ()
  | control :: rest => do
    let now ← nowMillis
    dir.append (.status (control.asStr ++ " arrived after every byte had landed")) now
    appendLate dir rest

/-- Drop an ask that came after there was anything left to stop, and write down that it did. -/
def dropLateAsk (dir : PullJobDir) (control : PullControl) : Act Unit := do
  let waiting ← dir.clearControl control
  match waiting with
  | some behind =>
    let _ ← dir.clearControl behind
    appendLate dir [control, behind]
  | none => appendLate dir [control]

/-- Stop the way `control` asked, and take the control file with it. -/
def honour (dir : PullJobDir) (control : PullControl) : Act PullState := do
  let waiting ← dir.clearControl control
  match waiting with
  | some behind =>
    let _ ← dir.clearControl behind
    settle dir (if behind = .cancel then .cancelled else control.resultingState) none
  | none => settle dir control.resultingState none

/-- Wait, cut short by a control arriving. -/
def rest (dir : PullJobDir) : ℕ → Act (Option PullControl)
  | 0 => Prog.stall
  | rounds + 1 => do
    let due ← perform (.hear .due)
    if due then return none
    else
      let control ← dir.control
      if control.isSome then return control else rest dir rounds

/-! ## One attempt -/

/-- How one attempt ended. -/
inductive Outcome
  | done (asked : Option PullControl)
  | stopped (control : PullControl)
  | cancelled
  | failed (message : String) (error : Option InstallError) (moved : Bool)
      (asked : Option PullControl)
deriving DecidableEq

/-- What a worker following an install keeps track of. -/
structure Drive where
  asked : Option PullControl := none
  latest : Option ℤ := none
  writtenAt : ℤ := 0
  baseline : Option ℤ := none
  moved : Bool := false
  lineStands : Bool := false

def statusIntervalMs : ℤ := 500

/-- Write the pending progress into the record, not too often unless forced. -/
def flush (dir : PullJobDir) (drive : Drive) (force clearLine : Bool) : Act Drive := do
  if drive.latest.isSome then
    let now ← nowMillis
    if !force && decide (saturatingSub now drive.writtenAt < statusIntervalMs) then
      return drive
    else
      let _ ← dir.updateStatus now (PullStatus.progressed clearLine)
      return { drive with latest := none, writtenAt := now }
  else
    return drive

/-- The bookkeeping of one progress event: the line bytes count from, and whether new ones
moved. -/
def Drive.progress (drive : Drive) (bytes : ℤ) : Drive × Bool :=
  let base := min bytes (drive.baseline.getD bytes)
  let movedNow := decide (bytes > base)
  ({ drive with
      baseline := some base
      moved := drive.moved || movedNow
      latest := some bytes },
    movedNow && drive.lineStands)

/-- Follow one install's events into the job's record until it ends, reading the control file
between them. -/
def driveEvents (dir : PullJobDir) : ℕ → Drive → Act Outcome
  | 0, _ => Prog.stall
  | rounds + 1, drive => do
    let heard ← perform (.hear .heard)
    match heard with
    | .event (.progress bytes) =>
      let (noted, clearLine) := drive.progress bytes
      let flushed ← flush dir noted clearLine clearLine
      driveEvents dir rounds { flushed with lineStands := flushed.lineStands && !clearLine }
    | .event (.status text) =>
      say dir text
      driveEvents dir rounds { drive with lineStands := true }
    | .event .done =>
      let _ ← flush dir drive true false
      return .done drive.asked
    | .event (.failed message) => return .failed message none drive.moved drive.asked
    | .event .cancelled =>
      match drive.asked with
      | some control => return .stopped control
      | none => return .cancelled
    | .event .queued => driveEvents dir rounds drive
    | .event .preparing => driveEvents dir rounds drive
    | .closed =>
      return .failed "the download ended without saying how" none drive.moved drive.asked
    | .tick =>
      let polled ← dir.controlIf drive.asked.isNone
      let flushed ← flush dir { drive with asked := drive.asked.or polled } false false
      driveEvents dir rounds flushed

/-- Wait for the plan, with the control file watched alongside. -/
def resolve (dir : PullJobDir) : ℕ → Act (PullControl ⊕ Option (String × InstallError))
  | 0 => Prog.stall
  | rounds + 1 => do
    let planned ← perform (.hear .planned)
    match planned with
    | some result => return .inr result
    | none =>
      let control ← dir.control
      match control with
      | some control => return .inl control
      | none => resolve dir rounds

def attemptOnce (dir : PullJobDir) : Act Outcome := do
  let polls ← perform (.hear .rounds)
  let resolved ← resolve dir polls
  match resolved with
  | .inl control => return .stopped control
  | .inr (some (message, error)) => return .failed message (some error) false none
  | .inr none =>
    let begun ← perform (.hear .begun)
    match begun with
    | some (message, error) => return .failed message (some error) false none
    | none =>
      let rounds ← perform (.hear .rounds)
      let outcome ← driveEvents dir rounds {}
      match outcome with
      | .failed message _ moved asked =>
        let error ← perform (.hear .failure)
        return .failed message error moved asked
      | ended => return ended

/-! ## The run -/

/-- Wait for a free slot; the control that cut it short, if one did. -/
def waitForSlot (dir : PullJobDir) : ℕ → Bool → Act (Option PullControl)
  | 0, _ => Prog.stall
  | rounds + 1, waited => do
    let control ← dir.control
    if control.isSome then return control
    else
      let free ← perform (.hear .slot)
      if free then return none
      else
        let _ ← mark dir .queued none
        if !waited then
          say dir "waiting for a free slot"
        let polls ← perform (.hear .rounds)
        let control ← rest dir polls
        if control.isSome then return control else waitForSlot dir rounds true

/-- Say the job is registering, and mark it past stopping until the window runs out. -/
def markRegistering (worker : PullWorker) (dir : PullJobDir) : Act Unit := do
  let now ← nowMillis
  dir.append (.status registeringLine) now
  let _ ← dir.updateStatus now
    (PullStatus.registering (saturatingAddI64 now worker.registerWindowMs))

/-- Register what landed; the message that is left on the job. -/
def register (worker : PullWorker) (dir : PullJobDir) : Act (Option String) := do
  if worker.registrar then
    markRegistering worker dir
    let registered ← perform (.hear .registered)
    match registered with
    | .done => return none
    | .failed message => return some message
    | .cutShort =>
      let line := "registration did not finish within "
        ++ toString (worker.registerWindowMs / 1000) ++ "s; the next scan will pick the model up"
      let now ← nowMillis
      dir.append (.status line) now
      return some line
  else
    return none

/-- Register what landed, then mark the job done. -/
def finish (worker : PullWorker) (dir : PullJobDir) : Act PullState := do
  let message ← register worker dir
  let control ← dir.control
  match control with
  | some control =>
    dropLateAsk dir control
    settle dir .done message
  | none => settle dir .done message

/-- The count of attempts, and the streak of failures with the time it began. -/
structure Streak where
  attempts : ℕ := 0
  length : ℕ := 0
  began : Option ℤ := none

/-- New bytes prove the link works, so they end the streak. -/
def Streak.after (streak : Streak) (moved : Bool) : Streak :=
  if moved then { streak with length := 0, began := none } else streak

/-- After a failed attempt: settle the job if another is not worth it, else wait for the next.
The state it settled in, or the streak to go on with. -/
def afterFailure (worker : PullWorker) (dir : PullJobDir) (streak : Streak) (message : String)
    (error : Option InstallError) (moved : Bool) : Act (PullState ⊕ Streak) := do
  if !error.all RetryPolicy.retryable then
    let state ← settle dir .failed (some message)
    return .inl state
  else
    let streak := streak.after moved
    let length := streak.length + 1
    let now ← nowMillis
    let began := streak.began.getD now
    if worker.policy.spent began now then
      let state ← settle dir .interrupted (some message)
      return .inl state
    else
      let delay := worker.policy.delay length
      dir.append (.retry streak.attempts message delay) now
      let _ ← mark dir .queued none
      let _ ← dir.updateStatus now
        (PullStatus.waitingToRetry (saturatingAddI64 now delay) message)
      let polls ← perform (.hear .rounds)
      let control ← rest dir polls
      match control with
      | some control =>
        let state ← honour dir control
        return .inl state
      | none =>
        let now ← nowMillis
        let _ ← dir.updateStatus now PullStatus.doneWaiting
        return .inr { streak with length, began := some began }

/-- What comes of one attempt: the state the job settled in, or the streak to go on with. -/
def afterAttempt (worker : PullWorker) (dir : PullJobDir) (streak : Streak) :
    Outcome → Act (PullState ⊕ Streak)
  | .done (some control) => do
    dropLateAsk dir control
    let state ← finish worker dir
    return .inl state
  | .done none => do
    let state ← finish worker dir
    return .inl state
  | .stopped control => do
    let state ← honour dir control
    return .inl state
  | .cancelled => do
    let state ← settle dir .cancelled none
    return .inl state
  | .failed _ _ _ (some control) => do
    let state ← honour dir control
    return .inl state
  | .failed message error moved none => afterFailure worker dir streak message error moved

/-- Attempt the transfer until it lands, is stopped, or stops being worth retrying. -/
def transfer (worker : PullWorker) (dir : PullJobDir) : ℕ → Streak → Act PullState
  | 0, _ => Prog.stall
  | rounds + 1, streak => do
    let control ← dir.control
    match control with
    | some control => honour dir control
    | none =>
      let polls ← perform (.hear .rounds)
      let stopped ← waitForSlot dir polls false
      match stopped with
      | some control => honour dir control
      | none =>
        let attempts := streak.attempts + 1
        let _ ← mark dir .running none
        let now ← nowMillis
        let _ ← dir.updateStatus now (PullStatus.attempting attempts)
        let outcome ← attemptOnce dir
        let next ← afterAttempt worker dir { streak with attempts } outcome
        match next with
        | .inl state => return state
        | .inr streak => transfer worker dir rounds streak

end PullWorker

def claimAttempts : ℕ := 5

/-- Take the job's lock, past a reader's probe. -/
def claimJob (dir : PullJobDir) : ℕ → Act Bool
  | 0 => return false
  | attempts + 1 => do
    let held ← perform (.claim dir.path .hold)
    if held then return true else claimJob dir attempts

/-- Take the claim of the reference, past a client that holds it for a moment. -/
def claimReference (key : ModelKey) : ℕ → Act Bool
  | 0 => return false
  | attempts + 1 => do
    let held ← perform (.claimReference key .transfer)
    if held then return true else claimReference key attempts

/-- Stamp this process's pid on the record. -/
def stamp (dir : PullJobDir) : Act Unit := do
  let now ← nowMillis
  let pid ← perform .pid
  let _ ← dir.updateStatus now (PullStatus.takenUp pid)
  let now ← nowMillis
  dir.append (.state .queued) now

/-- Take the job for this process. -/
def hold (dir : PullJobDir) : Act Bool := do
  let held ← claimJob dir claimAttempts
  if held then
    let stamped ← (stamp dir).attempt
    match stamped with
    | .ok _ => return true
    | .error error =>
      perform (.release dir.path)
      Prog.fail error
  else
    return false

namespace PullWorker

/-- Run a job that is held to its end. -/
def runHeld (worker : PullWorker) (dir : PullJobDir) : Act PullState := do
  let claimed ← claimReference dir.job.key claimAttempts
  if claimed then
    let rounds ← perform (.hear .rounds)
    (transfer worker dir rounds {}).andThen (perform (.releaseReference dir.job.key))
  else
    let _ ← settle dir .failed (some (dir.job.reference ++ " is already being pulled"))
    Prog.fail (.alreadyPulling dir.job.reference)

/-- Open a session and run the job, or say on its record why there is none. -/
def runSession (worker : PullWorker) (dir : PullJobDir) : Act PullState := do
  let session ← perform (.hear .session)
  match session with
  | some error =>
    fail dir ("could not open a session: " ++ error)
    Prog.fail (.noSession error)
  | none => runHeld worker dir

/-- `hedos pull-worker`. -/
def run (worker : PullWorker) (path : String) : Act PullState := do
  let dir ← openJob path
  let held ← hold dir
  if held then dir.whileHeld (runSession worker dir)
  else Prog.fail .alreadyRunning

end PullWorker

/-! ## Every process -/

/-- What a process is launched for: a stop, one job or every stopped one resumed, a pull
started, the superseded jobs written down, or a worker on a job. -/
inductive Command
  | stop (path : String) (control : PullControl)
  | resume (path : String)
  | resumeAll (pausedToo : Bool)
  | start (plan : InstallPlan)
  | settleSuperseded
  | worker (path : String)
deriving DecidableEq

/-- What a process ends with. -/
inductive Report
  | stopped (answer : Option StopAnswer)
  | resumed (pid : ℕ)
  | resumedAll (results : List (String × Except WorkerError ℕ))
  | started (started : Started)
  | settled (count : ℕ)
  | worked (state : PullState)

/-- The program a command runs. -/
def programOf (worker : PullWorker) : Command → Act Report
  | .stop path control => do
    let dir ← openJob path
    let answer ← stopAndReport dir control
    return .stopped answer
  | .resume path => do
    let dir ← openJob path
    let pid ← restart dir
    return .resumed pid
  | .resumeAll pausedToo => do
    let results ← resumeAll pausedToo
    return .resumedAll results
  | .start plan => do
    let started ← startOrJoin plan
    return .started started
  | .settleSuperseded => do
    let now ← nowMillis
    let count ← settleSuperseded now
    return .settled count
  | .worker path => do
    let state ← worker.run path
    return .worked state

/-- A worker starts only where one was spawned. -/
def World.launch (w : World) : Command → Option World
  | .worker path => if path ∈ w.coming then some { w with coming := w.coming.erase path } else none
  | _ => some w

/-- Clients and workers over one pull store. -/
def machine (worker : PullWorker) :
    Machine Op Op.Answer WorkerError Report World Input Command ℕ where
  exec := exec
  program := programOf worker
  launch := World.launch
  reap i w := w.reap i
  drift w later := some (w.tick later)

abbrev Pulls := Pool Op Op.Answer WorkerError Report World Command

abbrev PullAction := Action Input Command ℕ

/-- One step of any process, or of time. -/
def Pulls.step (worker : PullWorker) (pulls : Pulls) (action : PullAction) : Option Pulls :=
  Pool.step (machine worker) pulls action

/-- A store as it is found, nobody holding anything, with workers that may be on their way. -/
def Pulls.opened (store : PullStore) (coming : List String) (clock : ℤ) : Pulls :=
  ⟨World.opened store coming clock, []⟩

end Hedos.Install
