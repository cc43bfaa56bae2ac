import Hedos.Install.PullWorld

/-!
# What a client does with pull jobs

The functions of `kernel/src/install/pulls.rs` and the client half of
`runtime/src/install/worker.rs`, each as the sequence of file operations it performs: reading a
job as every surface shows it, asking for a stop, putting a worker back on a job, starting a pull
or joining the one under way.

A lock or a claim is dropped where its guard goes out of scope, on the error paths too
(`Prog.andThen`). Waits are left out: between any two operations any time may pass.
-/

namespace Hedos.Install

open Programs

/-- Why a function of this component refuses. -/
inductive WorkerError
  | alreadyRunning
  | alreadyPulling (reference : String)
  | ended (state : PullState)
  | cancelled
  | cancelWaiting
  | pastStopping (withinSecs : ℤ)
  | unreadable
  | notFound (path : String)
  | unclaimable (reference : String)
  | recordUnreadable (id : String)
  | controlBusy (id : String)
  | notSpawned (reason : String)
  | noSession (reason : String)
deriving DecidableEq

abbrev Act (α : Type) := Prog Op Op.Answer WorkerError α

abbrev perform (op : Op) : Act op.Answer := Prog.ask op

def nowMillis : Act ℤ := perform .now

def jobs : Act (List PullJobDir) := perform .jobs

/-! ## One job -/

def registeringLine : String := "registering"

/-- The worker is registering what it fetched and reads no control file until it is done. -/
def PullStatus.pastStopping (status : PullStatus) : Bool :=
  status.state == .running && status.registeringUntilMs.isSome

/-- Whole seconds until the worker stops waiting on the registration, rounded up. -/
def PullStatus.registeringForSecs (status : PullStatus) (now : ℤ) : Option ℤ :=
  if !status.pastStopping then none
  else
    let withinMs := max (saturatingSub (status.registeringUntilMs.getD 0) now) 0
    some (saturatingAddI64 withinMs 999 / 1000)

namespace PullJobDir

variable (dir : PullJobDir)

/-- The two jobs pull the same model. -/
def sameModel (other : PullJobDir) : Bool :=
  other.job.provider == dir.job.provider &&
    eqIgnoreAsciiCase other.job.reference.toList dir.job.reference.toList

def storedStatus : Act PullStatus := do
  let record ← perform (.read dir.path)
  return record.storedStatus dir.job.createdAtMs

/-- The record as written has ended. -/
def storedEnded : Act Bool := do
  let stored ← dir.storedStatus
  return stored.state.isTerminal

def workerAlive : Act Bool := perform (.probe dir.path)

/-- A worker holds the job or the record has ended; the record is read after the liveness
probe, never before it. -/
def heldOrEnded : Act Bool := do
  let alive ← dir.workerAlive
  if alive then return true else dir.storedEnded

def status : Act PullStatus := do
  let stored ← dir.storedStatus
  if stored.expectsWorker then
    let alive ← dir.workerAlive
    return stored.withLiveness alive
  else
    return stored

def abandonedBy (status : PullStatus) (now graceMs : ℤ) : Act Bool := do
  if status.unclaimed now graceMs then
    let alive ← dir.workerAlive
    return !alive
  else
    return false

def abandoned (now graceMs : ℤ) : Act Bool := do
  let stored ← dir.storedStatus
  dir.abandonedBy stored now graceMs

def shown (now : ℤ) : Act PullReading := do
  let status ← dir.status
  let abandoned ← dir.abandonedBy status now startGraceMs
  return {
    status := if abandoned then { status with state := .interrupted } else status
    abandoned
    superseded := false }

def takesPart (now : ℤ) : Act Bool := do
  let shown ← dir.shown now
  return shown.takesPart

def landedAfter (atMs : ℤ) : Act Bool := do
  let stored ← dir.storedStatus
  return stored.landedAfter atMs

/-- `Iterator::any`, over jobs that are read as it goes. -/
def anyOf (p : PullJobDir → Act Bool) : List PullJobDir → Act Bool
  | [] => return false
  | dir :: rest => do
    let found ← p dir
    if found then return true else anyOf p rest

/-- `other` has taken the job's place. -/
def replacedBy (now : ℤ) (other : PullJobDir) : Act Bool := do
  if other.path != dir.path && dir.sameModel other then
    let going ← other.takesPart now
    if going then return true else other.landedAfter dir.job.createdAtMs
  else
    return false

def pulledAgain (now : ℤ) : Act Bool := do
  let others ← jobs
  anyOf (dir.replacedBy now) others

def reading (now : ℤ) : Act PullReading := do
  let shown ← dir.shown now
  if shown.abandoned then
    let pulledAgain ← dir.pulledAgain now
    return shown.withSibling pulledAgain
  else
    return shown

/-- Read the stored record, change it and write it back stamped `now`; a record nobody can read
is refused. -/
def updateStatus (now : ℤ) (change : PullStatus → PullStatus) : Act PullStatus := do
  let status ← dir.storedStatus
  if status.state = .unreadable then
    Prog.fail (.recordUnreadable dir.job.id)
  else
    let status := { change status with updatedAtMs := now }
    perform (.write dir.path status)
    return status

def append (kind : PullEventKind) (now : ℤ) : Act Unit := perform (.append dir.path ⟨now, kind⟩)

def control : Act (Option PullControl) := perform (.control dir.path)

/-- What the control file says, where there is a reason to look. -/
def controlIf (look : Bool) : Act (Option PullControl) := if look then dir.control else pure none

/-- Ask the worker for `control`; what is returned is the ask that stands. -/
def request (control : PullControl) : Act PullControl := do
  let answer ← perform (.request dir.path control)
  match answer with
  | some standing => return standing
  | none => Prog.fail (.controlBusy dir.job.id)

def clearControl (honoured : PullControl) : Act (Option PullControl) :=
  perform (.clear dir.path honoured)

def clearControlWithin (honoured : PullControl) : Act (Option PullControl) := do
  let answer ← perform (.clearWithin dir.path honoured)
  match answer with
  | some waiting => return waiting
  | none => Prog.fail (.controlBusy dir.job.id)

/-- Run `body` under the job's lock, and let go however it ends. -/
def whileHeld {α : Type} (body : Act α) : Act α := body.andThen (perform (.release dir.path))

/-- The second look and the write of `settle_superseded`, under the job's lock. -/
def writeSuperseded (now : ℤ) : Act Bool := do
  let stored ← dir.storedStatus
  if stored.unclaimed now startGraceMs then
    let pulledAgain ← dir.pulledAgain now
    if pulledAgain then
      let _ ← dir.updateStatus now PullStatus.pulledAgain
      dir.append (.state .failed) now
      return true
    else
      return false
  else
    return false

/-- Write down a job that reads superseded as the failure it reads. -/
def settleSuperseded (now : ℤ) : Act Bool := do
  let reading ← dir.reading now
  if reading.superseded then
    let held ← perform (.claim dir.path .rewrite)
    if held then dir.whileHeld (dir.writeSuperseded now) else return false
  else
    return false

end PullJobDir

/-- `PullJobDir::open`. -/
def openJob (path : String) : Act PullJobDir := do
  let descriptor ← perform (.descriptor path)
  match descriptor with
  | some job => return ⟨path, job⟩
  | none => Prog.fail (.notFound path)

/-! ## Stopping -/

/-- What a stop did: the ask was left for the worker holding the job, or the record was settled
here. -/
inductive Stopped
  | asked (state : PullState)
  | settled (state : PullState)
deriving DecidableEq

/-- What became of a stop that was asked for. -/
inductive StopAnswer
  | honoured (state : PullState)
  | landed
  | ended (state : PullState)
deriving DecidableEq

def PullControl.answer (control : PullControl) (status : PullStatus) : Option StopAnswer :=
  if status.state = control.resultingState then some (.honoured status.state)
  else if status.state = .done then some .landed
  else if status.pastStopping then some .landed
  else if status.state.isLive then none
  else some (.ended status.state)

/-- A spawned worker may not have taken the job up yet. -/
def awaitsWorker (status : PullStatus) : Bool := status.state == .queued && status.pid.isNone

/-- The refusal for a job that reads ended, written down first if only its siblings say so. -/
def ended (dir : PullJobDir) (reading : PullReading) (now : ℤ) : Act WorkerError := do
  if reading.superseded then
    let _ ← (dir.settleSuperseded now).attempt
    return .ended reading.status.state
  else
    return .ended reading.status.state

/-- The record a stop settles on behalf of a worker that is not there. -/
def PullStatus.settledHere (settled : PullState) (status : PullStatus) : PullStatus :=
  { status with
    state := settled
    nextAttemptAtMs := none
    registeringUntilMs := none
    statusLine := none
    pid := if settled.isTerminal then none else status.pid }

/-- Settle the record the way `control` asks, on behalf of a worker that is not there. -/
def settleHere (dir : PullJobDir) (control : PullControl) : Act PullState := do
  let settled := control.resultingState
  let now ← nowMillis
  let before ← dir.storedStatus
  let _ ← dir.updateStatus now (PullStatus.settledHere settled)
  dir.append (.state settled) now
  if settled.isTerminal && !awaitsWorker before then
    let _ ← (dir.clearControlWithin control).attempt
    return settled
  else
    return settled

def stop (dir : PullJobDir) (control : PullControl) : Act Stopped := do
  let now ← nowMillis
  let reading ← dir.reading now
  if reading.status.state = .unreadable then
    Prog.fail .unreadable
  else if reading.status.state.isTerminal then
    let refusal ← ended dir reading now
    Prog.fail refusal
  else
    match reading.status.registeringForSecs now with
    | some withinSecs => Prog.fail (.pastStopping withinSecs)
    | none =>
      let standing ← dir.request control
      if standing ≠ control then
        Prog.fail .cancelWaiting
      else
        let heldOrEnded ← dir.heldOrEnded
        if heldOrEnded then
          let status ← dir.status
          return .asked status.state
        else
          let state ← settleHere dir control
          return .settled state

/-- Wait for the worker's answer, for as many rounds as the window has. -/
def awaitAnswer (dir : PullJobDir) (control : PullControl) : ℕ → Act (Option StopAnswer)
  | 0 => Prog.stall
  | rounds + 1 => do
    let again : Act (Option StopAnswer) := do
      let due ← perform (.hear .due)
      if due then return none else awaitAnswer dir control rounds
    let now ← nowMillis
    let reading ← dir.reading now
    match control.answer reading.status with
    | some (.ended state) =>
      let waiting ← dir.controlIf state.isResumable
      if waiting = some control then
        -- the worker stopped its own way and let go: the ask is settled here
        let alive ← dir.workerAlive
        if alive then again
        else
          let stopped ← (stop dir control).attempt
          match stopped with
          | .ok (.settled state) => return some (.honoured state)
          | .ok (.asked _) => again
          | .error (.ended _) => again
          | .error error => Prog.fail error
      else
        return some (.ended state)
    | some answer => return some answer
    | none => again

/-- `hedos pull pause` and `hedos pull cancel`. -/
def stopAndReport (dir : PullJobDir) (control : PullControl) : Act (Option StopAnswer) := do
  let stopped ← stop dir control
  match stopped with
  | .settled state => return some (.honoured state)
  | .asked _ =>
    let rounds ← perform (.hear .rounds)
    awaitAnswer dir control rounds

/-! ## Putting a worker on a job -/

def PullStatus.failedWith (message : String) (status : PullStatus) : PullStatus :=
  { status with
    state := .failed
    message := some message
    pid := none
    nextAttemptAtMs := none
    registeringUntilMs := none }

/-- Settle the job as failed, on behalf of a worker that could not start or go on. -/
def fail (dir : PullJobDir) (message : String) : Act Unit := do
  let now ← nowMillis
  let _ ← dir.updateStatus now (PullStatus.failedWith message)
  dir.append (.state .failed) now

def spawnWorker (dir : PullJobDir) : Act ℕ := do
  let spawned ← perform (.spawn dir.path)
  match spawned with
  | .ok pid => return pid
  | .error reason =>
    fail dir ("could not start a worker: " ++ reason)
    Prog.fail (.notSpawned reason)

/-- The record of a job put back to wait for its next worker. -/
def PullStatus.requeued (status : PullStatus) : PullStatus :=
  { status with
    state := .queued
    pid := none
    message := none
    nextAttemptAtMs := none
    registeringUntilMs := none
    statusLine := none }

/-- The part of `restart_within` under the job's lock. -/
def requeue (dir : PullJobDir) : Act Unit := do
  let stored ← dir.storedStatus
  if stored.state = .unreadable then
    Prog.fail .unreadable
  else if stored.state.isTerminal then
    Prog.fail (.ended stored.state)
  else
    let waiting ← dir.clearControlWithin .pause
    if waiting = some .cancel then
      let _ ← settleHere dir .cancel
      Prog.fail .cancelled
    else
      if stored.expectsWorker then
        let now ← nowMillis
        dir.append (.state .interrupted) now
      let now ← nowMillis
      let _ ← dir.updateStatus now PullStatus.requeued

/-- Put a worker back on a job that stopped. -/
def restart (dir : PullJobDir) : Act ℕ := do
  let now ← nowMillis
  let reading ← dir.reading now
  if reading.status.state = .unreadable then
    Prog.fail .unreadable
  else if reading.status.state.isTerminal then
    let refusal ← ended dir reading now
    Prog.fail refusal
  else
    let held ← perform (.claim dir.path .rewrite)
    if held then
      dir.whileHeld (requeue dir)
      spawnWorker dir
    else
      Prog.fail .alreadyRunning

/-! ## The store -/

/-- `PullStore::settle_superseded`, over the jobs listed. -/
def settleSupersededOf (now : ℤ) : List PullJobDir → Act ℕ
  | [] => return 0
  | dir :: rest => do
    let settled ← (dir.settleSuperseded now).attempt
    let others ← settleSupersededOf now rest
    match settled with
    | .ok true => return others + 1
    | _ => return others

def settleSuperseded (now : ℤ) : Act ℕ := do
  let listed ← jobs
  settleSupersededOf now listed

/-- The jobs a worker should be put back on, with those the user paused or without. -/
def takenUp (pausedToo : Bool) (now : ℤ) : List PullJobDir → Act (List PullJobDir)
  | [] => return []
  | dir :: rest => do
    let reading ← dir.reading now
    let others ← takenUp pausedToo now rest
    match reading.status.state with
    | .paused => return if pausedToo then dir :: others else others
    | .interrupted => return dir :: others
    | _ => return others

/-- Restart one job after another, whatever becomes of each. -/
def restartAll : List PullJobDir → Act (List (String × Except WorkerError ℕ))
  | [] => return []
  | dir :: rest => do
    let result ← (restart dir).attempt
    let others ← restartAll rest
    return (dir.job.id, result) :: others

/-- `resume_all`, and `hedos pull resume --all` with the paused ones too. -/
def resumeAll (pausedToo : Bool) : Act (List (String × Except WorkerError ℕ)) := do
  let now ← nowMillis
  let _ ← settleSuperseded now
  let listed ← jobs
  let stopped ← takenUp pausedToo now listed
  restartAll stopped

/-- What a pull is started from; of the plan only these are read here. -/
structure InstallPlan where
  provider : String
  reference : String
deriving DecidableEq

namespace InstallPlan

variable (plan : InstallPlan)

def key : ModelKey := ModelKey.of plan.provider plan.reference

/-- The job pulls the plan's model. -/
def isFor (job : PullJob) : Bool :=
  job.provider == plan.provider && eqIgnoreAsciiCase job.reference.toList plan.reference.toList

end InstallPlan

/-- The first of the jobs a pull of the model could be going through. -/
def firstGoing (now : ℤ) : List PullJobDir → Act (Option PullJobDir)
  | [] => return none
  | dir :: rest => do
    let going ← dir.takesPart now
    if going then return some dir else firstGoing now rest

/-- `PullStore::under_way`: the newest job of the model that a client could join. -/
def underWay (plan : InstallPlan) (now : ℤ) : Act (Option PullJobDir) := do
  let listed ← jobs
  firstGoing now (listed.reverse.filter fun dir => plan.isFor dir.job)

/-! ## Starting a pull -/

/-- What starting a pull did; each names the job. -/
inductive Started
  | created (id : String)
  | joined (id : String)
  | resumed (id : String)
deriving DecidableEq

def slugLimit : ℕ := 40

/-- The slug of a reference so far, last character first. -/
def slugFrom : List Char → List Char → List Char
  | [], slug => slug
  | character :: rest, slug =>
    let slug :=
      if character.isAlphanum then character.toLower :: slug
      else if slug.head? = some '-' then slug else '-' :: slug
    if slug.length ≥ slugLimit then slug else slugFrom rest slug

def referenceSlug (reference : String) : String :=
  let dashed := slugFrom reference.toList []
  let trimmed := ((dashed.dropWhile (· = '-')).reverse.dropWhile (· = '-'))
  if trimmed.isEmpty then "model" else String.ofList trimmed

def createAttempts : ℕ := 64

/-- The directory names tried for a new job, the first one bare. -/
def candidateIds (base : String) : List String :=
  base :: (List.range (createAttempts - 1)).map fun n => base ++ "-" ++ toString (n + 2)

/-- Claim the first free directory, write the descriptor and a queued record. -/
def createAt (plan : InstallPlan) (now : ℤ) : List String → Act PullJobDir
  | [] => Prog.fail (.unclaimable plan.reference)
  | id :: rest => do
    let job : PullJob := ⟨id, plan.provider, plan.reference, now⟩
    let created ← perform (.create id job)
    if created then
      perform (.write id (PullStatus.queued now))
      return ⟨id, job⟩
    else
      createAt plan now rest

/-- `PullStore::create`. -/
def create (plan : InstallPlan) (now : ℤ) : Act PullJobDir :=
  createAt plan now (candidateIds (toString now ++ "-" ++ referenceSlug plan.reference))

/-- Settle every job listed that is of the plan's model and that nobody ever took up. -/
def failAbandonedOf (plan : InstallPlan) (now : ℤ) : List PullJobDir → Act Unit
  | [] => return ()
  | dir :: rest => do
    if plan.isFor dir.job then
      let abandoned ← dir.abandoned now startGraceMs
      if abandoned then
        fail dir "no worker took it up; started again"
    failAbandonedOf plan now rest

def failAbandoned (plan : InstallPlan) : Act Unit := do
  let now ← nowMillis
  let listed ← jobs
  failAbandonedOf plan now listed

def startClaimAttempts : ℕ := 20

/-- Ask for the reference claim on behalf of a client about to start a pull; `false` when a
worker holds it, or when a job is there to join. -/
def claimToStart (plan : InstallPlan) : ℕ → Act Bool
  | 0 => return false
  | attempts + 1 => do
    let claimed ← perform (.claimReference plan.key .look)
    if claimed then return true
    else
      let now ← nowMillis
      let found ← underWay plan now
      if found.isSome then return false else claimToStart plan attempts

/-- The end of `start_or_join`: nothing to join. -/
def startNew (plan : InstallPlan) (claimed : Bool) : Act Started := do
  let held ← if claimed then pure true else perform (.claimReference plan.key .create)
  if held then
    let dir ← Prog.andThen
      (do
        failAbandoned plan
        let now ← nowMillis
        create plan now)
      (perform (.releaseReference plan.key))
    let _ ← spawnWorker dir
    return .created dir.job.id
  else
    Prog.fail (.alreadyPulling plan.reference)

/-- The middle of `start_or_join`: a job to join, put back to work where it stopped. -/
def joinFound (plan : InstallPlan) (dir : PullJobDir) : Act Started := do
  let status ← dir.status
  if status.state.isResumable then
    let restarted ← (restart dir).attempt
    match restarted with
    | .ok _ => return .resumed dir.job.id
    -- a stopped job carrying a cancel its worker never read has just been settled by it
    | .error .cancelled => startNew plan false
    | .error (.ended _) => return .joined dir.job.id
    | .error .alreadyRunning => return .joined dir.job.id
    | .error error => Prog.fail error
  else
    return .joined dir.job.id

/-- Start a pull of the plan, or join the pull of that model already under way. -/
def startOrJoin (plan : InstallPlan) : Act Started := do
  let claimed ← claimToStart plan startClaimAttempts
  let now ← nowMillis
  let found ← underWay plan now
  match found with
  | some dir =>
    if claimed then
      perform (.releaseReference plan.key)
    joinFound plan dir
  | none => startNew plan claimed

end Hedos.Install
