import Hedos.Install.HfCache
import Hedos.Lib.Transition

/-!
# The install service

`begin`, `events`, `cancel`, `stop_keeping` and the task `run` of
`runtime/src/install/service.rs`, with the sections under its lock (`transition`,
`apply_progress`, `conclude`, `emit`) as single steps.

An install's id is its number. A task holds its `Notify` (`permit` is set by `notify_one`), its
`keep` flag and the stream of its provider; what the providers send, and when, is up to the run.
`emitted` and `concluded` are the history of what was emitted and concluded, which the code does
not keep. The feeds of completions are left out.
-/

namespace Hedos.Install.Service

open Function

/-! ## Data -/

structure Progress where
  bytesDownloaded : ℤ := 0
  totalBytes : Option ℤ := none
  totalIsPartial : Bool := false
  currentFile : Option String := none
deriving DecidableEq

/-- `InstallEvent`. -/
inductive Event
  | queued
  | preparing
  | status (message : String)
  | progress (progress : Progress)
  | done
  | failed (message : String)
  | cancelled
deriving DecidableEq

namespace Event

def isTerminal : Event → Bool
  | done | failed _ | cancelled => true
  | _ => false

def isPhase : Event → Bool
  | queued | preparing | status _ => true
  | _ => false

def asProgress : Event → Option Progress
  | progress p => some p
  | _ => none

end Event

/-- `InstallStreamEvent`. -/
inductive StreamEvent
  | status (message : String)
  | progress (progress : Progress)
deriving DecidableEq

/-- The fields of an `InstallPlan` that the service reads. -/
structure Plan where
  provider : String
  reference : String
  displayName : String
  totalBytes : Option ℤ
  remainingBytes : Option ℤ
deriving DecidableEq

structure ActiveInstall where
  provider : String
  reference : String
  displayName : String
  totalBytes : Option ℤ
  progress : Progress
  startedAt : ℤ
deriving DecidableEq

def flightKey (plan : Plan) : String := plan.provider ++ "|" ++ plan.reference

/-! ## Tasks and feeds -/

/-- Where `run` is: `preparing` is before its first section, `dropping` and `concluding` are behind
the loop. -/
inductive Pc
  | preparing
  | selecting
  | handling (event : StreamEvent)
  | dropping (terminal : Event) (failure : Option InstallError)
  | concluding (terminal : Event) (failure : Option InstallError)
  | finished
deriving DecidableEq

structure Task where
  plan : Plan
  pc : Pc := .preparing
  permit : Bool := false
  keep : Bool := false
  /-- What the provider has sent and `run` has not taken. -/
  queue : List (Except InstallError StreamEvent) := []
  /-- The provider's sender is gone. -/
  closed : Bool := false

/-- A feed: what was sent into it, whether its sender is there and whether its receiver is gone.
`replayed`, `since` and `live` say how it began: what it was given at first, how much had been
emitted, and whether the install was active. -/
structure Feed where
  install : ℕ
  received : List Event
  isOpen : Bool
  gone : Bool := false
  replayed : List Event
  since : ℕ
  live : Bool

structure State where
  nextId : ℕ := 0
  installs : ℕ → Option ActiveInstall := fun _ => none
  phases : ℕ → Option Event := fun _ => none
  terminal : ℕ → Option Event := fun _ => none
  failures : ℕ → Option InstallError := fun _ => none
  terminalOrder : List ℕ := []
  inFlight : String → Option ℕ := fun _ => none
  /-- The feeds of an install, by their number. -/
  subscribers : ℕ → Option (List ℕ) := fun _ => none
  cancels : ℕ → Bool := fun _ => false
  keeps : ℕ → Bool := fun _ => false
  tasks : ℕ → Option Task := fun _ => none
  feeds : List Feed := []
  emitted : ℕ → List Event := fun _ => []
  concluded : List ℕ := []

def terminalHistoryLimit : ℕ := 64

/-- What does not change: the providers, and the bytes a download of a size needs. -/
structure Config where
  providers : List String
  required : ℤ → ℤ
  text : InstallError → String

/-! ## Sections -/

/-- The event reaches the feeds whose receiver is there. -/
def send (tokens : List ℕ) (event : Event) (feeds : List Feed) : List Feed :=
  feeds.mapIdx fun n feed =>
    if tokens.contains n && !feed.gone then { feed with received := feed.received ++ [event] }
    else feed

def isGone (feeds : List Feed) (n : ℕ) : Bool := (feeds[n]?).elim true Feed.gone

def emit (state : State) (id : ℕ) (event : Event) : State :=
  let state := { state with
    emitted := update state.emitted id (state.emitted id ++ [event]) }
  match state.subscribers id with
  | none => state
  | some tokens =>
    { state with
      feeds := send tokens event state.feeds
      subscribers := update state.subscribers id
        (some (tokens.filter fun n => !isGone state.feeds n)) }

def transition (state : State) (id : ℕ) (event : Event) : State :=
  emit { state with phases := update state.phases id (some event) } id event

def applyProgress (state : State) (id : ℕ) (progress : Progress) : State :=
  match state.installs id with
  | none => state
  | some install =>
    emit { state with
      installs := update state.installs id (some { install with progress }) }
      id (.progress progress)

/-- The senders of an install's feeds are dropped. -/
def closeFeeds (tokens : List ℕ) (feeds : List Feed) : List Feed :=
  feeds.mapIdx fun n feed => if tokens.contains n then { feed with isOpen := false } else feed

/-- The oldest terminal event is forgotten when there are too many. -/
def forgetOldest (state : State) : State :=
  match state.terminalOrder with
  | oldest :: rest =>
    if state.terminalOrder.length > terminalHistoryLimit then
      { state with
        terminalOrder := rest
        terminal := update state.terminal oldest none
        failures := update state.failures oldest none }
    else state
  | [] => state

def noteFailure (failures : ℕ → Option InstallError) (id : ℕ) :
    Option InstallError → ℕ → Option InstallError
  | some error => update failures id (some error)
  | none => failures

def conclude (state : State) (id : ℕ) (key : String) (event : Event)
    (failure : Option InstallError) : State :=
  match state.installs id with
  | none => state
  | some _ =>
    let state := emit state id event
    let state := { state with
      terminal := update state.terminal id (some event)
      failures := noteFailure state.failures id failure
      terminalOrder := state.terminalOrder ++ [id]
      concluded := state.concluded ++ [id] }
    let state := forgetOldest state
    { state with
      feeds := closeFeeds ((state.subscribers id).getD []) state.feeds
      subscribers := update state.subscribers id none
      installs := update state.installs id none
      phases := update state.phases id none
      cancels := update state.cancels id false
      keeps := update state.keeps id false
      inFlight :=
        if state.inFlight key = some id then update state.inFlight key none
        else state.inFlight }

/-! ## Calls -/

def checkDisk (config : Config) (available : ℤ) (plan : Plan) : Except InstallError Unit :=
  match plan.remainingBytes <|> plan.totalBytes with
  | none => .ok ()
  | some pending =>
    let required := config.required (max pending 0)
    if available < required then .error (.insufficientDisk required available) else .ok ()

def begin (config : Config) (plan : Plan) (available now : ℤ) (state : State) :
    Except InstallError ℕ × State :=
  if !config.providers.contains plan.provider then (.error (.providerUnknown plan.provider), state)
  else
    match state.inFlight (flightKey plan) with
    | some existing => (.ok existing, state)
    | none =>
      match checkDisk config available plan with
      | .error error => (.error error, state)
      | .ok () =>
        let id := state.nextId
        let install : ActiveInstall :=
          { provider := plan.provider, reference := plan.reference, displayName := plan.displayName
            totalBytes := plan.totalBytes, progress := {}, startedAt := now }
        let state := { state with
          nextId := id + 1
          installs := update state.installs id (some install)
          phases := update state.phases id (some .queued)
          inFlight := update state.inFlight (flightKey plan) (some id)
          cancels := update state.cancels id true
          keeps := update state.keeps id true
          tasks := update state.tasks id (some { plan }) }
        (.ok id, emit state id .queued)

/-- The state of an active install as it is replayed. -/
def replay (phase : Option Event) (progress : Progress) : List Event :=
  phase.toList ++
    if progress.bytesDownloaded > 0 ∨ progress.totalBytes.isSome then
      [Event.progress progress] else []

/-- The feed a call of `events` returns. -/
def newFeed (state : State) (id : ℕ) : Feed :=
  let since := (state.emitted id).length
  match state.terminal id with
  | some terminal =>
    { install := id, received := [terminal], isOpen := false, replayed := [terminal], since
      live := false }
  | none =>
    match state.installs id with
    | none =>
      { install := id, received := [], isOpen := false, replayed := [], since, live := false }
    | some install =>
      let replayed := replay (state.phases id) install.progress
      { install := id, received := replayed, isOpen := true, replayed, since, live := true }

def events (id : ℕ) (state : State) : State :=
  let feed := newFeed state id
  let token := state.feeds.length
  { state with
    feeds := state.feeds ++ [feed]
    subscribers :=
      if feed.live then
        update state.subscribers id (some ((state.subscribers id).getD [] ++ [token]))
      else state.subscribers }

def setTask (state : State) (id : ℕ) (task : Task) : State :=
  { state with tasks := update state.tasks id (some task) }

def cancel (id : ℕ) (state : State) : State :=
  match state.tasks id with
  | some task => if state.cancels id then setTask state id { task with permit := true } else state
  | none => state

def stopKeeping (id : ℕ) (state : State) : State :=
  match state.tasks id with
  | some task =>
    let task := if state.keeps id then { task with keep := true } else task
    setTask state id (if state.cancels id then { task with permit := true } else task)
  | none => state

/-! ## The task -/

/-- One round of the loop: the cancel comes first, then the stream. -/
def select (config : Config) (task : Task) : Option Task :=
  if task.permit then some { task with pc := .dropping .cancelled none, permit := false }
  else
    match task.queue with
    | [] => if task.closed then some { task with pc := .dropping .done none } else none
    | .ok event :: rest => some { task with pc := .handling event, queue := rest }
    | .error error :: rest =>
      some { task with pc := .dropping (.failed (config.text error)) (some error), queue := rest }

/-- The next step of `run`; `none` while it waits and once it is finished. -/
def stepTask (config : Config) (state : State) (id : ℕ) (task : Task) : Option State :=
  match task.pc with
  | .preparing => some (setTask (transition state id .preparing) id { task with pc := .selecting })
  | .selecting => (select config task).map (setTask state id)
  | .handling (.status message) =>
    some (setTask (transition state id (.status message)) id { task with pc := .selecting })
  | .handling (.progress progress) =>
    some (setTask (applyProgress state id progress) id { task with pc := .selecting })
  | .dropping terminal failure =>
    some (setTask state id { task with pc := .concluding terminal failure, queue := [] })
  | .concluding terminal failure =>
    some (setTask (conclude state id (flightKey task.plan) terminal failure) id
      { task with pc := .finished })
  | .finished => none

/-- The stream is there to be sent into. -/
def Task.hasReceiver (task : Task) : Bool :=
  match task.pc with
  | .selecting | .handling _ | .dropping .. => !task.closed
  | _ => false

inductive Action
  | begin (plan : Plan) (available now : ℤ)
  | events (id : ℕ)
  | dropFeed (n : ℕ)
  | cancel (id : ℕ)
  | stopKeeping (id : ℕ)
  /-- The provider sends into its stream. -/
  | push (id : ℕ) (item : Except InstallError StreamEvent)
  /-- The provider's sender goes away. -/
  | close (id : ℕ)
  | task (id : ℕ)

def stepProvider (state : State) (id : ℕ) (change : Task → Task) : Option State :=
  match state.tasks id with
  | some task => if task.hasReceiver then some (setTask state id (change task)) else none
  | none => none

def step (config : Config) (state : State) : Action → Option State
  | .begin plan available now => some (begin config plan available now state).2
  | .events id => some (events id state)
  | .dropFeed n =>
    some { state with feeds := state.feeds.modify n fun feed => { feed with gone := true } }
  | .cancel id => some (cancel id state)
  | .stopKeeping id => some (stopKeeping id state)
  | .push id item =>
    stepProvider state id fun task => { task with queue := task.queue ++ [item] }
  | .close id => stepProvider state id fun task => { task with closed := true }
  | .task id =>
    match state.tasks id with
    | some task => stepTask config state id task
    | none => none

end Hedos.Install.Service
