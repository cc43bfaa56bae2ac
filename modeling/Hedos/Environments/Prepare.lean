import Hedos.Lib.Transition

/-!
# Preparing Python environments

`EnvironmentManager::prepare` and `perform_prepare` of `runtime/src/environment.rs`, with `relink`,
`sanitized_runtime_id`, `lock_here`, and the processes that `uv_build` runs through `run_process`.

A call is a future that moves from one operation to the next; other calls move in between. A call
can be dropped where it waits: for its lock, or for a process. The process is not killed then, since
`run_process` does not ask for it, and runs on. `finished` is the history of the builds that ran to
their end, which the code does not keep.
-/

namespace Hedos.Environments

open Function

/-! ## Names -/

/-- A lockfile: its text, and that of the CPU variant beside it. -/
structure Lockfile where
  text : String
  cpuText : Option String := none
deriving DecidableEq

/-- What does not change: whether torch runs on the CPU here, and the hash of a text. -/
structure Machine where
  cpuOnly : Bool
  hash : String → String

/-- The text that is installed on this machine. -/
def Machine.lockHere (machine : Machine) (lockfile : Lockfile) : String :=
  match lockfile.cpuText with
  | some variant => if machine.cpuOnly then variant else lockfile.text
  | none => lockfile.text

def sanitizedChar (c : Char) : Char :=
  if c.isAlphanum || c == '.' || c == '_' || c == '-' then c else '-'

/-- The directory name a runtime's environments are kept under. -/
def sanitizedRuntimeId (id : String) : String := String.ofList (id.toList.map sanitizedChar)

/-- The directory `runtimes/<runtime>` under the manager's root, as the file system finds it. -/
inductive RuntimeDir
  | root
  | runtimes
  | named (name : String)
deriving DecidableEq

/-- `join` with nothing, or with `.`, stays at `runtimes`; with `..` it goes back to the root. -/
def runtimeDir (id : String) : RuntimeDir :=
  let name := sanitizedRuntimeId id
  if name = "" ∨ name = "." then .runtimes else if name = ".." then .root else .named name

/-- Two ids with two locks and one directory. -/
example : runtimeDir "" = runtimeDir "." := by decide

/-- `runtimes/<runtime>/envs/<hash>`. -/
structure EnvDir where
  runtime : RuntimeDir
  hash : String
deriving DecidableEq

/-! ## Calls -/

/-- The process that is running: `uv venv`, then `uv pip sync` from the cache alone, then with the
network. -/
inductive Phase
  | venv
  | offline
  | online
deriving DecidableEq

inductive Failure
  | io
  | runtimeFailed
  /-- `relink` found the link gone, or there again. -/
  | relink
deriving DecidableEq

inductive Stage
  /-- For the lock of its key. -/
  | waiting
  /-- `marker.exists()` -/
  | checking
  | clearing
  | making
  | building (phase : Phase)
  | marking
  /- `relink`: `symlink_metadata`, `remove_file` and `symlink` -/
  | looking
  | unlinking
  | linking
  | returned (result : Except Failure EnvDir)
  | dropped
deriving DecidableEq

namespace Stage

/-- The call has its lock. -/
def isInside : Stage → Bool
  | waiting | returned _ | dropped => false
  | _ => true

/-- The call is building the environment. -/
def isBuilding : Stage → Bool
  | clearing | making | building _ | marking => true
  | _ => false

/-- The call is in the middle of `relink`. -/
def isRelinking : Stage → Bool
  | unlinking | linking => true
  | _ => false

/-- The call has an environment that is built. -/
def isBuilt : Stage → Bool
  | marking | looking | unlinking | linking | returned (.ok _) => true
  | _ => false

end Stage

structure Call where
  runtimeId : String
  lock : String
  stage : Stage := .waiting
deriving DecidableEq

namespace Call

variable (machine : Machine) (call : Call)

def key : String := call.runtimeId ++ "#" ++ machine.hash call.lock

def dir : EnvDir := { runtime := runtimeDir call.runtimeId, hash := machine.hash call.lock }

end Call

/-! ## Steps -/

structure State where
  calls : List Call := []
  present : EnvDir → Bool := fun _ => false
  marked : EnvDir → Bool := fun _ => false
  /-- The link `current` of a runtime. -/
  current : RuntimeDir → Option EnvDir := fun _ => none
  /-- `runtimes/current` is a directory: that of the runtime named `current`. -/
  currentIsDir : Bool := false
  /-- The directories that the processes of dropped calls write into. -/
  orphans : List EnvDir := []
  finished : List (EnvDir × String) := []

section

variable (machine : Machine)

/-- The lock of the key is free. -/
def isFree (s : State) (call : Call) : Bool :=
  s.calls.all fun other => !(other.stage.isInside && other.key machine == call.key machine)

/-- What `symlink_metadata` finds where the link of a runtime belongs. -/
def linkThere (s : State) (runtime : RuntimeDir) : Bool :=
  (s.current runtime).isSome || (runtime == .runtimes && s.currentIsDir)

/-- The next operation of a call succeeds: where it leads, and what it does. A path of the runtime
named `current` is not followed through a link of that name (`State.isPlain`). -/
def goOn (s : State) (call : Call) : Option (Stage × State) :=
  let dir := call.dir machine
  match call.stage with
  | .waiting => if isFree machine s call then some (.checking, s) else none
  | .checking => some (if s.marked dir then .looking else .clearing, s)
  | .clearing =>
    some (.making,
      { s with
        present := update s.present dir false
        marked := update s.marked dir false })
  | .making =>
    some (.building .venv,
      { s with currentIsDir := s.currentIsDir || dir.runtime == .named "current" })
  | .building .venv =>
    some (.building .offline, { s with present := update s.present dir true })
  | .building _ => some (.marking, { s with finished := (dir, call.lock) :: s.finished })
  | .marking =>
    if s.present dir then some (.looking, { s with marked := update s.marked dir true })
    else some (.returned (.error .io), s)
  | .looking => some (if linkThere s dir.runtime then .unlinking else .linking, s)
  | .unlinking =>
    if (s.current dir.runtime).isSome then
      some (.linking, { s with current := update s.current dir.runtime none })
    else some (.returned (.error .relink), s)
  | .linking =>
    if linkThere s dir.runtime then some (.returned (.error .relink), s)
    else
      some (.returned (.ok dir), { s with current := update s.current dir.runtime (some dir) })
  | .returned _ | .dropped => none

/-- The next operation of a call fails. A timeout ends the process and fails it. -/
def goWrong : Stage → Option Stage
  | .clearing | .making | .marking | .looking | .unlinking | .linking =>
    some (.returned (.error .io))
  | .building .offline => some (.building .online)
  | .building _ => some (.returned (.error .runtimeFailed))
  | _ => none

inductive Action
  | prepare (runtimeId : String) (lockfile : Lockfile)
  | go (n : ℕ)
  | fail (n : ℕ)
  | drop (n : ℕ)
  /-- The process of a dropped call ends. -/
  | exit (dir : EnvDir)

/-- The link `runtimes/current` and the directory of the runtime named `current` are not both
there: for the one runtime nothing is where its link goes, for the other its path is its own. -/
def State.isPlain (s : State) : RuntimeDir → Bool
  | .runtimes => !s.currentIsDir
  | .named "current" => (s.current .runtimes).isNone
  | _ => true

def setStage (s : State) (n : ℕ) (call : Call) (stage : Stage) : State :=
  { s with calls := s.calls.set n { call with stage } }

def step (s : State) : Action → Option State
  | .prepare runtimeId lockfile =>
    some { s with calls := s.calls ++ [{ runtimeId, lock := machine.lockHere lockfile }] }
  | .go n =>
    s.calls[n]?.bind fun call =>
      (goOn machine s call).map fun next => setStage next.2 n call next.1
  | .fail n =>
    s.calls[n]?.bind fun call => (goWrong call.stage).map fun stage => setStage s n call stage
  | .drop n =>
    s.calls[n]?.bind fun call =>
      match call.stage with
      | .waiting => some (setStage s n call .dropped)
      | .building _ =>
        some (setStage { s with orphans := call.dir machine :: s.orphans } n call .dropped)
      | _ => none
  | .exit dir =>
    if s.orphans.contains dir then some { s with orphans := s.orphans.erase dir } else none

end

end Hedos.Environments
