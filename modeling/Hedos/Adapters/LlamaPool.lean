import Hedos.Lib.Lists

/-!
# The pool of `llama-server` processes

`LlamaServerPool` of `runtime/src/adapters/llama_pool.rs`: `base_url` with `ensure` and `start`,
`evict` and `resident_window`, for any number of calls at once.

A call is a task; one that holds a slot's lock stands at a place of `ensure` kept in the slot, so
that a slot has one holder at most. Between two places nothing else runs in that slot but a store
to the atomic window, which needs no lock. A slot not made yet is an empty one. What the spawner,
the network and the disk answer comes with the action, as does the moment a process exits.
-/

namespace Hedos.Adapters

/-! ## Servers -/

inductive ServerMode
  | chat
  | embedding
  | decision
deriving DecidableEq

inductive RuntimeError
  | unavailable (reason : String)
  | failed (reason : String)
deriving DecidableEq

structure ServerLaunch where
  ggufPath : String
  port : ℕ
  contextTokens : ℤ
  mode : ServerMode
  projector : Option String
  aliasName : String
  binary : Option String
deriving DecidableEq

/-- A process that was spawned: for which model, whether to read images, and by which launch. -/
structure Server where
  modelId : String
  sees : Bool
  launch : ServerLaunch
  alive : Bool
deriving DecidableEq

structure Running where
  baseUrl : String
  contextTokens : ℤ
  mode : ServerMode
  sees : Bool
  process : ℕ
deriving DecidableEq

/-- What a call needs; `sight` is whether the server is to read images. -/
structure Wanted where
  modelId : String
  gguf : String
  aliasName : String
  contextTokens : ℤ
  mode : ServerMode
  sight : Bool
deriving DecidableEq

def startupExit : String := "llama-server exited during startup"

def exitedDuringStartup : RuntimeError → Bool
  | .unavailable reason => reason == startupExit
  | .failed _ => false

/-- How many more ports a launch whose port was taken tries. -/
def portAttempts : ℕ := 2

def urlOf (port : ℕ) : String := "http://127.0.0.1:" ++ toString port

/-- Whether the process is running. -/
def isAlive (servers : List Server) (process : ℕ) : Bool :=
  servers[process]?.any Server.alive

/-- The process exits, or its handle is dropped. -/
def stop (servers : List Server) (process : ℕ) : List Server :=
  servers.modify process fun server => { server with alive := false }

/-! ## Slots -/

/-- What a launch goes on with from one try to the next. -/
structure Attempt where
  projector : Option String
  retried : Bool
  binary : Option String
  portsTried : ℕ
deriving DecidableEq

/-- Where in `ensure` the holder of a slot's lock stands. -/
inductive Place
  /-- The lock was just taken. -/
  | check
  /-- `healthy_for_reuse`, the second probe if `again`. -/
  | probe (again : Bool)
  | clear
  | prepare (projector : Option String) (retried : Bool)
  | pick (attempt : Attempt)
  | spawn (attempt : Attempt) (port : ℕ)
  /-- `wait_ready` on the process that was spawned. -/
  | await (attempt : Attempt) (port process : ℕ)
  /-- `start` gave an error. -/
  | failed (attempt : Attempt) (port : ℕ) (error : RuntimeError)
  /-- The process answers; its window is stored next. -/
  | store (port process : ℕ)
  /-- And then it is put into the slot. -/
  | fill (port process : ℕ)
deriving DecidableEq

structure Holder where
  task : ℕ
  wanted : Wanted
  place : Place
deriving DecidableEq

/-- `lastReady` is the process last made ready here, which no code reads. -/
structure Slot where
  server : Option Running := none
  chatWindow : ℤ := 0
  holder : Option Holder := none
  lastReady : Option ℕ := none
deriving DecidableEq

/-- The process the holder has in hand. -/
def Place.inHand : Place → Option ℕ
  | await _ _ process | store _ process | fill _ process => some process
  | _ => none

/-- What is answered to the holder of a slot. -/
inductive Answer
  | plain
  | health (ok : Bool)
  | projector (path : Option String)
  | prepared (result : Except RuntimeError (Option String))
  | port (result : Except RuntimeError ℕ)
  | spawned (error : Option RuntimeError)
  | ready
  | exited (killed : Bool)
  | timedOut
  /-- Whether the port is taken, and whether the binary is gone when first and when next
  looked for. -/
  | failing (taken gone goneNext : Bool)

/-- The reason `start` gives for a server that exited. -/
def exitReason (killed : Bool) (window : ℤ) : String :=
  if killed then
    "llama-server was killed while loading, most likely by the system for running out of " ++
      "memory; it was starting with a " ++ toString window ++
      "-token window, and a smaller one may fit"
  else startupExit

/-- What the holder does next: the servers, the slot, and what the call returns if it does. -/
abbrev Moved := List Server × Slot × Option (Except RuntimeError String)

namespace Slot

def goto (slot : Slot) (holder : Holder) (place : Place) : Slot :=
  { slot with holder := some { holder with place := place } }

/-- The call returns, which lets go of the lock. -/
def leave (slot : Slot) : Slot := { slot with holder := none }

/-- Whether a call can have the running server as it is, if that is healthy. -/
def fits (servers : List Server) (running : Running) (wanted : Wanted) : Bool :=
  isAlive servers running.process && running.mode == wanted.mode &&
    running.sees == wanted.sight && wanted.contextTokens ≤ running.contextTokens

/-- What follows an error of `start`: another port, another try with a binary that had gone, or
the end. -/
def afterFailure (attempt : Attempt) (error : RuntimeError) (taken gone goneNext : Bool) :
    Option Place :=
  let vanished := fun gone => attempt.binary.isSome && gone
  if attempt.portsTried < portAttempts && (exitedDuringStartup error && taken) &&
      !vanished gone then
    some (.pick { attempt with portsTried := attempt.portsTried + 1 })
  else if !attempt.retried && vanished goneNext then some (.prepare attempt.projector true)
  else none

/-- A server for the call, launched on `port`. -/
def launched (wanted : Wanted) (attempt : Attempt) (port : ℕ) : Server where
  modelId := wanted.modelId
  sees := wanted.sight
  launch :=
    { ggufPath := wanted.gguf
      port := port
      contextTokens := wanted.contextTokens
      mode := wanted.mode
      projector := attempt.projector
      aliasName := wanted.aliasName
      binary := attempt.binary }
  alive := true

/-- The slot's server goes, with its process. -/
def drop (servers : List Server) (slot : Slot) : List Server :=
  match slot.server with
  | some running => stop servers running.process
  | none => servers

/-- `ensure`, from one place to the next. -/
def move (servers : List Server) (slot : Slot) (holder : Holder) (answer : Answer) :
    Option Moved :=
  let wanted := holder.wanted
  match holder.place, answer with
  | .check, .plain =>
    let fit := slot.server.any fun running => fits servers running wanted
    some (servers, slot.goto holder (if fit then .probe false else .clear), none)
  | .probe again, .health ok =>
    slot.server.bind fun running =>
      if ok then some (servers, slot.leave, some (.ok running.baseUrl))
      else some (servers, slot.goto holder (if again then .clear else .probe true), none)
  | .clear, .projector path =>
    let projector := if wanted.sight then path else none
    some (servers, { slot with chatWindow := 0 }.goto holder (.prepare projector false), none)
  | .prepare projector retried, .prepared result =>
    match result with
    | .error error => some (servers, slot.leave, some (.error error))
    | .ok binary =>
      let attempt :=
        { projector := projector, retried := retried, binary := binary, portsTried := 0 }
      some (servers, slot.goto holder (.pick attempt), none)
  | .pick attempt, .port result =>
    match result with
    | .error error => some (servers, slot.leave, some (.error error))
    | .ok port => some (servers, slot.goto holder (.spawn attempt port), none)
  | .spawn attempt port, .spawned error =>
    match error with
    | some error => some (servers, slot.goto holder (.failed attempt port error), none)
    | none =>
      some (servers ++ [launched wanted attempt port],
        slot.goto holder (.await attempt port servers.length), none)
  | .await _ port process, .ready =>
    some (servers, { slot with lastReady := some process }.goto holder (.store port process), none)
  | .await attempt port process, .exited killed =>
    if isAlive servers process then none
    else
      let error := .unavailable (exitReason killed wanted.contextTokens)
      some (stop servers process, slot.goto holder (.failed attempt port error), none)
  | .await attempt port process, .timedOut =>
    let error := .unavailable "llama-server did not become ready in time"
    some (stop servers process, slot.goto holder (.failed attempt port error), none)
  | .failed attempt _ error, .failing taken gone goneNext =>
    match afterFailure attempt error taken gone goneNext with
    | some place => some (servers, slot.goto holder place, none)
    | none => some (servers, slot.leave, some (.error error))
  | .store port process, .plain =>
    let window := if wanted.mode = .chat then wanted.contextTokens else 0
    some (servers, { slot with chatWindow := window }.goto holder (.fill port process), none)
  | .fill port process, .plain =>
    let running :=
      { baseUrl := urlOf port
        contextTokens := wanted.contextTokens
        mode := wanted.mode
        sees := wanted.sight
        process := process }
    some (slot.drop servers, { slot with server := some running }.leave, some (.ok (urlOf port)))
  | _, _ => none

/-- The call is dropped where it waits; a process it has in hand goes with it. -/
def abandon (servers : List Server) (slot : Slot) (place : Place) : Option (List Server × Slot) :=
  match place with
  | .probe _ | .prepare _ _ => some (servers, slot.leave)
  | .await _ _ process => some (stop servers process, slot.leave)
  | _ => none

/-- What `resident_window` reads when it has the lock. -/
def heldWindow (servers : List Server) (slot : Slot) : ℤ :=
  match slot.server with
  | some running =>
    if running.mode = .chat ∧ isAlive servers running.process then running.contextTokens else 0
  | none => 0

end Slot

/-! ## The pool -/

inductive CallState
  | waiting
  | holding
  | returned (result : Except RuntimeError String)
  | dropped

inductive EvictState
  | waiting
  /-- The slot was emptied; its window is cleared next. -/
  | emptied
  | done
deriving DecidableEq

inductive ResidentState
  | start
  /-- Somebody else had the lock: the window is loaded next. -/
  | loading
  | answered (window : Option ℤ)
deriving DecidableEq

inductive Task
  | baseUrl (wanted : Wanted) (state : CallState)
  | evict (modelId : String) (state : EvictState)
  | residentWindow (modelId : String) (state : ResidentState)

structure Pool where
  servers : List Server := []
  slots : String → Slot := fun _ => {}
  tasks : List Task := []

inductive Action
  /-- Somebody calls `base_url`, `evict` or `resident_window`. -/
  | baseUrl (wanted : Wanted)
  | evict (modelId : String)
  | residentWindow (modelId : String)
  /-- The next step of a task; only the holder of a slot looks at the answer. -/
  | step (task : ℕ) (answer : Answer)
  /-- `try_lock` fails, which it may for any other call that has the lock for a moment. -/
  | tryLockFails (task : ℕ)
  /-- The future of a `base_url` call is dropped. -/
  | drop (task : ℕ)
  /-- A process exits. -/
  | crash (process : ℕ)

namespace Pool

def setSlot (pool : Pool) (modelId : String) (slot : Slot) : Pool :=
  { pool with slots := Function.update pool.slots modelId slot }

def setTask (pool : Pool) (task : ℕ) (next : Task) : Pool :=
  { pool with tasks := pool.tasks.set task next }

def call (pool : Pool) (task : Task) : Pool :=
  { pool with tasks := pool.tasks ++ [task] }

/-- `Some(window).filter(|window| *window > 0)`. -/
def positive (window : ℤ) : Option ℤ := if window > 0 then some window else none

/-- The pool after a move of the holder. -/
def settle (pool : Pool) (task : ℕ) (wanted : Wanted) (moved : Moved) : Pool :=
  let pool := { pool with servers := moved.1 }.setSlot wanted.modelId moved.2.1
  match moved.2.2 with
  | some result => pool.setTask task (.baseUrl wanted (.returned result))
  | none => pool

def stepBaseUrl (pool : Pool) (task : ℕ) (wanted : Wanted) (answer : Answer) :
    CallState → Option Pool
  | .waiting =>
    let slot := pool.slots wanted.modelId
    if slot.holder.isNone then
      some ((pool.setSlot wanted.modelId
        { slot with holder := some { task := task, wanted := wanted, place := .check } }).setTask
          task (.baseUrl wanted .holding))
    else none
  | .holding =>
    let slot := pool.slots wanted.modelId
    slot.holder.bind fun holder =>
      if holder.task = task then
        (slot.move pool.servers holder answer).map (pool.settle task wanted)
      else none
  | .returned _ | .dropped => none

def stepEvict (pool : Pool) (task : ℕ) (modelId : String) : EvictState → Option Pool
  | .waiting =>
    let slot := pool.slots modelId
    if slot.holder.isNone then
      some (({ pool with servers := slot.drop pool.servers }.setSlot modelId
        { slot with server := none }).setTask task (.evict modelId .emptied))
    else none
  | .emptied =>
    some ((pool.setSlot modelId { pool.slots modelId with chatWindow := 0 }).setTask task
      (.evict modelId .done))
  | .done => none

/-- What a step of `resident_window` answers, if it is its last. -/
def residentAnswer (pool : Pool) (modelId : String) : ResidentState → Option (Option ℤ)
  | .start =>
    let slot := pool.slots modelId
    if slot.holder.isNone then some (positive (slot.heldWindow pool.servers)) else none
  | .loading => some (positive (pool.slots modelId).chatWindow)
  | .answered _ => none

def step (pool : Pool) : Action → Option Pool
  | .baseUrl wanted => some (pool.call (.baseUrl wanted .waiting))
  | .evict modelId => some (pool.call (.evict modelId .waiting))
  | .residentWindow modelId => some (pool.call (.residentWindow modelId .start))
  | .step task answer =>
    pool.tasks[task]?.bind fun found =>
      match found with
      | .baseUrl wanted state => pool.stepBaseUrl task wanted answer state
      | .evict modelId state => pool.stepEvict task modelId state
      | .residentWindow modelId state =>
        (pool.residentAnswer modelId state).map fun window =>
          pool.setTask task (.residentWindow modelId (.answered window))
  | .tryLockFails task =>
    pool.tasks[task]?.bind fun found =>
      match found with
      | .residentWindow modelId .start =>
        some (pool.setTask task (.residentWindow modelId .loading))
      | _ => none
  | .drop task =>
    pool.tasks[task]?.bind fun found =>
      match found with
      | .baseUrl wanted .waiting => some (pool.setTask task (.baseUrl wanted .dropped))
      | .baseUrl wanted .holding =>
        let slot := pool.slots wanted.modelId
        slot.holder.bind fun holder =>
          if holder.task = task then
            (slot.abandon pool.servers holder.place).map fun left =>
              ({ pool with servers := left.1 }.setSlot wanted.modelId left.2).setTask task
                (.baseUrl wanted .dropped)
          else none
      | _ => none
  | .crash process =>
    if isAlive pool.servers process then
      some { pool with servers := stop pool.servers process }
    else none

end Pool

end Hedos.Adapters
