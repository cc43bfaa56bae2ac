import Hedos.Sidecar.FrameCodec

/-!
# The sidecar supervisor

`runtime/src/sidecar/supervisor.rs`: the processes registered under their runtime ids, and the
tasks that act on them. A task is a program counter between two sections of the state lock; the
reader, the writer and the stream of a process outlive it and act on its id.

* `ensure_running` with its spawn lock, the respawn and the `ready` handshake;
* `reader_task` (`ingest`, `mark_eof`) and `writer_task` of each process;
* a stream: `acquire_exclusive`, `send`, the pump over `next_frame`, `frame_loop_exit_error`,
  the guard it drops and its frame watchdog, its watcher (`kill_if_owns`, or
  `send_cancel_and_arm` and in the end `expire_cancel_watchdog`);
* `kill` and the last sections of `shutdown` by anybody else.

The number of a stream's task is its session. A watchdog that is aborted takes no step any more, so
the table of the cancel watchdogs is not kept. The standard error tail and the sample rate are left
out: none of them is read by a section above.
-/

namespace Hedos.Sidecar

open Function

variable {ν : Type}

/-! ## Processes -/

/-- A registered process. `writer` is the sending half of the channel of its generation, a
`waiter` or a `pending` entry the sending half of a oneshot channel. -/
structure Process (ν : Type) where
  generation : ℕ
  alive : Bool := true
  decoder : Decoder := {}
  buffered : List (Frame ν) := []
  waiter : Option ℕ := none
  eof : Bool := false
  busy : Bool := false
  jobSession : Option ℕ := none
  pending : List ℕ := []

inductive EnsurePc
  /-- Waiting for the spawn lock of the id. -/
  | start
  | check
  /-- A dead process is registered under the id. -/
  | replace
  | spawn
  /-- The process of this generation is registered, its first frame is asked for. -/
  | handshake (generation : ℕ)
  | waiting (generation waiter : ℕ)
  /-- The wait ran out; the receiver is gone. -/
  | expired (generation : ℕ)
  /-- No `ready` came. -/
  | failed (generation : ℕ)
  | done
deriving DecidableEq

inductive ReaderPc
  | reading
  /-- `ingest` could not decode what it was given, and has let go of the state lock. -/
  | kill
  | done
deriving DecidableEq

inductive StreamPc
  | acquire
  | parked (receiver : ℕ)
  | send
  | pump
  | waiting (receiver : ℕ)
  /-- `next_frame` gave nothing. -/
  | exit
  | kill
  /-- The exclusive guard is dropped next. -/
  | release
  | done
deriving DecidableEq

inductive WatcherPc
  | watching
  /-- `send_cancel_and_arm` found the process busy on the session, and has let go of the lock. -/
  | send
  /-- The cancel could not be written. -/
  | failed
  /-- The watchdog of the cancel sleeps. -/
  | armed
  /-- The process was found busy on the session, and the state lock has been let go of. -/
  | kill
  | done
deriving DecidableEq

inductive Task
  | ensure (id : String) (pc : EnsurePc)
  | reader (id : String) (generation : ℕ) (pc : ReaderPc)
  | writer (id : String) (generation : ℕ) (done : Bool)
  /-- `generation` is that of the process the stream acquired; no section reads it. -/
  | stream (id : String) (generation : Option ℕ) (pc : StreamPc)
  | watcher (id : String) (session : ℕ) (pc : WatcherPc)
  | watchdog (id : String) (session : ℕ)
deriving DecidableEq

/-- The supervisor. `outbox` counts the frames in a writer's channel, `writerGone` says that its
receiver was dropped, `answers` is what came through a oneshot channel. -/
structure Supervisor (ν : Type) where
  processes : String → Option (Process ν) := fun _ => none
  spawnLocks : String → Option ℕ := fun _ => none
  nextId : ℕ := 1
  outbox : ℕ → ℕ := fun _ => 0
  writerGone : ℕ → Bool := fun _ => false
  answers : ℕ → Option (Option (Frame ν)) := fun _ => none
  receiverGone : ℕ → Bool := fun _ => false
  tasks : List Task := []

namespace Supervisor

/-! ## Sections -/

def goto (s : Supervisor ν) (i : ℕ) (task : Task) : Supervisor ν :=
  { s with tasks := s.tasks.set i task }

def setProcess (s : Supervisor ν) (id : String) (process : Option (Process ν)) : Supervisor ν :=
  { s with processes := update s.processes id process }

/-- Send through oneshot channels. -/
def answer (s : Supervisor ν) (receivers : List ℕ) (value : Option (Frame ν)) : Supervisor ν :=
  { s with answers := fun w => if w ∈ receivers then some value else s.answers w }

def fresh (s : Supervisor ν) : Supervisor ν := { s with nextId := s.nextId + 1 }

/-- Unregister whatever is registered under `id`, stop it, and answer everybody who waits on
it with nothing. -/
def kill (s : Supervisor ν) (id : String) : Supervisor ν :=
  match s.processes id with
  | none => s
  | some process =>
    (s.setProcess id none).answer (process.waiter.toList ++ process.pending) none

/-- Hand a frame to the waiter, or keep it when there is none or nobody receives. -/
def deliver (s : Supervisor ν) (process : Process ν) (frame : Frame ν) : Supervisor ν × Process ν :=
  match process.waiter with
  | none => (s, { process with buffered := process.buffered ++ [frame] })
  | some w =>
    if s.receiverGone w then
      (s, { process with waiter := none, buffered := process.buffered ++ [frame] })
    else (s.answer [w] (some frame), { process with waiter := none })

def deliverAll (s : Supervisor ν) (process : Process ν) : List (Frame ν) → Supervisor ν × Process ν
  | [] => (s, process)
  | frame :: frames =>
    let (s, process) := s.deliver process frame
    s.deliverAll process frames

/-- Bytes from the reader of a generation; `true` when they do not decode. -/
def ingest (json : Json ν) (s : Supervisor ν) (id : String) (generation : ℕ) (data : Bytes) :
    Supervisor ν × Bool :=
  match s.processes id with
  | none => (s, false)
  | some process =>
    if process.generation ≠ generation then (s, false)
    else
      match process.decoder.append json data with
      | (decoder, .ok frames) =>
        let (s, process) := s.deliverAll { process with decoder } frames
        (s.setProcess id (some process), false)
      | (decoder, .error _) => (s.setProcess id (some { process with decoder }), true)

/-- The output of a generation has ended. -/
def markEof (s : Supervisor ν) (id : String) (generation : ℕ) : Supervisor ν :=
  match s.processes id with
  | none => s
  | some process =>
    if process.generation ≠ generation then s
    else
      let quiet := { process with eof := true, waiter := none, pending := [] }
      (s.setProcess id (some quiet)).answer (process.waiter.toList ++ process.pending) none

/-- What `next_frame` finds under the id. -/
inductive NextFrame (ν : Type)
  | frame (frame : Frame ν)
  | nothing
  | wait (receiver : ℕ)

/-- Take a buffered frame or leave a waiter behind; a waiter already there is dropped. -/
def nextFrame (s : Supervisor ν) (id : String) : Supervisor ν × NextFrame ν :=
  match s.processes id with
  | none => (s, .nothing)
  | some process =>
    match process.buffered with
    | frame :: buffered => (s.setProcess id (some { process with buffered }), .frame frame)
    | [] =>
      if process.eof then (s, .nothing)
      else
        let waiting := { process with waiter := some s.nextId }
        ((s.setProcess id (some waiting)).answer process.waiter.toList none |>.fresh,
          .wait s.nextId)

def expireWaiter (s : Supervisor ν) (id : String) : Supervisor ν :=
  match s.processes id with
  | none => s
  | some process =>
    (s.setProcess id (some { process with waiter := none })).answer process.waiter.toList none

/-- A new process under `id`, with its reader and its writer. -/
def spawn (s : Supervisor ν) (id : String) : Supervisor ν :=
  { s.setProcess id (some { generation := s.nextId }) with
    nextId := s.nextId + 1
    tasks := s.tasks ++ [.writer id s.nextId false, .reader id s.nextId .reading] }

def unlock (s : Supervisor ν) (id : String) : Supervisor ν :=
  { s with spawnLocks := update s.spawnLocks id none }

/-- The exclusive guard of a session is dropped. -/
def dropGuard (s : Supervisor ν) (id : String) (session : ℕ) : Supervisor ν :=
  match s.processes id with
  | none => s
  | some process =>
    if process.jobSession = some session then
      (s.setProcess id (some { process with jobSession := none, busy := false, pending := [] }))
        |>.answer process.pending none
    else s

/-- The frame watchdog of a session: its wait for a frame is over. -/
def frameTimeout (s : Supervisor ν) (id : String) (session : ℕ) : Supervisor ν :=
  match s.processes id with
  | none => s
  | some process =>
    if process.busy ∧ process.jobSession = some session then s.expireWaiter id else s

/-! ## Steps -/

/-- How the choices of a step fall: the answer of the outside, or the bytes it brings. -/
inductive Choice
  | yes
  | no
  | data (bytes : Bytes)
deriving DecidableEq

inductive Action
  /-- Somebody calls `ensure_running`. -/
  | ensure (id : String)
  /-- Somebody opens a stream. -/
  | request (id : String)
  /-- The registered process exits, or is signalled by `shutdown`. -/
  | exited (id : String)
  /-- `terminate_all`, or the last section of `shutdown`. -/
  | kill (id : String)
  | task (i : ℕ) (choice : Choice)
deriving DecidableEq

/-- `ensure_running`. The spawn lock is held from `check` to the return. -/
def ensureStep (s : Supervisor ν) (i : ℕ) (id : String) (choice : Choice) :
    EnsurePc → Option (Supervisor ν)
  | .start =>
    if s.spawnLocks id = none then
      some ({ s with spawnLocks := update s.spawnLocks id (some i) }
        |>.goto i (.ensure id .check))
    else none
  | .check =>
    match s.processes id with
    | none => some (s.goto i (.ensure id .spawn))
    | some process =>
      if process.alive then some ((s.unlock id).goto i (.ensure id .done))
      else some (s.goto i (.ensure id .replace))
  | .replace => some ((s.kill id).goto i (.ensure id .spawn))
  | .spawn =>
    if choice = .yes then some ((s.spawn id).goto i (.ensure id (.handshake s.nextId)))
    else some ((s.unlock id).goto i (.ensure id .done))
  | .handshake generation =>
    match s.nextFrame id with
    | (s, .wait receiver) => some (s.goto i (.ensure id (.waiting generation receiver)))
    | (s, .nothing) => some (s.goto i (.ensure id (.failed generation)))
    | (s, .frame _) =>
      -- whether the first frame is the `ready` event
      if choice = .yes then some ((s.unlock id).goto i (.ensure id .done))
      else some (s.goto i (.ensure id (.failed generation)))
  | .waiting generation receiver =>
    match s.answers receiver with
    | some (some _) =>
      if choice = .yes then some ((s.unlock id).goto i (.ensure id .done))
      else some (s.goto i (.ensure id (.failed generation)))
    | some none => some (s.goto i (.ensure id (.failed generation)))
    | none =>
      some ({ s with receiverGone := update s.receiverGone receiver true }
        |>.goto i (.ensure id (.expired generation)))
  | .expired generation => some ((s.expireWaiter id).goto i (.ensure id (.failed generation)))
  | .failed _ => some (((s.kill id).unlock id).goto i (.ensure id .done))
  | .done => none

/-- `reader_task`: it goes on reading after a failed `ingest`. -/
def readerStep (json : Json ν) (s : Supervisor ν) (i : ℕ) (id : String) (generation : ℕ)
    (choice : Choice) : ReaderPc → Option (Supervisor ν)
  | .reading =>
    match choice with
    | .data bytes =>
      let (s, broken) := s.ingest json id generation bytes
      some (s.goto i (.reader id generation (if broken then .kill else .reading)))
    | .no => some ((s.markEof id generation).goto i (.reader id generation .done))
    | .yes => none
  | .kill => some ((s.kill id).goto i (.reader id generation .reading))
  | .done => none

/-- `writer_task`: a message is written, fails to be written, or the channel is closed. -/
def writerStep (s : Supervisor ν) (i : ℕ) (id : String) (generation : ℕ) (choice : Choice) :
    Option (Supervisor ν) :=
  let ended := { s with writerGone := update s.writerGone generation true }
  match choice with
  | .yes =>
    if s.outbox generation = 0 then none
    else some { s with
      outbox := update s.outbox generation (s.outbox generation - 1) }
  | .no =>
    if s.outbox generation = 0 then none
    else some ((ended.kill id).goto i (.writer id generation true))
  | .data _ =>
    if s.outbox generation = 0 ∧ ∀ process ∈ s.processes id, process.generation ≠ generation then
      some (ended.goto i (.writer id generation true))
    else none

/-- Where the pump goes with a frame: on, to its end, or out of step with its process. -/
def afterFrame : Choice → StreamPc
  | .yes => .pump
  | .no => .release
  | .data _ => .kill

def streamStep (s : Supervisor ν) (i : ℕ) (id : String) (generation : Option ℕ)
    (choice : Choice) : StreamPc → Option (Supervisor ν)
  | .acquire =>
    match s.processes id with
    | none => some (s.goto i (.stream id none .send))
    | some process =>
      if process.busy then
        some ((s.setProcess id (some { process with pending := process.pending ++ [s.nextId] }))
          |>.fresh |>.goto i (.stream id none (.parked s.nextId)))
      else
        some ((s.setProcess id (some { process with busy := true, jobSession := some i }))
          |>.goto i (.stream id (some process.generation) .send))
  | .parked receiver =>
    if (s.answers receiver).isSome then some (s.goto i (.stream id none .acquire)) else none
  | .send =>
    -- the consumer may be gone already
    if choice = .no then some (s.goto i (.stream id generation .release))
    else
      match s.processes id with
      | none => some (s.goto i (.stream id generation .release))
      | some process =>
        if !process.alive then some (s.goto i (.stream id generation .release))
        else if s.writerGone process.generation then some (s.goto i (.stream id generation .kill))
        else
          some ({ s with
            outbox := update s.outbox process.generation (s.outbox process.generation + 1)
            tasks := s.tasks ++ [Task.watchdog id i] } |>.goto i (.stream id generation .pump))
  | .pump =>
    match s.nextFrame id with
    | (s, .wait receiver) => some (s.goto i (.stream id generation (.waiting receiver)))
    | (s, .nothing) => some (s.goto i (.stream id generation .exit))
    | (s, .frame _) => some (s.goto i (.stream id generation (afterFrame choice)))
  | .waiting receiver =>
    match s.answers receiver with
    | none => none
    | some none => some (s.goto i (.stream id generation .exit))
    | some (some _) => some (s.goto i (.stream id generation (afterFrame choice)))
  | .exit =>
    match s.processes id with
    | none => some (s.goto i (.stream id generation .release))
    | some process =>
      some (s.goto i (.stream id generation (if process.eof then .release else .kill)))
  | .kill => some ((s.kill id).goto i (.stream id generation .release))
  | .release => some ((s.dropGuard id i).goto i (.stream id generation .done))
  | .done => none

/-- The process under the id is busy on the session. -/
def owns (s : Supervisor ν) (id : String) (session : ℕ) : Bool :=
  (s.processes id).any fun process => process.busy && decide (process.jobSession = some session)

/-- The watcher of a stream once the consumer is gone: `kill_if_owns`, or `send_cancel_and_arm`
when the choice is `no`, which does nothing while the operation has not been sent (`data`). -/
def watcherStep (s : Supervisor ν) (i : ℕ) (id : String) (session : ℕ) (choice : Choice) :
    WatcherPc → Option (Supervisor ν)
  | .watching =>
    let next := match choice with
      | .yes => .kill
      | .no => .send
      | .data _ => .done
    some (s.goto i (.watcher id session (if s.owns id session then next else .done)))
  | .send =>
    match s.processes id with
    | none => some (s.goto i (.watcher id session .armed))
    | some process =>
      if !process.alive then some (s.goto i (.watcher id session .armed))
      else if s.writerGone process.generation then some (s.goto i (.watcher id session .failed))
      else
        some ({ s with
          outbox := update s.outbox process.generation (s.outbox process.generation + 1) }
          |>.goto i (.watcher id session .armed))
  | .failed => some ((s.kill id).goto i (.watcher id session .armed))
  | .armed =>
    some (s.goto i (.watcher id session (if s.owns id session then .kill else .done)))
  | .kill => some ((s.kill id).goto i (.watcher id session .done))
  | .done => none

def taskStep (json : Json ν) (s : Supervisor ν) (i : ℕ) (choice : Choice) :
    Task → Option (Supervisor ν)
  | .ensure id pc => s.ensureStep i id choice pc
  | .reader id generation pc => s.readerStep json i id generation choice pc
  | .writer id generation done => if done then none else s.writerStep i id generation choice
  | .stream id generation pc => s.streamStep i id generation choice pc
  | .watcher id session pc => s.watcherStep i id session choice pc
  | .watchdog id session => some (s.frameTimeout id session)

def step (json : Json ν) (s : Supervisor ν) : Action → Option (Supervisor ν)
  | .ensure id => some { s with tasks := s.tasks ++ [.ensure id .start] }
  | .request id =>
    some { s with
      tasks := s.tasks ++ [.stream id none .acquire, .watcher id s.tasks.length .watching] }
  | .exited id =>
    match s.processes id with
    | none => some s
    | some process => some (s.setProcess id (some { process with alive := false }))
  | .kill id => some (s.kill id)
  | .task i choice =>
    match s.tasks[i]? with
    | none => none
    | some task => s.taskStep json i choice task

end Supervisor

end Hedos.Sidecar
