import Hedos.Sidecar.SupervisorInvariant
import Hedos.Lib.Transition

/-!
# Generations

A task that outlives its process acts on the id of the process, where a later generation may be
registered by then. `mark_eof`, `ingest`, the guard of a stream and its frame watchdog look at
the generation or at the session first, in the section that acts; the handshake of
`ensure_running` acts under the spawn lock of the id. None of them touches a later generation.
The other kills name only the id: of the writer, of the reader once `ingest` has let go of the
lock, of a stream, of its watcher and of the watchdog of a cancel; so does the wait for a frame,
which drops a waiter already there. `generations_isolated_iff` says exactly when these do no harm.
-/

namespace Hedos.Sidecar

open Transition

variable {ν : Type}

/-! ## Where a step comes from -/

/-- The id a task acts on, and the generation it acts for. -/
def Task.origin (tasks : List Task) : Task → Option (String × ℕ)
  | .ensure id pc => pc.generation.map fun generation => (id, generation)
  | .reader id generation _ | .writer id generation _ => some (id, generation)
  | .stream id generation _ => generation.map fun generation => (id, generation)
  | .watcher id session _ | .watchdog id session =>
    (sessionGeneration tasks session).map fun generation => (id, generation)

/-- What a step that is not its own business leaves of a process: it is registered, runs, and
whoever waits on it still does. -/
structure Unharmed (before after : Process ν) : Prop where
  generation : after.generation = before.generation
  alive : before.alive = true → after.alive = true
  waiter : ∀ w ∈ before.waiter, w ∈ after.waiter
  pending : before.pending ⊆ after.pending

theorem Unharmed.refl (process : Process ν) : Unharmed process process :=
  ⟨rfl, id, fun _ h => h, fun _ h => h⟩

/-- Nobody who waits on the process has been answered. -/
def Silent (process : Process ν) (s t : Supervisor ν) : Prop :=
  ∀ w ∈ process.waiter.toList ++ process.pending, t.answers w = s.answers w

/-- A step that comes from a generation leaves every later generation of its id alone. -/
def Isolated (json : Json ν) (s : Supervisor ν) (action : Supervisor.Action) : Prop :=
  ∀ i choice task id generation t process, action = .task i choice → s.tasks[i]? = some task →
    task.origin s.tasks = some (id, generation) → s.step json action = some t →
    s.processes id = some process → generation < process.generation →
    (∃ after, t.processes id = some after ∧ Unharmed process after) ∧ Silent process s t

/-! ## The condition -/

/-- The next section of the task kills what is registered under its id, whatever it is. -/
def Task.killsUnchecked (choice : Supervisor.Choice) : Task → Bool
  | .reader _ _ .kill | .stream _ _ .kill | .watcher _ _ .failed | .watcher _ _ .kill => true
  | .writer _ _ false => choice == .no
  | _ => false

/-- The next section of the task is a `next_frame` of the pump. -/
def Task.asksFrame : Task → Bool
  | .stream _ _ .pump => true
  | _ => false

/-- A wait for a frame drops no waiter of a later generation. -/
def WaitsBehindNobody (s : Supervisor ν) (id : String) (generation : ℕ) : Prop :=
  ∀ process, s.processes id = some process → generation < process.generation →
    process.buffered ≠ [] ∨ process.eof = true ∨ process.waiter = none

/-- A task that acts on its id unchecked does so while its generation has not been replaced. -/
def Checked (s : Supervisor ν) (action : Supervisor.Action) : Prop :=
  ∀ i choice task id generation, action = .task i choice → s.tasks[i]? = some task →
    task.origin s.tasks = some (id, generation) →
    (task.killsUnchecked choice = true → Current s id generation) ∧
      (task.asksFrame = true → WaitsBehindNobody s id generation)

/-! ## The steps that look first -/

section Isolation

variable {json : Json ν} {s t : Supervisor ν} {i generation : ℕ} {id : String} {task : Task}
  {choice : Supervisor.Choice} {process : Process ν}

/-- `mark_eof` does nothing to another generation. -/
theorem Supervisor.markEof_other (hp : s.processes id = some process)
    (hne : process.generation ≠ generation) : s.markEof id generation = s := by
  simp [Supervisor.markEof, hp, hne]

/-- Nor does `ingest`. -/
theorem Supervisor.ingest_other (hp : s.processes id = some process)
    (hne : process.generation ≠ generation) (data : Bytes) :
    s.ingest json id generation data = (s, false) := by
  simp [Supervisor.ingest, hp, hne]

/-- A step from a generation that has been replaced changes nothing when it neither kills
unchecked nor asks for a frame. -/
theorem untouched (h : Inv s) (htask : s.tasks[i]? = some task)
    (horigin : task.origin s.tasks = some (id, generation)) (hp : s.processes id = some process)
    (hlt : generation < process.generation) (hkills : task.killsUnchecked choice = false)
    (hasks : task.asksFrame = false) (ht : s.taskStep json i choice task = some t) :
    t.processes = s.processes ∧ t.answers = s.answers := by
  have hne : process.generation ≠ generation := by omega
  cases task with
  | ensure id' pc =>
    -- the handshake is on the newest generation of its id
    simp only [Task.origin, Option.map_eq_some_iff, Prod.mk.injEq] at horigin
    obtain ⟨g, hg, rfl, rfl⟩ := horigin
    have hle := (h.tasks i _ htask).2 g hg process hp
    omega
  | reader id' g pc =>
    simp only [Task.origin, Option.some.injEq, Prod.mk.injEq] at horigin
    obtain ⟨rfl, rfl⟩ := horigin
    cases pc with
    | reading =>
      cases choice with
      | yes => cases ht
      | no =>
        simp only [Supervisor.taskStep, Supervisor.readerStep,
          Supervisor.markEof_other hp hne, Option.some.injEq] at ht
        rw [← ht]
        exact ⟨rfl, rfl⟩
      | data bytes =>
        simp only [Supervisor.taskStep, Supervisor.readerStep,
          Supervisor.ingest_other hp hne, Option.some.injEq] at ht
        rw [← ht]
        exact ⟨rfl, rfl⟩
    | kill => cases hkills
    | done => cases ht
  | writer id' g ended =>
    cases ended with
    | true => cases ht
    | false =>
      cases choice with
      | yes =>
        simp only [Supervisor.taskStep, Supervisor.writerStep, Bool.false_eq_true, if_false,
          Option.ite_none_left_eq_some, Option.some.injEq] at ht
        rw [← ht.2]
        exact ⟨rfl, rfl⟩
      | no => cases hkills
      | data bytes =>
        simp only [Supervisor.taskStep, Supervisor.writerStep, Bool.false_eq_true, if_false,
          Option.ite_some_none_eq_some] at ht
        rw [← ht.2]
        exact ⟨rfl, rfl⟩
  | stream id' g pc =>
    simp only [Task.origin, Option.map_eq_some_iff, Prod.mk.injEq] at horigin
    obtain ⟨g', rfl, rfl, rfl⟩ := horigin
    cases pc with
    | acquire =>
      have hnone : some g' = none := h.tasks i _ htask rfl
      cases hnone
    | parked receiver =>
      have hnone : some g' = none := h.tasks i _ htask rfl
      cases hnone
    | send =>
      simp only [Supervisor.taskStep, Supervisor.streamStep, hp] at ht
      split at ht
      · cases ht
        exact ⟨rfl, rfl⟩
      · split at ht
        · cases ht
          exact ⟨rfl, rfl⟩
        · split at ht
          · cases ht
            exact ⟨rfl, rfl⟩
          · cases ht
            exact ⟨rfl, rfl⟩
    | pump => cases hasks
    | waiting receiver =>
      simp only [Supervisor.taskStep, Supervisor.streamStep] at ht
      split at ht
      · cases ht
      · cases ht
        exact ⟨rfl, rfl⟩
      · cases ht
        exact ⟨rfl, rfl⟩
    | exit =>
      simp only [Supervisor.taskStep, Supervisor.streamStep, hp, Option.some.injEq] at ht
      rw [← ht]
      exact ⟨rfl, rfl⟩
    | kill => cases hkills
    | release =>
      -- the session of this stream stands on no process of another generation
      have hjob : process.jobSession ≠ some i := by
        intro hjob
        have hown := h.owned id' process i hp hjob
        simp only [sessionGeneration, htask, Option.bind_some, Task.streamGeneration,
          Option.some.injEq] at hown
        omega
      have hdrop : s.dropGuard id' i = s := by
        simp [Supervisor.dropGuard, hp, hjob]
      simp only [Supervisor.taskStep, Supervisor.streamStep, hdrop, Option.some.injEq] at ht
      rw [← ht]
      exact ⟨rfl, rfl⟩
    | done => cases ht
  | watcher id' session pc =>
    simp only [Task.origin, Option.map_eq_some_iff, Prod.mk.injEq] at horigin
    obtain ⟨g', -, rfl, rfl⟩ := horigin
    cases pc with
    | watching | armed =>
      cases ht
      exact ⟨rfl, rfl⟩
    | send =>
      -- the cancel may go to another process, which it does not harm
      simp only [Supervisor.taskStep, Supervisor.watcherStep, hp] at ht
      split at ht
      · cases ht
        exact ⟨rfl, rfl⟩
      · split at ht
        · cases ht
          exact ⟨rfl, rfl⟩
        · cases ht
          exact ⟨rfl, rfl⟩
    | failed | kill => cases hkills
    | done => cases ht
  | watchdog id' session =>
    simp only [Task.origin, Option.map_eq_some_iff, Prod.mk.injEq] at horigin
    obtain ⟨g', hg', rfl, rfl⟩ := horigin
    have hjob : process.jobSession ≠ some session := by
      intro hjob
      have hown := h.owned id' process session hp hjob
      rw [hg', Option.some.injEq] at hown
      omega
    have hquiet : s.frameTimeout id' session = s := by
      simp [Supervisor.frameTimeout, hp, hjob]
    simp only [Supervisor.taskStep, hquiet, Option.some.injEq] at ht
    rw [← ht]
    exact ⟨rfl, rfl⟩

/-! ## The steps that do not -/

/-- An unchecked kill leaves nothing registered under the id. -/
theorem killsUnchecked_processes (horigin : task.origin s.tasks = some (id, generation))
    (hkills : task.killsUnchecked choice = true) (ht : s.taskStep json i choice task = some t) :
    t.processes id = none := by
  have hkilled : ∀ u : Supervisor ν, (u.kill id).processes id = none := by
    intro u
    rw [Supervisor.kill_processes, Function.update_self]
  cases task with
  | ensure => cases hkills
  | reader id' g pc =>
    simp only [Task.origin, Option.some.injEq, Prod.mk.injEq] at horigin
    obtain ⟨rfl, rfl⟩ := horigin
    cases pc with
    | kill =>
      cases ht
      exact hkilled s
    | reading | done => cases hkills
  | writer id' g ended =>
    simp only [Task.origin, Option.some.injEq, Prod.mk.injEq] at horigin
    obtain ⟨rfl, rfl⟩ := horigin
    cases ended with
    | true => cases ht
    | false =>
      have hno : choice = .no := by simpa [Task.killsUnchecked] using hkills
      subst hno
      simp only [Supervisor.taskStep, Supervisor.writerStep, Bool.false_eq_true, if_false,
        Option.ite_none_left_eq_some, Option.some.injEq] at ht
      rw [← ht.2]
      exact hkilled _
  | stream id' g pc =>
    simp only [Task.origin, Option.map_eq_some_iff, Prod.mk.injEq] at horigin
    obtain ⟨g', rfl, rfl, rfl⟩ := horigin
    cases pc with
    | kill =>
      cases ht
      exact hkilled s
    | acquire | parked | send | pump | waiting | exit | release | done => cases hkills
  | watcher id' session pc =>
    simp only [Task.origin, Option.map_eq_some_iff, Prod.mk.injEq] at horigin
    obtain ⟨g', -, rfl, rfl⟩ := horigin
    cases pc with
    | failed | kill =>
      cases ht
      exact hkilled s
    | watching | send | armed | done => cases hkills
  | watchdog => cases hkills

/-- `next_frame` with no frame, no end and a waiter in the way: the waiter is dropped. -/
theorem Supervisor.nextFrame_drops (hp : s.processes id = some process)
    (hbuffered : process.buffered = []) (heof : process.eof = false) :
    (s.nextFrame id).1.processes id = some { process with waiter := some s.nextId } := by
  simp [Supervisor.nextFrame, hp, hbuffered, heof, Supervisor.fresh, Supervisor.answer,
    Supervisor.setProcess]

/-- Otherwise whoever waits goes on waiting. -/
theorem Supervisor.nextFrame_unharmed (hp : s.processes id = some process)
    (h : process.buffered ≠ [] ∨ process.eof = true ∨ process.waiter = none) :
    (∃ after, (s.nextFrame id).1.processes id = some after ∧ Unharmed process after) ∧
      (s.nextFrame id).1.answers = s.answers := by
  cases hbuffered : process.buffered with
  | cons frame buffered =>
    refine ⟨⟨{ process with buffered }, ?_, rfl, fun h => h, fun _ hw => hw,
      fun _ hw => hw⟩, ?_⟩
    · simp [Supervisor.nextFrame, hp, hbuffered, Supervisor.setProcess]
    · simp [Supervisor.nextFrame, hp, hbuffered, Supervisor.setProcess]
  | nil =>
    by_cases heof : process.eof = true
    · refine ⟨⟨process, ?_, Unharmed.refl process⟩, ?_⟩
      · simp [Supervisor.nextFrame, hp, hbuffered, heof]
      · simp [Supervisor.nextFrame, hp, hbuffered, heof]
    · have hwaiter : process.waiter = none := by
        rcases h with hb | he | hw
        · exact absurd hbuffered hb
        · exact absurd he heof
        · exact hw
      refine ⟨⟨_, Supervisor.nextFrame_drops hp hbuffered (by simpa using heof), rfl, fun h => h,
        ?_, fun _ hw => hw⟩, ?_⟩
      · rw [hwaiter]
        exact fun _ hw => nomatch hw
      · simp [Supervisor.nextFrame, hp, hbuffered, heof, hwaiter, Supervisor.fresh,
          Supervisor.answer, Supervisor.setProcess]

theorem pump_step {g : Option ℕ} (ht : s.streamStep i id g choice .pump = some t) :
    t.processes = (s.nextFrame id).1.processes ∧ t.answers = (s.nextFrame id).1.answers := by
  simp only [Supervisor.streamStep] at ht
  split at ht <;> rename_i hframe <;> rw [hframe, ← Option.some.inj ht] <;> exact ⟨rfl, rfl⟩

/-- One step leaves the later generations alone exactly when it is checked. -/
theorem isolated_iff_checked {action : Supervisor.Action} (h : Inv s)
    (ht : s.step json action = some t) : Isolated json s action ↔ Checked s action := by
  constructor
  · intro hisolated i choice task id generation haction htask horigin
    have hstep : s.taskStep json i choice task = some t := by
      subst haction
      simpa [Supervisor.step, htask] using ht
    refine ⟨fun hkills process hp => ?_, fun hasks process hp hlt => ?_⟩
    · by_contra hlater
      obtain ⟨⟨after, hafter, -⟩, -⟩ :=
        hisolated i choice task id generation t process haction htask horigin ht hp (by omega)
      rw [killsUnchecked_processes horigin hkills hstep] at hafter
      cases hafter
    · by_contra hdrops
      simp only [not_or, ne_eq, not_not, Bool.not_eq_true] at hdrops
      obtain ⟨hbuffered, heof, hwaiter⟩ := hdrops
      obtain ⟨w, hw⟩ := Option.ne_none_iff_exists'.1 hwaiter
      obtain ⟨⟨after, hafter, hunharmed⟩, -⟩ :=
        hisolated i choice task id generation t process haction htask horigin ht hp hlt
      cases task with
      | stream id' g pc =>
        cases pc with
        | pump =>
          simp only [Task.origin, Option.map_eq_some_iff, Prod.mk.injEq] at horigin
          obtain ⟨g', rfl, rfl, rfl⟩ := horigin
          rw [(pump_step hstep).1, Supervisor.nextFrame_drops hp hbuffered heof] at hafter
          -- the waiter left behind is newer than the one that was there
          have hkept := hunharmed.waiter w hw
          rw [← Option.some.inj hafter] at hkept
          have hnew : s.nextId = w := Option.some.inj hkept
          have hold := h.waiters id' process w hp hw
          omega
        | acquire | parked | send | waiting | exit | kill | release | done => cases hasks
      | ensure | reader | writer | watcher | watchdog => cases hasks
  · intro hchecked i choice task id generation t' process haction htask horigin ht' hp hlt
    have hsame : t' = t := Option.some.inj (ht'.symm.trans ht)
    subst hsame
    have hstep : s.taskStep json i choice task = some t' := by
      subst haction
      simpa [Supervisor.step, htask] using ht
    obtain ⟨hcurrent, hwaits⟩ := hchecked i choice task id generation haction htask horigin
    by_cases hkills : task.killsUnchecked choice = true
    · have hle := hcurrent hkills process hp
      omega
    by_cases hasks : task.asksFrame = true
    · cases task with
      | stream id' g pc =>
        cases pc with
        | pump =>
          simp only [Task.origin, Option.map_eq_some_iff, Prod.mk.injEq] at horigin
          obtain ⟨g', rfl, rfl, rfl⟩ := horigin
          have hkept := Supervisor.nextFrame_unharmed hp (hwaits hasks process hp hlt)
          obtain ⟨hprocesses, hanswers⟩ := pump_step hstep
          rw [hprocesses]
          refine ⟨hkept.1, fun w _ => ?_⟩
          rw [hanswers, hkept.2]
        | acquire | parked | send | waiting | exit | kill | release | done => cases hasks
      | ensure | reader | writer | watcher | watchdog => cases hasks
    · obtain ⟨hprocesses, hanswers⟩ := untouched h htask horigin hp hlt (by simpa using hkills)
        (by simpa using hasks) hstep
      refine ⟨⟨process, by rw [hprocesses, hp], Unharmed.refl process⟩, fun w _ => ?_⟩
      rw [hanswers]

end Isolation

theorem inv_start : Inv ({} : Supervisor ν) :=
  ⟨fun _ _ h => by simp at h, fun _ _ _ h => by simp at h, fun _ _ _ h => by simp at h⟩

/-- In every run of the supervisor, the later generations of every id are left alone throughout
exactly when every task that acts on its id unchecked does so before its generation is
replaced. -/
theorem generations_isolated_iff (json : Json ν) (actions : List Supervisor.Action) :
    StepsMeet (Supervisor.step json) (Isolated json) {} actions ↔
      StepsMeet (Supervisor.step json) Checked {} actions :=
  stepsMeet_congr (I := Inv) (fun _ _ _ h ht => h.step ht)
    (fun _ _ _ h ht => isolated_iff_checked h ht)
    inv_start actions

/-! ## A write that fails late -/

/-- A process is ready and a stream has queued a frame for it. It dies, a second one is
registered in its place, and then the writer of the first finds its pipe broken. -/
def lateWrite : List Supervisor.Action :=
  [.ensure "m", .task 0 .yes, .task 0 .yes, .task 0 .yes, .task 0 .yes,
    .task 2 (.data [5, 0, 0, 0, 1, 116, 114, 117, 101]), .task 0 .yes,
    .request "m", .task 3 .yes, .task 3 .yes,
    .exited "m", .ensure "m", .task 6 .yes, .task 6 .yes, .task 6 .yes, .task 6 .yes]

/-- The writer of the first generation unregisters the second. -/
theorem late_write_kills_next_generation :
    ¬ StepsMeet (Supervisor.step boolJson) (Isolated boolJson) {}
      (lateWrite ++ [Supervisor.Action.task 1 .no]) := by
  have hrun : (run (Supervisor.step boolJson) {} lateWrite).map (fun t =>
      (t.tasks[1]?, (t.processes "m").map Process.generation,
        (t.step boolJson (.task 1 .no)).map fun u => (u.processes "m").isSome)) =
      some (some (.writer "m" 1 false), some 3, some false) := by
    decide +kernel
  rw [Option.map_eq_some_iff] at hrun
  obtain ⟨t, ht, hparts⟩ := hrun
  simp only [Prod.mk.injEq, Option.map_eq_some_iff] at hparts
  obtain ⟨hwriter, ⟨process, hprocess, hgeneration⟩, u, hu, hgone⟩ := hparts
  intro h
  have hisolated := h.last ht hu
  obtain ⟨⟨after, hafter, -⟩, -⟩ :=
    hisolated 1 .no _ "m" 1 u process rfl hwriter rfl hu hprocess (by omega)
  rw [hafter] at hgone
  cases hgone

end Hedos.Sidecar
