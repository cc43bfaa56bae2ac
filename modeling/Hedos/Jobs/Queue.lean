import Hedos.Jobs.Scheduler
import Hedos.Lib.SlotQueue
import Hedos.Lib.Transition

/-!
# The queue discipline

The scheduler read as a queue in front of one slot (`SlotQueue`): the executing job holds the
slot, a cancelled job that was still queued is withdrawn, the runner is the work that begins.
Every step of the scheduler is a step of that queue or none of its business
(`Scheduler.refines`), so the discipline of the queue holds along every run, and a job that
holds the slot can always be brought to give it up (`Scheduler.slot_freed`).
-/

namespace Hedos.Jobs

open Transition SlotQueue Function

/-! ## The scheduler as a queue in front of a slot -/

/-- `drive` has not called the runner yet. -/
def DrivePc.beforeInvoke : DrivePc → Bool
  | .start | .waitAdmission | .admitted _ | .prepare _ | .emitPreparing _ | .emitTight
  | .invoke => true
  | _ => false

def TaskPc.stage : TaskPc → Stage
  | .notify | .done => .gone
  | .drive pc => if pc.beforeInvoke then .taken else .running
  | .conclude _ _ => .ending
  | .evict | .record _ _ | .emit _ => .ended

/-- A task that concludes a job does so with a terminal state and a terminal event. -/
def TaskPc.answers : TaskPc → Bool
  | .conclude terminal _ => terminal.isTerminal
  | .evict => false
  | .record _ event | .emit event => event.isTerminal
  | _ => true

/-- The task executes its job: from the start until the job is evicted. -/
def Task.Executing (task : Task) : Prop :=
  task.executor = true ∧ task.pc ≠ .notify ∧ task.pc ≠ .done

def Task.worker (task : Task) : Worker String := ⟨task.job, task.executor, task.pc.stage⟩

theorem Task.Executing.holds {task : Task} (h : task.Executing) : task.worker.Holds := by
  obtain ⟨hexec, hnotify, hdone⟩ := h
  refine ⟨hexec, ?_⟩
  cases hpc : task.pc with
  | notify => exact absurd hpc hnotify
  | done => exact absurd hpc hdone
  | drive pc =>
    simp only [Task.worker, hpc, TaskPc.stage]
    split <;> simp
  | conclude | evict | record | emit => simp [Task.worker, hpc, TaskPc.stage]

namespace Scheduler

/-- Whether a job in memory is terminal. -/
def terminal (s : Scheduler) (id : String) : Option Bool :=
  (s.jobs id).map fun job => job.state.isTerminal

def ledger (s : Scheduler) : Ledger String where
  terminal := s.terminal
  queue := s.queue
  slot := s.executing
  workers := s.tasks.map Task.worker
  submitted := s.submitted
  started := s.started
  withdrawn := s.withdrawn
  begun := s.invoked
  stamped := s.stamped

section Views

variable {s t : Scheduler} {id : String} {i : ℕ} {task : Task} {pc : TaskPc}

theorem ledger_startNextIfIdle (s : Scheduler) : s.startNextIfIdle.ledger = s.ledger.advance := by
  unfold startNextIfIdle Ledger.advance
  cases hslot : s.executing with
  | some id => simp [ledger, hslot]
  | none =>
    cases hqueue : s.queue with
    | nil => simp [ledger, hslot, hqueue]
    | cons id rest =>
      simp [ledger, hslot, hqueue, Task.worker, TaskPc.stage, DrivePc.beforeInvoke]
      rfl

theorem terminal_update (jobs : String → Option Job) (id : String) (job : Option Job) :
    (fun k => (update jobs id job k).map fun job => job.state.isTerminal) =
      update (fun k => (jobs k).map fun job => job.state.isTerminal) id
        (job.map fun job => job.state.isTerminal) := by
  funext k
  by_cases hk : k = id
  · simp [hk]
  · simp [update_of_ne hk]

theorem ledger_enqueue (s : Scheduler) (id : String) (now : ℤ) :
    (s.enqueue id now).ledger = s.ledger.enqueue id := by
  have hterminal : (s.enqueue id now).terminal = update s.terminal id (some false) :=
    terminal_update s.jobs id (some (.new id now))
  simp only [ledger, hterminal, Ledger.enqueue]
  rfl

theorem ledger_evict (s : Scheduler) (id : String) : (s.evict id).ledger = s.ledger.evict id := by
  have hterminal : (s.evict id).terminal = update s.terminal id none :=
    terminal_update s.jobs id none
  simp only [ledger, hterminal, Ledger.evict]
  rfl

theorem ledger_evictAndAdvance (s : Scheduler) (id : String) :
    (s.evictAndAdvance id).ledger = (s.ledger.evict id).advance := by
  rw [evictAndAdvance, ledger_startNextIfIdle, ledger_evict]

theorem ledger_goto (s : Scheduler) (i : ℕ) (task : Task) (pc : TaskPc) :
    (s.goto i task pc).ledger = s.ledger.goto i task.worker pc.stage := by
  simp only [ledger, goto, Ledger.goto, List.map_set]
  rfl

/-- A change that keeps a job on its side of the end leaves the ledger alone. -/
theorem ledger_mutate {change : Job → Job}
    (h : ∀ job, s.jobs id = some job → (change job).state.isTerminal = job.state.isTerminal) :
    (s.mutate id change).ledger = s.ledger := by
  have hterminal : (s.mutate id change).terminal = s.terminal := by
    refine (terminal_update s.jobs id _).trans ?_
    refine update_eq_self_iff.2 ?_
    cases hjob : s.jobs id with
    | none => rfl
    | some job => simp [h job hjob]
  simp only [ledger, hterminal]
  rfl

theorem ledger_requestCancel (s : Scheduler) (id : String) :
    (s.requestCancel id).ledger =
      { s.ledger with workers := s.ledger.workers ++ [⟨id, false, .gone⟩] } := by
  simp only [ledger, requestCancel, List.map_append]
  rfl

theorem ledger_withdraw (s : Scheduler) (id : String) :
    (s.withdraw id).ledger = s.ledger.withdraw id := by
  simp only [ledger, withdraw, Ledger.withdraw, List.map_append]
  rfl

theorem ledger_emitInto (s : Scheduler) (id : String) (event : JobEvent) :
    (s.emitInto id event).ledger = s.ledger := rfl

variable {job : Job}

theorem ledger_stamp {terminal : JobState} {failure : Option Failure} {now : ℤ}
    (hjob : s.jobs id = some job) (hterminal : terminal.isTerminal = true) :
    (s.stamp id terminal failure now).ledger = s.ledger.stamp id := by
  have heq : (s.stamp id terminal failure now).terminal = update s.terminal id (some true) := by
    refine (terminal_update s.jobs id _).trans ?_
    rw [hjob]
    simp only [Option.map_some, Job.stamp, hterminal]
    rfl
  simp only [ledger, heq, Ledger.stamp]
  rfl

theorem terminal_of_job (hjob : s.jobs id = some job) :
    s.terminal id = some job.state.isTerminal := by
  simp [terminal, hjob]

theorem terminal_eq_some_false (hjob : s.jobs id = some job)
    (h : s.terminal id = some false) : job.state.isTerminal = false :=
  Option.some.inj ((terminal_of_job hjob).symm.trans h)

theorem ledger_markRunning (h : s.terminal id = some false) :
    (s.markRunning id).ledger = s.ledger := by
  unfold markRunning
  split
  · rename_i job hjob
    split
    · rfl
    · rw [ledger_emitInto]
      refine ledger_mutate fun job' hjob' => ?_
      exact (terminal_eq_some_false hjob' h).symm
  · rfl

theorem ledger_markProgress (s : Scheduler) (id : String) (step totalSteps : ℤ) :
    (s.markProgress id step totalSteps).ledger = s.ledger := by
  unfold markProgress
  split
  · split
    · rfl
    · rw [ledger_emitInto]
      exact ledger_mutate fun _ _ => rfl
  · rfl

theorem ledger_markWaiting (s : Scheduler) (id reason : String) :
    (s.markWaiting id reason).ledger = s.ledger := by
  unfold markWaiting
  split
  · split
    · rw [ledger_emitInto]
      exact ledger_mutate fun _ _ => rfl
    · rfl
  · rfl

theorem markRunning_tasks (s : Scheduler) (id : String) : (s.markRunning id).tasks = s.tasks := by
  unfold markRunning
  split
  · split <;> rfl
  · rfl

theorem markProgress_tasks (s : Scheduler) (id : String) (step totalSteps : ℤ) :
    (s.markProgress id step totalSteps).tasks = s.tasks := by
  unfold markProgress
  split
  · split <;> rfl
  · rfl

theorem markWaiting_tasks (s : Scheduler) (id reason : String) :
    (s.markWaiting id reason).tasks = s.tasks := by
  unfold markWaiting
  split
  · split <;> rfl
  · rfl

end Views

end Scheduler

/-! ## Sections of `drive` -/

section Drive

variable {s t : Scheduler} {id : String} {effect : Effect} {pc : DrivePc} {choice : Choice}
variable {next : TaskPc}

/-- A section of `drive`, the call of the runner apart, is none of the queue's business. -/
theorem Effect.run_ledger (h : effect.run id s = some t) (hne : effect ≠ .invoke)
    (hpending : s.terminal id = some false) : t.ledger = s.ledger := by
  cases effect with
  | invoke => exact absurd rfl hne
  | prepare now =>
    cases h
    exact Scheduler.ledger_mutate fun job hjob =>
      (Scheduler.terminal_eq_some_false hjob hpending).symm
  | markRunning =>
    cases h
    exact Scheduler.ledger_markRunning hpending
  | markProgress step totalSteps =>
    cases h
    exact s.ledger_markProgress id step totalSteps
  | preview frame =>
    cases h
    rw [Scheduler.ledger_emitInto]
    exact Scheduler.ledger_mutate fun _ _ => rfl
  | extendResult ids =>
    cases h
    exact Scheduler.ledger_mutate fun _ _ => rfl
  | pause | emit =>
    cases h
    rfl
  | takeRunner | cancelRequested | takePermit | inMemory | hasSink =>
    simp only [Effect.run, Option.ite_some_none_eq_some] at h
    obtain ⟨-, rfl⟩ := h
    rfl

theorem Effect.run_tasks (h : effect.run id s = some t) : t.tasks = s.tasks := by
  cases effect with
  | markRunning =>
    cases h
    exact s.markRunning_tasks id
  | markProgress step totalSteps =>
    cases h
    exact s.markProgress_tasks id step totalSteps
  | pause | emit | invoke | prepare | preview | extendResult =>
    cases h
    rfl
  | takeRunner | cancelRequested | takePermit | inMemory | hasSink =>
    simp only [Effect.run, Option.ite_some_none_eq_some] at h
    obtain ⟨-, rfl⟩ := h
    rfl

/-- What an edge does to the stage: it begins the work, ends the work, or neither. -/
theorem DrivePc.edge_stage (h : pc.edge id choice = some (effect, next)) :
    (effect = .invoke ∧ (TaskPc.drive pc).stage = .taken ∧ next.stage = .running) ∨
      (effect ≠ .invoke ∧ (next.stage = (TaskPc.drive pc).stage ∨ next.stage = .ending)) := by
  revert h
  fun_cases DrivePc.edge id pc choice
  -- after `Preparing`, the verdict decides whether the warning is sent
  case case10 verdict =>
    rintro ⟨⟩
    cases verdict <;> simp [TaskPc.stage, DrivePc.beforeInvoke, DrivePc.afterPreparing]
  -- an event of the runner is received, and then applied
  case case17 event =>
    rintro ⟨⟩
    cases event <;> simp [TaskPc.stage, DrivePc.beforeInvoke, DrivePc.handle]
  case case24 event =>
    rintro ⟨⟩
    cases event <;>
      simp [TaskPc.stage, DrivePc.beforeInvoke, DrivePc.afterApply, JobRuntimeEvent.effect]
  all_goals
    rintro ⟨⟩ <;> simp [TaskPc.stage, DrivePc.beforeInvoke, TaskPc.fails, TaskPc.endsIn]

/-- `drive` returns with a terminal state. -/
theorem DrivePc.edge_answers (h : pc.edge id choice = some (effect, next)) :
    next.answers = true := by
  revert h
  fun_cases DrivePc.edge id pc choice
  all_goals
    rintro ⟨⟩ <;> first | rfl | (rename_i error; cases error <;> rfl)

end Drive

/-! ## Every step is a step of the queue -/

namespace Scheduler

/-- Every task that concludes has a terminal answer. -/
def Answers (s : Scheduler) : Prop := ∀ task ∈ s.tasks, task.pc.answers = true

section Refinement

variable {s t : Scheduler} {a : SchedulerAction} {i : ℕ} {task : Task} {choice : Choice}

theorem worker_at (hi : s.tasks[i]? = some task) : s.ledger.workers[i]? = some task.worker := by
  simp only [ledger, List.getElem?_map, hi, Option.map_some]

/-- A task in `drive` has its job in memory, not terminal. -/
theorem drive_pending {pc : DrivePc} (h : s.ledger.Sound) (hi : s.tasks[i]? = some task)
    (hpc : task.pc = .drive pc) : s.terminal task.job = some false := by
  have hok := h.workers task.worker (List.mem_of_getElem? (worker_at hi))
  simp only [Ledger.WorkerOk, Task.worker, hpc, TaskPc.stage] at hok
  cases hbefore : pc.beforeInvoke with
  | true =>
    rw [hbefore, if_pos rfl] at hok
    exact hok.2.2.1
  | false =>
    rw [hbefore] at hok
    exact hok.2.2

theorem refines_drive {pc : DrivePc} (h : s.ledger.Sound) (hi : s.tasks[i]? = some task)
    (hpc : task.pc = .drive pc) (hmove : s.move i task (.drive pc) choice = some t) :
    t.ledger = s.ledger ∨ Ledger.Step s.ledger t.ledger := by
  rw [move, Option.bind_eq_some_iff] at hmove
  obtain ⟨⟨effect, next⟩, hedge, hmove⟩ := hmove
  obtain ⟨u, hrun, rfl⟩ := Option.map_eq_some_iff.1 hmove
  have hworker := worker_at hi
  have hstage : task.worker.stage = (TaskPc.drive pc).stage := by rw [← hpc]; rfl
  rcases DrivePc.edge_stage hedge with ⟨rfl, htaken, hrunning⟩ | ⟨hne, hkeep⟩
  · -- the runner is called
    cases hrun
    refine .inr ?_
    rw [ledger_goto, hrunning]
    exact Ledger.Step.begin hworker (hstage.trans htaken)
  · -- any other section leaves the ledger alone, and `drive` stays or returns
    have hsame := Effect.run_ledger hrun hne (drive_pending h hi hpc)
    rcases hkeep with hkeep | hending
    · exact .inl (by rw [ledger_goto, hsame, hkeep, ← hstage, Ledger.goto_same hworker])
    · refine .inr ?_
      rw [ledger_goto, hending, hsame]
      refine Ledger.Step.leave hworker ?_
      rw [hstage]
      simp only [TaskPc.stage]
      cases pc.beforeInvoke <;> simp

theorem refines_move (h : s.ledger.Sound) (ha : s.Answers) (hi : s.tasks[i]? = some task)
    (hmove : s.move i task task.pc choice = some t) :
    t.ledger = s.ledger ∨ Ledger.Step s.ledger t.ledger := by
  have hworker := worker_at hi
  have hanswers := ha task (List.mem_of_getElem? hi)
  have hstage : task.worker.stage = task.pc.stage := rfl
  generalize hpc : task.pc = pc at hmove hanswers hstage
  -- from the end of `conclude`, the job is evicted and the slot given on
  have hevict : pc.stage = .ended ∨ (pc.stage = .ending ∧ s.terminal task.job ≠ some false) →
      Ledger.Step s.ledger ((s.goto i task .done).evictAndAdvance task.job).ledger := by
    intro hend
    rw [ledger_evictAndAdvance, ledger_goto]
    exact Ledger.Step.evict hworker (hstage ▸ hend)
  revert hmove
  fun_cases Scheduler.move s i task pc choice
  -- `notify_one`: a task that was never a worker
  case case1 =>
    rintro ⟨⟩
    refine .inl ?_
    show (s.goto i task .done).ledger = s.ledger
    rw [ledger_goto, show TaskPc.done.stage = task.worker.stage from hstage.symm,
      Ledger.goto_same hworker]
  case case2 => exact refines_drive h hi hpc
  -- `conclude` finds the job stamped by another task
  case case3 terminal failure now job hjob hterminal =>
    rintro ⟨⟩
    exact .inr (hevict (.inr ⟨rfl, by simp [Scheduler.terminal, hjob, hterminal]⟩))
  -- `conclude` stamps the job
  case case4 terminal failure now job hjob hterminal recorded =>
    rintro ⟨⟩
    refine .inr ?_
    rw [ledger_stamp (s := s.goto i task _) hjob hanswers, ledger_goto]
    have hended : (TaskPc.afterStamp recorded terminal failure).stage = .ended := by
      unfold TaskPc.afterStamp
      split <;> rfl
    rw [hended]
    refine Ledger.Step.stamp hworker hstage ?_
    exact (terminal_of_job hjob).trans (by simpa using hterminal)
  -- `conclude` finds the job evicted by another task
  case case5 terminal failure now hjob =>
    rintro ⟨⟩
    exact .inr (hevict (.inr ⟨rfl, by simp [Scheduler.terminal, hjob]⟩))
  case case6 =>
    rintro ⟨⟩
    exact .inr (hevict (.inl rfl))
  -- the record is written off the state lock
  case case7 recorded event =>
    rintro ⟨⟩
    refine .inl ?_
    show (s.goto i task (.emit event)).ledger = s.ledger
    rw [ledger_goto, show (TaskPc.emit event).stage = task.worker.stage from hstage.symm,
      Ledger.goto_same hworker]
  -- the event is sent and the job evicted
  case case8 event =>
    rintro ⟨⟩
    refine .inr ?_
    have hstep := hevict (.inl rfl)
    rw [ledger_evictAndAdvance] at hstep ⊢
    exact hstep
  case case9 =>
    intro hmove
    simp at hmove

/-- Every step of the scheduler is a step of the queue, or none of its business. -/
theorem refines (h : s.ledger.Sound) (ha : s.Answers) (hst : step s a = some t) :
    t.ledger = s.ledger ∨ Ledger.Step s.ledger t.ledger := by
  cases a with
  | submit id now =>
    rw [step, Option.ite_none_left_eq_some, Option.some.injEq] at hst
    obtain ⟨hnew, rfl⟩ := hst
    refine .inr ?_
    rw [submit, ledger_startNextIfIdle, ledger_enqueue]
    exact Ledger.Step.submit hnew
  | events id =>
    cases hst
    refine .inl ?_
    unfold events
    split <;> rfl
  | lookup k =>
    simp only [step] at hst
    split at hst
    · cases hst
      exact .inl rfl
    · simp at hst
  | unsubscribe k =>
    cases hst
    exact .inl rfl
  | cancel id =>
    cases hst
    unfold cancel
    split
    · exact .inl rfl
    · rename_i job hjob
      split
      · exact .inl rfl
      · rename_i hterminal
        split
        · refine .inr ?_
          rw [ledger_requestCancel]
          exact Ledger.Step.idle
        · rename_i hslot
          refine .inr ?_
          rw [ledger_withdraw]
          refine Ledger.Step.withdraw ?_ hslot
          exact (terminal_of_job hjob).trans (by simpa using hterminal)
  | waiting i reason =>
    simp only [step] at hst
    split at hst
    · rw [Option.ite_some_none_eq_some] at hst
      obtain ⟨-, rfl⟩ := hst
      exact .inl (s.ledger_markWaiting _ reason)
    · simp at hst
  | move i choice =>
    rw [step, Option.bind_eq_some_iff] at hst
    obtain ⟨task, hi, hmove⟩ := hst
    exact refines_move h ha hi hmove

/-! ### Answers -/

theorem Answers.goto {pc : TaskPc} (h : s.Answers) (hpc : pc.answers = true) :
    (s.goto i task pc).Answers := by
  intro x hx
  rcases Lists.mem_set_cases hx with rfl | ⟨j, -, hj⟩
  · exact hpc
  · exact h x (List.mem_of_getElem? hj)

theorem Answers.concat {new : Task} (h : s.Answers) (hnew : new.pc.answers = true) :
    ∀ x ∈ s.tasks ++ [new], x.pc.answers = true := by
  intro x hx
  rcases List.mem_append.1 hx with hx | hx
  · exact h x hx
  · rw [List.mem_singleton.1 hx]
    exact hnew

theorem Answers.startNextIfIdle (h : s.Answers) : s.startNextIfIdle.Answers := by
  unfold Scheduler.startNextIfIdle
  split
  · exact h.concat rfl
  · exact h

theorem Answers.evictAndAdvance (h : s.Answers) (id : String) : (s.evictAndAdvance id).Answers := by
  have hevict : (s.evict id).Answers := h
  exact hevict.startNextIfIdle

/-- A terminal state is recorded and answered for. -/
theorem afterStamp_record (recorded : Job) {terminal : JobState} (failure : Option Failure)
    (h : terminal.isTerminal = true) :
    ∃ event, TaskPc.afterStamp recorded terminal failure = .record recorded event := by
  cases terminal with
  | queued | preparing | running => simp [JobState.isTerminal] at h
  | done | failed | cancelled => exact ⟨_, rfl⟩

theorem afterStamp_answers {recorded : Job} {terminal : JobState} {failure : Option Failure}
    (h : terminal.isTerminal = true) :
    (TaskPc.afterStamp recorded terminal failure).answers = true := by
  cases terminal with
  | queued | preparing | running => simp [JobState.isTerminal] at h
  | done | failed | cancelled => rfl

theorem Answers.move (h : s.Answers) (hi : s.tasks[i]? = some task)
    (hmove : s.move i task task.pc choice = some t) : t.Answers := by
  have hanswers := h task (List.mem_of_getElem? hi)
  generalize task.pc = pc at hmove hanswers
  have hdone : (s.goto i task .done).Answers := h.goto rfl
  revert hmove
  fun_cases Scheduler.move s i task pc choice
  case case2 pc =>
    intro hmove
    rw [Option.bind_eq_some_iff] at hmove
    obtain ⟨⟨effect, next⟩, hedge, hmove⟩ := hmove
    obtain ⟨u, hrun, rfl⟩ := Option.map_eq_some_iff.1 hmove
    have hu : u.Answers := by
      rw [Answers, Effect.run_tasks hrun]
      exact h
    exact hu.goto (DrivePc.edge_answers hedge)
  case case4 =>
    rintro ⟨⟩
    exact h.goto (afterStamp_answers hanswers)
  case case7 =>
    rintro ⟨⟩
    exact h.goto hanswers
  case case9 =>
    intro hmove
    simp at hmove
  case case1 =>
    rintro ⟨⟩
    exact hdone
  case case8 event =>
    rintro ⟨⟩
    have hemitted : ((s.goto i task .done).emitInto task.job event).Answers := hdone
    exact hemitted.evictAndAdvance task.job
  all_goals
    rintro ⟨⟩
    exact hdone.evictAndAdvance task.job

theorem Answers.step (h : s.Answers) (hst : Scheduler.step s a = some t) : t.Answers := by
  cases a with
  | submit id now =>
    rw [Scheduler.step, Option.ite_none_left_eq_some, Option.some.injEq] at hst
    obtain ⟨-, rfl⟩ := hst
    have henqueue : (s.enqueue id now).Answers := h
    exact henqueue.startNextIfIdle
  | events id =>
    cases hst
    unfold Scheduler.events
    split <;> exact h
  | lookup k =>
    simp only [Scheduler.step] at hst
    split at hst
    · cases hst
      exact h
    · simp at hst
  | unsubscribe k =>
    cases hst
    exact h
  | cancel id =>
    cases hst
    unfold Scheduler.cancel
    split
    · exact h
    · split
      · exact h
      · split
        · exact h.concat rfl
        · exact h.concat rfl
  | waiting i reason =>
    simp only [Scheduler.step] at hst
    split at hst
    · rw [Option.ite_some_none_eq_some] at hst
      obtain ⟨-, rfl⟩ := hst
      rw [Answers, markWaiting_tasks]
      exact h
    · simp at hst
  | move i choice =>
    rw [Scheduler.step, Option.bind_eq_some_iff] at hst
    obtain ⟨task, hi, hmove⟩ := hst
    exact h.move hi hmove

end Refinement

/-- What every run keeps. -/
structure Orderly (s : Scheduler) : Prop where
  disciplined : s.ledger.Disciplined
  answers : s.Answers

variable {s : Scheduler}

theorem Fresh.orderly (h : s.Fresh) : s.Orderly := by
  obtain ⟨history, hasSink, rfl⟩ := h
  exact ⟨Ledger.disciplined_empty, fun task htask => absurd htask List.not_mem_nil⟩

theorem Orderly.step {t : Scheduler} {a : SchedulerAction} (h : s.Orderly)
    (hst : Scheduler.step s a = some t) : t.Orderly := by
  refine ⟨?_, h.answers.step hst⟩
  rcases refines h.disciplined.toSound h.answers hst with hsame | hstep
  · rw [hsame]
    exact h.disciplined
  · exact h.disciplined.step hstep

theorem orderly_reached (h : Reachable Scheduler.step Fresh s) : s.Orderly :=
  h.invariant (fun _ hs => hs.orderly) fun _ _ _ hs hst => hs.step hst

end Scheduler

/-! ## The slot is freed -/

/-- How many sections `drive` needs at most to return, if what it calls makes it. -/
def DrivePc.distance : DrivePc → ℕ
  | .start => 10
  | .admitted _ => 9
  | .prepare _ => 8
  | .emitPreparing _ => 7
  | .emitTight => 6
  | .invoke => 5
  | .apply _ | .persist => 4
  | .progress _ _ | .sink | .pushResult _ => 3
  | .check => 2
  | .waitAdmission | .invoked | .recv | .finish | .write => 1

/-- From every counter `drive` has a way on that brings it closer to its end. -/
theorem DrivePc.closer (pc : DrivePc) (id : String) (s : Scheduler) :
    ∃ choice effect next t, pc.edge id choice = some (effect, next) ∧ effect.run id s = some t ∧
      ((∃ terminal failure, next = .conclude terminal failure) ∨
        ∃ pc', next = .drive pc' ∧ pc'.distance < pc.distance) := by
  cases pc with
  | start =>
    cases hfound : ((s.jobs id).isSome && s.runners id) with
    | true => exact ⟨.yes, _, _, _, rfl, if_pos hfound, .inr ⟨_, rfl, by decide⟩⟩
    | false => exact ⟨.no, _, _, _, rfl, if_pos hfound, .inl ⟨_, _, rfl⟩⟩
  | waitAdmission => exact ⟨.error .cancelled, _, _, _, rfl, rfl, .inl ⟨_, _, rfl⟩⟩
  | admitted verdict =>
    cases hreq : s.cancelRequested id with
    | true => exact ⟨.yes, _, _, _, rfl, if_pos hreq, .inl ⟨_, _, rfl⟩⟩
    | false => exact ⟨.no, _, _, _, rfl, if_pos hreq, .inr ⟨_, rfl, Nat.lt_succ_self 8⟩⟩
  | prepare verdict => exact ⟨.clock 0, _, _, _, rfl, rfl, .inr ⟨_, rfl, Nat.lt_succ_self 7⟩⟩
  | emitPreparing verdict =>
    refine ⟨.go, _, _, _, rfl, rfl, .inr ⟨_, rfl, ?_⟩⟩
    cases verdict <;> decide
  | emitTight => exact ⟨.go, _, _, _, rfl, rfl, .inr ⟨_, rfl, by decide⟩⟩
  | invoke => exact ⟨.go, _, _, _, rfl, rfl, .inr ⟨_, rfl, by decide⟩⟩
  | invoked => exact ⟨.panic, _, _, _, rfl, rfl, .inl ⟨_, _, rfl⟩⟩
  | check =>
    cases hreq : s.cancelRequested id with
    | true => exact ⟨.yes, _, _, _, rfl, if_pos hreq, .inl ⟨_, _, rfl⟩⟩
    | false => exact ⟨.no, _, _, _, rfl, if_pos hreq, .inr ⟨_, rfl, by decide⟩⟩
  | recv => exact ⟨.error .cancelled, _, _, _, rfl, rfl, .inl ⟨_, _, rfl⟩⟩
  | finish =>
    cases hreq : s.cancelRequested id with
    | true => exact ⟨.yes, _, _, _, rfl, if_pos hreq, .inl ⟨_, _, rfl⟩⟩
    | false => exact ⟨.no, _, _, _, rfl, if_pos hreq, .inl ⟨_, _, rfl⟩⟩
  | apply event =>
    have hrun : ∃ t, event.effect.run id s = some t := by cases event <;> exact ⟨_, rfl⟩
    obtain ⟨t, hrun⟩ := hrun
    refine ⟨.go, _, _, t, rfl, hrun, .inr ⟨_, rfl, ?_⟩⟩
    cases event <;> simp [afterApply, distance]
  | progress step totalSteps =>
    exact ⟨.go, _, _, _, rfl, rfl, .inr ⟨_, rfl, Nat.lt_succ_self 2⟩⟩
  | persist =>
    cases hjob : (s.jobs id).isSome with
    | true => exact ⟨.yes, _, _, _, rfl, if_pos hjob, .inr ⟨_, rfl, by decide⟩⟩
    | false => exact ⟨.no, _, _, _, rfl, if_pos hjob, .inr ⟨_, rfl, by decide⟩⟩
  | sink =>
    cases hsink : s.hasSink with
    | true => exact ⟨.yes, _, _, _, rfl, if_pos hsink, .inr ⟨_, rfl, by decide⟩⟩
    | false => exact ⟨.no, _, _, _, rfl, if_pos hsink, .inl ⟨_, _, rfl⟩⟩
  | write => exact ⟨.notWritten "", _, _, _, rfl, rfl, .inl ⟨_, _, rfl⟩⟩
  | pushResult artifactId =>
    exact ⟨.go, _, _, _, rfl, rfl, .inr ⟨_, rfl, Nat.lt_succ_self 2⟩⟩

namespace Scheduler

/-- Task `i` alone can bring the slot to be given up by job `id`. -/
def Frees (s : Scheduler) (i : ℕ) (id : String) : Prop :=
  ∃ (choices : List Choice) (t : Scheduler),
    run Scheduler.step s (choices.map (.move i)) = some t ∧ t.executing ≠ some id

section Freed

variable {s t u : Scheduler} {i : ℕ} {task : Task} {id : String} {choice : Choice}

theorem Frees.cons (hst : Scheduler.step s (.move i choice) = some u) (h : u.Frees i id) :
    s.Frees i id := by
  obtain ⟨choices, t, hrun, hfree⟩ := h
  refine ⟨choice :: choices, t, ?_, hfree⟩
  rw [List.map_cons, run_cons, hst, Option.bind_some, hrun]

theorem step_move (hi : s.tasks[i]? = some task) :
    Scheduler.step s (.move i choice) = s.move i task task.pc choice := by
  simp only [Scheduler.step, hi, Option.bind_some]

theorem goto_tasks {pc : TaskPc} (hi : s.tasks[i]? = some task) :
    (s.goto i task pc).tasks[i]? = some { task with pc := pc } := by
  simp only [goto, List.getElem?_set_self (List.getElem?_eq_some_iff.1 hi).1]

/-- The slot of an evicted job goes to nobody, or to the first of the queue. -/
theorem evictAndAdvance_executing (h : id ∉ s.queue) :
    (s.evictAndAdvance id).executing ≠ some id := by
  unfold evictAndAdvance startNextIfIdle
  split
  · rename_i next rest hnone hqueue
    intro heq
    have hnext : next = id := Option.some.inj heq
    have hmem : next ∈ s.queue := by
      rw [show s.queue = next :: rest from hqueue]
      exact .head _
    exact h (hnext ▸ hmem)
  · simp only [evict]
    split
    · simp
    · assumption

/-- A task that is not gone has its job out of the queue. -/
theorem Orderly.not_queued (h : s.Orderly) (hi : s.tasks[i]? = some task)
    (hstage : task.pc.stage ≠ .gone) : task.job ∉ s.queue :=
  (h.disciplined.entry_submitted (List.mem_of_getElem? (worker_at hi)) hstage).2

theorem Orderly.emit_frees {event : JobEvent} (h : s.Orderly) (hi : s.tasks[i]? = some task)
    (hid : task.job = id) (hpc : task.pc = .emit event) : s.Frees i id := by
  have hqueue := h.not_queued hi (by simp [hpc, TaskPc.stage])
  have hst : Scheduler.step s (.move i .go) =
      some (((s.goto i task .done).emitInto task.job event).evictAndAdvance task.job) := by
    rw [step_move hi, hpc]
    rfl
  exact .cons hst ⟨[], _, rfl, hid ▸ evictAndAdvance_executing hqueue⟩

theorem Orderly.record_frees {recorded : Job} {event : JobEvent} (h : s.Orderly)
    (hi : s.tasks[i]? = some task) (hid : task.job = id)
    (hpc : task.pc = .record recorded event) : s.Frees i id := by
  have hst : Scheduler.step s (.move i .go) =
      some { s.goto i task (.emit event) with history := s.history.record recorded } := by
    rw [step_move hi, hpc]
    rfl
  have hnext : (s.goto i task (.emit event)).tasks[i]? = some { task with pc := .emit event } :=
    goto_tasks hi
  exact .cons hst ((h.step hst).emit_frees hnext hid rfl)

theorem Orderly.conclude_frees {terminal : JobState} {failure : Option Failure} (h : s.Orderly)
    (hi : s.tasks[i]? = some task) (hid : task.job = id) (hexec : task.executor = true)
    (hpc : task.pc = .conclude terminal failure) : s.Frees i id := by
  have hok := h.disciplined.workers task.worker (List.mem_of_getElem? (worker_at hi))
  simp only [Ledger.WorkerOk, Task.worker, hpc, TaskPc.stage, hexec, if_pos] at hok
  -- the executor of a job is the only one to stamp it
  have hpending : s.terminal task.job = some false := hok.2
  obtain ⟨job, hjob, hstate⟩ := Option.map_eq_some_iff.1 hpending
  have hterminal : terminal.isTerminal = true := by
    have htask := h.answers task (List.mem_of_getElem? hi)
    rwa [hpc] at htask
  obtain ⟨event, hafter⟩ := afterStamp_record (job.stamp terminal failure 0) failure hterminal
  have hst : Scheduler.step s (.move i (.clock 0)) =
      some ((s.goto i task (.record (job.stamp terminal failure 0) event)).stamp
        task.job terminal failure 0) := by
    rw [step_move hi, hpc, ← hafter]
    simp only [move, hjob, hstate]
    rfl
  have hnext : (s.goto i task (.record (job.stamp terminal failure 0) event)).tasks[i]? =
      some { task with pc := .record (job.stamp terminal failure 0) event } := goto_tasks hi
  exact .cons hst ((h.step hst).record_frees hnext hid rfl)

/-- Whatever `drive` is at, its task can be brought to give the slot up. -/
theorem Orderly.drive_frees {pc : DrivePc} (h : s.Orderly) (hi : s.tasks[i]? = some task)
    (hid : task.job = id) (hexec : task.executor = true) (hpc : task.pc = .drive pc) :
    s.Frees i id := by
  -- by the number of sections that are left; the invariant goes along
  induction hn : pc.distance using Nat.strong_induction_on generalizing s task pc with
  | _ n ih =>
    obtain ⟨choice, effect, next, t, hedge, hrun, hcloser⟩ := pc.closer task.job s
    have hst : Scheduler.step s (.move i choice) = some (t.goto i task next) := by
      rw [step_move hi, hpc, move, hedge, Option.bind_some, hrun, Option.map_some]
    have hnext : (t.goto i task next).tasks[i]? = some { task with pc := next } :=
      goto_tasks ((Effect.run_tasks hrun).symm ▸ hi)
    refine .cons hst ?_
    rcases hcloser with ⟨terminal, failure, rfl⟩ | ⟨pc', rfl, hlt⟩
    · exact (h.step hst).conclude_frees hnext hid hexec rfl
    · exact ih _ (hn ▸ hlt) (h.step hst) hnext hid hexec rfl rfl

/-- A job that holds the slot can always be brought to give it up. -/
theorem Orderly.slot_freed (h : s.Orderly) (hslot : s.executing = some id) : ∃ i, s.Frees i id := by
  obtain ⟨w, hw, hholds, rfl⟩ := h.disciplined.held.held id hslot
  obtain ⟨task, htask, rfl⟩ := List.mem_map.1 hw
  obtain ⟨i, hi⟩ := List.mem_iff_getElem?.1 htask
  obtain ⟨hexec, hgone⟩ := hholds
  have hanswers := h.answers task htask
  refine ⟨i, ?_⟩
  cases hpc : task.pc with
  | notify | done => simp [Task.worker, TaskPc.stage, hpc] at hgone
  | drive pc => exact h.drive_frees hi rfl hexec hpc
  | conclude terminal failure => exact h.conclude_frees hi rfl hexec hpc
  | evict => simp [hpc, TaskPc.answers] at hanswers
  | record recorded event => exact h.record_frees hi rfl hpc
  | emit event => exact h.emit_frees hi rfl hpc

end Freed

/-! ## Every run -/

/-- At most one job is executing, and it is the one in the slot. -/
def OneExecuting (s : Scheduler) : Prop :=
  (∀ (i j : ℕ) task task', s.tasks[i]? = some task → s.tasks[j]? = some task' →
    task.Executing → task'.Executing → i = j) ∧
  ∀ task ∈ s.tasks, task.Executing → s.executing = some task.job

/-- Those that have started, then those that wait, are the submitted ones in their order,
without those cancelled while queued. -/
def StartsInOrder (s : Scheduler) : Prop :=
  s.submitted.Nodup ∧ s.started ++ s.queue = s.submitted.filter fun id => id ∉ s.withdrawn

/-- No runner is invoked twice, and none of a job cancelled while queued. -/
def RunsOnce (s : Scheduler) : Prop :=
  s.invoked.Nodup ∧ ∀ id ∈ s.invoked, id ∈ s.started ∧ id ∉ s.withdrawn

/-- A job that is not pending any more is stamped once, a pending one is not. -/
def StampedOnce (s : Scheduler) : Prop :=
  (∀ id ∈ s.submitted, s.stamped.count id = if s.terminal id = some false then 0 else 1) ∧
  ∀ id ∈ s.stamped, id ∈ s.submitted

/-- Nobody waits in front of a free slot, and the slot can always be freed. -/
def NeverWedges (s : Scheduler) : Prop :=
  (s.executing = none → s.queue = []) ∧ ∀ id, s.executing = some id → ∃ i, s.Frees i id

/-- The queue discipline in every state that any run reaches. -/
theorem queue_discipline {s : Scheduler} (h : Reachable Scheduler.step Fresh s) :
    s.OneExecuting ∧ s.StartsInOrder ∧ s.RunsOnce ∧ s.StampedOnce ∧ s.NeverWedges := by
  have horderly := orderly_reached h
  have hd := horderly.disciplined
  refine ⟨⟨fun i j task task' hi hj hx hx' => ?_, fun task htask hx => ?_⟩,
    ⟨hd.distinct, hd.order⟩, ⟨hd.begunOnce, fun id hid => ?_⟩, ⟨fun id hid => ?_, fun id hid => ?_⟩,
    hd.idle, fun id hslot => horderly.slot_freed hslot⟩
  · exact hd.held.unique i j _ _ (worker_at hi) (worker_at hj) hx.holds hx'.holds
  · exact hd.held.holds task.worker (List.mem_map_of_mem htask) hx.holds
  · have hstarted : id ∈ s.started := hd.begunStarted id hid
    exact ⟨hstarted, (hd.mem_submitted (.inl hstarted)).2⟩
  · split
    · rename_i hpending
      refine List.count_eq_zero.2 fun hstamped => ?_
      exact ((hd.stamps id).1 hstamped).2 hpending
    · rename_i hended
      exact List.count_eq_one_of_mem hd.stampedOnce ((hd.stamps id).2 ⟨hid, hended⟩)
  · exact ((hd.stamps id).1 hid).1

/-- Job `a` is submitted and executed until its runner panics; meanwhile `b` is submitted and
cancelled, and `a` is concluded by the guard. -/
def panicsInFront : List SchedulerAction :=
  [.submit "a" 1, .move 0 .yes, .move 0 (.verdict .ok), .submit "b" 2, .move 0 .no,
    .move 0 (.clock 3), .move 0 .go, .move 0 .go, .cancel "b", .move 0 .panic, .move 1 (.clock 4),
    .move 0 (.clock 5), .move 1 .go, .move 0 .go, .move 0 .go, .move 1 .go]

theorem queue_discipline_panic :
    ∃ s : Scheduler, s.submitted = ["a", "b"] ∧ s.started = ["a"] ∧ s.invoked = ["a"] ∧
      s.stamped = ["b", "a"] ∧
      s.OneExecuting ∧ s.StartsInOrder ∧ s.RunsOnce ∧ s.StampedOnce ∧ s.NeverWedges := by
  have hrun : (run Scheduler.step (new ⟨[], 50, by decide⟩ false) panicsInFront).map (fun s =>
      (s.submitted, s.started, s.invoked, s.stamped)) =
      some (["a", "b"], ["a"], ["a"], ["b", "a"]) := by
    decide +kernel
  obtain ⟨s, hs, hend⟩ := Option.map_eq_some_iff.1 hrun
  simp only [Prod.mk.injEq] at hend
  obtain ⟨hsubmitted, hstarted, hinvoked, hstamped⟩ := hend
  exact ⟨s, hsubmitted, hstarted, hinvoked, hstamped,
    queue_discipline (Reachable.run (.init (new_fresh _ _)) hs)⟩

end Scheduler

end Hedos.Jobs
