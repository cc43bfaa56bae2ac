import Mathlib.Data.List.Sort
import Mathlib.Algebra.Order.Field.Rat

/-!
# Jobs, their events and their history

The data the scheduler works on (`kernel/src/jobs`): the `Job` record without the request it
carries, the events a runner streams and those the scheduler publishes, and the store of
concluded jobs as it is in memory. Fractions are exact rationals here and doubles in the code.
Nothing below looks at the bytes of a preview or of a result.
-/

namespace Hedos.Jobs

inductive JobState
  | queued
  | preparing
  | running
  | done
  | failed
  | cancelled
deriving DecidableEq

/-- Whether this is an end state. -/
def JobState.isTerminal : JobState → Bool
  | .done | .failed | .cancelled => true
  | _ => false

structure JobProgress where
  fraction : ℚ
  step : Option ℤ
  totalSteps : Option ℤ
deriving DecidableEq

/-- `JobProgress::default`. -/
def JobProgress.none : JobProgress := ⟨0, .none, .none⟩

structure Job where
  id : String
  state : JobState
  progress : JobProgress
  queueReason : Option String
  preview : Option (List UInt8)
  result : List String
  error : Option String
  rejected : Bool
  submittedAt : ℤ
  startedAt : Option ℤ
  finishedAt : Option ℤ
deriving DecidableEq

/-- `Job::new`, a freshly queued job. -/
def Job.new (id : String) (submittedAt : ℤ) : Job where
  id := id
  state := .queued
  progress := .none
  queueReason := none
  preview := none
  result := []
  error := none
  rejected := false
  submittedAt := submittedAt
  startedAt := none
  finishedAt := none

/-! ## Events -/

/-- One item a runner streams. -/
inductive JobRuntimeEvent
  | status (message : String)
  | started
  | progress (step totalSteps : ℤ)
  | preview (frame : List UInt8)
  | result (data : List UInt8) (fileExtension : String)
  | artifacts (ids : List String)
deriving DecidableEq

/-- What the scheduler publishes to observers. -/
inductive JobEvent
  | queued (reason : Option String)
  | preparing
  | status (message : String)
  | running
  | progress (progress : JobProgress)
  | preview (frame : List UInt8)
  | done (result : List String)
  | failed (message : String) (rejected : Bool)
  | cancelled
deriving DecidableEq

/-- The events that answer for the end of a job. -/
def JobEvent.isTerminal : JobEvent → Bool
  | .done _ | .failed _ _ | .cancelled => true
  | _ => false

/-- The event that stands for the state of a job. -/
def JobState.replay (job : Job) : JobState → List JobEvent
  | .queued => [.queued job.queueReason]
  | .preparing => [.preparing]
  | .running =>
    .running :: if job.progress.fraction > 0 then [.progress job.progress] else []
  | .done => [.done job.result]
  | .failed => [.failed (job.error.getD "failed") job.rejected]
  | .cancelled => [.cancelled]

/-- `replay`: a coarse snapshot of a job. -/
def replay (job : Job) : List JobEvent :=
  job.state.replay job ++
    if job.state.isTerminal then [] else (job.preview.map JobEvent.preview).toList

theorem JobState.replay_isTerminal {state : JobState} {job : Job} {event : JobEvent}
    (h : state.isTerminal = false) (hmem : event ∈ state.replay job) :
    event.isTerminal = false := by
  cases state with
  | queued | preparing =>
    rw [List.mem_singleton.1 hmem]
    rfl
  | running =>
    rcases List.mem_cons.1 hmem with rfl | hmem
    · rfl
    · split at hmem
      · rw [List.mem_singleton.1 hmem]
        rfl
      · simp at hmem
  | done | failed | cancelled => simp [isTerminal] at h

/-- A job that goes on is replayed without an answer. -/
theorem replay_isTerminal {job : Job} {event : JobEvent} (h : job.state.isTerminal = false)
    (hmem : event ∈ replay job) : event.isTerminal = false := by
  rcases List.mem_append.1 hmem with hmem | hmem
  · exact JobState.replay_isTerminal h hmem
  · rw [h, if_neg (by simp), Option.mem_toList, Option.map_eq_some_iff] at hmem
    obtain ⟨frame, -, rfl⟩ := hmem
    rfl

/-! ## How a job ends -/

/-- Why a job ended, as reported by admission or a runner. -/
inductive JobError
  | cancelled
  | failed (message : String)
  | rejected (message : String)
deriving DecidableEq

/-- Why a job failed, and whether the request was at fault. -/
structure Failure where
  message : String
  rejected : Bool
deriving DecidableEq

/-- A failure that was not the request's fault. -/
def Failure.of (message : String) : Failure := ⟨message, false⟩

/-- The terminal state a runner's error ends its job in. -/
def ended : JobError → JobState × Option Failure
  | .cancelled => (.cancelled, none)
  | .failed message => (.failed, some (.of message))
  | .rejected message => (.failed, some ⟨message, true⟩)

/-- What `conclude` writes into a job that is not terminal yet. -/
def Job.stamp (job : Job) (terminal : JobState) (failure : Option Failure) (now : ℤ) : Job :=
  { job with
    state := terminal
    error := failure.map Failure.message
    rejected := failure.any Failure.rejected
    finishedAt := some now
    progress :=
      if terminal = .done then
        ⟨1, job.progress.totalSteps.or job.progress.step, job.progress.totalSteps⟩
      else job.progress }

/-- The event that answers for a terminal state; none for the other states. -/
def terminalEvent (recorded : Job) (failure : Option Failure) : JobState → Option JobEvent
  | .done => some (.done recorded.result)
  | .failed =>
    let failure := failure.getD (.of "failed")
    some (.failed failure.message failure.rejected)
  | .cancelled => some .cancelled
  | _ => none

/-! ## The history -/

/-- `JobHistoryStore` once it is loaded; the limit is floored at one. -/
structure JobHistory where
  jobs : List Job
  limit : ℕ
  pos : 0 < limit

/-- Newest first: by submission time, then by id. -/
def newerFirst (a b : Job) : Prop :=
  b.submittedAt < a.submittedAt ∨ (b.submittedAt = a.submittedAt ∧ b.id ≤ a.id)

instance : DecidableRel newerFirst := fun _ _ => inferInstanceAs (Decidable (_ ∨ _))

/-- `record`, as far as memory goes; the write to disk is best effort. -/
def JobHistory.record (history : JobHistory) (job : Job) : JobHistory :=
  { history with
    jobs := (((history.jobs.filter fun existing => existing.id ≠ job.id) ++ [job]).insertionSort
      newerFirst).take history.limit }

/-- The recorded job with an id, if any. -/
def JobHistory.get (history : JobHistory) (id : String) : Option Job :=
  history.jobs.find? fun job => job.id == id

end Hedos.Jobs
