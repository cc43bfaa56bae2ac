import Hedos.Jobs.Queue

/-!
# Terminal delivery

A subscriber of a job that is not terminal waits on a stream whose sending half the scheduler
keeps. `conclude` stamps the job in one section and, after the record is written, sends the
terminal event and lets the stream go in another. Between the two the job is terminal and in
memory; a second `conclude` that comes to its first section then evicts the job, with its
subscribers, before the event is sent.

Only cancellations of one queued job that overlap do this. `Scheduler.Delivery` says what each
step does to the streams; a run keeps the promise exactly if no `conclude` finds a stamped job
with somebody waiting.
-/

namespace Hedos.Jobs

open Transition SlotQueue Function

/-! ## What is promised -/

/-- The stream is open and nothing that came through it was an answer. -/
def Stream.Waiting (stream : Stream) : Prop :=
  stream.sender = .subscribed ∧ ∀ event ∈ stream.events, event.isTerminal = false

/-- The stream is closed, and the last event that came through it, and no other, is terminal. -/
def Stream.Answered (stream : Stream) : Prop :=
  stream.sender = .dropped ∧ ∃ (before : List JobEvent) (answer : JobEvent),
    stream.events = before ++ [answer] ∧ answer.isTerminal = true ∧
      ∀ event ∈ before, event.isTerminal = false

/-- A subscriber of a live job, who still listens, waits or has its answer. -/
def Stream.Kept (stream : Stream) : Prop :=
  stream.live = true → stream.receiver = true → stream.Waiting ∨ stream.Answered

namespace Scheduler

/-- The job is in memory, and it waits for the slot or some task brings it to its end. -/
def WillConclude (s : Scheduler) (id : String) : Prop :=
  s.terminal id ≠ none ∧
    (id ∈ s.queue ∨ ∃ task ∈ s.tasks, task.job = id ∧ task.pc ≠ .notify ∧ task.pc ≠ .done)

/-- Every subscriber of a live job, who still listens, has its answer or will be answered. -/
def Delivers (s : Scheduler) : Prop :=
  ∀ stream ∈ s.streams, stream.Kept ∧ (stream.sender = .subscribed → s.WillConclude stream.job)

/-- Somebody listens to a stream of the job that the scheduler keeps. -/
def hasListener (s : Scheduler) (id : String) : Bool :=
  s.streams.any fun stream =>
    stream.job == id && stream.sender == .subscribed && stream.receiver

/-- The condition on a step: `conclude` does not find its job stamped by another and still in
memory with a listener. -/
def clear (s : Scheduler) : SchedulerAction → Bool
  | .move i _ =>
    match s.tasks[i]? with
    | some ⟨id, _, .conclude _ _⟩ => s.terminal id != some true || !s.hasListener id
    | _ => true
  | _ => true

end Scheduler

/-! ## What each step does to the streams -/

/-- What a step does to the streams, and to the jobs in memory. -/
inductive Scheduler.Delivery (s : Scheduler) : SchedulerAction → Scheduler → Prop
  | quiet {a : SchedulerAction} {t : Scheduler} : t.streams = s.streams →
      (∀ id, s.terminal id ≠ none → t.terminal id ≠ none) → Delivery s a t
  | emitted {a : SchedulerAction} {t : Scheduler} {id : String} {event : JobEvent} :
      event.isTerminal = false → t.streams = s.streams.map (Stream.deliver id event) →
      t.terminal = s.terminal → Delivery s a t
  | subscribed {a : SchedulerAction} {t : Scheduler} {stream : Stream} : stream.Kept →
      (stream.sender = .subscribed → stream.live = true ∧ s.terminal stream.job ≠ none) →
      t.streams = s.streams ++ [stream] → t.terminal = s.terminal → Delivery s a t
  | lookedUp {a : SchedulerAction} {t : Scheduler} {k : ℕ} {stream : Stream} :
      s.streams[k]? = some stream → stream.sender = .caller →
      t.streams = s.streams.set k (s.lookup stream) → t.terminal = s.terminal → Delivery s a t
  | unsubscribed {a : SchedulerAction} {t : Scheduler} {k : ℕ} :
      t.streams = s.streams.modify k (fun stream => { stream with receiver := false }) →
      t.terminal = s.terminal → Delivery s a t
  /-- The end of `conclude`. -/
  | answered {a : SchedulerAction} {t : Scheduler} {id : String} {event : JobEvent} :
      event.isTerminal = true →
      t.streams = (s.streams.map (Stream.deliver id event)).map (Stream.close id) →
      t.terminal = update s.terminal id none → Delivery s a t
  /-- `conclude` finds nothing to stamp. -/
  | evicted {t : Scheduler} {i : ℕ} {choice : Choice} {task : Task} {terminal : JobState}
      {failure : Option Failure} : s.tasks[i]? = some task →
      task.pc = .conclude terminal failure → s.terminal task.job ≠ some false →
      t.streams = s.streams.map (Stream.close task.job) →
      t.terminal = update s.terminal task.job none → Delivery s (.move i choice) t

section Delivery

variable {s t : Scheduler} {a : SchedulerAction} {i : ℕ} {task : Task} {id : String}
variable {choice : Choice} {effect : Effect} {pc : DrivePc} {next : TaskPc}

theorem Scheduler.startNextIfIdle_streams (s : Scheduler) :
    s.startNextIfIdle.streams = s.streams := by
  unfold Scheduler.startNextIfIdle
  split <;> rfl

theorem Scheduler.startNextIfIdle_terminal (s : Scheduler) :
    s.startNextIfIdle.terminal = s.terminal := by
  unfold Scheduler.startNextIfIdle
  split <;> rfl

theorem Scheduler.evictAndAdvance_streams (s : Scheduler) (id : String) :
    (s.evictAndAdvance id).streams = s.streams.map (Stream.close id) :=
  (s.evict id).startNextIfIdle_streams

theorem Scheduler.evictAndAdvance_terminal (s : Scheduler) (id : String) :
    (s.evictAndAdvance id).terminal = update s.terminal id none :=
  (s.evict id).startNextIfIdle_terminal.trans (Scheduler.terminal_update s.jobs id none)

/-- The sections of `drive` that send an event send one that is no answer. -/
def Effect.noAnswer : Effect → Bool
  | .emit event => !event.isTerminal
  | _ => true

theorem DrivePc.edge_noAnswer (h : pc.edge id choice = some (effect, next)) :
    effect.noAnswer = true := by
  revert h
  fun_cases DrivePc.edge id pc choice
  case case24 event =>
    rintro ⟨⟩
    cases event <;> rfl
  all_goals
    rintro ⟨⟩ <;> rfl

/-- Nothing is sent, or an event that is no answer to the subscribers of one job. -/
def Scheduler.SendsNoAnswer (s t : Scheduler) (id : String) : Prop :=
  t.streams = s.streams ∨
    ∃ event : JobEvent, event.isTerminal = false ∧
      t.streams = s.streams.map (Stream.deliver id event)

theorem Scheduler.SendsNoAnswer.delivery (h : s.SendsNoAnswer t id)
    (hterminal : t.terminal = s.terminal) : s.Delivery a t := by
  rcases h with hstreams | ⟨event, hevent, hstreams⟩
  · exact .quiet hstreams fun id hid => hterminal ▸ hid
  · exact .emitted hevent hstreams hterminal

theorem Scheduler.markRunning_sends (s : Scheduler) (id : String) :
    s.SendsNoAnswer (s.markRunning id) id := by
  unfold Scheduler.markRunning
  split
  · split
    · exact .inl rfl
    · exact .inr ⟨.running, rfl, rfl⟩
  · exact .inl rfl

theorem Scheduler.markProgress_sends (s : Scheduler) (id : String) (step totalSteps : ℤ) :
    s.SendsNoAnswer (s.markProgress id step totalSteps) id := by
  unfold Scheduler.markProgress
  split
  · split
    · exact .inl rfl
    · exact .inr ⟨.progress _, rfl, rfl⟩
  · exact .inl rfl

theorem Scheduler.markWaiting_sends (s : Scheduler) (id reason : String) :
    s.SendsNoAnswer (s.markWaiting id reason) id := by
  unfold Scheduler.markWaiting
  split
  · split
    · exact .inr ⟨.queued (some reason), rfl, rfl⟩
    · exact .inl rfl
  · exact .inl rfl

theorem Effect.run_sends (h : effect.run id s = some t) (hno : effect.noAnswer = true) :
    s.SendsNoAnswer t id := by
  cases effect with
  | emit event =>
    cases h
    exact .inr ⟨event, by simpa [Effect.noAnswer] using hno, rfl⟩
  | markRunning =>
    cases h
    exact s.markRunning_sends id
  | markProgress step totalSteps =>
    cases h
    exact s.markProgress_sends id step totalSteps
  | preview frame =>
    cases h
    exact .inr ⟨.preview frame, rfl, rfl⟩
  | pause | invoke | prepare | extendResult =>
    cases h
    exact .inl rfl
  | takeRunner | cancelRequested | takePermit | inMemory | hasSink =>
    simp only [Effect.run, Option.ite_some_none_eq_some] at h
    obtain ⟨-, rfl⟩ := h
    exact .inl rfl

/-- A job that is put in memory, or stays there, drops no other job from it. -/
theorem Scheduler.keeps_of_update (id : String) (v : Bool)
    (h : t.terminal = update s.terminal id (some v)) :
    ∀ k, s.terminal k ≠ none → t.terminal k ≠ none := by
  intro k hk
  rw [h]
  by_cases hkid : k = id
  · simp [hkid]
  · rwa [update_of_ne hkid]

theorem Scheduler.delivery_events (s : Scheduler) (id : String) : s.Delivery a (s.events id) := by
  unfold Scheduler.events
  split
  · rename_i job hjob
    refine .subscribed ?_ ?_ rfl rfl
    · intro hlive _
      have hgoing : job.state.isTerminal = false := by simpa using hlive
      refine .inl ⟨by simp [hgoing], fun event hevent => ?_⟩
      exact replay_isTerminal hgoing hevent
    · -- only a job that goes on takes the sending half
      intro hsubscribed
      have hgoing : job.state.isTerminal = false := by
        by_contra hterminal
        simp [hterminal] at hsubscribed
      exact ⟨by simp [hgoing], by simp [terminal, hjob]⟩
  · refine .subscribed ?_ ?_ rfl rfl
    · intro hlive
      simp at hlive
    · intro hsubscribed
      simp at hsubscribed

theorem Scheduler.delivery_drive (h : s.ledger.Sound) (hi : s.tasks[i]? = some task)
    (hpc : task.pc = .drive pc) (hmove : s.move i task (.drive pc) choice = some t) :
    s.Delivery a t := by
  rw [move, Option.bind_eq_some_iff] at hmove
  obtain ⟨⟨effect, next⟩, hedge, hmove⟩ := hmove
  obtain ⟨u, hrun, rfl⟩ := Option.map_eq_some_iff.1 hmove
  have hsends := Effect.run_sends hrun (DrivePc.edge_noAnswer hedge)
  refine Scheduler.SendsNoAnswer.delivery (t := u.goto i task next) hsends ?_
  by_cases hinvoke : effect = .invoke
  · rw [hinvoke] at hrun
    cases hrun
    rfl
  · have hledger := Effect.run_ledger hrun hinvoke (drive_pending h hi hpc)
    exact congrArg Ledger.terminal hledger

theorem Scheduler.delivery_move (h : s.Orderly) (hi : s.tasks[i]? = some task)
    (hmove : s.move i task task.pc choice = some t) : s.Delivery (.move i choice) t := by
  have hanswers := h.answers task (List.mem_of_getElem? hi)
  generalize hpc : task.pc = pc at hmove hanswers
  revert hmove
  fun_cases Scheduler.move s i task pc choice
  case case2 => exact delivery_drive h.disciplined.toSound hi hpc
  -- `conclude` on a job that is stamped already: its streams are closed, nothing is sent
  case case3 terminal failure now job hjob hterminal =>
    rintro ⟨⟩
    refine .evicted hi hpc ?_ (evictAndAdvance_streams _ _) (evictAndAdvance_terminal _ _)
    rw [terminal_of_job hjob, hterminal]
    simp
  case case4 terminal failure now job hjob hterminal recorded =>
    rintro ⟨⟩
    refine .quiet rfl (keeps_of_update task.job true ?_)
    exact congrArg Ledger.terminal (ledger_stamp (s := s.goto i task _) hjob hanswers)
  case case5 terminal failure now hjob =>
    rintro ⟨⟩
    refine .evicted hi hpc ?_ (evictAndAdvance_streams _ _) (evictAndAdvance_terminal _ _)
    simp [Scheduler.terminal, hjob]
  -- no task concludes with a state that is not terminal
  case case6 => simp [TaskPc.answers] at hanswers
  case case8 event =>
    rintro ⟨⟩
    exact .answered hanswers (evictAndAdvance_streams _ _) (evictAndAdvance_terminal _ _)
  case case9 =>
    intro hmove
    simp at hmove
  all_goals
    rintro ⟨⟩
    exact .quiet rfl fun id hid => hid

theorem Scheduler.delivery (h : s.Orderly) (hst : Scheduler.step s a = some t) :
    s.Delivery a t := by
  cases a with
  | submit id now =>
    rw [step, Option.ite_none_left_eq_some, Option.some.injEq] at hst
    obtain ⟨-, rfl⟩ := hst
    refine .quiet (startNextIfIdle_streams _) (keeps_of_update id false ?_)
    rw [submit, startNextIfIdle_terminal]
    exact congrArg Ledger.terminal (s.ledger_enqueue id now)
  | events id =>
    cases hst
    exact s.delivery_events id
  | lookup k =>
    simp only [step] at hst
    split at hst
    · rename_i hk
      cases hst
      exact .lookedUp hk rfl rfl rfl
    · simp at hst
  | unsubscribe k =>
    cases hst
    exact .unsubscribed rfl rfl
  | cancel id =>
    cases hst
    unfold cancel
    split
    · exact .quiet rfl fun id hid => hid
    · split
      · exact .quiet rfl fun id hid => hid
      · split <;> exact .quiet rfl fun id hid => hid
  | waiting i reason =>
    simp only [step] at hst
    split at hst
    · rw [Option.ite_some_none_eq_some] at hst
      obtain ⟨-, rfl⟩ := hst
      exact (s.markWaiting_sends _ reason).delivery
        (congrArg Ledger.terminal (s.ledger_markWaiting _ reason))
    · simp at hst
  | move i choice =>
    rw [step, Option.bind_eq_some_iff] at hst
    obtain ⟨task, hi, hmove⟩ := hst
    exact delivery_move h hi hmove

end Delivery

/-! ## Streams that keep the promise -/

section Streams

variable {stream : Stream} {id : String} {event : JobEvent}

@[simp] theorem Stream.deliver_job : (stream.deliver id event).job = stream.job := by
  unfold Stream.deliver
  split
  · split <;> rfl
  · rfl

@[simp] theorem Stream.deliver_live : (stream.deliver id event).live = stream.live := by
  unfold Stream.deliver
  split
  · split <;> rfl
  · rfl

@[simp] theorem Stream.close_job : (stream.close id).job = stream.job := by
  unfold Stream.close
  split <;> rfl

@[simp] theorem Stream.close_live : (stream.close id).live = stream.live := by
  unfold Stream.close
  split <;> rfl

/-- Whoever is subscribed after a delivery was so before. -/
theorem Stream.subscribed_of_deliver (h : (stream.deliver id event).sender = .subscribed) :
    stream.sender = .subscribed := by
  unfold Stream.deliver at h
  split at h
  · rename_i hsub
    exact hsub.2
  · exact h

/-- Whoever is subscribed after a job is closed was so before, and to another job. -/
theorem Stream.subscribed_of_close (h : (stream.close id).sender = .subscribed) :
    stream.sender = .subscribed ∧ stream.job ≠ id := by
  unfold Stream.close at h
  split at h
  · simp at h
  · rename_i hnot
    exact ⟨h, fun hjob => hnot ⟨hjob, h⟩⟩

/-- A stream the scheduler keeps, and to which somebody listens, has no answer yet. -/
theorem Stream.Kept.waiting (h : stream.Kept) (hlive : stream.live = true)
    (hreceiver : stream.receiver = true) (hsender : stream.sender = .subscribed) :
    stream.Waiting := by
  rcases h hlive hreceiver with hwaiting | hanswered
  · exact hwaiting
  · have hdropped := hanswered.1
    simp [hsender] at hdropped

theorem Stream.Kept.deliver (h : stream.Kept) (hevent : event.isTerminal = false) :
    (stream.deliver id event).Kept := by
  unfold Stream.deliver
  split
  · rename_i hsub
    split
    · rename_i hreceiver
      intro hlive _
      obtain ⟨hsender, hevents⟩ := h.waiting hlive hreceiver hsub.2
      refine .inl ⟨hsender, fun e he => ?_⟩
      rcases List.mem_append.1 he with he | he
      · exact hevents e he
      · rw [List.mem_singleton.1 he]
        exact hevent
    · rename_i hgone
      exact fun _ hreceiver => absurd hreceiver hgone
  · exact h

/-- The end of `conclude` answers whoever waits. -/
theorem Stream.Kept.answer (h : stream.Kept) (hevent : event.isTerminal = true) :
    ((stream.deliver id event).close id).Kept := by
  unfold Stream.deliver
  split
  · rename_i hsub
    split
    · rename_i hreceiver
      rw [Stream.close, if_pos hsub]
      intro hlive _
      obtain ⟨-, hevents⟩ := h.waiting hlive hreceiver hsub.2
      exact .inr ⟨rfl, stream.events, event, rfl, hevent, hevents⟩
    · rename_i hgone
      rw [Stream.close, if_neg (by simp)]
      exact fun _ hreceiver => absurd hreceiver hgone
  · rename_i hnot
    rw [Stream.close, if_neg hnot]
    exact h

/-- A stream that nobody listens to, or of another job, may be closed. -/
theorem Stream.Kept.close (h : stream.Kept)
    (hno : ¬ (stream.job = id ∧ stream.sender = .subscribed ∧ stream.receiver = true)) :
    (stream.close id).Kept := by
  unfold Stream.close
  split
  · rename_i hsub
    exact fun _ hreceiver => absurd ⟨hsub.1, hsub.2, hreceiver⟩ hno
  · exact h

end Streams

/-! ## The exact condition -/

namespace Scheduler

/-- Whoever is subscribed was so while the job was live, and the job is in memory. -/
def Subscribed (s : Scheduler) : Prop :=
  ∀ stream ∈ s.streams, stream.sender = .subscribed →
    stream.live = true ∧ s.terminal stream.job ≠ none

section Exact

variable {s t : Scheduler} {a : SchedulerAction} {id : String}

/-- Streams that are let go stay with the jobs in memory when one job leaves it. -/
theorem Subscribed.of_update (hback : ∀ stream ∈ t.streams, stream.sender = .subscribed →
      stream.job ≠ id ∧ stream.live = true ∧ s.terminal stream.job ≠ none)
    (hterminal : t.terminal = update s.terminal id none) : t.Subscribed := by
  intro stream hstream hsender
  obtain ⟨hne, hlive, hmem⟩ := hback stream hstream hsender
  refine ⟨hlive, ?_⟩
  rwa [hterminal, update_of_ne hne]

theorem Subscribed.step (h : s.Subscribed) (hd : s.Delivery a t) : t.Subscribed := by
  cases hd with
  | quiet hstreams hkeeps =>
    intro stream hstream hsender
    rw [hstreams] at hstream
    exact (h stream hstream hsender).imp_right (hkeeps _)
  | emitted hevent hstreams hterminal =>
    intro stream hstream hsender
    rw [hstreams] at hstream
    obtain ⟨old, hold, rfl⟩ := List.mem_map.1 hstream
    rw [hterminal]
    simpa using h old hold (Stream.subscribed_of_deliver hsender)
  | subscribed hkept hsub hstreams hterminal =>
    intro stream hstream hsender
    rw [hstreams] at hstream
    rw [hterminal]
    rcases List.mem_append.1 hstream with hstream | hstream
    · exact h stream hstream hsender
    · rw [List.mem_singleton.1 hstream] at hsender ⊢
      exact hsub hsender
  | lookedUp hk hcaller hstreams hterminal =>
    intro stream hstream hsender
    rw [hstreams] at hstream
    rw [hterminal]
    rcases Lists.mem_set_cases hstream with rfl | ⟨j, -, hj⟩
    · simp [lookup] at hsender
    · exact h stream (List.mem_of_getElem? hj) hsender
  | unsubscribed hstreams hterminal =>
    intro stream hstream hsender
    rw [hstreams] at hstream
    rw [hterminal]
    obtain ⟨j, hj⟩ := List.mem_iff_getElem?.1 hstream
    rcases Lists.getElem?_modify_cases hj with ⟨-, old, hold, rfl⟩ | ⟨-, hold⟩
    · exact h old (List.mem_of_getElem? hold) hsender
    · exact h stream (List.mem_of_getElem? hold) hsender
  | answered hevent hstreams hterminal =>
    refine .of_update (fun stream hstream hsender => ?_) hterminal
    rw [hstreams, List.map_map] at hstream
    obtain ⟨old, hold, rfl⟩ := List.mem_map.1 hstream
    obtain ⟨hdelivered, hjob⟩ := Stream.subscribed_of_close hsender
    have hsub := h old hold (Stream.subscribed_of_deliver hdelivered)
    exact ⟨by simpa using hjob, by simpa using hsub⟩
  | evicted hi hpc hnot hstreams hterminal =>
    refine .of_update (fun stream hstream hsender => ?_) hterminal
    rw [hstreams] at hstream
    obtain ⟨old, hold, rfl⟩ := List.mem_map.1 hstream
    obtain ⟨hsub, hjob⟩ := Stream.subscribed_of_close hsender
    exact ⟨by simpa using hjob, by simpa using h old hold hsub⟩

/-- Every stream keeps the promise. -/
def KeepsStreams (s : Scheduler) : Prop := ∀ stream ∈ s.streams, stream.Kept

variable {i : ℕ} {choice : Choice} {task : Task} {terminal : JobState} {failure : Option Failure}

theorem clear_conclude (hi : s.tasks[i]? = some task) (hpc : task.pc = .conclude terminal failure) :
    s.clear (.move i choice) = (s.terminal task.job != some true || !s.hasListener task.job) := by
  obtain ⟨job, executor, pc⟩ := task
  obtain rfl : pc = .conclude terminal failure := hpc
  simp only [clear, hi]

theorem hasListener_of_mem {stream : Stream} (hstream : stream ∈ s.streams)
    (hjob : stream.job = id) (hsender : stream.sender = .subscribed)
    (hreceiver : stream.receiver = true) : s.hasListener id = true :=
  List.any_eq_true.2 ⟨stream, hstream, by simp [hjob, hsender, hreceiver]⟩

theorem KeepsStreams.step (h : s.KeepsStreams) (hd : s.Delivery a t) (hsub : s.Subscribed)
    (hok : s.clear a = true) : t.KeepsStreams := by
  intro stream hstream
  cases hd with
  | quiet hstreams hkeeps =>
    rw [hstreams] at hstream
    exact h stream hstream
  | emitted hevent hstreams hterminal =>
    rw [hstreams] at hstream
    obtain ⟨old, hold, rfl⟩ := List.mem_map.1 hstream
    exact (h old hold).deliver hevent
  | subscribed hkept hsub hstreams hterminal =>
    rw [hstreams] at hstream
    rcases List.mem_append.1 hstream with hstream | hstream
    · exact h stream hstream
    · rw [List.mem_singleton.1 hstream]
      exact hkept
  | lookedUp hk hcaller hstreams hterminal =>
    rw [hstreams] at hstream
    rcases Lists.mem_set_cases hstream with rfl | ⟨j, -, hj⟩
    · intro hlive hreceiver
      -- a stream still with its caller was never promised anything
      rcases h _ (List.mem_of_getElem? hk) hlive hreceiver with ⟨hsender, -⟩ | ⟨hsender, -⟩
      · simp [hcaller] at hsender
      · simp [hcaller] at hsender
    · exact h stream (List.mem_of_getElem? hj)
  | unsubscribed hstreams hterminal =>
    rw [hstreams] at hstream
    obtain ⟨j, hj⟩ := List.mem_iff_getElem?.1 hstream
    rcases Lists.getElem?_modify_cases hj with ⟨-, old, hold, rfl⟩ | ⟨-, hold⟩
    · exact fun _ hreceiver => by simp at hreceiver
    · exact h stream (List.mem_of_getElem? hold)
  | answered hevent hstreams hterminal =>
    rw [hstreams, List.map_map] at hstream
    obtain ⟨old, hold, rfl⟩ := List.mem_map.1 hstream
    exact (h old hold).answer hevent
  | evicted hi hpc hnot hstreams hterminal =>
    rw [hstreams] at hstream
    obtain ⟨old, hold, rfl⟩ := List.mem_map.1 hstream
    refine (h old hold).close ?_
    -- a listener on the job: it is in memory and not pending, so it is stamped
    rintro ⟨hjob, hsender, hreceiver⟩
    have hmem := (hsub old hold hsender).2
    rw [clear_conclude hi hpc, hasListener_of_mem hold hjob hsender hreceiver] at hok
    rw [hjob] at hmem
    revert hnot hok hmem
    cases s.terminal _ with
    | none => simp
    | some terminal => cases terminal <;> simp

/-- A `conclude` that finds its job stamped evicts it. -/
theorem step_conclude_stamped (hi : s.tasks[i]? = some task)
    (hpc : task.pc = .conclude terminal failure) (hstamped : s.terminal task.job = some true)
    (hst : Scheduler.step s (.move i choice) = some t) :
    t.streams = s.streams.map (Stream.close task.job) := by
  obtain ⟨job, hjob, hstate⟩ := Option.map_eq_some_iff.1 hstamped
  rw [step_move hi, hpc] at hst
  cases choice with
  | clock now =>
    simp only [move, hjob, hstate, if_pos, Option.some.injEq] at hst
    rw [← hst]
    exact evictAndAdvance_streams _ _
  | _ => simp [move] at hst

/-- A listener whose stream is closed early is left without an answer. -/
theorem KeepsStreams.no_listener (h : s.KeepsStreams) (hsub : s.Subscribed)
    (hstreams : t.streams = s.streams.map (Stream.close id)) (ht : t.KeepsStreams) :
    s.hasListener id = false := by
  by_contra hlistener
  rw [Bool.not_eq_false, hasListener, List.any_eq_true] at hlistener
  obtain ⟨stream, hstream, hlistens⟩ := hlistener
  simp only [Bool.and_eq_true, beq_iff_eq] at hlistens
  obtain ⟨⟨hjob, hsender⟩, hreceiver⟩ := hlistens
  -- the listener has no answer before the step, and the step sends none
  have hlive := (hsub stream hstream hsender).1
  have hwaiting := (h stream hstream).waiting hlive hreceiver hsender
  have hclosed : stream.close id = { stream with sender := .dropped } :=
    if_pos ⟨hjob, hsender⟩
  have hkept := ht (stream.close id) (hstreams ▸ List.mem_map_of_mem hstream)
  rw [hclosed] at hkept
  rcases hkept hlive hreceiver with ⟨hopen, -⟩ | ⟨-, before, answer, hevents, hanswer, -⟩
  · simp at hopen
  · have hno := hwaiting.2 answer (by
      rw [show stream.events = before ++ [answer] from hevents]
      simp)
    simp [hno] at hanswer

theorem clear_of_keeps (h : s.KeepsStreams) (hsub : s.Subscribed)
    (hst : Scheduler.step s a = some t) (ht : t.KeepsStreams) : s.clear a = true := by
  cases a with
  | move i choice =>
    simp only [clear]
    split
    · rename_i id executor terminal failure hi
      by_cases hstamped : s.terminal id = some true
      · rw [h.no_listener hsub (step_conclude_stamped hi rfl hstamped hst) ht]
        simp
      · simp [hstamped]
    · rfl
  | _ => rfl

/-- A job in memory is brought to its end by somebody. -/
theorem Orderly.willConclude (h : s.Orderly) (hmem : s.terminal id ≠ none) :
    s.WillConclude id := by
  refine ⟨hmem, (h.disciplined.memory id hmem).2.imp_right ?_⟩
  rintro ⟨w, hw, hwid, hgone⟩
  obtain ⟨task, htask, rfl⟩ := List.mem_map.1 hw
  refine ⟨task, htask, hwid, fun hpc => hgone ?_, fun hpc => hgone ?_⟩
  · simp [Task.worker, hpc, TaskPc.stage]
  · simp [Task.worker, hpc, TaskPc.stage]

theorem delivers_iff (h : s.Orderly) (hsub : s.Subscribed) : s.Delivers ↔ s.KeepsStreams := by
  refine ⟨fun hd stream hstream => (hd stream hstream).1, fun hk stream hstream => ?_⟩
  exact ⟨hk stream hstream, fun hsender => h.willConclude (hsub stream hstream hsender).2⟩

end Exact

/-- What every run keeps, with the subscriptions. -/
structure Serving (s : Scheduler) : Prop where
  orderly : s.Orderly
  subscribed : s.Subscribed

variable {s t : Scheduler} {a : SchedulerAction}

theorem Serving.step (h : s.Serving) (hst : Scheduler.step s a = some t) : t.Serving :=
  ⟨h.orderly.step hst, h.subscribed.step (delivery h.orderly hst)⟩

/-- The exact condition for one step. -/
theorem delivers_step_iff (h : s.Serving)
    (hd : s.Delivers) (hst : Scheduler.step s a = some t) : t.Delivers ↔ s.clear a = true := by
  have hkeeps := (delivers_iff h.orderly h.subscribed).1 hd
  have hserving := h.step hst
  rw [delivers_iff hserving.orderly hserving.subscribed]
  constructor
  · exact clear_of_keeps hkeeps h.subscribed hst
  · exact hkeeps.step (delivery h.orderly hst) h.subscribed

/-! ## Every run -/

/-- Along every run every subscriber of a live job gets one terminal event, as the last before
its stream closes, exactly if no `conclude` comes upon a stamped job with a listener. -/
theorem terminal_delivery_iff {s : Scheduler} (h : s.Fresh) (actions : List SchedulerAction) :
    StatesMeet Scheduler.step Delivers s actions ↔
      StepsMeet Scheduler.step (fun s a => s.clear a = true) s actions := by
  have horderly := h.orderly
  obtain ⟨history, hasSink, rfl⟩ := h
  have hnone : ∀ stream ∈ (new history hasSink).streams, False :=
    fun stream hstream => absurd hstream List.not_mem_nil
  refine statesMeet_iff_stepsMeet (I := Serving) (fun s a t hs _ hst _ => hs.step hst)
    (fun s a t hs hd hst => delivers_step_iff hs hd hst)
    ⟨horderly, fun stream hstream => (hnone stream hstream).elim⟩
    (fun stream hstream => (hnone stream hstream).elim) actions

/-- Job `a` runs, and somebody listens to `b`, which waits behind it. -/
def listensToQueued : List SchedulerAction := [.submit "a" 1, .submit "b" 2, .events "b"]

/-- A single cancellation of `b`, to its end. -/
def cancelsOnce : List SchedulerAction :=
  listensToQueued.append
    [.cancel "b", .move 1 (.clock 3), .cancel "b", .move 1 .go, .move 1 .go]

/-- The listener of a job cancelled once has its answer. -/
theorem terminal_delivery_cancelled :
    ((run Scheduler.step (new ⟨[], 50, by decide⟩ false) cancelsOnce).map fun s => s.streams) =
        some [⟨"b", .dropped, true, true, [.queued none, .cancelled]⟩] ∧
      StatesMeet Scheduler.step Delivers (new ⟨[], 50, by decide⟩ false) cancelsOnce := by
  have hrun : (runWhen Scheduler.step clear (new ⟨[], 50, by decide⟩ false) cancelsOnce).map
      (fun _ => ()) = some () := by
    decide +kernel
  obtain ⟨s, hs, -⟩ := Option.map_eq_some_iff.1 hrun
  exact ⟨by decide +kernel, (terminal_delivery_iff (new_fresh _ _) _).2 (StepsMeet.of_runWhen hs)⟩

/-- Two cancellations of `b`: the first has stamped it when the second comes to its stamp. -/
def cancelsTwice : List SchedulerAction :=
  listensToQueued.append
    [.cancel "b", .cancel "b", .move 1 (.clock 3), .move 2 (.clock 4), .move 1 .go, .move 1 .go]

/-- The stream of the listener ends without a terminal event. -/
theorem terminal_event_lost :
    ((run Scheduler.step (new ⟨[], 50, by decide⟩ false) cancelsTwice).map fun s => s.streams) =
        some [⟨"b", .dropped, true, true, [.queued none]⟩] ∧
      ¬ ∀ s, Reachable Scheduler.step Fresh s → s.Delivers := by
  have hrun : ((run Scheduler.step (new ⟨[], 50, by decide⟩ false) cancelsTwice).map fun s =>
      s.streams) = some [⟨"b", .dropped, true, true, [.queued none]⟩] := by
    decide +kernel
  refine ⟨hrun, fun hall => ?_⟩
  obtain ⟨s, hs, hstreams⟩ := Option.map_eq_some_iff.1 hrun
  have hdelivers := hall s (Reachable.run (.init (new_fresh _ _)) hs)
  have hkept := (hdelivers ⟨"b", .dropped, true, true, [.queued none]⟩ (by simp [hstreams])).1
  rcases hkept rfl rfl with ⟨hopen, -⟩ | ⟨-, before, answer, hevents, hanswer, -⟩
  · simp at hopen
  · have hlast : answer = .queued none := by
      have := congrArg List.getLast? hevents
      simpa using this.symm
    simp [hlast, JobEvent.isTerminal] at hanswer

end Scheduler

end Hedos.Jobs
