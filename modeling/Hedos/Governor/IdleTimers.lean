import Hedos.Governor.CallViews

/-!
# Idle timers

`schedule_idle_unload` spawns a task that sleeps through the warm window and then calls
`unload_now`, and keeps its abort handle in `idle_tasks` (`runtime/src/governor/residency.rs`).
`unload_now` begins with `cancel_idle_unload`, which aborts whatever handle it finds there:
when the timer itself calls it, its own. An aborted task is dropped at its next suspension,
so an unloader that suspends is left half run, with its unloader put back and the model still
resident.

The timers run here with everything that touches `idle_tasks`: scheduling, `cancel_idle_unload`
of a generation or of another unload, `register`, `deregister` and `suspend_all`. The other
sections of other tasks may run at any time (`other`). A timer is dropped only where it awaits,
and only after an abort (`drop`); how often an unloader suspends is left open.
-/

namespace Hedos.Governor

open Transition Function

/-! ## The tasks -/

/-- Whose operation aborted a timer. -/
inductive Actor
  | itself
  | another
deriving DecidableEq

inductive TimerPc
  | sleeping
  /-- `unload_now` has begun. -/
  | cancelIdle
  | unload (pc : UnloadPc)
  | done
deriving DecidableEq

/-- A timer task. `began` says that its raw unloader has started, `finished` that
`mark_unloaded` has run after it; neither is read by a step. -/
structure Timer where
  model : String
  pc : TimerPc
  abortedBy : Option Actor
  dropped : Bool
  began : Bool
  finished : Bool
deriving DecidableEq

/-- A timer just spawned. -/
def Timer.new (model : String) : Timer := ⟨model, .sleeping, none, false, false, false⟩

/-- The residency manager with its timers; an entry of `idle_tasks` is the number of a timer. -/
structure Idle where
  shared : Shared
  idleTasks : String → Option ℕ
  suspended : Bool
  timers : List Timer

def Timer.abort (actor : Actor) (timer : Timer) : Timer := { timer with abortedBy := some actor }

def Timer.goto (pc : TimerPc) (timer : Timer) : Timer := { timer with pc := pc }

/-- Where `unload_now` goes on, or that it has returned. -/
def TimerPc.after : Option UnloadPc → TimerPc
  | some pc => .unload pc
  | none => .done

/-- The raw unloader is running. -/
def UnloadPc.isRunning : UnloadPc → Bool
  | .running _ => true
  | _ => false

/-- The last section of `mark_unloaded` is next. -/
def TimerPc.isForget : TimerPc → Bool
  | .unload (.forget _) => true
  | _ => false

/-- The timer goes on in its `unload_now`. -/
def Timer.advance (next : Option UnloadPc) (timer : Timer) : Timer :=
  { timer with
    pc := .after next
    began := timer.began || next.any UnloadPc.isRunning
    finished := timer.finished || timer.pc.isForget }

/-- The timer is dropped, and its guards are what is left to run. -/
def Timer.cut (next : Option UnloadPc) (timer : Timer) : Timer :=
  { timer with pc := .after next, dropped := true }

/-- Remove the entry of a model and abort its timer, as task `task`. -/
def Idle.cancelIdleUnload (s : Idle) (task : Option ℕ) (model : String) : Idle :=
  match s.idleTasks model with
  | none => s
  | some k =>
    { s with
      idleTasks := update s.idleTasks model none
      timers := s.timers.modify k (Timer.abort (if task = some k then .itself else .another)) }

/-- Spawn a timer and enter it in `idle_tasks`. -/
def Idle.arm (s : Idle) (model : String) : Idle :=
  { s with
    idleTasks := update s.idleTasks model (some s.timers.length)
    timers := s.timers ++ [Timer.new model] }

/-- `schedule_idle_unload`: no timer while suspended or without an unloader. -/
def Idle.scheduleIdleUnload (s : Idle) (model : String) : Idle :=
  if s.suspended || (s.shared.unloaders model).isNone then s
  else (s.cancelIdleUnload none model).arm model

/-- `suspend_all`: abort every timer that has an entry. -/
def Idle.suspendAll (s : Idle) : Idle :=
  { s with
    suspended := true
    idleTasks := fun _ => none
    timers := s.timers.mapIdx fun k timer =>
      if s.idleTasks timer.model = some k then timer.abort .another else timer }

/-! ## Steps -/

inductive IdleAction
  | schedule (model : String)
  /-- `cancel_idle_unload` by a generation, or by the `unload_now` of another task. -/
  | cancel (model : String)
  | register (model : String) (raw : RawUnloader)
  | deregister (model : String)
  | suspendAll
  /-- Any section of another task that does not touch `idle_tasks`. -/
  | other (task : ℕ) (sec : Section)
  /-- The sleep of timer `i` is over. -/
  | wake (i : ℕ)
  /-- Timer `i` runs the `cancel_idle_unload` of its `unload_now`. -/
  | cancelOwn (i : ℕ)
  /-- Timer `i` goes on in its `unload_now`. -/
  | move (i : ℕ) (choice : Choice)
  /-- Timer `i`, aborted, is dropped where it awaits. -/
  | drop (i : ℕ)

/-- The sections that also cancel the idle timer of their model. -/
def Section.cancels : Section → Option String
  | .register id _ => some id
  | .deregister id => some id
  | _ => none

/-- A section of `unload_now` of timer `i`, with the idle timer it cancels. -/
def Idle.runSection (s : Idle) (i : ℕ) (sec : Section) : Option Idle :=
  (sec.run i s.shared).map fun shared =>
    match sec.cancels with
    | none => { s with shared := shared }
    | some model => { s with shared := shared }.cancelIdleUnload (some i) model

def Idle.step (s : Idle) : IdleAction → Option Idle
  | .schedule model => some (s.scheduleIdleUnload model)
  | .cancel model => some (s.cancelIdleUnload none model)
  | .register model raw =>
    ((Section.register model raw).run 0 s.shared).map fun shared =>
      { s with shared := shared }.cancelIdleUnload none model
  | .deregister model =>
    ((Section.deregister model).run 0 s.shared).map fun shared =>
      { s with shared := shared }.cancelIdleUnload none model
  | .suspendAll => some s.suspendAll
  | .other task sec =>
    if sec.cancels = none then (sec.run task s.shared).map fun shared => { s with shared := shared }
    else none
  -- a timer that was aborted in its sleep does not wake
  | .wake i =>
    match s.timers[i]? with
    | some ⟨_, .sleeping, none, _, _, _⟩ =>
      some { s with timers := s.timers.modify i (Timer.goto .cancelIdle) }
    | _ => none
  | .cancelOwn i =>
    match s.timers[i]? with
    | some ⟨model, .cancelIdle, _, _, _, _⟩ =>
      let cancelled := s.cancelIdleUnload (some i) model
      some { cancelled with timers := cancelled.timers.modify i (Timer.goto (.unload .waitLock)) }
    | _ => none
  | .move i choice =>
    match s.timers[i]? with
    | some ⟨model, .unload pc, _, _, _, _⟩ =>
      if choice = .drop then none
      else (pc.edge model choice).bind fun next =>
        (s.runSection i next.1).map fun s' =>
          { s' with timers := s'.timers.modify i (Timer.advance next.2) }
    | _ => none
  -- an await is a counter with an edge for `drop`; a dropped task only unwinds
  | .drop i =>
    match s.timers[i]? with
    | some ⟨_, .sleeping, some _, _, _, _⟩ =>
      some { s with timers := s.timers.modify i (Timer.cut none) }
    | some ⟨model, .unload pc, some _, _, _, _⟩ =>
      (pc.edge model .drop).map fun next =>
        { s with timers := s.timers.modify i (Timer.cut next.2) }
    | _ => none

/-- A residency manager that has scheduled nothing. -/
def Idle.Fresh (s : Idle) : Prop := s.idleTasks = (fun _ => none) ∧ s.timers = []

/-! ## What is promised -/

/-- A timer that was not aborted by its own operation: it is dropped only after the operation
of another task, and so a raw unloader it has started is followed by `mark_unloaded`. -/
structure Timer.Undisturbed (timer : Timer) : Prop where
  notItself : timer.abortedBy ≠ some .itself
  dropped : timer.dropped = true → timer.abortedBy = some .another
  whole : timer.pc = .done → timer.began = true →
    timer.finished = true ∨ timer.abortedBy = some .another

def Idle.Undisturbed (s : Idle) : Prop :=
  ∀ (k : ℕ) timer, s.timers[k]? = some timer → timer.Undisturbed

/-- Timer `k` has run its unloader and `mark_unloaded`, and the model is gone. -/
def Idle.Unloaded (s : Idle) (k : ℕ) (model : String) : Prop :=
  s.shared.memory.residents.contains model = false ∧ (s.timers[k]?).map Timer.finished = some true

/-- A timer that has passed the gate, and finds its model without a lease, has only to be left
alone to run its unloader to the end and `mark_unloaded` after it. -/
def Idle.CanFinish (s : Idle) : Prop :=
  ∀ (k : ℕ) timer raw, s.timers[k]? = some timer →
    (timer.pc = .unload (.check raw) ∧ s.shared.leases timer.model = 0) ∨
      timer.pc = .unload (.running raw) →
    ∃ (choices : List Choice) (t : Idle),
      run Idle.step s (choices.map (.move k)) = some t ∧ t.Unloaded k timer.model

/-- The condition on a step: a timer that begins its `unload_now` no longer has its entry, that
is, another task has cancelled it. -/
def Idle.unarmed (s : Idle) : IdleAction → Bool
  | .cancelOwn i =>
    match s.timers[i]? with
    | some timer => s.idleTasks timer.model != some i
    | none => true
  | _ => true

/-! ## Entries are armed timers -/

/-- A timer that sleeps, or has just woken, and has not been aborted. -/
structure Timer.Armed (timer : Timer) (model : String) : Prop where
  model : timer.model = model
  abortedBy : timer.abortedBy = none
  pc : timer.pc = .sleeping ∨ timer.pc = .cancelIdle

/-- Every entry of `idle_tasks` is a timer of its model that nobody has aborted. -/
def Idle.EntriesArmed (s : Idle) : Prop :=
  ∀ model k, s.idleTasks model = some k → ∃ timer, s.timers[k]? = some timer ∧ timer.Armed model

section Entries

variable {s : Idle} {task : Option ℕ} {model : String} {i k : ℕ} {timer : Timer}
variable {f : Timer → Timer}

theorem Idle.cancel_idleTasks (s : Idle) (task : Option ℕ) (model : String) :
    (s.cancelIdleUnload task model).idleTasks = update s.idleTasks model none := by
  unfold Idle.cancelIdleUnload
  split
  · rename_i hnone
    rw [← hnone, update_eq_self]
  · rfl

theorem Idle.cancel_shared (s : Idle) (task : Option ℕ) (model : String) :
    (s.cancelIdleUnload task model).shared = s.shared := by
  unfold Idle.cancelIdleUnload
  split <;> rfl

/-- An abort leaves a timer where it is. -/
theorem Idle.cancel_pc (task : Option ℕ) (model : String) (hk : s.timers[k]? = some timer) :
    ∃ timer', (s.cancelIdleUnload task model).timers[k]? = some timer' ∧ timer'.pc = timer.pc := by
  unfold Idle.cancelIdleUnload
  split
  · exact ⟨timer, hk, rfl⟩
  · simp only [List.getElem?_modify, hk]
    split
    · exact ⟨_, rfl, rfl⟩
    · exact ⟨_, rfl, rfl⟩

/-- A timer without the entry is left alone. -/
theorem Idle.cancel_timers_of_ne (hk : s.timers[k]? = some timer)
    (hne : s.idleTasks model ≠ some k) :
    (s.cancelIdleUnload task model).timers[k]? = some timer := by
  unfold Idle.cancelIdleUnload
  split
  · exact hk
  · rename_i k' hentry
    have hkk : k' ≠ k := by
      rintro rfl
      exact hne hentry
    simp only [List.getElem?_modify, hk, if_neg hkk]
    rfl

/-- What a cancellation does to a timer: nothing, or it aborts the one with the entry. -/
theorem Idle.cancel_timers (h : (s.cancelIdleUnload task model).timers[k]? = some timer) :
    (s.idleTasks model ≠ some k ∧ s.timers[k]? = some timer) ∨
      (s.idleTasks model = some k ∧ ∃ old, s.timers[k]? = some old ∧
        timer = old.abort (if task = some k then .itself else .another)) := by
  unfold Idle.cancelIdleUnload at h
  split at h
  · rename_i hnone
    exact .inl ⟨by simp [hnone], h⟩
  · rename_i k' hentry
    rcases Lists.getElem?_modify_cases h with ⟨rfl, old, hold, rfl⟩ | ⟨hne, hsame⟩
    · exact .inr ⟨hentry, old, hold, rfl⟩
    · exact .inl ⟨by simpa [hentry] using hne, hsame⟩

theorem Idle.EntriesArmed.cancel (h : s.EntriesArmed) :
    (s.cancelIdleUnload task model).EntriesArmed := by
  intro model' k hentry
  rw [Idle.cancel_idleTasks] at hentry
  by_cases hm : model' = model
  · rw [hm, update_self] at hentry
    simp at hentry
  · rw [update_of_ne hm] at hentry
    obtain ⟨timer, hk, harmed⟩ := h model' k hentry
    refine ⟨timer, Idle.cancel_timers_of_ne hk fun hother => hm ?_, harmed⟩
    -- an entry of two models would be a timer of both
    obtain ⟨timer', hk', harmed'⟩ := h model k hother
    obtain rfl := Option.some.inj (hk.symm.trans hk')
    exact harmed.model.symm.trans harmed'.model

theorem Idle.EntriesArmed.arm (h : s.EntriesArmed) : (s.arm model).EntriesArmed := by
  intro model' k hentry
  simp only [Idle.arm] at hentry ⊢
  by_cases hm : model' = model
  · rw [hm, update_self] at hentry
    rw [hm, ← Option.some.inj hentry]
    exact ⟨Timer.new model, List.getElem?_concat_length, rfl, rfl, .inl rfl⟩
  · rw [update_of_ne hm] at hentry
    obtain ⟨timer, hk, harmed⟩ := h model' k hentry
    have hlt := (List.getElem?_eq_some_iff.1 hk).1
    exact ⟨timer, by rw [List.getElem?_append_left hlt, hk], harmed⟩

/-- Editing a timer leaves every entry armed if the timer stays so where it has an entry. -/
theorem Idle.EntriesArmed.modify (h : s.EntriesArmed)
    (hf : ∀ model timer, s.idleTasks model = some i → timer.Armed model → (f timer).Armed model) :
    Idle.EntriesArmed { s with timers := s.timers.modify i f } := by
  intro model k hentry
  obtain ⟨timer, hk, harmed⟩ := h model k hentry
  by_cases hki : i = k
  · refine ⟨f timer, ?_, hf model timer (hki ▸ hentry) harmed⟩
    simp only [List.getElem?_modify, hk, if_pos hki]
    rfl
  · refine ⟨timer, ?_, harmed⟩
    simp only [List.getElem?_modify, hk, if_neg hki]
    rfl

/-- A timer that is not armed has no entry. -/
theorem Idle.EntriesArmed.no_entry (h : s.EntriesArmed) (hi : s.timers[i]? = some timer)
    (hnot : ∀ model, ¬ timer.Armed model) : ∀ model, s.idleTasks model ≠ some i := by
  intro model hentry
  obtain ⟨timer', hi', harmed⟩ := h model i hentry
  obtain rfl := Option.some.inj (hi.symm.trans hi')
  exact hnot model harmed

end Entries

/-! ## What a step does to a timer -/

/-- What a step does to timer `k`, over the entries of the state before it. -/
inductive Timer.Change (entries : String → Option ℕ) (k : ℕ) : IdleAction → Timer → Timer → Prop
  | same {a : IdleAction} {timer : Timer} : Change entries k a timer timer
  | aborted {a : IdleAction} {timer : Timer} : Change entries k a timer (timer.abort .another)
  | wake {timer : Timer} : timer.pc = .sleeping →
      Change entries k (.wake k) timer (timer.goto .cancelIdle)
  | cancelArmed {timer : Timer} : entries timer.model = some k → timer.pc = .cancelIdle →
      Change entries k (.cancelOwn k) timer ((timer.abort .itself).goto (.unload .waitLock))
  | cancelUnarmed {timer : Timer} : entries timer.model ≠ some k → timer.pc = .cancelIdle →
      Change entries k (.cancelOwn k) timer (timer.goto (.unload .waitLock))
  | move {choice : Choice} {timer : Timer} {pc : UnloadPc} {next : Section × Option UnloadPc} :
      timer.pc = .unload pc → choice ≠ .drop → pc.edge timer.model choice = some next →
      Change entries k (.move k choice) timer (timer.advance next.2)
  | dropped {timer : Timer} {next : Option UnloadPc} : timer.abortedBy ≠ none →
      Change entries k (.drop k) timer (timer.cut next)

section Change

variable {s t : Idle} {a : IdleAction} {i k : ℕ} {model : String} {timer : Timer}

/-- A cancellation by another task than the timer it finds. -/
theorem Idle.cancel_change {task : Option ℕ} (hne : s.idleTasks model = some k → task ≠ some k)
    (h : (s.cancelIdleUnload task model).timers[k]? = some timer) :
    ∃ old, s.timers[k]? = some old ∧ Timer.Change s.idleTasks k a old timer := by
  rcases Idle.cancel_timers h with ⟨-, hold⟩ | ⟨hentry, old, hold, rfl⟩
  · exact ⟨timer, hold, .same⟩
  · rw [if_neg (hne hentry)]
    exact ⟨old, hold, .aborted⟩

/-- A section of a timer that has no entry. -/
theorem Idle.runSection_change {sec : Section} (hne : ∀ model, s.idleTasks model ≠ some i)
    (h : s.runSection i sec = some t) (hk : t.timers[k]? = some timer) :
    (∃ old, s.timers[k]? = some old ∧ Timer.Change s.idleTasks k a old timer) ∧
      (i = k → s.timers[k]? = some timer) := by
  obtain ⟨shared, -, rfl⟩ := Option.map_eq_some_iff.1 h
  split at hk
  · exact ⟨⟨timer, hk, .same⟩, fun _ => hk⟩
  · rename_i model _
    have hother : s.idleTasks model = some k → some i ≠ some k := by
      intro hentry hik
      exact hne model (hik ▸ hentry)
    refine ⟨Idle.cancel_change (s := { s with shared := shared }) hother hk, fun hik => ?_⟩
    rcases Idle.cancel_timers hk with ⟨-, hold⟩ | ⟨hentry, -⟩
    · exact hold
    · exact absurd (hik ▸ hentry) (hne model)

/-- A section removes an entry at most. -/
theorem Idle.EntriesArmed.runSection {sec : Section} (hs : s.EntriesArmed)
    (h : s.runSection i sec = some t) :
    t.EntriesArmed ∧ ∀ model k, t.idleTasks model = some k → s.idleTasks model = some k := by
  obtain ⟨shared, -, rfl⟩ := Option.map_eq_some_iff.1 h
  split
  · exact ⟨hs, fun _ _ h => h⟩
  · rename_i model _
    refine ⟨Idle.EntriesArmed.cancel (s := { s with shared := shared }) hs, fun model' k h => ?_⟩
    rw [Idle.cancel_idleTasks] at h
    by_cases hm : model' = model
    · simp [hm] at h
    · rwa [update_of_ne hm] at h

/-- A timer in `unload_now` has no entry. -/
theorem Idle.EntriesArmed.no_entry_of_unload {pc : UnloadPc} (hs : s.EntriesArmed)
    (hi : s.timers[i]? = some timer) (hpc : timer.pc = .unload pc) :
    ∀ model, s.idleTasks model ≠ some i := by
  refine hs.no_entry hi fun model harmed => ?_
  rcases harmed.pc with hpc' | hpc' <;> simp [hpc] at hpc'

/-- What a step leaves: armed entries, and timers that changed in one of the ways above or have
just appeared. -/
structure Idle.Stepped (s : Idle) (a : IdleAction) (t : Idle) : Prop where
  armed : t.EntriesArmed
  change : ∀ (k : ℕ) timer, t.timers[k]? = some timer →
    (∃ old, s.timers[k]? = some old ∧ Timer.Change s.idleTasks k a old timer) ∨
      ∃ model, timer = Timer.new model

/-- A cancellation from outside, whatever it does to the shared state before. -/
theorem Idle.Stepped.cancel {shared : Shared} (hs : s.EntriesArmed) :
    s.Stepped a ({ s with shared := shared }.cancelIdleUnload none model) := by
  have hs' : Idle.EntriesArmed { s with shared := shared } := hs
  refine ⟨hs'.cancel, fun k timer hk => .inl ?_⟩
  exact Idle.cancel_change (s := { s with shared := shared }) (by simp) hk

/-- An edit of one timer alone. -/
theorem Idle.Stepped.modify {f : Timer → Timer} (hi : s.timers[i]? = some timer)
    (harmed : Idle.EntriesArmed { s with timers := s.timers.modify i f })
    (hchange : Timer.Change s.idleTasks i a timer (f timer)) :
    s.Stepped a { s with timers := s.timers.modify i f } := by
  refine ⟨harmed, fun k timer' hk => .inl ?_⟩
  rcases Lists.getElem?_modify_cases hk with ⟨rfl, old, hold, rfl⟩ | ⟨-, hsame⟩
  · obtain rfl := Option.some.inj (hi.symm.trans hold)
    exact ⟨timer, hi, hchange⟩
  · exact ⟨timer', hsame, .same⟩

/-- The entry of the timer's own model is gone after it has cancelled, and it has no other. -/
theorem Idle.EntriesArmed.no_entry_of_cancelled (hs : s.EntriesArmed)
    (hi : s.timers[i]? = some timer) {model' : String} :
    (s.cancelIdleUnload (some i) timer.model).idleTasks model' ≠ some i := by
  rw [Idle.cancel_idleTasks]
  by_cases hm : model' = timer.model
  · simp [hm]
  · rw [update_of_ne hm]
    intro hentry
    obtain ⟨timer', hi', harmed⟩ := hs model' i hentry
    obtain rfl := Option.some.inj (hi.symm.trans hi')
    exact hm harmed.model.symm

/-- A timer begins its `unload_now`. -/
theorem Idle.Stepped.cancelOwn (hs : s.EntriesArmed) (hi : s.timers[i]? = some timer)
    (hpc : timer.pc = .cancelIdle) (hst : Idle.step s (.cancelOwn i) = some t) :
    s.Stepped (.cancelOwn i) t := by
  obtain ⟨model, pc, abortedBy, dropped, began, finished⟩ := timer
  obtain rfl : pc = .cancelIdle := hpc
  simp only [Idle.step, hi, Option.some.injEq] at hst
  rw [← hst]
  refine ⟨hs.cancel.modify fun model' timer' hentry _ => ?_, fun k timer' hk => .inl ?_⟩
  · exact absurd hentry (hs.no_entry_of_cancelled hi)
  · rcases Lists.getElem?_modify_cases hk with ⟨rfl, mid, hmid, rfl⟩ | ⟨hik, hk⟩
    · -- its own timer: aborted by itself exactly if it still had its entry
      rcases Idle.cancel_timers hmid with ⟨hnone, hold⟩ | ⟨hentry, old, hold, rfl⟩
      · obtain rfl := Option.some.inj (hi.symm.trans hold)
        exact ⟨_, hold, .cancelUnarmed hnone rfl⟩
      · obtain rfl := Option.some.inj (hi.symm.trans hold)
        rw [if_pos rfl]
        exact ⟨_, hold, .cancelArmed hentry rfl⟩
    · exact Idle.cancel_change (fun _ => by simpa using hik) hk

/-- A timer goes on in its `unload_now`. -/
theorem Idle.Stepped.move {choice : Choice} {pc : UnloadPc} (hs : s.EntriesArmed)
    (hi : s.timers[i]? = some timer) (hpc : timer.pc = .unload pc)
    (hst : Idle.step s (.move i choice) = some t) : s.Stepped (.move i choice) t := by
  obtain ⟨model, pc', abortedBy, dropped, began, finished⟩ := timer
  obtain rfl : pc' = .unload pc := hpc
  simp only [Idle.step, hi] at hst
  rw [Option.ite_none_left_eq_some, Option.bind_eq_some_iff] at hst
  obtain ⟨hchoice, next, hedge, hst⟩ := hst
  obtain ⟨s', hrun, rfl⟩ := Option.map_eq_some_iff.1 hst
  -- inside `unload_now` the timer has lost its entry, so what it cancels is another timer
  have hne := hs.no_entry_of_unload hi rfl
  obtain ⟨harmed, hentries⟩ := hs.runSection hrun
  refine ⟨harmed.modify fun model' timer' hentry _ => ?_, fun k timer' hk => .inl ?_⟩
  · exact absurd (hentries model' i hentry) (hne model')
  · rcases Lists.getElem?_modify_cases hk with ⟨rfl, mid, hmid, rfl⟩ | ⟨-, hk⟩
    · have hsame := (Idle.runSection_change (a := .cancel model) hne hrun hmid).2 rfl
      obtain rfl := Option.some.inj (hi.symm.trans hsame)
      exact ⟨_, hi, .move rfl hchoice hedge⟩
    · exact (Idle.runSection_change hne hrun hk).1

/-- What every step does. -/
theorem Idle.stepped (hs : s.EntriesArmed) (h : Idle.step s a = some t) : s.Stepped a t := by
  cases a with
  | schedule model =>
    cases h
    unfold Idle.scheduleIdleUnload
    split
    · exact ⟨hs, fun k timer hk => .inl ⟨timer, hk, .same⟩⟩
    · -- a pending timer of the model is aborted before the new one takes its entry
      refine ⟨hs.cancel.arm, fun k timer hk => ?_⟩
      rcases Lists.getElem?_concat_cases hk with hk | ⟨-, rfl⟩
      · exact .inl (Idle.cancel_change (by simp) hk)
      · exact .inr ⟨model, rfl⟩
  | cancel model =>
    cases h
    exact .cancel hs
  | register model raw =>
    rw [Idle.step, Option.map_eq_some_iff] at h
    obtain ⟨shared, -, rfl⟩ := h
    exact .cancel hs
  | deregister model =>
    rw [Idle.step, Option.map_eq_some_iff] at h
    obtain ⟨shared, -, rfl⟩ := h
    exact .cancel hs
  | suspendAll =>
    cases h
    refine ⟨fun model k hentry => by simp [Idle.suspendAll] at hentry, fun k timer hk => ?_⟩
    rw [Idle.suspendAll, List.getElem?_mapIdx, Option.map_eq_some_iff] at hk
    obtain ⟨old, hold, rfl⟩ := hk
    refine .inl ⟨old, hold, ?_⟩
    split
    · exact .aborted
    · exact .same
  | other task sec =>
    rw [Idle.step, Option.ite_none_right_eq_some, Option.map_eq_some_iff] at h
    obtain ⟨-, shared, -, rfl⟩ := h
    exact ⟨hs, fun k timer hk => .inl ⟨timer, hk, .same⟩⟩
  | wake i =>
    simp only [Idle.step] at h
    split at h
    · rename_i hi
      cases h
      refine .modify hi (hs.modify fun model timer _ harmed => ?_) (.wake rfl)
      exact ⟨harmed.model, harmed.abortedBy, .inr rfl⟩
    · simp at h
  | cancelOwn i =>
    have hst := h
    simp only [Idle.step] at h
    split at h
    · rename_i hi
      exact .cancelOwn hs hi rfl hst
    · simp at h
  | move i choice =>
    have hst := h
    simp only [Idle.step] at h
    split at h
    · rename_i hi
      exact .move hs hi rfl hst
    · simp at h
  | drop i =>
    simp only [Idle.step] at h
    split at h
    · rename_i hi
      cases h
      have hne := hs.no_entry hi fun model harmed => by simpa using harmed.abortedBy
      refine .modify hi (hs.modify fun model timer hentry _ => ?_) (.dropped (by simp))
      exact absurd hentry (hne model)
    · rename_i hi
      obtain ⟨next, -, rfl⟩ := Option.map_eq_some_iff.1 h
      refine .modify hi (hs.modify fun model timer hentry _ => ?_) (.dropped (by simp))
      exact absurd hentry (hs.no_entry_of_unload hi rfl model)
    · simp at h

end Change

/-! ## Timers keep their promise while no armed one begins -/

/-- A raw unloader that has started is running, or followed by `mark_unloaded`, or the timer
has been dropped. -/
def Timer.Accounted (timer : Timer) : Prop :=
  timer.began = true → timer.finished = true ∨ timer.dropped = true ∨
    ∃ raw, timer.pc = .unload (.running raw) ∨ timer.pc = .unload (.remove raw) ∨
      timer.pc = .unload (.forget raw)

/-- What is kept by every run. -/
structure Idle.Sound (s : Idle) : Prop where
  entriesArmed : s.EntriesArmed
  accounted : ∀ (k : ℕ) timer, s.timers[k]? = some timer → timer.Accounted

section Promise

variable {s t : Idle} {a : IdleAction} {k : ℕ} {old timer : Timer}
variable {entries : String → Option ℕ}

/-- Between its start and `mark_unloaded` the unloader goes nowhere else, unless dropped. -/
theorem Timer.Accounted.advance {pc : UnloadPc} {choice : Choice}
    {next : Section × Option UnloadPc} (h : timer.Accounted) (hpc : timer.pc = .unload pc)
    (hchoice : choice ≠ .drop) (hedge : pc.edge timer.model choice = some next) :
    (timer.advance next.2).Accounted := by
  revert hedge
  fun_cases UnloadPc.edge timer.model pc choice
  all_goals (rintro ⟨⟩ <;> simp_all [Timer.Accounted, Timer.advance, TimerPc.after,
    TimerPc.isForget, UnloadPc.isRunning])

/-- Before the unloader has started, the counter may go anywhere. -/
theorem Timer.Accounted.goto {pc : TimerPc} (h : timer.Accounted)
    (hpc : timer.pc = .sleeping ∨ timer.pc = .cancelIdle) : (timer.goto pc).Accounted := by
  intro hbegan
  rcases h hbegan with hfinished | hdropped | ⟨raw, hrunning⟩
  · exact .inl hfinished
  · exact .inr (.inl hdropped)
  · rcases hpc with hpc | hpc <;> simp [hpc] at hrunning

theorem Timer.Accounted.change (h : old.Accounted) (hc : Timer.Change entries k a old timer) :
    timer.Accounted := by
  cases hc with
  | same => exact h
  | aborted => exact h
  | wake hpc => exact h.goto (.inl hpc)
  | cancelArmed hentry hpc =>
    have habort : (old.abort .itself).Accounted := h
    exact habort.goto (.inr hpc)
  | cancelUnarmed hentry hpc => exact h.goto (.inr hpc)
  | move hpc hchoice hedge => exact h.advance hpc hchoice hedge
  | dropped haborted => exact fun _ => .inr (.inl rfl)

theorem Idle.Sound.step (hs : s.Sound) (h : Idle.step s a = some t) : t.Sound := by
  have hstepped := Idle.stepped hs.entriesArmed h
  refine ⟨hstepped.armed, fun k timer hk => ?_⟩
  rcases hstepped.change k timer hk with ⟨old, hold, hc⟩ | ⟨model, rfl⟩
  · exact (hs.accounted k old hold).change hc
  · exact fun hbegan => by simp [Timer.new] at hbegan

/-- For an accounted timer the last part of the promise follows from the first two. -/
theorem Timer.Undisturbed.of_accounted (h : timer.Accounted)
    (hitself : timer.abortedBy ≠ some .itself)
    (hdropped : timer.dropped = true → timer.abortedBy = some .another) : timer.Undisturbed := by
  refine ⟨hitself, hdropped, fun hdone hbegan => ?_⟩
  rcases h hbegan with hfinished | hdrop | ⟨raw, hrunning⟩
  · exact .inl hfinished
  · exact .inr (hdropped hdrop)
  · simp [hdone] at hrunning

/-- Only a timer that finds its own entry breaks its promise. -/
theorem Timer.Undisturbed.change (h : old.Undisturbed) (hacc : timer.Accounted)
    (hc : Timer.Change entries k a old timer)
    (hne : a = .cancelOwn k → entries old.model ≠ some k) : timer.Undisturbed := by
  cases hc with
  | same => exact h
  | aborted => exact .of_accounted hacc (by simp [Timer.abort]) (fun _ => rfl)
  | wake hpc => exact .of_accounted hacc h.notItself h.dropped
  | cancelArmed hentry hpc => exact absurd hentry (hne rfl)
  | cancelUnarmed hentry hpc => exact .of_accounted hacc h.notItself h.dropped
  | move hpc hchoice hedge => exact .of_accounted hacc h.notItself h.dropped
  | dropped haborted =>
    -- whoever is dropped was aborted, and not by itself
    refine .of_accounted hacc h.notItself fun _ => ?_
    rcases hactor : old.abortedBy with _ | _ | _
    · exact absurd hactor haborted
    · exact absurd hactor h.notItself
    · exact hactor

/-- A timer that begins `unload_now` with its entry aborts itself. -/
theorem Idle.cancelOwn_armed (hk : s.timers[k]? = some old)
    (hentry : s.idleTasks old.model = some k) (h : Idle.step s (.cancelOwn k) = some t) :
    t.timers[k]? = some ((old.abort .itself).goto (.unload .waitLock)) := by
  simp only [Idle.step, hk] at h
  split at h
  · rename_i heq
    cases heq
    cases h
    simp only [Idle.cancelIdleUnload, hentry, List.getElem?_modify, hk]
    rfl
  · simp at h

/-- The exact condition for one step. -/
theorem Idle.undisturbed_step_iff (hs : s.Sound) (hp : s.Undisturbed)
    (h : Idle.step s a = some t) : t.Undisturbed ↔ s.unarmed a = true := by
  constructor
  · intro ht
    cases a with
    | cancelOwn i =>
      simp only [Idle.unarmed]
      split
      · rename_i timer hi
        rw [bne_iff_ne]
        intro hentry
        exact (ht i _ (Idle.cancelOwn_armed hi hentry h)).notItself rfl
      · rfl
    | _ => rfl
  · intro hok k timer hk
    rcases (Idle.stepped hs.entriesArmed h).change k timer hk with ⟨old, hold, hc⟩ | ⟨model, rfl⟩
    · refine (hp k old hold).change ((hs.step h).accounted k timer hk) hc ?_
      rintro rfl
      simpa [Idle.unarmed, hold] using hok
    · exact ⟨by simp [Timer.new], by simp [Timer.new], by simp [Timer.new]⟩

end Promise

section Finish

variable {s s' : Idle} {k : ℕ} {timer : Timer} {pc : UnloadPc} {raw : RawUnloader}
variable {choice : Choice} {sec : Section} {next : Option UnloadPc} {shared : Shared}

theorem Idle.step_move_eq (hk : s.timers[k]? = some timer) (hpc : timer.pc = .unload pc)
    (hchoice : choice ≠ .drop) (hedge : pc.edge timer.model choice = some (sec, next))
    (hrun : s.runSection k sec = some s') :
    Idle.step s (.move k choice) =
      some { s' with timers := s'.timers.modify k (Timer.advance next) } := by
  obtain ⟨model, pc', abortedBy, dropped, began, finished⟩ := timer
  obtain rfl : pc' = .unload pc := hpc
  simp only [Idle.step, hk, if_neg hchoice, hedge, Option.bind_some, hrun, Option.map_some]

/-- A step of `unload_now` that cancels no timer. -/
theorem Idle.step_move (choice : Choice) (hk : s.timers[k]? = some timer)
    (hpc : timer.pc = .unload pc) (hchoice : choice ≠ .drop)
    (hedge : pc.edge timer.model choice = some (sec, next))
    (hcancels : sec.cancels = none) (hrun : sec.run k s.shared = some shared) :
    ∃ t, Idle.step s (.move k choice) = some t ∧ t.shared = shared ∧
      t.timers[k]? = some (timer.advance next) := by
  have hsection : s.runSection k sec = some { s with shared := shared } := by
    simp only [Idle.runSection, hrun, hcancels, Option.map_some]
  refine ⟨_, Idle.step_move_eq hk hpc hchoice hedge hsection, rfl, ?_⟩
  simp only [List.getElem?_modify, hk, if_pos, Option.map_eq_map, Option.map_some]

theorem Idle.runSection_deregister (s : Idle) (k : ℕ) (model : String) :
    ∃ base : Idle, base.timers = s.timers ∧ base.shared.memory = s.shared.memory ∧
      s.runSection k (.deregister model) = some (base.cancelIdleUnload (some k) model) :=
  ⟨{ s with shared := { s.shared with
      unloaders := update s.shared.unloaders model none } }, rfl, rfl, rfl⟩

/-- The last section of `mark_unloaded`, whichever timer it finds. -/
theorem Idle.forget_finishes (hk : s.timers[k]? = some timer)
    (hpc : timer.pc = .unload (.forget raw))
    (hres : s.shared.memory.residents.contains timer.model = false) :
    ∃ t, Idle.step s (.move k .go) = some t ∧ t.Unloaded k timer.model := by
  obtain ⟨base, htimers, hmemory, hrun⟩ := s.runSection_deregister k timer.model
  refine ⟨_, Idle.step_move_eq hk hpc (by simp) rfl hrun, ?_, ?_⟩
  · rw [Idle.cancel_shared, hmemory]
    exact hres
  · obtain ⟨timer', hk', hpc'⟩ := base.cancel_pc (some k) timer.model (htimers ▸ hk)
    simp [hk', Timer.advance, hpc', hpc, TimerPc.isForget]

theorem Idle.remove_finishes (hk : s.timers[k]? = some timer)
    (hpc : timer.pc = .unload (.remove raw)) :
    ∃ t, run Idle.step s [.move k .go, .move k .go] = some t ∧ t.Unloaded k timer.model := by
  obtain ⟨u, hstep, hshared, hu⟩ := Idle.step_move .go hk hpc (by simp) rfl rfl rfl
  have hgone : u.shared.memory.residents.contains timer.model = false := by
    simp [hshared, Memory.remove]
  obtain ⟨t, hlast, hdone⟩ := Idle.forget_finishes hu rfl hgone
  exact ⟨t, by rw [run_cons, hstep, Option.bind_some, run_cons, hlast]; rfl, hdone⟩

/-- The raw unloader returns, and `mark_unloaded` runs. -/
theorem Idle.running_finishes (hk : s.timers[k]? = some timer)
    (hpc : timer.pc = .unload (.running raw)) :
    ∃ t, run Idle.step s [.move k .go, .move k .go, .move k .go] = some t ∧
      t.Unloaded k timer.model := by
  obtain ⟨shared, hran⟩ : ∃ shared,
      (Section.ranRaw timer.model raw).run k s.shared = some shared := by
    cases raw <;> exact ⟨_, rfl⟩
  obtain ⟨u, hstep, -, hu⟩ := Idle.step_move .go hk hpc (by simp) rfl rfl hran
  obtain ⟨t, hrest, hdone⟩ := Idle.remove_finishes hu rfl
  exact ⟨t, by rw [run_cons, hstep, Option.bind_some, hrest], hdone⟩

theorem Idle.canFinish (s : Idle) : s.CanFinish := by
  rintro k timer raw hk (⟨hpc, hlease⟩ | hpc)
  · have hrun : (Section.leased timer.model false).run k s.shared = some s.shared := by
      simp [Section.run, hlease]
    obtain ⟨u, hstep, -, hu⟩ := Idle.step_move .no hk hpc (by simp) rfl rfl hrun
    obtain ⟨t, hrest, hdone⟩ := Idle.running_finishes hu rfl
    exact ⟨[.no, .go, .go, .go], t, by rw [List.map_cons, run_cons, hstep]; exact hrest, hdone⟩
  · obtain ⟨t, hrun, hdone⟩ := Idle.running_finishes hk hpc
    exact ⟨[.go, .go, .go], t, hrun, hdone⟩

end Finish

/-! ## Every run -/

/-- A manager that starts without timers, whatever is loaded: along every run no timer is
aborted by its own operation and no unload is left half run, exactly if no timer begins its
`unload_now` while it still has its entry in `idle_tasks`. -/
theorem idle_unload_never_cancels_itself_iff (s : Idle) (h : s.Fresh) (actions : List IdleAction) :
    StatesMeet Idle.step (fun s => s.Undisturbed ∧ s.CanFinish) s actions ↔
      StepsMeet Idle.step (fun s a => s.unarmed a = true) s actions := by
  obtain ⟨hentries, htimers⟩ := h
  have hsound : s.Sound := by
    refine ⟨fun model k hentry => ?_, fun k timer hk => ?_⟩
    · simp [hentries] at hentry
    · simp [htimers] at hk
  have hundisturbed : s.Undisturbed := fun k timer hk => by simp [htimers] at hk
  refine statesMeet_iff_stepsMeet (fun s a t hs _ hst _ => hs.step hst) ?_ hsound
    ⟨hundisturbed, s.canFinish⟩ actions
  intro s a t hs hp hst
  rw [← Idle.undisturbed_step_iff hs hp.1 hst]
  exact ⟨fun ht => ht.1, fun ht => ⟨ht, t.canFinish⟩⟩

/-- A manager that has scheduled nothing, over an unused governor. -/
def Idle.new (heavyThresholdMb defaultBudgetMb : ℤ) : Idle :=
  ⟨.new (.new heavyThresholdMb defaultBudgetMb), fun _ => none, false, []⟩

theorem Idle.new_fresh (heavyThresholdMb defaultBudgetMb : ℤ) :
    (Idle.new heavyThresholdMb defaultBudgetMb).Fresh := ⟨rfl, rfl⟩

/-- Model `a` is loaded and idle, and its timer wakes. -/
def Idle.wakesForA : List IdleAction :=
  [.other 9 (.insertLoaded "a" "a" (some 10)), .register "a" .real, .schedule "a", .wake 0]

/-- The timer goes through `unload_now` as far as the raw unloader. -/
def Idle.startsUnloader : List IdleAction :=
  [.cancelOwn 0, .move 0 .go, .move 0 (.unloader .real), .move 0 .go, .move 0 .no]

/-- A generation cancels the timer just before it begins, and the unload runs to its end. -/
def Idle.cancelledFirst : List IdleAction :=
  (wakesForA.append (.cancel "a" :: startsUnloader)).append
    [.move 0 .go, .move 0 .go, .move 0 .go, .move 0 .go, .move 0 .go]

theorem idle_unload_cancelled_by_another :
    ((run Idle.step (Idle.new 1024 6553) Idle.cancelledFirst).map fun s =>
        s.timers) = some [⟨"a", .done, some .another, false, true, true⟩] ∧
      StatesMeet Idle.step (fun s => s.Undisturbed ∧ s.CanFinish)
        (Idle.new 1024 6553) Idle.cancelledFirst := by
  have hrun : (runWhen Idle.step Idle.unarmed (Idle.new 1024 6553)
      Idle.cancelledFirst).map (fun _ => ()) = some () := by
    decide
  obtain ⟨s, hs, -⟩ := Option.map_eq_some_iff.1 hrun
  exact ⟨by decide, (idle_unload_never_cancels_itself_iff _ (Idle.new_fresh _ _) _).2
    (StepsMeet.of_runWhen hs)⟩

/-- The timer wakes on its own, and is dropped where its unloader suspends. -/
def Idle.dropsItself : List IdleAction :=
  (wakesForA ++ startsUnloader).append [.drop 0, .move 0 .go, .move 0 .go, .move 0 .go]

/-- Nobody but the timer has touched `idle_tasks` or taken a lease, and `a` is still resident
after an unloader that ran in part. -/
theorem idle_unload_cancels_itself :
    ((run Idle.step (Idle.new 1024 6553) Idle.dropsItself).map fun s =>
        (s.timers, s.shared.memory.residents.contains "a", s.shared.leases "a")) =
      some ([⟨"a", .done, some .itself, true, true, false⟩], true, 0) ∧
    ¬ ∀ s, Reachable Idle.step Idle.Fresh s → s.Undisturbed := by
  have hrun : ((run Idle.step (Idle.new 1024 6553) Idle.dropsItself).map fun s =>
      (s.timers, s.shared.memory.residents.contains "a", s.shared.leases "a")) =
      some ([⟨"a", .done, some .itself, true, true, false⟩], true, 0) := by
    decide
  refine ⟨hrun, fun hall => ?_⟩
  obtain ⟨s, hs, hend⟩ := Option.map_eq_some_iff.1 hrun
  obtain ⟨htimers, -⟩ := Prod.mk.inj hend
  have hreach := Reachable.run (.init (Idle.new_fresh _ _)) hs
  have htimer := hall s hreach 0 ⟨"a", .done, some .itself, true, true, false⟩
    (by rw [htimers]; rfl)
  exact htimer.notItself rfl

end Hedos.Governor
