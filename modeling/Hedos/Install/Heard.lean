import Hedos.Install.Ending

/-!
# What an install hears of its provider

For an install that nobody cancels: what it has emitted is what its provider has sent, in order, and
it ends as the stream does (`heard_run`). A stream that ended has the install concluded
(`Follows.concludes`).
-/

namespace Hedos.Install.Service

open Function

/-! ## Sending -/

abbrev Item := Except InstallError StreamEvent

def Action.pushes (i : ℕ) : Action → List Item
  | .push j item => if j = i then [item] else []
  | _ => []

/-- What the provider of an install sends in a run. -/
def pushed (i : ℕ) (actions : List Action) : List Item := actions.flatMap (Action.pushes i)

def Action.closes (i : ℕ) : Action → Bool
  | .close j => j == i
  | _ => false

/-- The install is cancelled. -/
def Action.stops (i : ℕ) : Action → Bool
  | .cancel j | .stopKeeping j => j == i
  | _ => false

/-- In the run the provider of an install sends these items in order, its sender goes away only
behind the last, and the consumer stays. -/
structure Sends (i : ℕ) (items : List Item) (actions : List Action) : Prop where
  stays : ∀ action ∈ actions, action.stops i = false
  order : pushed i actions <+: items
  last : actions.any (Action.closes i) = true → pushed i actions = items

/-- The stream has ended, or failed. -/
def StreamEnded (i : ℕ) (actions : List Action) : Prop :=
  actions.any (Action.closes i) = true ∨ ∃ error, .error error ∈ pushed i actions

/-! ## Hearing -/

def StreamEvent.toEvent : StreamEvent → Event
  | .status message => .status message
  | .progress reached => .progress reached

/-- What an install has emitted that was told these events. -/
def shown (seen : List StreamEvent) : List Event :=
  [Event.queued, Event.preparing] ++ seen.map StreamEvent.toEvent

/-- How an install ends behind the events it was told. -/
inductive EndsWith (config : Config) (items : List Item) (closed : Bool)
    (seen : List StreamEvent) : Event → Prop
  | done : closed = true → items = seen.map .ok → EndsWith config items closed seen .done
  | failed (error : InstallError) (rest : List Item) :
    items = seen.map .ok ++ .error error :: rest →
      EndsWith config items closed seen (.failed (config.text error))

/-- What was sent and what was emitted, by where the task is. -/
inductive HeardAt (config : Config) (items : List Item) (closed : Bool) (queue : List Item)
    (emitted : List Event) : Pc → Prop
  | preparing : queue = [] → items = [] → closed = false → emitted = [.queued] →
    HeardAt config items closed queue emitted .preparing
  | selecting (seen : List StreamEvent) : items = seen.map .ok ++ queue → emitted = shown seen →
    HeardAt config items closed queue emitted .selecting
  | handling (seen : List StreamEvent) (event : StreamEvent) :
    items = seen.map .ok ++ .ok event :: queue → emitted = shown seen →
      HeardAt config items closed queue emitted (.handling event)
  | dropping (seen : List StreamEvent) (terminal : Event) (failure : Option InstallError) :
    EndsWith config items closed seen terminal → emitted = shown seen →
      HeardAt config items closed queue emitted (.dropping terminal failure)
  | concluding (seen : List StreamEvent) (terminal : Event) (failure : Option InstallError) :
    EndsWith config items closed seen terminal → emitted = shown seen →
      HeardAt config items closed queue emitted (.concluding terminal failure)
  | finished (seen : List StreamEvent) (terminal : Event) :
    EndsWith config items closed seen terminal → emitted = shown seen ++ [terminal] →
      HeardAt config items closed queue emitted .finished

/-- The install has heard its provider, as far as its task has come. -/
structure Heard (config : Config) (items : List Item) (closed : Bool) (task : Task)
    (emitted : List Event) : Prop where
  permit : task.permit = false
  isClosed : task.closed = closed
  heard : HeardAt config items closed task.queue emitted task.pc

/-- The same for an install that may not have begun. -/
structure Follows (config : Config) (i : ℕ) (items : List Item) (closed : Bool)
    (s : State) : Prop where
  unused : s.tasks i = none → items = [] ∧ closed = false
  heard : ∀ task, s.tasks i = some task → Heard config items closed task (s.emitted i)

section

variable {config : Config} {items : List Item} {closed : Bool} {i j : ℕ} {s t : State}
  {task : Task}

variable {seen : List StreamEvent} {terminal : Event} {emitted : List Event} {change : Task → Task}
  {actions : List Action}

theorem EndsWith.push (h : EndsWith config items false seen terminal) (more : List Item) :
    EndsWith config (items ++ more) false seen terminal := by
  cases h with
  | done hclosed => cases hclosed
  | failed error rest hitems =>
    exact .failed error (rest ++ more) (by rw [hitems, List.append_assoc, List.cons_append])

theorem EndsWith.close (h : EndsWith config items closed seen terminal) :
    EndsWith config items true seen terminal := by
  cases h with
  | done hclosed hitems => exact .done rfl hitems
  | failed error rest hitems => exact .failed error rest hitems

/-- What the task was sent it has heard, or has in its queue. -/
theorem Heard.push (h : Heard config items closed task emitted)
    (hreceiver : task.hasReceiver = true) (item : Item) :
    Heard config (items ++ [item]) closed { task with queue := task.queue ++ [item] } emitted := by
  obtain ⟨hpermit, rfl, hheard⟩ := h
  refine ⟨hpermit, rfl, ?_⟩
  unfold Task.hasReceiver at hreceiver
  show HeardAt _ _ _ (task.queue ++ [item]) _ task.pc
  cases hpc : task.pc with
  | selecting =>
    rw [hpc] at hheard
    cases hheard with
    | selecting seen hitems hemitted =>
      exact .selecting seen (by rw [hitems, List.append_assoc]) hemitted
  | handling event =>
    rw [hpc] at hheard
    cases hheard with
    | handling seen _ hitems hemitted =>
      exact .handling seen event (by rw [hitems, List.append_assoc, List.cons_append]) hemitted
  | dropping terminal failure =>
    rw [hpc] at hheard hreceiver
    have hopen : task.closed = false := by simpa using hreceiver
    rw [hopen] at hheard ⊢
    cases hheard with
    | dropping seen _ _ hends hemitted =>
      exact .dropping seen terminal failure (hends.push [item]) hemitted
  | preparing => rw [hpc] at hreceiver; cases hreceiver
  | concluding terminal failure => rw [hpc] at hreceiver; cases hreceiver
  | finished => rw [hpc] at hreceiver; cases hreceiver

theorem Heard.close (h : Heard config items closed task emitted)
    (hreceiver : task.hasReceiver = true) :
    Heard config items true { task with closed := true } emitted := by
  obtain ⟨hpermit, -, hheard⟩ := h
  refine ⟨hpermit, rfl, ?_⟩
  unfold Task.hasReceiver at hreceiver
  show HeardAt _ _ _ task.queue _ task.pc
  cases hpc : task.pc with
  | selecting =>
    rw [hpc] at hheard
    cases hheard with
    | selecting seen hitems hemitted => exact .selecting seen hitems hemitted
  | handling event =>
    rw [hpc] at hheard
    cases hheard with
    | handling seen _ hitems hemitted => exact .handling seen event hitems hemitted
  | dropping terminal failure =>
    rw [hpc] at hheard
    cases hheard with
    | dropping seen _ _ hends hemitted => exact .dropping seen terminal failure hends.close hemitted
  | preparing => rw [hpc] at hreceiver; cases hreceiver
  | concluding terminal failure => rw [hpc] at hreceiver; cases hreceiver
  | finished => rw [hpc] at hreceiver; cases hreceiver

/-! ## Steps -/

theorem emit_emitted (s : State) (i : ℕ) (event : Event) :
    (emit s i event).emitted = update s.emitted i (s.emitted i ++ [event]) := by
  rw [emit_eq]

/-- The step of a task emits for its own install only. -/
theorem stepTask_emitted (hij : i ≠ j) (hstep : stepTask config s j task = some t) :
    t.emitted i = s.emitted i := by
  unfold stepTask at hstep
  split at hstep
  case h_2 =>
    rw [Option.map_eq_some_iff] at hstep
    obtain ⟨task', -, rfl⟩ := hstep
    rfl
  case h_4 progress _ =>
    cases hstep
    show (applyProgress s j progress).emitted i = _
    unfold applyProgress
    split
    · rfl
    · rw [emit_emitted]
      exact update_of_ne hij _ _
  case h_6 terminal failure _ =>
    cases hstep
    show (conclude s j _ terminal failure).emitted i = _
    cases hinstall : s.installs j with
    | none => simp only [conclude, hinstall]
    | some install =>
      rw [conclude_eq hinstall]
      exact update_of_ne hij _ _
  case h_7 => cases hstep
  all_goals cases hstep
  · show (emit _ j _).emitted i = _
    rw [emit_emitted]
    exact update_of_ne hij _ _
  · show (emit _ j _).emitted i = _
    rw [emit_emitted]
    exact update_of_ne hij _ _
  · rfl

/-- The step of the install's own task. -/
theorem Heard.step (hinv : Inv s) (htask : s.tasks i = some task)
    (h : Heard config items closed task (s.emitted i)) (hstep : stepTask config s i task = some t) :
    ∃ task', t.tasks i = some task' ∧ Heard config items closed task' (t.emitted i) := by
  obtain ⟨hpermit, hclosed, hheard⟩ := h
  have hinstall : task.pc ≠ .finished → ∃ install, s.installs i = some install := by
    intro hpc
    obtain ⟨-, install, ha⟩ := hinv.active htask hpc
    exact ⟨install, ha.installs⟩
  unfold stepTask at hstep
  cases hpc : task.pc with
  | preparing =>
    simp only [hpc, Option.some.injEq] at hstep
    rw [hpc] at hheard
    subst hstep
    refine ⟨_, update_self _ _ _, hpermit, hclosed, ?_⟩
    cases hheard with
    | preparing hqueue hitems _ hemitted =>
      refine .selecting [] (by rw [hitems]; exact hqueue.symm) ?_
      show (emit _ i _).emitted i = _
      rw [emit_emitted, update_self]
      show s.emitted i ++ _ = _
      rw [hemitted]
      rfl
  | selecting =>
    simp only [hpc, Option.map_eq_some_iff] at hstep
    obtain ⟨task', hselect, rfl⟩ := hstep
    rw [hpc] at hheard
    refine ⟨task', update_self _ _ _, ?_⟩
    show Heard _ _ _ task' (s.emitted i)
    cases hheard with
    | selecting seen hitems hemitted =>
      simp only [select, hpermit, Bool.false_eq_true, if_false] at hselect
      cases hqueue : task.queue with
      | nil =>
        rw [hqueue, List.append_nil] at hitems
        simp only [hqueue, Option.ite_some_none_eq_some] at hselect
        obtain ⟨hends, rfl⟩ := hselect
        refine ⟨rfl, hclosed, .dropping seen .done none (.done ?_ hitems) hemitted⟩
        rw [← hclosed, hends]
      | cons item rest =>
        rw [hqueue] at hitems
        cases item with
        | ok event =>
          simp only [hqueue, Option.some.injEq] at hselect
          subst hselect
          exact ⟨rfl, hclosed, .handling seen event hitems hemitted⟩
        | error error =>
          simp only [hqueue, Option.some.injEq] at hselect
          subst hselect
          exact ⟨rfl, hclosed, .dropping seen _ _ (.failed error rest hitems) hemitted⟩
  | handling event =>
    rw [hpc] at hheard
    obtain ⟨install, hsome⟩ := hinstall (by simp [hpc])
    cases hheard with
    | handling seen _ hitems hemitted =>
      have hmore : items = (seen ++ [event]).map .ok ++ task.queue := by
        rw [hitems, List.map_append, List.append_assoc]
        rfl
      have hshown : shown seen ++ [event.toEvent] = shown (seen ++ [event]) := by
        simp [shown]
      cases event with
      | status message =>
        simp only [hpc, Option.some.injEq] at hstep
        subst hstep
        refine ⟨_, update_self _ _ _, hpermit, hclosed, .selecting _ hmore ?_⟩
        show (emit _ i _).emitted i = _
        rw [emit_emitted, update_self, ← hshown, ← hemitted]
        rfl
      | progress progress =>
        simp only [hpc, Option.some.injEq] at hstep
        subst hstep
        refine ⟨_, update_self _ _ _, hpermit, hclosed, .selecting _ hmore ?_⟩
        show (applyProgress s i progress).emitted i = _
        simp only [applyProgress, hsome]
        rw [emit_emitted, update_self, ← hshown, ← hemitted]
        rfl
  | dropping terminal failure =>
    simp only [hpc, Option.some.injEq] at hstep
    rw [hpc] at hheard
    subst hstep
    refine ⟨_, update_self _ _ _, hpermit, hclosed, ?_⟩
    cases hheard with
    | dropping seen _ _ hends hemitted => exact .concluding seen terminal failure hends hemitted
  | concluding terminal failure =>
    obtain ⟨install, hsome⟩ := hinstall (by simp [hpc])
    simp only [hpc, Option.some.injEq] at hstep
    rw [hpc] at hheard
    subst hstep
    refine ⟨_, update_self _ _ _, hpermit, hclosed, ?_⟩
    cases hheard with
    | concluding seen _ _ hends hemitted =>
      refine .finished seen terminal hends ?_
      show (conclude s i _ terminal failure).emitted i = _
      rw [conclude_eq hsome]
      show update s.emitted i _ i = _
      rw [update_self, hemitted]
  | finished =>
    rw [hpc] at hstep
    cases hstep

/-- What does not concern the install leaves it where it is. -/
theorem Follows.congr (h : Follows config i items closed s) (htasks : t.tasks i = s.tasks i)
    (hemitted : t.emitted i = s.emitted i) : Follows config i items closed t :=
  ⟨fun hnone => h.unused (htasks.symm.trans hnone), fun task htask => by
    rw [hemitted]
    exact h.heard task (htasks.symm.trans htask)⟩

theorem setTask_tasks_of_ne (hij : i ≠ j) (s : State) (task : Task) :
    (setTask s j task).tasks i = s.tasks i := update_of_ne hij _ _

theorem Follows.stepProvider (h : Follows config i items closed s)
    {items' : List Item} {closed' : Bool}
    (hchange : ∀ task, Heard config items closed task (s.emitted i) → task.hasReceiver = true →
      Heard config items' closed' (change task) (s.emitted i))
    (hstep : stepProvider s i change = some t) : Follows config i items' closed' t := by
  unfold Service.stepProvider at hstep
  cases htask : s.tasks i with
  | none => rw [htask] at hstep; cases hstep
  | some task =>
    simp only [htask, Option.ite_some_none_eq_some] at hstep
    obtain ⟨hreceiver, rfl⟩ := hstep
    have hself : (setTask s i (change task)).tasks i = some (change task) :=
      update_self _ _ _
    refine ⟨fun hnone => ?_, fun task' htask' => ?_⟩
    · rw [hself] at hnone
      cases hnone
    · obtain rfl := Option.some.inj (hself.symm.trans htask')
      exact hchange task (h.heard task htask) hreceiver

theorem stepProvider_of_ne (hij : i ≠ j) (hstep : stepProvider s j change = some t) :
    t.tasks i = s.tasks i ∧ t.emitted i = s.emitted i := by
  unfold Service.stepProvider at hstep
  split at hstep
  · split at hstep
    · cases hstep
      exact ⟨setTask_tasks_of_ne hij _ _, rfl⟩
    · cases hstep
  · cases hstep

/-- What one step has an install hear. -/
theorem Follows.step {action : Action} (hinv : Inv s) (h : Follows config i items closed s)
    (hstays : action.stops i = false) (hstep : step config s action = some t) :
    Follows config i (items ++ action.pushes i) (closed || action.closes i) t := by
  cases action with
  | begin plan available now =>
    rw [show Action.pushes i (.begin plan available now) = [] from rfl, List.append_nil,
      show Action.closes i (.begin plan available now) = false from rfl, Bool.or_false]
    cases hstep
    rcases begin_cases config plan available now s with hsame | ⟨-, hbegin⟩
    · rw [hsame]
      exact h
    rw [hbegin]
    by_cases hnew : i = s.nextId
    · subst hnew
      obtain ⟨hnone, -, hemitted⟩ := hinv.unused (Nat.le_refl _)
      obtain ⟨rfl, rfl⟩ := h.unused hnone
      have hself : (begun s plan now).tasks s.nextId = some { plan } := by
        rw [begun_tasks, update_self]
      refine ⟨fun hgone => ?_, fun task htask => ?_⟩
      · rw [hself] at hgone
        cases hgone
      · obtain rfl := Option.some.inj (hself.symm.trans htask)
        refine ⟨rfl, rfl, .preparing rfl rfl rfl ?_⟩
        rw [begun, emit_emitted, update_self]
        show s.emitted s.nextId ++ _ = _
        rw [hemitted]
        rfl
    · refine h.congr ?_ ?_
      · rw [begun_tasks, update_of_ne hnew]
      · rw [begun, emit_emitted]
        exact update_of_ne hnew _ _
  | events j =>
    cases hstep
    rw [show Action.pushes i (.events j) = [] from rfl, List.append_nil,
      show Action.closes i (.events j) = false from rfl, Bool.or_false]
    exact h.congr rfl rfl
  | dropFeed n =>
    cases hstep
    rw [show Action.pushes i (.dropFeed n) = [] from rfl, List.append_nil,
      show Action.closes i (.dropFeed n) = false from rfl, Bool.or_false]
    exact h.congr rfl rfl
  | cancel j =>
    rw [show Action.pushes i (.cancel j) = [] from rfl, List.append_nil,
      show Action.closes i (.cancel j) = false from rfl, Bool.or_false]
    cases hstep
    have hij : i ≠ j := fun hij => by simp [Action.stops, hij] at hstays
    unfold cancel
    split
    · split
      · exact h.congr (setTask_tasks_of_ne hij _ _) rfl
      · exact h
    · exact h
  | stopKeeping j =>
    rw [show Action.pushes i (.stopKeeping j) = [] from rfl, List.append_nil,
      show Action.closes i (.stopKeeping j) = false from rfl, Bool.or_false]
    cases hstep
    have hij : i ≠ j := fun hij => by simp [Action.stops, hij] at hstays
    unfold stopKeeping
    split
    · exact h.congr (setTask_tasks_of_ne hij _ _) rfl
    · exact h
  | push j item =>
    rw [show Action.closes i (.push j item) = false from rfl, Bool.or_false, Action.pushes]
    by_cases hij : i = j
    · subst hij
      rw [if_pos rfl]
      exact h.stepProvider (fun task hheard hreceiver => hheard.push hreceiver item) hstep
    · rw [if_neg (Ne.symm hij), List.append_nil]
      obtain ⟨htasks, hemitted⟩ := stepProvider_of_ne hij hstep
      exact h.congr htasks hemitted
  | close j =>
    rw [show Action.pushes i (.close j) = [] from rfl, List.append_nil, Action.closes]
    by_cases hij : i = j
    · subst hij
      rw [beq_self_eq_true, Bool.or_true]
      exact h.stepProvider (fun task hheard hreceiver => hheard.close hreceiver) hstep
    · rw [beq_false_of_ne (Ne.symm hij), Bool.or_false]
      obtain ⟨htasks, hemitted⟩ := stepProvider_of_ne hij hstep
      exact h.congr htasks hemitted
  | task j =>
    rw [show Action.pushes i (.task j) = [] from rfl, List.append_nil,
      show Action.closes i (.task j) = false from rfl, Bool.or_false]
    simp only [Service.step] at hstep
    cases hother : s.tasks j with
    | none => rw [hother] at hstep; cases hstep
    | some other =>
      rw [hother] at hstep
      by_cases hij : i = j
      · subst hij
        obtain ⟨task', htask', hheard⟩ := Heard.step hinv hother (h.heard other hother) hstep
        refine ⟨fun hnone => ?_, fun task htask => ?_⟩
        · rw [htask'] at hnone
          cases hnone
        · obtain rfl := Option.some.inj (htask'.symm.trans htask)
          exact hheard
      · refine h.congr ?_ (stepTask_emitted hij hstep)
        obtain ⟨other', -, htasks⟩ := stepTask_tasks hstep
        rw [htasks, update_of_ne hij]

/-! ## Runs -/

/-- What a run has an install hear that nobody cancels. -/
theorem Follows.run (hinv : Inv s) (h : Follows config i items closed s)
    (hstays : ∀ action ∈ actions, action.stops i = false)
    (hrun : Transition.run (Service.step config) s actions = some t) :
    Inv t ∧ Follows config i (items ++ pushed i actions)
      (closed || actions.any (Action.closes i)) t := by
  induction actions generalizing s items closed with
  | nil =>
    cases hrun
    refine ⟨hinv, ?_⟩
    rw [pushed, List.flatMap_nil, List.append_nil, List.any_nil, Bool.or_false]
    exact h
  | cons action actions ih =>
    rw [Transition.run_cons, Option.bind_eq_some_iff] at hrun
    obtain ⟨u, hstep, hrun⟩ := hrun
    obtain ⟨hstay, hstays⟩ := List.forall_mem_cons.1 hstays
    have hu := h.step hinv hstay hstep
    obtain ⟨hinvt, ht⟩ := ih (inv_step action hinv hstep) hu hstays hrun
    refine ⟨hinvt, ?_⟩
    rw [pushed, List.flatMap_cons, List.any_cons, ← List.append_assoc, ← Bool.or_assoc]
    exact ht

theorem heard_run (hstays : ∀ action ∈ actions, action.stops i = false)
    (hrun : Transition.run (Service.step config) {} actions = some s) :
    Inv s ∧ Follows config i (pushed i actions) (actions.any (Action.closes i)) s := by
  have hstart : Follows config i [] false ({} : State) := by
    refine ⟨fun _ => ⟨rfl, rfl⟩, fun task htask => ?_⟩
    cases htask
  have hend := hstart.run inv_init hstays hrun
  rwa [List.nil_append, Bool.false_or] at hend

/-- An install whose stream has ended is concluded, or on its way to it and not waiting. -/
theorem Follows.concludes (hinv : Inv s) (h : Follows config i items closed s)
    (hended : closed = true ∨ ∃ error, .error error ∈ items) :
    i ∈ s.concluded ∨ (Service.step config s (.task i)).isSome = true ∧
      ∃ n, ∀ actions t, Transition.run (Service.step config) s actions = some t →
        n ≤ actions.countP (Action.isTask i) → i ∈ t.concluded := by
  cases htask : s.tasks i with
  | none =>
    obtain ⟨rfl, rfl⟩ := h.unused htask
    rcases hended with hended | ⟨error, herror⟩
    · cases hended
    · cases herror
  | some task =>
    by_cases hout : i ∈ s.concluded
    · exact .inl hout
    have hqueue : ∀ seen : List StreamEvent, ∀ rest : List Item, items = seen.map .ok ++ rest →
        task.closed = true ∨ ∃ error, .error error ∈ rest := by
      intro seen rest hitems
      rcases hended with hended | ⟨error, herror⟩
      · exact .inl ((h.heard task htask).isClosed.trans hended)
      · rw [hitems, List.mem_append, List.mem_map] at herror
        rcases herror with ⟨event, -, hevent⟩ | hrest
        · cases hevent
        · exact .inr ⟨error, hrest⟩
    have hends : Ended s i := by
      refine ⟨task, htask, ?_⟩
      have hheard := (h.heard task htask).heard
      cases hpc : task.pc with
      | preparing =>
        rw [hpc] at hheard
        cases hheard with
        | preparing _ hitems hclosed _ =>
          subst hitems
          rcases hended with hended | ⟨error, herror⟩
          · rw [hclosed] at hended
            cases hended
          · cases herror
      | selecting =>
        rw [hpc] at hheard
        cases hheard with
        | selecting seen hitems _ =>
          rcases hqueue seen task.queue hitems with hclosed | herror
          · exact .inr (.inl hclosed)
          · exact .inr (.inr (.inl herror))
      | handling event =>
        rw [hpc] at hheard
        cases hheard with
        | handling seen _ hitems _ =>
          rcases hqueue seen _ hitems with hclosed | ⟨error, herror⟩
          · exact .inr (.inl hclosed)
          · rcases List.mem_cons.1 herror with hhead | hrest
            · cases hhead
            · exact .inr (.inr (.inl ⟨error, hrest⟩))
      | dropping terminal failure => exact .inr (.inr (.inr ⟨terminal, failure, .inl rfl⟩))
      | concluding terminal failure => exact .inr (.inr (.inr ⟨terminal, failure, .inr rfl⟩))
      | finished => exact absurd ((hinv.concluded i).2 ⟨task, htask, hpc⟩) hout
    have hmoves : (Service.step config s (.task i)).isSome = true := hinv.moves hends hout
    exact .inr ⟨hmoves, Ended.concludes hinv hends⟩

end

end Hedos.Install.Service
