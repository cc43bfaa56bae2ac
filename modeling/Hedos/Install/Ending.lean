import Hedos.Install.Lifecycle

/-!
# Installs come to their end

`Task.left` bounds the steps a task has left once its stream has ended or failed or it is cancelled:
its own steps lower it (`left_advance`) and nothing else raises it (`left_told`). With the invariant
of the service this gives the whole life of an install (`install_lifecycle`).
-/

namespace Hedos.Install.Service

open Function

/-! ## What happens to a task -/

def Action.isTask (i : ℕ) : Action → Bool
  | .task j => j == i
  | _ => false

/-- A task is told something, or given something, and stays where it is. -/
structure Told (task task' : Task) : Prop where
  plan : task'.plan = task.plan
  pc : task'.pc = task.pc
  permit : task.permit = true → task'.permit = true
  queue : task.queue <+: task'.queue
  closed : task.closed = true → task'.closed = true ∧ task'.queue = task.queue

theorem Told.refl (task : Task) : Told task task :=
  ⟨rfl, rfl, id, List.prefix_refl _, fun h => ⟨h, rfl⟩⟩

/-- The task behind its own next step. -/
def advance (config : Config) (task : Task) : Option Task :=
  match task.pc with
  | .preparing | .handling _ => some { task with pc := .selecting }
  | .selecting => select config task
  | .dropping terminal failure =>
    some { task with pc := .concluding terminal failure, queue := [] }
  | .concluding .. => some { task with pc := .finished }
  | .finished => none

section

variable {config : Config} {s t : State} {i : ℕ} {task task' : Task}

theorem select_plan (h : select config task = some task') : task'.plan = task.plan :=
  (select_cases h).1

theorem advance_plan (h : advance config task = some task') : task'.plan = task.plan := by
  unfold advance at h
  split at h
  case h_3 => exact select_plan h
  case h_6 => cases h
  all_goals exact (Option.some.inj h) ▸ rfl

theorem transition_tasks (s : State) (i : ℕ) (event : Event) :
    (transition s i event).tasks = s.tasks := by
  rw [transition, emit_eq]

theorem applyProgress_tasks (s : State) (i : ℕ) (progress : Progress) :
    (applyProgress s i progress).tasks = s.tasks := by
  unfold applyProgress
  split
  · rfl
  · rw [emit_eq]

theorem conclude_tasks (s : State) (i : ℕ) (key : String) (event : Event)
    (failure : Option InstallError) : (conclude s i key event failure).tasks = s.tasks := by
  cases hinstall : s.installs i with
  | none => simp only [conclude, hinstall]
  | some install => rw [conclude_eq hinstall]

theorem begun_tasks (s : State) (plan : Plan) (now : ℤ) :
    (begun s plan now).tasks = update s.tasks s.nextId (some { plan }) := by
  rw [begun, emit_eq]

/-- The step of a task moves that task. -/
theorem stepTask_tasks (h : stepTask config s i task = some t) :
    ∃ task', advance config task = some task' ∧ t.tasks = update s.tasks i (some task') := by
  unfold stepTask at h
  unfold advance
  split at h
  case h_2 hpc =>
    rw [Option.map_eq_some_iff] at h
    obtain ⟨task', hselect, rfl⟩ := h
    exact ⟨task', by simpa only [hpc] using hselect, rfl⟩
  case h_7 => cases h
  all_goals
    rename_i hpc
    cases h
    simp only [hpc, setTask]
  · exact ⟨_, rfl, by rw [transition_tasks]⟩
  · exact ⟨_, rfl, by rw [transition_tasks]⟩
  · exact ⟨_, rfl, by rw [applyProgress_tasks]⟩
  · exact ⟨_, rfl, rfl⟩
  · exact ⟨_, rfl, by rw [conclude_tasks]⟩

/-- A task that is told something is the only one that is. -/
theorem told_setTask {j : ℕ} {other other' : Task} (hother : s.tasks j = some other)
    (htold : Told other other') (htask : s.tasks i = some task) :
    ∃ task', (setTask s j other').tasks i = some task' ∧ Told task task' := by
  by_cases hij : i = j
  · subst hij
    obtain rfl := Option.some.inj (htask.symm.trans hother)
    exact ⟨other', update_self _ _ _, htold⟩
  · exact ⟨task, (update_of_ne hij _ _).trans htask, .refl task⟩

theorem told_cancel (htask : s.tasks i = some task) (j : ℕ) :
    ∃ task', (cancel j s).tasks i = some task' ∧ Told task task' := by
  unfold cancel
  split
  · rename_i other hother
    split
    · exact told_setTask hother
        ⟨rfl, rfl, fun _ => rfl, List.prefix_refl _, fun h => ⟨h, rfl⟩⟩ htask
    · exact ⟨task, htask, .refl task⟩
  · exact ⟨task, htask, .refl task⟩

theorem told_stopKeeping (htask : s.tasks i = some task) (j : ℕ) :
    ∃ task', (stopKeeping j s).tasks i = some task' ∧ Told task task' := by
  unfold stopKeeping
  split
  · rename_i other hother
    refine told_setTask hother ⟨?_, ?_, fun hpermit => ?_, ?_, fun hclosed => ?_⟩ htask
    all_goals cases s.keeps j
    all_goals cases s.cancels j
    all_goals simp_all
  · exact ⟨task, htask, .refl task⟩

theorem told_stepProvider {j : ℕ} {change : Task → Task}
    (hchange : ∀ task, task.closed = false → Told task (change task))
    (hstep : stepProvider s j change = some t) (htask : s.tasks i = some task) :
    ∃ task', t.tasks i = some task' ∧ Told task task' := by
  unfold stepProvider at hstep
  split at hstep
  · rename_i other hother
    split at hstep
    · rename_i hreceiver
      cases hstep
      refine told_setTask hother (hchange other ?_) htask
      unfold Task.hasReceiver at hreceiver
      split at hreceiver
      all_goals simp_all
    · cases hstep
  · cases hstep

/-- What a step does to a task that is there. -/
theorem tasks_step {action : Action} (h : Inv s) (hstep : step config s action = some t)
    (htask : s.tasks i = some task) :
    ∃ task', t.tasks i = some task' ∧
      ((action.isTask i = false ∧ Told task task') ∨
        (action.isTask i = true ∧ advance config task = some task')) := by
  have htold : (∃ task', t.tasks i = some task' ∧ Told task task') → action.isTask i = false →
      ∃ task', t.tasks i = some task' ∧
        ((action.isTask i = false ∧ Told task task') ∨
          (action.isTask i = true ∧ advance config task = some task')) := by
    rintro ⟨task', htask', htold⟩ hother
    exact ⟨task', htask', .inl ⟨hother, htold⟩⟩
  cases action with
  | begin plan available now =>
    cases hstep
    refine htold ⟨task, ?_, .refl task⟩ rfl
    rcases begin_cases config plan available now s with hsame | ⟨-, hbegin⟩
    · rw [hsame, htask]
    · have hne : i ≠ s.nextId := by
        rintro rfl
        rw [(h.unused (Nat.le_refl _)).1] at htask
        cases htask
      rw [hbegin, begun_tasks, update_of_ne hne, htask]
  | events j =>
    cases hstep
    exact htold ⟨task, htask, .refl task⟩ rfl
  | dropFeed n =>
    cases hstep
    exact htold ⟨task, htask, .refl task⟩ rfl
  | cancel j =>
    cases hstep
    exact htold (told_cancel htask j) rfl
  | stopKeeping j =>
    cases hstep
    exact htold (told_stopKeeping htask j) rfl
  | push j item =>
    rw [step] at hstep
    refine htold (told_stepProvider (fun other hopen => ?_) hstep htask) rfl
    exact ⟨rfl, rfl, id, List.prefix_append _ _, fun hclosed => by simp [hopen] at hclosed⟩
  | close j =>
    rw [step] at hstep
    refine htold (told_stepProvider (fun other hopen => ?_) hstep htask) rfl
    exact ⟨rfl, rfl, id, List.prefix_refl _, fun hclosed => ⟨rfl, rfl⟩⟩
  | task j =>
    simp only [step] at hstep
    split at hstep
    · rename_i other hother
      obtain ⟨other', hadvance, htasks⟩ := stepTask_tasks hstep
      rw [htasks]
      by_cases hij : i = j
      · subst hij
        obtain rfl := Option.some.inj (htask.symm.trans hother)
        exact ⟨other', update_self _ _ _, .inr ⟨by simp [Action.isTask], hadvance⟩⟩
      · refine ⟨task, (update_of_ne hij _ _).trans htask, .inl ⟨?_, .refl task⟩⟩
        simp [Action.isTask, Ne.symm hij]
    · cases hstep

end

/-! ## The steps a task has left -/

def isError : Except InstallError StreamEvent → Bool
  | .error _ => true
  | .ok _ => false

/-- The rounds of the loop before the one that leaves it. -/
def Task.roundsLeft (task : Task) : Option ℕ :=
  if task.permit then some 0
  else task.queue.findIdx? isError <|> if task.closed then some task.queue.length else none

/-- The steps until the conclusion, when it is known that the loop will be left. -/
def Task.left (task : Task) : Option ℕ :=
  match task.pc with
  | .preparing | .handling _ => task.roundsLeft.map (2 * · + 4)
  | .selecting => task.roundsLeft.map (2 * · + 3)
  | .dropping .. => some 2
  | .concluding .. => some 1
  | .finished => some 0

section

variable {config : Config} {s t : State} {i n : ℕ} {task task' : Task}

theorem roundsLeft_told (h : Told task task') (hn : task.roundsLeft = some n) :
    ∃ m, task'.roundsLeft = some m ∧ m ≤ n := by
  unfold Task.roundsLeft at hn ⊢
  by_cases hpermit' : task'.permit = true
  · exact ⟨0, by simp [hpermit'], Nat.zero_le n⟩
  have hpermit : ¬ task.permit = true := fun hpermit => hpermit' (h.permit hpermit)
  rw [if_neg hpermit] at hn
  rw [if_neg hpermit']
  refine ⟨n, ?_, Nat.le_refl n⟩
  cases hfind : task.queue.findIdx? isError with
  | some k =>
    obtain ⟨rest, hrest⟩ := h.queue
    rw [hfind] at hn
    rw [← hrest, List.findIdx?_append, hfind]
    exact hn
  | none =>
    rw [hfind] at hn
    by_cases hclosed : task.closed = true
    · obtain ⟨hclosed', hqueue⟩ := h.closed hclosed
      rw [hclosed] at hn
      rw [hqueue, hfind, hclosed']
      exact hn
    · simp [hclosed] at hn

theorem left_told (h : Told task task') (hn : task.left = some n) :
    ∃ m, task'.left = some m ∧ m ≤ n := by
  have hrounds : ∀ c, task.roundsLeft.map (2 * · + c) = some n →
      ∃ m, task'.roundsLeft.map (2 * · + c) = some m ∧ m ≤ n := by
    intro c hc
    rw [Option.map_eq_some_iff] at hc
    obtain ⟨k, hk, rfl⟩ := hc
    obtain ⟨m, hm, hle⟩ := roundsLeft_told h hk
    exact ⟨2 * m + c, by rw [hm, Option.map_some], by omega⟩
  unfold Task.left at hn ⊢
  rw [h.pc]
  split at hn
  · exact hrounds 4 hn
  · exact hrounds 4 hn
  · exact hrounds 3 hn
  all_goals exact ⟨_, hn, Nat.le_refl n⟩

/-- A round that stays in the loop brings its end nearer, one that leaves it has two steps left. -/
theorem left_select (h : select config task = some task') (hn : task.roundsLeft = some n) :
    ∃ m, task'.left = some m ∧ m < 2 * n + 3 := by
  unfold select at h
  split at h
  · cases h
    exact ⟨2, rfl, by omega⟩
  · rename_i hpermit
    split at h
    · split at h
      · cases h
        exact ⟨2, rfl, by omega⟩
      · cases h
    · rename_i event rest hqueue
      cases h
      simp only [Task.roundsLeft, hpermit, hqueue, List.findIdx?_cons, isError] at hn
      simp only [Task.left, Task.roundsLeft, hpermit]
      cases hfind : rest.findIdx? isError with
      | some k =>
        simp [hfind] at hn
        exact ⟨2 * k + 4, by simp, by omega⟩
      | none =>
        cases hclosed : task.closed with
        | true =>
          simp [hfind, hclosed] at hn
          exact ⟨2 * rest.length + 4, by simp, by omega⟩
        | false => simp [hfind, hclosed] at hn
    · cases h
      exact ⟨2, rfl, by omega⟩

theorem left_advance (h : advance config task = some task') (hn : task.left = some n) :
    ∃ m, task'.left = some m ∧ m + 1 ≤ n := by
  unfold advance at h
  unfold Task.left at hn
  split at h
  case h_3 hpc =>
    simp only [hpc, Option.map_eq_some_iff] at hn
    obtain ⟨k, hk, rfl⟩ := hn
    exact left_select h hk
  case h_6 => cases h
  all_goals
    rename_i hpc
    cases h
    simp only [hpc] at hn
  · rw [Option.map_eq_some_iff] at hn
    obtain ⟨k, hk, rfl⟩ := hn
    exact ⟨2 * k + 3, by simpa [Task.left, Task.roundsLeft] using hk, by omega⟩
  · rw [Option.map_eq_some_iff] at hn
    obtain ⟨k, hk, rfl⟩ := hn
    exact ⟨2 * k + 3, by simpa [Task.left, Task.roundsLeft] using hk, by omega⟩
  · exact ⟨1, rfl, by rw [← Option.some.inj hn]⟩
  · exact ⟨0, rfl, by rw [← Option.some.inj hn]⟩

/-- A task that is bound to leave the loop does not wait. -/
theorem advance_isSome (hn : task.left.isSome = true) (hpc : task.pc ≠ .finished) :
    (advance config task).isSome = true := by
  unfold advance
  split
  case h_3 hselecting =>
    unfold select
    split
    · rfl
    · rename_i hpermit
      split
      · rename_i hqueue
        cases hclosed : task.closed with
        | true => rfl
        | false => simp [Task.left, hselecting, Task.roundsLeft, hpermit, hqueue, hclosed] at hn
      · rfl
      · rfl
  case h_6 hfinished => exact absurd hfinished hpc
  all_goals rfl

theorem stepTask_isSome (config : Config) (s : State) (i : ℕ) (task : Task) :
    (stepTask config s i task).isSome = (advance config task).isSome := by
  unfold stepTask advance
  split <;> simp_all

/-- The steps the task of an install has left. -/
def leftOf (i : ℕ) (s : State) : Option ℕ := (s.tasks i).bind Task.left

theorem leftOf_step {action : Action} (h : Inv s) (hstep : step config s action = some t)
    (hn : leftOf i s = some n) :
    ∃ m, leftOf i t = some m ∧ m + (if action.isTask i then 1 else 0) ≤ n := by
  rw [leftOf, Option.bind_eq_some_iff] at hn
  obtain ⟨task, htask, hn⟩ := hn
  obtain ⟨task', htask', ⟨hother, htold⟩ | ⟨hown, hadvance⟩⟩ := tasks_step h hstep htask
  · obtain ⟨m, hm, hle⟩ := left_told htold hn
    exact ⟨m, by rw [leftOf, htask', Option.bind_some, hm], by simpa [hother] using hle⟩
  · obtain ⟨m, hm, hle⟩ := left_advance hadvance hn
    exact ⟨m, by rw [leftOf, htask', Option.bind_some, hm], by simpa [hown] using hle⟩

theorem left_pos (hpc : task.pc ≠ .finished) (hn : task.left = some n) : 0 < n := by
  unfold Task.left at hn
  split at hn
  case h_6 hfinished => exact absurd hfinished hpc
  case h_4 => exact (Option.some.inj hn) ▸ Nat.succ_pos 1
  case h_5 => exact (Option.some.inj hn) ▸ Nat.one_pos
  all_goals
    rw [Option.map_eq_some_iff] at hn
    obtain ⟨k, -, rfl⟩ := hn
    omega

/-- The stream has ended or failed, or the install is cancelled, or `run` has seen this. -/
def Ended (s : State) (i : ℕ) : Prop :=
  ∃ task, s.tasks i = some task ∧
    (task.permit = true ∨ task.closed = true ∨ (∃ error, .error error ∈ task.queue) ∨
      ∃ terminal failure, task.pc = .dropping terminal failure ∨
        task.pc = .concluding terminal failure)

theorem roundsLeft_isSome (h : task.permit = true ∨ task.closed = true ∨
    ∃ error, .error error ∈ task.queue) : task.roundsLeft.isSome = true := by
  unfold Task.roundsLeft
  split
  · rfl
  · rename_i hpermit
    cases hfind : task.queue.findIdx? isError with
    | some k => rfl
    | none =>
      rcases h with hyes | hclosed | ⟨error, herror⟩
      · exact absurd hyes hpermit
      · rw [if_pos hclosed]
        rfl
      · have hnot := List.findIdx?_eq_none_iff.1 hfind _ herror
        cases hnot

/-- An install that has ended has a bound on its steps. -/
theorem Ended.leftOf (h : Ended s i) : ∃ n, leftOf i s = some n := by
  obtain ⟨task, htask, hended⟩ := h
  rw [← Option.isSome_iff_exists, Service.leftOf, htask, Option.bind_some]
  unfold Task.left
  split
  case h_4 | h_5 | h_6 => rfl
  all_goals
    rename_i hpc
    rw [Option.isSome_map]
    refine roundsLeft_isSome ?_
    rcases hended with h | h | h | ⟨_, _, h | h⟩
    · exact .inl h
    · exact .inr (.inl h)
    · exact .inr (.inr h)
    · simp [hpc] at h
    · simp [hpc] at h

/-- Once it has ended, an install concludes within the bound, and its task does not wait. -/
theorem Ended.concludes (hinv : Inv s) (h : Ended s i) :
    ∃ n, ∀ actions t, Transition.run (step config) s actions = some t →
      n ≤ actions.countP (Action.isTask i) → i ∈ t.concluded := by
  obtain ⟨n, hn⟩ := h.leftOf
  refine ⟨n, fun actions t hrun hmany => ?_⟩
  obtain ⟨hinvt, m, hm, hle⟩ := Transition.run_measure (I := Inv) (fun _ a _ => inv_step a)
    (fun _ _ _ _ => leftOf_step) hinv hrun hn
  obtain rfl : m = 0 := by omega
  rw [Service.leftOf, Option.bind_eq_some_iff] at hm
  obtain ⟨task, htask, hzero⟩ := hm
  refine (hinvt.concluded i).2 ⟨task, htask, ?_⟩
  by_contra hpc
  exact absurd (left_pos hpc hzero) (Nat.lt_irrefl 0)

/-- What ends an install: its stream ends or fails, or it is cancelled. -/
def Action.ends (i : ℕ) : Action → Bool
  | .cancel j | .stopKeeping j | .close j | .push j (.error _) => j == i
  | _ => false

theorem ended_step {action : Action} (h : Inv s) (hactive : (s.installs i).isSome = true)
    (hends : action.ends i = true) (hstep : step config s action = some t) : Ended t i := by
  cases h.ids i with
  | unused _ _ habsent => simp [habsent.installs] at hactive
  | concluded _ _ _ _ habsent => simp [habsent.installs] at hactive
  | active task install hid htask hpc ha =>
    unfold Action.ends at hends
    split at hends
    all_goals try obtain rfl := beq_iff_eq.1 hends
    · cases hstep
      simp only [cancel, htask, ha.cancels, if_true]
      exact ⟨_, update_self _ _ _, .inl rfl⟩
    · cases hstep
      simp only [stopKeeping, htask, ha.cancels, if_true]
      exact ⟨_, update_self _ _ _, .inl rfl⟩
    · simp only [step, stepProvider, htask, Option.ite_none_right_eq_some] at hstep
      obtain rfl := Option.some.inj hstep.2
      exact ⟨_, update_self _ _ _, .inr (.inl rfl)⟩
    · rename_i error
      simp only [step, stepProvider, htask, Option.ite_none_right_eq_some] at hstep
      obtain rfl := Option.some.inj hstep.2
      exact ⟨_, update_self _ _ _, .inr (.inr (.inl ⟨error, by simp⟩))⟩
    · cases hends

end

/-! ## Providers -/

section

variable {config : Config} {s t : State} {i : ℕ} {task : Task}

/-- Only what a provider can install is begun. -/
def Known (config : Config) (s : State) : Prop :=
  ∀ i task, s.tasks i = some task → config.providers.contains task.plan.provider = true

theorem begin_known {plan : Plan} {available now : ℤ} {id : ℕ}
    (h : begin config plan available now s = (.ok id, t)) :
    config.providers.contains plan.provider = true := by
  by_contra hnot
  rw [Bool.not_eq_true] at hnot
  simp only [begin, hnot, Bool.not_false, if_true, Prod.mk.injEq] at h
  cases h.1

/-- A task is new behind a `begin` only, of what a provider can install and nothing else does. -/
theorem task_fresh {action : Action} (hnone : s.tasks i = none)
    (hstep : step config s action = some t) (htask : t.tasks i = some task) :
    config.providers.contains task.plan.provider = true ∧ i = s.nextId ∧
      s.inFlight (flightKey task.plan) = none := by
  have hset : ∀ {j other other'}, s.tasks j = some other →
      (setTask s j other').tasks i = some task → False := by
    intro j other other' hother hset
    have hne : i ≠ j := by
      rintro rfl
      rw [hnone] at hother
      cases hother
    simp [setTask, update_of_ne hne, hnone] at hset
  have hsame : s.tasks i = some task → False := by
    rw [hnone]
    intro h
    cases h
  cases action with
  | begin plan available now =>
    cases hstep
    rcases begin_cases config plan available now s with hunchanged | ⟨hfree, hbegin⟩
    · rw [hunchanged] at htask
      exact (hsame htask).elim
    · rw [hbegin, begun_tasks] at htask
      by_cases hi : i = s.nextId
      · rw [hi, update_self, Option.some.injEq] at htask
        rw [← htask]
        exact ⟨begin_known hbegin, hi, hfree⟩
      · rw [update_of_ne hi] at htask
        exact (hsame htask).elim
  | events j =>
    cases hstep
    exact (hsame htask).elim
  | dropFeed n =>
    cases hstep
    exact (hsame htask).elim
  | cancel j =>
    cases hstep
    unfold cancel at htask
    split at htask
    · rename_i other hother
      split at htask
      · exact (hset hother htask).elim
      · exact (hsame htask).elim
    · exact (hsame htask).elim
  | stopKeeping j =>
    cases hstep
    unfold stopKeeping at htask
    split at htask
    · rename_i other hother
      exact (hset hother htask).elim
    · exact (hsame htask).elim
  | push j item | close j =>
    simp only [step, stepProvider] at hstep
    split at hstep
    · rename_i other hother
      split at hstep
      · cases hstep
        exact (hset hother htask).elim
      · cases hstep
    · cases hstep
  | task j =>
    simp only [step] at hstep
    split at hstep
    · rename_i other hother
      obtain ⟨other', -, htasks⟩ := stepTask_tasks hstep
      rw [htasks] at htask
      exact (hset hother htask).elim
    · cases hstep

theorem known_step {action : Action} (h : Inv s) (hknown : Known config s)
    (hstep : step config s action = some t) : Known config t := by
  intro i task' htask'
  cases htask : s.tasks i with
  | some task =>
    obtain ⟨other, hother, hmove⟩ := tasks_step h hstep htask
    obtain rfl := Option.some.inj (hother.symm.trans htask')
    have hplan : other.plan = task.plan := by
      rcases hmove with ⟨-, htold⟩ | ⟨-, hadvance⟩
      · exact htold.plan
      · exact advance_plan hadvance
    rw [hplan]
    exact hknown i task htask
  | none => exact (task_fresh htask hstep htask').1

theorem known_reachable (h : Transition.Reachable (step config) (· = {}) s) :
    Inv s ∧ Known config s := by
  refine h.invariant (P := fun s => Inv s ∧ Known config s) (fun s hs => ?_)
    fun s action t hs hstep => ⟨inv_step action hs.1 hstep, known_step hs.1 hs.2 hstep⟩
  subst hs
  exact ⟨inv_init, fun i task htask => by cases htask⟩

end

/-! ## The life of an install -/

def ActiveFor (s : State) (i : ℕ) (provider reference : String) : Prop :=
  ∃ install, s.installs i = some install ∧ install.provider = provider ∧
    install.reference = reference

structure Lifecycle (config : Config) (s : State) : Prop where
  single : ∀ i j provider reference, ActiveFor s i provider reference →
    ActiveFor s j provider reference → i = j
  returned : ∀ i plan available now, ActiveFor s i plan.provider plan.reference →
    begin config plan available now s = (.ok i, s)
  /-- What was begun is active or concluded, never both. -/
  begun : ∀ i, i < s.nextId → (i ∈ s.concluded ↔ s.installs i = none)
  once : s.concluded.Nodup
  ends : ∀ i ∈ s.concluded, i < s.nextId ∧ EndsOnce (s.emitted i)
  ended : ∀ i action t, (s.installs i).isSome = true → action.ends i = true →
    step config s action = some t → Ended t i
  concludes : ∀ i, Ended s i → ∃ n, ∀ actions t,
    Transition.run (step config) s actions = some t → n ≤ actions.countP (Action.isTask i) →
      i ∈ t.concluded
  moves : ∀ i, Ended s i → i ∉ s.concluded → (step config s (.task i)).isSome = true
  /-- A subscriber to an active install is given its current state. -/
  subscribed : ∀ i, (s.installs i).isSome = true →
    newFeed s i =
      { install := i, received := snapshot (s.emitted i), isOpen := true
        replayed := snapshot (s.emitted i), since := (s.emitted i).length, live := true }
  /-- And then all that is emitted, with the terminal event as its only and last one. -/
  received : ∀ feed ∈ s.feeds, feed.live = true → feed.gone = false →
    feed.received = snapshot ((s.emitted feed.install).take feed.since) ++
        (s.emitted feed.install).drop feed.since ∧
      (feed.install ∈ s.concluded → feed.isOpen = false ∧ EndsOnce feed.received)
  recent : ∀ i ∈ s.concluded.drop (s.concluded.length - terminalHistoryLimit),
    ∃ terminal, (s.emitted i).getLast? = some terminal ∧
      newFeed s i =
        { install := i, received := [terminal], isOpen := false, replayed := [terminal]
          since := (s.emitted i).length, live := false }
  /-- A feed of a concluded install is sent nothing more. -/
  closed : ∀ feed ∈ s.feeds, feed.live = false → feed.gone = false →
    feed.received = feed.replayed ∧ feed.isOpen = false
  entries : ∀ i, (s.phases i).isSome = true ∨ (s.subscribers i).isSome = true ∨
    s.cancels i = true ∨ s.keeps i = true → (s.installs i).isSome = true
  flights : ∀ key i, s.inFlight key = some i →
    ∃ install, s.installs i = some install ∧ key = install.provider ++ "|" ++ install.reference

section

variable {config : Config} {s : State} {i : ℕ}

theorem Inv.flight_of_active (h : Inv s) {plan : Plan}
    (hactive : ActiveFor s i plan.provider plan.reference) :
    s.inFlight (flightKey plan) = some i ∧
      ∃ task, s.tasks i = some task ∧ task.plan.provider = plan.provider := by
  obtain ⟨install, hinstall, hprovider, hreference⟩ := hactive
  cases h.ids i with
  | unused _ _ habsent => rw [habsent.installs] at hinstall; cases hinstall
  | concluded _ _ _ _ habsent => rw [habsent.installs] at hinstall; cases hinstall
  | active task other _ htask hpc ha =>
    obtain rfl := Option.some.inj (ha.installs.symm.trans hinstall)
    have hp : task.plan.provider = plan.provider := ha.provider.symm.trans hprovider
    have hr : task.plan.reference = plan.reference := ha.reference.symm.trans hreference
    refine ⟨(h.flights _ i).2 ⟨task, htask, hpc, ?_⟩, task, htask, hp⟩
    rw [flightKey, flightKey, hp, hr]

theorem Inv.begin_active (h : Inv s) (hknown : Known config s) {plan : Plan} (available now : ℤ)
    (hactive : ActiveFor s i plan.provider plan.reference) :
    begin config plan available now s = (.ok i, s) := by
  obtain ⟨hflight, task, htask, hprovider⟩ := h.flight_of_active hactive
  have hcontains := hknown i task htask
  rw [hprovider] at hcontains
  simp only [begin, hcontains, hflight, Bool.not_true, Bool.false_eq_true, if_false]

theorem Inv.mem_concluded_iff (h : Inv s) (hid : i < s.nextId) :
    i ∈ s.concluded ↔ s.installs i = none := by
  rw [h.concluded i]
  cases h.ids i with
  | unused hle => omega
  | concluded task _ htask hpc habsent =>
    exact iff_of_true ⟨task, htask, hpc⟩ habsent.installs
  | active task install _ htask hpc ha =>
    refine iff_of_false ?_ (by simp [ha.installs])
    rintro ⟨other, hother, hfinished⟩
    obtain rfl := Option.some.inj (hother.symm.trans htask)
    exact hpc hfinished

theorem Inv.endsOnce (h : Inv s) (hmem : i ∈ s.concluded) :
    i < s.nextId ∧ EndsOnce (s.emitted i) := by
  obtain ⟨task, htask, hfinished⟩ := (h.concluded i).1 hmem
  cases h.ids i with
  | unused _ hnone => rw [hnone] at htask; cases htask
  | concluded _ hid _ _ _ hends => exact ⟨hid, hends⟩
  | active other _ _ hother hpc =>
    obtain rfl := Option.some.inj (hother.symm.trans htask)
    exact absurd hfinished hpc

/-- A snapshot holds no terminal event. -/
theorem snapshot_not_terminal (events : List Event) :
    ∀ event ∈ snapshot events, event.isTerminal = false := by
  intro event hmem
  rw [snapshot, replay, List.mem_append, Option.mem_toList] at hmem
  rcases hmem with hphase | hprogress
  · have hin := List.mem_of_getLast? hphase
    have hphase := (List.mem_filter.1 hin).2
    cases event <;> first | rfl | cases hphase
  · split at hprogress
    · rw [List.mem_singleton.1 hprogress]
      rfl
    · cases hprogress

/-- Behind a snapshot of an install that runs, its events end once as they do. -/
theorem endsOnce_received {events : List Event} {n : ℕ} (h : EndsOnce events)
    (hrunning : ∀ event ∈ events.take n, event.isTerminal = false) :
    EndsOnce (snapshot (events.take n) ++ events.drop n) := by
  obtain ⟨front, last, rfl, hlast, hfront⟩ := h
  have hn : n ≤ front.length := by
    by_contra hlt
    have hall : (front ++ [last]).take n = front ++ [last] :=
      List.take_of_length_le (by simp only [List.length_append, List.length_singleton]; omega)
    rw [hall] at hrunning
    rw [hrunning last (by simp)] at hlast
    cases hlast
  refine ⟨snapshot ((front ++ [last]).take n) ++ front.drop n, last, ?_, hlast, fun e he => ?_⟩
  · rw [List.drop_append_of_le_length hn, List.append_assoc]
  · rcases List.mem_append.1 he with hsnapshot | hdrop
    · exact snapshot_not_terminal _ e hsnapshot
    · exact hfront e (List.mem_of_mem_drop hdrop)

theorem Inv.newFeed_active (h : Inv s) (hactive : (s.installs i).isSome = true) :
    newFeed s i =
      { install := i, received := snapshot (s.emitted i), isOpen := true
        replayed := snapshot (s.emitted i), since := (s.emitted i).length, live := true } := by
  cases h.ids i with
  | unused _ _ habsent => simp [habsent.installs] at hactive
  | concluded _ _ _ _ habsent => simp [habsent.installs] at hactive
  | active task install hid htask hpc ha =>
    have hout : i ∉ s.terminalOrder := by
      intro hmem
      rw [h.order] at hmem
      have hnone := (h.mem_concluded_iff hid).1 (List.mem_of_mem_drop hmem)
      rw [hnone] at hactive
      cases hactive
    have hterminal : s.terminal i = none := by rw [h.terminal i, if_neg hout]
    simp only [newFeed, hterminal, ha.installs, snapshot, ← ha.phases, ← ha.progress]

theorem Inv.newFeed_recent (h : Inv s)
    (hmem : i ∈ s.concluded.drop (s.concluded.length - terminalHistoryLimit)) :
    ∃ terminal, (s.emitted i).getLast? = some terminal ∧
      newFeed s i =
        { install := i, received := [terminal], isOpen := false, replayed := [terminal]
          since := (s.emitted i).length, live := false } := by
  obtain ⟨-, front, last, hemitted, -, -⟩ := h.endsOnce (List.mem_of_mem_drop hmem)
  have hlast : (s.emitted i).getLast? = some last := by simp [hemitted]
  refine ⟨last, hlast, ?_⟩
  have hterminal : s.terminal i = some last := by
    rw [h.terminal i, h.order, if_pos hmem, hlast]
  simp only [newFeed, hterminal]

theorem Inv.moves (h : Inv s) (hended : Ended s i) (hout : i ∉ s.concluded) :
    (step config s (.task i)).isSome = true := by
  obtain ⟨n, hn⟩ := hended.leftOf
  rw [leftOf, Option.bind_eq_some_iff] at hn
  obtain ⟨task, htask, hn⟩ := hn
  simp only [step, htask]
  rw [stepTask_isSome]
  refine advance_isSome (by rw [hn]; rfl) fun hfinished => ?_
  exact hout ((h.concluded i).2 ⟨task, htask, hfinished⟩)

/-- In every state of every run, the installs live as they should. -/
theorem install_lifecycle (h : Transition.Reachable (step config) (· = {}) s) :
    Lifecycle config s := by
  obtain ⟨hinv, hknown⟩ := known_reachable h
  refine
    { single := fun i j provider reference hi hj => ?_
      returned := fun i plan available now => hinv.begin_active hknown available now
      begun := fun i => hinv.mem_concluded_iff
      once := hinv.nodup
      ends := fun i => hinv.endsOnce
      ended := fun i action t => ended_step hinv
      concludes := fun i => Ended.concludes hinv
      moves := fun i => hinv.moves
      subscribed := fun i => hinv.newFeed_active
      received := fun feed hfeed hlive hgone => ?_
      recent := fun i => hinv.newFeed_recent
      closed := fun feed hfeed hlive hgone => ?_
      entries := fun i hentry => ?_
      flights := fun key i hflight => ?_ }
  · let plan : Plan :=
      { provider, reference, displayName := "", totalBytes := none, remainingBytes := none }
    have hfi : s.inFlight (flightKey plan) = some i := (hinv.flight_of_active hi).1
    have hfj : s.inFlight (flightKey plan) = some j := (hinv.flight_of_active hj).1
    exact Option.some.inj (hfi.symm.trans hfj)
  · obtain ⟨n, hn⟩ := List.getElem?_of_mem hfeed
    obtain ⟨hhistory, hbegun, -, hclosed, -⟩ := hinv.feeds n feed hn
    have hreceived := hhistory.received hgone
    rw [hlive, if_pos rfl, hhistory.replayed hlive] at hreceived
    refine ⟨hreceived, fun hmem => ⟨?_, ?_⟩⟩
    · exact hclosed hgone ((hinv.mem_concluded_iff (hbegun hlive)).1 hmem)
    · rw [hreceived]
      exact endsOnce_received (hinv.endsOnce hmem).2 (hhistory.running hlive)
  · obtain ⟨n, hn⟩ := List.getElem?_of_mem hfeed
    obtain ⟨hhistory, -, -, -, hopen⟩ := hinv.feeds n feed hn
    have hreceived := hhistory.received hgone
    rw [hlive] at hreceived
    refine ⟨by simpa using hreceived, ?_⟩
    by_contra hyes
    rw [Bool.not_eq_false] at hyes
    rw [hopen hyes] at hlive
    cases hlive
  · have hpresent : ¬ Absent s i := by
      rintro ⟨-, hphases, hsubscribers, hcancels, hkeeps⟩
      simp [hphases, hsubscribers, hcancels, hkeeps] at hentry
    cases hinv.ids i with
    | unused _ _ habsent => exact absurd habsent hpresent
    | concluded _ _ _ _ habsent => exact absurd habsent hpresent
    | active _ _ _ _ _ ha => simp [ha.installs]
  · obtain ⟨task, htask, hpc, hkey⟩ := (hinv.flights key i).1 hflight
    obtain ⟨-, install, ha⟩ := hinv.active htask hpc
    refine ⟨install, ha.installs, ?_⟩
    rw [← hkey, flightKey, ha.provider, ha.reference]

end

/-! ## One install -/

def smallPlan : Plan :=
  { provider := "huggingface", reference := "org/model", displayName := "model"
    totalBytes := some 20, remainingBytes := some 10 }

def oneProvider : Config :=
  { providers := ["huggingface"], required := id, text := fun _ => "the download failed" }

/-- An install that downloads ten bytes, tells a status, and then gets a subscriber. -/
def lateSubscriber : List Action :=
  [.begin smallPlan 100 0, .task 0, .push 0 (.ok (.progress { bytesDownloaded := 10 })), .task 0,
    .task 0, .push 0 (.ok (.status "Verifying")), .task 0, .task 0, .events 0]

/-- It is cancelled, and the subscriber has its end. -/
theorem cancelled_install_lives :
    ∃ s, Transition.run (step oneProvider) {}
        (lateSubscriber ++ [Action.cancel 0, Action.task 0, Action.task 0, Action.task 0]) =
          some s ∧
      s.concluded = [0] ∧ s.feeds.map Feed.received =
        [[.status "Verifying", .progress { bytesDownloaded := 10 }, .cancelled]] ∧
      Lifecycle oneProvider s := by
  have hrun : (Transition.run (step oneProvider) {}
      (lateSubscriber ++ [Action.cancel 0, Action.task 0, Action.task 0, Action.task 0])).map
        (fun s => (s.concluded, s.feeds.map Feed.received)) =
      some ([0], [[.status "Verifying", .progress { bytesDownloaded := 10 }, .cancelled]]) := by
    decide +kernel
  rw [Option.map_eq_some_iff] at hrun
  obtain ⟨s, hs, hend⟩ := hrun
  rw [Prod.mk.injEq] at hend
  exact ⟨s, hs, hend.1, hend.2, install_lifecycle (Transition.Reachable.run (.init rfl) hs)⟩

/-- The state that is replayed is not in the order in which it came about: the status is given
before the progress, which was emitted first. -/
theorem replay_not_in_order :
    ∃ s, Transition.Reachable (step oneProvider) (· = {}) s ∧
      ∃ feed ∈ s.feeds, feed.live = true ∧ ¬ feed.received.Sublist (s.emitted feed.install) := by
  have hrun : (Transition.run (step oneProvider) {} lateSubscriber).any
      (fun s => s.feeds.any fun feed =>
        feed.live && !decide (feed.received.Sublist (s.emitted feed.install))) = true := by
    decide +kernel
  rw [Option.any_eq_true_iff_get] at hrun
  obtain ⟨hsome, hfeeds⟩ := hrun
  obtain ⟨feed, hmem, hfeed⟩ := List.any_eq_true.1 hfeeds
  refine ⟨_, Transition.Reachable.run (.init rfl) (Option.some_get hsome).symm, feed, hmem, ?_⟩
  simpa using hfeed

end Hedos.Install.Service
