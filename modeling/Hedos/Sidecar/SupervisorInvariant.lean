import Hedos.Sidecar.Supervisor

/-!
# The supervisor's invariant

Two facts tie the tasks to the processes. The spawn lock of an id is held through the handshake
of `ensure_running`, so the process it has registered is the newest of its id until it returns.
And a session stands on a process only if the stream of that session acquired that process.
-/

namespace Hedos.Sidecar

open Function

variable {ν : Type}

/-! ## Tasks and generations -/

/-- The generation a stream acquired. -/
def Task.streamGeneration : Task → Option ℕ
  | .stream _ generation _ => generation
  | _ => none

def sessionGeneration (tasks : List Task) (session : ℕ) : Option ℕ :=
  (tasks[session]?).bind Task.streamGeneration

/-- The generation an `ensure_running` has registered. -/
def EnsurePc.generation : EnsurePc → Option ℕ
  | .handshake generation | .waiting generation _ | .expired generation | .failed generation =>
    some generation
  | _ => none

/-- The generation has not been replaced under its id. -/
def Current (s : Supervisor ν) (id : String) (generation : ℕ) : Prop :=
  ∀ process, s.processes id = some process → process.generation ≤ generation

/-! ## What a section does to the registered processes -/

/-- The section spawns nothing, and gives no process a session. -/
structure Evolves (s t : Supervisor ν) : Prop where
  tasks : t.tasks = s.tasks
  locks : t.spawnLocks = s.spawnLocks
  nextId : s.nextId ≤ t.nextId
  processes : ∀ id q, t.processes id = some q → ∃ p, s.processes id = some p ∧
    q.generation = p.generation ∧ (q.jobSession = p.jobSession ∨ q.jobSession = none) ∧
    ∀ w ∈ q.waiter, w ∈ p.waiter ∨ w < t.nextId

section Evolution

variable {s t : Supervisor ν} {id : String} {p q : Process ν}

theorem Evolves.refl (s : Supervisor ν) : Evolves s s :=
  ⟨rfl, rfl, le_refl _, fun _ q hq => ⟨q, hq, rfl, .inl rfl, fun _ hw => .inl hw⟩⟩

/-- Nobody is registered that was not. -/
theorem Evolves.of_erase (htasks : t.tasks = s.tasks) (hlocks : t.spawnLocks = s.spawnLocks)
    (hnext : t.nextId = s.nextId) (h : t.processes = update s.processes id none) :
    Evolves s t := by
  refine ⟨htasks, hlocks, hnext.ge, fun id' q hq => ?_⟩
  rw [h] at hq
  by_cases hid : id' = id
  · rw [hid, update_self] at hq
    cases hq
  · rw [update_of_ne hid] at hq
    exact ⟨q, hq, rfl, .inl rfl, fun _ hw => .inl hw⟩

/-- One process changes, and stays the process it is. -/
theorem Evolves.of_update (hp : s.processes id = some p) (htasks : t.tasks = s.tasks)
    (hlocks : t.spawnLocks = s.spawnLocks) (hnext : s.nextId ≤ t.nextId)
    (h : t.processes = update s.processes id (some q)) (hgeneration : q.generation = p.generation)
    (hsession : q.jobSession = p.jobSession ∨ q.jobSession = none)
    (hwaiter : ∀ w ∈ q.waiter, w ∈ p.waiter ∨ w < t.nextId) : Evolves s t := by
  refine ⟨htasks, hlocks, hnext, fun id' q' hq => ?_⟩
  rw [h] at hq
  by_cases hid : id' = id
  · rw [hid, update_self] at hq
    rw [hid, ← Option.some.inj hq]
    exact ⟨p, hp, hgeneration, hsession, hwaiter⟩
  · rw [update_of_ne hid] at hq
    exact ⟨q', hq, rfl, .inl rfl, fun _ hw => .inl hw⟩

end Evolution

namespace Supervisor

section Sections

variable {s : Supervisor ν} {id : String}

theorem kill_processes (s : Supervisor ν) (id : String) :
    (s.kill id).processes = update s.processes id none := by
  unfold kill
  cases h : s.processes id with
  | none => exact (update_eq_self_iff.2 h.symm).symm
  | some process => rfl

theorem kill_evolves (s : Supervisor ν) (id : String) : Evolves s (s.kill id) := by
  have hrest : (s.kill id).tasks = s.tasks ∧ (s.kill id).spawnLocks = s.spawnLocks ∧
      (s.kill id).nextId = s.nextId := by
    unfold kill
    split <;> exact ⟨rfl, rfl, rfl⟩
  exact Evolves.of_erase hrest.1 hrest.2.1 hrest.2.2 (kill_processes s id)

/-- What delivering frames keeps of the supervisor and of the process. -/
structure Delivers (s : Supervisor ν) (p : Process ν) (t : Supervisor ν) (q : Process ν) :
    Prop where
  processes : t.processes = s.processes
  tasks : t.tasks = s.tasks
  locks : t.spawnLocks = s.spawnLocks
  nextId : t.nextId = s.nextId
  generation : q.generation = p.generation
  jobSession : q.jobSession = p.jobSession
  waiter : ∀ w ∈ q.waiter, w ∈ p.waiter

theorem deliver_delivers (s : Supervisor ν) (p : Process ν) (frame : Frame ν) :
    Delivers s p (s.deliver p frame).1 (s.deliver p frame).2 := by
  unfold deliver
  split
  · exact ⟨rfl, rfl, rfl, rfl, rfl, rfl, fun _ h => h⟩
  · split <;> exact ⟨rfl, rfl, rfl, rfl, rfl, rfl, by simp⟩

theorem deliverAll_delivers (frames : List (Frame ν)) (s : Supervisor ν) (p : Process ν) :
    Delivers s p (s.deliverAll p frames).1 (s.deliverAll p frames).2 := by
  induction frames generalizing s p with
  | nil => exact ⟨rfl, rfl, rfl, rfl, rfl, rfl, fun _ h => h⟩
  | cons frame frames ih =>
    have hone := deliver_delivers s p frame
    have hrest := ih (s.deliver p frame).1 (s.deliver p frame).2
    show Delivers s p ((s.deliver p frame).1.deliverAll (s.deliver p frame).2 frames).1
      ((s.deliver p frame).1.deliverAll (s.deliver p frame).2 frames).2
    exact ⟨hrest.processes.trans hone.processes, hrest.tasks.trans hone.tasks,
      hrest.locks.trans hone.locks, hrest.nextId.trans hone.nextId,
      hrest.generation.trans hone.generation, hrest.jobSession.trans hone.jobSession,
      fun w hw => hone.waiter w (hrest.waiter w hw)⟩

theorem ingest_evolves (json : Json ν) (s : Supervisor ν) (id : String) (generation : ℕ)
    (data : Bytes) : Evolves s (s.ingest json id generation data).1 := by
  unfold ingest
  cases hp : s.processes id with
  | none => exact Evolves.refl s
  | some p =>
    simp only
    by_cases hgeneration : p.generation ≠ generation
    · rw [if_pos hgeneration]
      exact Evolves.refl s
    · rw [if_neg hgeneration]
      cases hdecode : p.decoder.append json data with
      | mk decoder outcome =>
        cases outcome with
        | error error =>
          simp only
          exact Evolves.of_update hp rfl rfl (le_refl _) rfl rfl (.inl rfl) (fun _ hw => .inl hw)
        | ok frames =>
          have hdeliver := deliverAll_delivers frames s { p with decoder := decoder }
          simp only
          refine Evolves.of_update hp hdeliver.tasks hdeliver.locks hdeliver.nextId.ge ?_
            hdeliver.generation (.inl hdeliver.jobSession) fun w hw => .inl (hdeliver.waiter w hw)
          show update _ id _ = update _ id _
          rw [hdeliver.processes]

theorem markEof_evolves (s : Supervisor ν) (id : String) (generation : ℕ) :
    Evolves s (s.markEof id generation) := by
  unfold markEof
  cases hp : s.processes id with
  | none => exact Evolves.refl s
  | some p =>
    simp only
    split
    · exact Evolves.refl s
    · exact Evolves.of_update hp rfl rfl (le_refl _) rfl rfl (.inl rfl) (by simp)

theorem nextFrame_evolves (s : Supervisor ν) (id : String) : Evolves s (s.nextFrame id).1 := by
  unfold nextFrame
  cases hp : s.processes id with
  | none => exact Evolves.refl s
  | some p =>
    simp only
    cases hbuffered : p.buffered with
    | cons frame buffered =>
      exact Evolves.of_update hp rfl rfl (le_refl _) rfl rfl (.inl rfl) (fun _ hw => .inl hw)
    | nil =>
      simp only
      split
      · exact Evolves.refl s
      · refine Evolves.of_update hp rfl rfl (Nat.le_succ _) rfl rfl (.inl rfl) fun w hw => ?_
        have hw' : s.nextId = w := by simpa using hw
        exact .inr (by rw [← hw']; exact Nat.lt_succ_self _)

theorem expireWaiter_evolves (s : Supervisor ν) (id : String) : Evolves s (s.expireWaiter id) := by
  unfold expireWaiter
  cases hp : s.processes id with
  | none => exact Evolves.refl s
  | some p => exact Evolves.of_update hp rfl rfl (le_refl _) rfl rfl (.inl rfl) (by simp)

theorem dropGuard_evolves (s : Supervisor ν) (id : String) (session : ℕ) :
    Evolves s (s.dropGuard id session) := by
  unfold dropGuard
  cases hp : s.processes id with
  | none => exact Evolves.refl s
  | some p =>
    simp only
    split
    · exact Evolves.of_update hp rfl rfl (le_refl _) rfl rfl (.inr rfl) (fun _ hw => .inl hw)
    · exact Evolves.refl s

theorem frameTimeout_evolves (s : Supervisor ν) (id : String) (session : ℕ) :
    Evolves s (s.frameTimeout id session) := by
  unfold frameTimeout
  split
  · exact Evolves.refl s
  · split
    · exact expireWaiter_evolves s id
    · exact Evolves.refl s

end Sections

end Supervisor

/-! ## The invariant -/

/-- `ensure_running` holds the spawn lock of its id. -/
def EnsurePc.locked : EnsurePc → Bool
  | .start | .done => false
  | _ => true

/-- The stream has not acquired a process yet. -/
def StreamPc.acquiring : StreamPc → Bool
  | .acquire | .parked _ => true
  | _ => false

def TaskInv (s : Supervisor ν) (i : ℕ) : Task → Prop
  | .ensure id pc =>
    (pc.locked = true → s.spawnLocks id = some i) ∧
      ∀ generation, pc.generation = some generation → Current s id generation
  | .stream _ generation pc => pc.acquiring = true → generation = none
  | _ => True

/-- The spawn lock keeps the handshake on the newest generation of its id, and a session on a
process is the session of a stream that acquired that process. -/
structure Inv (s : Supervisor ν) : Prop where
  tasks : ∀ i task, s.tasks[i]? = some task → TaskInv s i task
  owned : ∀ id p session, s.processes id = some p → p.jobSession = some session →
    sessionGeneration s.tasks session = some p.generation
  waiters : ∀ id p w, s.processes id = some p → w ∈ p.waiter → w < s.nextId

section Invariant

variable {s t : Supervisor ν} {i : ℕ} {old new : Task}

variable {pc : EnsurePc} {generation : ℕ} {id : String} {choice : Supervisor.Choice}

theorem EnsurePc.locked_of_generation (h : pc.generation = some generation) : pc.locked = true := by
  cases pc with
  | handshake | waiting | expired | failed => rfl
  | start | check | replace | spawn | done => cases h

/-- What task `i` may do to the locks and the processes of the others. -/
structure Respects (s t : Supervisor ν) (i : ℕ) : Prop where
  locks : ∀ j id, j ≠ i → s.spawnLocks id = some j → t.spawnLocks id = some j
  generations : ∀ j id q, j ≠ i → s.spawnLocks id = some j → t.processes id = some q →
    ∃ p, s.processes id = some p ∧ q.generation = p.generation

theorem Evolves.respects (h : Evolves s t) (i : ℕ) : Respects s t i := by
  refine ⟨fun j id _ hlock => by rw [h.locks, hlock], fun j id q _ _ hq => ?_⟩
  obtain ⟨p, hp, hgeneration, -⟩ := h.processes id q hq
  exact ⟨p, hp, hgeneration⟩

theorem TaskInv.respects {j : ℕ} {task : Task} (h : TaskInv s j task) (hne : j ≠ i)
    (hr : Respects s t i) : TaskInv t j task := by
  cases task with
  | ensure id pc =>
    refine ⟨fun hlocked => hr.locks j id hne (h.1 hlocked), fun generation hgeneration q hq => ?_⟩
    have hlock : s.spawnLocks id = some j := h.1 (EnsurePc.locked_of_generation hgeneration)
    obtain ⟨p, hp, hsame⟩ := hr.generations j id q hne hlock hq
    have hle : p.generation ≤ generation := h.2 generation hgeneration p hp
    rw [hsame]
    exact hle
  | stream id generation pc => exact h
  | reader | writer | watcher | watchdog => exact trivial

theorem sessionGeneration_set (hold : s.tasks[i]? = some old)
    (h : new.streamGeneration = old.streamGeneration) (session : ℕ) :
    sessionGeneration (s.tasks.set i new) session = sessionGeneration s.tasks session := by
  unfold sessionGeneration
  by_cases hi : i = session
  · subst hi
    have hlt : i < s.tasks.length := (List.getElem?_eq_some_iff.1 hold).1
    rw [List.getElem?_set_self hlt, hold]
    exact h
  · rw [List.getElem?_set_ne hi]

/-- A session that has acquired keeps its generation when tasks are added. -/
theorem sessionGeneration_append {session : ℕ} (more : List Task)
    (h : sessionGeneration s.tasks session = some generation) :
    sessionGeneration (s.tasks ++ more) session = some generation := by
  unfold sessionGeneration at h ⊢
  rw [Option.bind_eq_some_iff] at h
  obtain ⟨task, htask, hgeneration⟩ := h
  have hlt : session < s.tasks.length := (List.getElem?_eq_some_iff.1 htask).1
  rw [List.getElem?_append_left hlt, htask]
  exact hgeneration

/-- One section of task `i`, after which it is at `new`. -/
theorem Inv.goto (h : Inv s) (hold : s.tasks[i]? = some old) (hev : Evolves s t)
    (hstream : new.streamGeneration = old.streamGeneration)
    (hnew : TaskInv (t.goto i new) i new) : Inv (t.goto i new) := by
  have hset : (t.goto i new).tasks = s.tasks.set i new := by
    show t.tasks.set i new = s.tasks.set i new
    rw [hev.tasks]
  refine ⟨?_, ?_, ?_⟩
  · intro j task hj
    rw [hset] at hj
    obtain ⟨rfl, rfl⟩ | ⟨hne, hj⟩ := Lists.getElem?_set_cases hj
    · exact hnew
    · have hr := hev.respects i
      exact (h.tasks j task hj).respects hne.symm ⟨hr.locks, hr.generations⟩
  · intro id q session hq hsession
    obtain ⟨p, hp, hgeneration, hjob, -⟩ := hev.processes id q hq
    rw [hset, sessionGeneration_set hold hstream, hgeneration]
    cases hjob with
    | inl hsame => exact h.owned id p session hp (hsame ▸ hsession)
    | inr hnone => rw [hnone] at hsession; cases hsession
  · intro id q w hq hw
    obtain ⟨p, hp, -, -, hwaiter⟩ := hev.processes id q hq
    cases hwaiter w hw with
    | inl hold => exact lt_of_lt_of_le (h.waiters id p w hp hold) hev.nextId
    | inr hlt => exact hlt

/-- Tasks that hold no lock and no generation are started. -/
theorem Inv.append (h : Inv s) {more : List Task} (hmore : ∀ task ∈ more, ∀ i, TaskInv s i task) :
    Inv { s with tasks := s.tasks ++ more } := by
  refine ⟨fun j task hj => ?_, fun id p session hp hsession => ?_, h.waiters⟩
  · change (s.tasks ++ more)[j]? = some task at hj
    by_cases hlt : j < s.tasks.length
    · rw [List.getElem?_append_left hlt] at hj
      exact h.tasks j task hj
    · rw [List.getElem?_append_right (by omega)] at hj
      exact hmore task (List.mem_of_getElem? hj) j
  · exact sessionGeneration_append more (h.owned id p session hp hsession)

/-- A section that leaves the tasks where they are. -/
theorem Inv.evolves (h : Inv s) (hev : Evolves s t) : Inv t := by
  refine ⟨?_, ?_, ?_⟩
  · intro j task hj
    rw [hev.tasks] at hj
    exact (h.tasks j task hj).respects (Nat.succ_ne_self j).symm (hev.respects (j + 1))
  · intro id q session hq hsession
    obtain ⟨p, hp, hgeneration, hjob, -⟩ := hev.processes id q hq
    rw [hev.tasks, hgeneration]
    cases hjob with
    | inl hsame => exact h.owned id p session hp (hsame ▸ hsession)
    | inr hnone => rw [hnone] at hsession; cases hsession
  · intro id q w hq hw
    obtain ⟨p, hp, -, -, hwaiter⟩ := hev.processes id q hq
    cases hwaiter w hw with
    | inl hold => exact lt_of_lt_of_le (h.waiters id p w hp hold) hev.nextId
    | inr hlt => exact hlt

theorem Inv.unlock (h : Inv s) (hlock : s.spawnLocks id = some i)
    (hdone : s.tasks[i]? = some (.ensure id .done)) : Inv (s.unlock id) := by
  refine ⟨fun j task hj => ?_, h.owned, h.waiters⟩
  have hold := h.tasks j task hj
  cases task with
  | ensure id' pc =>
    refine ⟨fun hlocked => ?_, hold.2⟩
    have hlock' : s.spawnLocks id' = some j := hold.1 hlocked
    have hid : id' ≠ id := by
      intro hid
      rw [hid, hlock, Option.some.injEq] at hlock'
      rw [← hlock'] at hj
      have hpc : Task.ensure id .done = Task.ensure id' pc := Option.some.inj (hdone.symm.trans hj)
      cases hpc
      cases hlocked
    show update s.spawnLocks id none id' = some j
    rw [update_of_ne hid, hlock']
  | stream id' generation pc => exact hold
  | reader | writer | watcher | watchdog => exact trivial

theorem Inv.lock (h : Inv s) (hfree : s.spawnLocks id = none) :
    Inv { s with spawnLocks := update s.spawnLocks id (some i) } := by
  refine ⟨fun j task hj => ?_, h.owned, h.waiters⟩
  have hold := h.tasks j task hj
  cases task with
  | ensure id' pc =>
    refine ⟨fun hlocked => ?_, hold.2⟩
    have hlock : s.spawnLocks id' = some j := hold.1 hlocked
    have hid : id' ≠ id := by
      intro hid
      rw [hid, hfree] at hlock
      cases hlock
    show update s.spawnLocks id (some i) id' = some j
    rw [update_of_ne hid, hlock]
  | stream id' generation pc => exact hold
  | reader | writer | watcher | watchdog => exact trivial

theorem Inv.spawn (h : Inv s) (hlock : s.spawnLocks id = some i)
    (hpc : s.tasks[i]? = some (.ensure id .spawn)) : Inv (s.spawn id) := by
  have hspawned : Inv { s.setProcess id (some { generation := s.nextId }) with
      nextId := s.nextId + 1 } := by
    refine ⟨fun j task hj => ?_, fun id' p session hp hsession => ?_, fun id' p w hp hw => ?_⟩
    · have hold := h.tasks j task hj
      cases task with
      | ensure id' pc =>
        refine ⟨hold.1, fun generation hgeneration p hp => ?_⟩
        -- nobody else is past a spawn under this id
        have hid : id' ≠ id := by
          intro hid
          have hlock' := hold.1 (EnsurePc.locked_of_generation hgeneration)
          rw [hid, hlock, Option.some.injEq] at hlock'
          rw [← hlock'] at hj
          have heq : Task.ensure id .spawn = Task.ensure id' pc :=
            Option.some.inj (hpc.symm.trans hj)
          cases heq
          cases hgeneration
        change update s.processes id _ id' = some p at hp
        rw [update_of_ne hid] at hp
        exact hold.2 generation hgeneration p hp
      | stream id' generation pc => exact hold
      | reader | writer | watcher | watchdog => exact trivial
    · change update s.processes id _ id' = some p at hp
      by_cases hid : id' = id
      · rw [hid, update_self] at hp
        rw [← Option.some.inj hp] at hsession
        cases hsession
      · rw [update_of_ne hid] at hp
        exact h.owned id' p session hp hsession
    · change update s.processes id _ id' = some p at hp
      by_cases hid : id' = id
      · rw [hid, update_self] at hp
        rw [← Option.some.inj hp] at hw
        cases hw
      · rw [update_of_ne hid] at hp
        exact Nat.lt_succ_of_lt (h.waiters id' p w hp hw)
  refine hspawned.append ?_
  intro task htask j
  simp only [List.mem_cons, List.not_mem_nil, or_false] at htask
  cases htask with
  | inl hwriter => rw [hwriter]; exact trivial
  | inr hreader => rw [hreader]; exact trivial

/-! ## Every step keeps the invariant -/

/-- The section ends `ensure_running`, which gives the spawn lock back. -/
theorem Inv.returns (h : Inv s)
    (hold : s.tasks[i]? = some (.ensure id pc)) (hlocked : pc.locked = true) (hev : Evolves s t) :
    Inv ((t.unlock id).goto i (.ensure id .done)) := by
  have hlock : s.spawnLocks id = some i := (h.tasks i _ hold).1 hlocked
  have hdone : Inv (t.goto i (.ensure id .done)) :=
    h.goto hold hev rfl ⟨fun hl => absurd hl Bool.false_ne_true, fun _ hg => nomatch hg⟩
  have hlt : i < t.tasks.length := by
    rw [hev.tasks]
    exact (List.getElem?_eq_some_iff.1 hold).1
  refine hdone.unlock (i := i) ?_ ?_
  · show t.spawnLocks id = some i
    rw [hev.locks, hlock]
  · show (t.tasks.set i _)[i]? = _
    rw [List.getElem?_set_self hlt]

/-- The section takes `ensure_running` from one point under the lock to another. -/
theorem Inv.ensures {next : EnsurePc} (h : Inv s)
    (hold : s.tasks[i]? = some (.ensure id pc)) (hlocked : pc.locked = true) (hev : Evolves s t)
    (hgeneration : ∀ generation, next.generation = some generation →
      pc.generation = some generation) : Inv (t.goto i (.ensure id next)) := by
  have hinv := h.tasks i _ hold
  refine h.goto hold hev rfl ⟨fun _ => ?_, fun generation hg q hq => ?_⟩
  · show t.spawnLocks id = some i
    rw [hev.locks]
    exact hinv.1 hlocked
  · obtain ⟨p, hp, hsame, -⟩ := hev.processes id q hq
    rw [hsame]
    exact hinv.2 generation (hgeneration generation hg) p hp

theorem Inv.ensureStep (h : Inv s)
    (hold : s.tasks[i]? = some (.ensure id pc)) (ht : s.ensureStep i id choice pc = some t) :
    Inv t := by
  have hrefl := Evolves.refl s
  cases pc with
  | start =>
    simp only [Supervisor.ensureStep, Option.ite_some_none_eq_some] at ht
    obtain ⟨hfree, rfl⟩ := ht
    refine (h.lock hfree).goto hold (Evolves.refl _) rfl ⟨fun _ => ?_, fun _ hg => nomatch hg⟩
    exact update_self id (some i) s.spawnLocks
  | check =>
    simp only [Supervisor.ensureStep] at ht
    cases hp : s.processes id with
    | none =>
      rw [hp] at ht
      cases ht
      exact h.ensures hold rfl hrefl fun _ hg => nomatch hg
    | some p =>
      rw [hp] at ht
      simp only at ht
      split at ht
      · cases ht
        exact h.returns hold rfl hrefl
      · cases ht
        exact h.ensures hold rfl hrefl fun _ hg => nomatch hg
  | replace =>
    cases ht
    exact h.ensures hold rfl (Supervisor.kill_evolves s id) fun _ hg => nomatch hg
  | spawn =>
    simp only [Supervisor.ensureStep] at ht
    split at ht
    · cases ht
      have hlock : s.spawnLocks id = some i := (h.tasks i _ hold).1 rfl
      have hold' : (s.spawn id).tasks[i]? = some (.ensure id .spawn) := by
        have hlt : i < s.tasks.length := (List.getElem?_eq_some_iff.1 hold).1
        show (s.tasks ++ _)[i]? = _
        rw [List.getElem?_append_left hlt, hold]
      refine (h.spawn hlock hold).goto hold' (Evolves.refl _) rfl ⟨fun _ => hlock, ?_⟩
      intro generation hg p hp
      have hp' : some { generation := s.nextId } = some p := by
        rw [← hp]
        exact (update_self id _ s.processes).symm
      cases hp'
      exact (Option.some.inj hg).le
    · cases ht
      exact h.returns hold rfl hrefl
  | handshake generation =>
    have hev := Supervisor.nextFrame_evolves s id
    simp only [Supervisor.ensureStep] at ht
    cases hframe : s.nextFrame id with
    | mk u next =>
      rw [hframe] at ht hev
      cases next with
      | wait receiver =>
        cases ht
        exact h.ensures hold rfl hev fun _ hg => hg
      | nothing =>
        cases ht
        exact h.ensures hold rfl hev fun _ hg => hg
      | frame frame =>
        simp only at ht
        split at ht
        · cases ht
          exact h.returns hold rfl hev
        · cases ht
          exact h.ensures hold rfl hev fun _ hg => hg
  | waiting generation receiver =>
    simp only [Supervisor.ensureStep] at ht
    split at ht
    · split at ht
      · cases ht
        exact h.returns hold rfl hrefl
      · cases ht
        exact h.ensures hold rfl hrefl fun _ hg => hg
    · cases ht
      exact h.ensures hold rfl hrefl fun _ hg => hg
    · cases ht
      have hev : Evolves s { s with receiverGone := update s.receiverGone receiver true } :=
        ⟨rfl, rfl, le_refl _, hrefl.processes⟩
      exact h.ensures hold rfl hev fun _ hg => hg
  | expired generation =>
    cases ht
    exact h.ensures hold rfl (Supervisor.expireWaiter_evolves s id) fun _ hg => hg
  | failed generation =>
    cases ht
    exact h.returns hold rfl (Supervisor.kill_evolves s id)
  | done => cases ht

theorem Inv.readerStep {json : Json ν} {pc : ReaderPc} (h : Inv s)
    (hold : s.tasks[i]? = some (.reader id generation pc))
    (ht : s.readerStep json i id generation choice pc = some t) : Inv t := by
  cases pc with
  | reading =>
    cases choice with
    | yes => cases ht
    | no =>
      cases ht
      exact h.goto hold (Supervisor.markEof_evolves s id generation) rfl trivial
    | data bytes =>
      cases ht
      exact h.goto hold (Supervisor.ingest_evolves json s id generation bytes) rfl trivial
  | kill =>
    cases ht
    exact h.goto hold (Supervisor.kill_evolves s id) rfl trivial
  | done => cases ht

theorem Inv.writerStep (h : Inv s) (hold : s.tasks[i]? = some (.writer id generation false))
    (ht : s.writerStep i id generation choice = some t) : Inv t := by
  have hended : Evolves s { s with writerGone := update s.writerGone generation true } :=
    ⟨rfl, rfl, le_refl _, (Evolves.refl s).processes⟩
  cases choice with
  | yes =>
    simp only [Supervisor.writerStep, Option.ite_none_left_eq_some, Option.some.injEq] at ht
    obtain ⟨-, rfl⟩ := ht
    exact h.evolves ⟨rfl, rfl, le_refl _, (Evolves.refl s).processes⟩
  | no =>
    simp only [Supervisor.writerStep, Option.ite_none_left_eq_some, Option.some.injEq] at ht
    obtain ⟨-, rfl⟩ := ht
    have hkill := Supervisor.kill_evolves
      { s with writerGone := update s.writerGone generation true } id
    have hev : Evolves s ({ s with
        writerGone := update s.writerGone generation true }.kill id) :=
      ⟨hkill.tasks, hkill.locks, hkill.nextId, hkill.processes⟩
    exact h.goto hold hev rfl trivial
  | data bytes =>
    simp only [Supervisor.writerStep, Option.ite_some_none_eq_some] at ht
    obtain ⟨-, rfl⟩ := ht
    exact h.goto hold hended rfl trivial

/-- A stream acquires a free process: the session and the generation are written together. -/
theorem Inv.acquire {p : Process ν} (h : Inv s)
    (hold : s.tasks[i]? = some (.stream id none .acquire)) (hp : s.processes id = some p) :
    Inv ((s.setProcess id (some { p with busy := true, jobSession := some i })).goto i
      (.stream id (some p.generation) .send)) := by
  have hlt : i < s.tasks.length := (List.getElem?_eq_some_iff.1 hold).1
  -- the stream had no generation, so no process carried its session
  have hfree : ∀ id' q, s.processes id' = some q → q.jobSession ≠ some i := by
    intro id' q hq hjob
    have hown := h.owned id' q i hq hjob
    simp [sessionGeneration, hold, Task.streamGeneration] at hown
  refine ⟨fun j task hj => ?_, fun id' q session hq hsession => ?_, fun id' q w hq hw => ?_⟩
  · change (s.tasks.set i _)[j]? = some task at hj
    obtain ⟨rfl, rfl⟩ | ⟨hne, hj⟩ := Lists.getElem?_set_cases hj
    · exact fun hacquiring => absurd hacquiring Bool.false_ne_true
    · refine (h.tasks j task hj).respects hne.symm ⟨fun _ _ _ hlock => hlock, ?_⟩
      intro j' id' q' _ _ hq
      change update s.processes id _ id' = some q' at hq
      by_cases hid : id' = id
      · rw [hid, update_self] at hq
        rw [hid]
        exact ⟨p, hp, by rw [← Option.some.inj hq]⟩
      · rw [update_of_ne hid] at hq
        exact ⟨q', hq, rfl⟩
  · change update s.processes id _ id' = some q at hq
    show ((s.tasks.set i _)[session]?).bind Task.streamGeneration = some q.generation
    by_cases hid : id' = id
    · rw [hid, update_self] at hq
      rw [← Option.some.inj hq] at hsession ⊢
      have hme : i = session := Option.some.inj hsession
      rw [← hme, List.getElem?_set_self hlt]
      rfl
    · rw [update_of_ne hid] at hq
      have hne : i ≠ session := by
        intro hme
        rw [← hme] at hsession
        exact hfree id' q hq hsession
      rw [List.getElem?_set_ne hne]
      exact h.owned id' q session hq hsession
  · change update s.processes id _ id' = some q at hq
    by_cases hid : id' = id
    · rw [hid, update_self] at hq
      rw [← Option.some.inj hq] at hw
      exact h.waiters id p w hp hw
    · rw [update_of_ne hid] at hq
      exact h.waiters id' q w hq hw

/-- A section of a stream that has acquired, or found nothing to acquire. -/
theorem Inv.streams {generation : Option ℕ} {pc next : StreamPc} (h : Inv s)
    (hold : s.tasks[i]? = some (.stream id generation pc)) (hev : Evolves s t)
    (hnext : next.acquiring = true → generation = none) :
    Inv (t.goto i (.stream id generation next)) :=
  h.goto hold hev rfl hnext

theorem Inv.streamStep {generation : Option ℕ} {pc : StreamPc} (h : Inv s)
    (hold : s.tasks[i]? = some (.stream id generation pc))
    (ht : s.streamStep i id generation choice pc = some t) : Inv t := by
  have hrefl := Evolves.refl s
  have hafter : ∀ c, (Supervisor.afterFrame c).acquiring = true → generation = none := by
    intro c hc
    cases c <;> cases hc
  cases pc with
  | acquire =>
    have hnone : generation = none := h.tasks i _ hold rfl
    subst hnone
    simp only [Supervisor.streamStep] at ht
    cases hp : s.processes id with
    | none =>
      rw [hp] at ht
      cases ht
      exact h.streams hold hrefl fun _ => rfl
    | some p =>
      rw [hp] at ht
      simp only at ht
      split at ht
      · cases ht
        refine h.streams hold ?_ fun _ => rfl
        exact Evolves.of_update hp rfl rfl (Nat.le_succ _) rfl rfl (.inl rfl) fun _ hw => .inl hw
      · cases ht
        exact h.acquire hold hp
  | parked receiver =>
    have hnone : generation = none := h.tasks i _ hold rfl
    subst hnone
    simp only [Supervisor.streamStep, Option.ite_some_none_eq_some] at ht
    obtain ⟨-, rfl⟩ := ht
    exact h.streams hold hrefl fun _ => rfl
  | send =>
    simp only [Supervisor.streamStep] at ht
    split at ht
    · cases ht
      exact h.streams hold hrefl nofun
    · split at ht
      · cases ht
        exact h.streams hold hrefl nofun
      · split at ht
        · cases ht
          exact h.streams hold hrefl nofun
        · split at ht
          · cases ht
            exact h.streams hold hrefl nofun
          · cases ht
            have hlt : i < s.tasks.length := (List.getElem?_eq_some_iff.1 hold).1
            have hmore : Inv { s with tasks := s.tasks ++ [Task.watchdog id i] } :=
              h.append fun task htask j => by rw [List.mem_singleton.1 htask]; trivial
            have hold' : (s.tasks ++ [Task.watchdog id i])[i]? =
                some (.stream id generation .send) := by
              rw [List.getElem?_append_left hlt, hold]
            exact hmore.goto hold' ⟨rfl, rfl, le_refl _, hrefl.processes⟩ rfl nofun
  | pump =>
    have hev := Supervisor.nextFrame_evolves s id
    simp only [Supervisor.streamStep] at ht
    cases hframe : s.nextFrame id with
    | mk u next =>
      rw [hframe] at ht hev
      cases next with
      | wait receiver =>
        cases ht
        exact h.streams hold hev nofun
      | nothing =>
        cases ht
        exact h.streams hold hev nofun
      | frame frame =>
        cases ht
        exact h.streams hold hev (hafter choice)
  | waiting receiver =>
    simp only [Supervisor.streamStep] at ht
    split at ht
    · cases ht
    · cases ht
      exact h.streams hold hrefl nofun
    · cases ht
      exact h.streams hold hrefl (hafter choice)
  | exit =>
    simp only [Supervisor.streamStep] at ht
    split at ht
    · cases ht
      exact h.streams hold hrefl nofun
    · cases ht
      refine h.streams hold hrefl fun hc => ?_
      split at hc <;> cases hc
  | kill =>
    cases ht
    exact h.streams hold (Supervisor.kill_evolves s id) nofun
  | release =>
    cases ht
    exact h.streams hold (Supervisor.dropGuard_evolves s id i) nofun
  | done => cases ht

theorem Inv.watcherStep {session : ℕ} {pc : WatcherPc}
    (h : Inv s) (hold : s.tasks[i]? = some (.watcher id session pc))
    (ht : s.watcherStep i id session choice pc = some t) : Inv t := by
  have hrefl := Evolves.refl s
  cases pc with
  | watching | armed =>
    cases ht
    exact h.goto hold hrefl rfl trivial
  | send =>
    simp only [Supervisor.watcherStep] at ht
    split at ht
    · cases ht
      exact h.goto hold hrefl rfl trivial
    · split at ht
      · cases ht
        exact h.goto hold hrefl rfl trivial
      · split at ht
        · cases ht
          exact h.goto hold hrefl rfl trivial
        · cases ht
          exact h.goto hold ⟨rfl, rfl, le_refl _, hrefl.processes⟩ rfl trivial
  | failed | kill =>
    cases ht
    exact h.goto hold (Supervisor.kill_evolves s id) rfl trivial
  | done => cases ht

theorem Inv.step {json : Json ν} {action : Supervisor.Action} (h : Inv s)
    (ht : s.step json action = some t) : Inv t := by
  cases action with
  | ensure id =>
    cases ht
    refine h.append fun task htask j => ?_
    rw [List.mem_singleton.1 htask]
    exact ⟨fun hl => absurd hl Bool.false_ne_true, fun _ hg => nomatch hg⟩
  | request id =>
    cases ht
    refine h.append fun task htask j => ?_
    simp only [List.mem_cons, List.not_mem_nil, or_false] at htask
    cases htask with
    | inl hstream => rw [hstream]; exact fun _ => rfl
    | inr hwatcher => rw [hwatcher]; exact trivial
  | exited id =>
    simp only [Supervisor.step] at ht
    split at ht
    · cases ht
      exact h
    · rename_i p hp
      cases ht
      exact h.evolves
        (Evolves.of_update hp rfl rfl (le_refl _) rfl rfl (.inl rfl) fun _ hw => .inl hw)
  | kill id =>
    cases ht
    exact h.evolves (Supervisor.kill_evolves s id)
  | task i choice =>
    simp only [Supervisor.step] at ht
    cases htask : s.tasks[i]? with
    | none => rw [htask] at ht; cases ht
    | some task =>
      rw [htask] at ht
      cases task with
      | ensure id pc => exact h.ensureStep htask ht
      | reader id generation pc => exact h.readerStep htask ht
      | writer id generation ended =>
        cases ended with
        | false => exact h.writerStep htask ht
        | true => cases ht
      | stream id generation pc => exact h.streamStep htask ht
      | watcher id session pc => exact h.watcherStep htask ht
      | watchdog id session =>
        cases ht
        exact h.evolves (Supervisor.frameTimeout_evolves s id session)

end Invariant

end Hedos.Sidecar
