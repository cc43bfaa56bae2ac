import Mathlib.Data.List.Nodup
import Hedos.Install.Service

/-!
# The life of an install

The invariant of the install service (`Inv`), and what it gives: one active install for each
reference, one conclusion for each install, feeds that lose and repeat nothing, and no entry left
behind in any of the maps.

* `IdOk` says what the maps hold for one id, `FeedOk` what a feed has received;
* `inv_step` is the case analysis over the steps, by what they do to the state: a task moves
  (`Inv.task_moves`), an event is emitted (`Inv.emission`), an install is concluded
  (`Inv.conclude`) or begun (`Inv.begun`), a feed is opened or dropped.
-/

namespace Hedos.Install.Service

open Function

/-! ## What was emitted -/

/-- The phase a feed is given first. -/
def lastPhase (events : List Event) : Option Event := (events.filter Event.isPhase).getLast?

def lastProgress (events : List Event) : Progress :=
  ((events.filterMap Event.asProgress).getLast?).getD {}

/-- The current state of an install, from what it has emitted. -/
def snapshot (events : List Event) : List Event := replay (lastPhase events) (lastProgress events)

theorem lastPhase_phase (events : List Event) {event : Event} (h : event.isPhase = true) :
    lastPhase (events ++ [event]) = some event := by
  simp [lastPhase, h]

theorem lastProgress_phase (events : List Event) {event : Event} (h : event.isPhase = true) :
    lastProgress (events ++ [event]) = lastProgress events := by
  have hnone : event.asProgress = none := by
    cases event <;> first | rfl | cases h
  simp [lastProgress, hnone]

theorem lastPhase_progress (events : List Event) (progress : Progress) :
    lastPhase (events ++ [Event.progress progress]) = lastPhase events := by
  simp [lastPhase, Event.isPhase]

theorem lastProgress_progress (events : List Event) (progress : Progress) :
    lastProgress (events ++ [Event.progress progress]) = progress := by
  simp [lastProgress, Event.asProgress]

/-! ## The invariant -/

/-- The maps hold nothing for the id. -/
structure Absent (s : State) (i : ℕ) : Prop where
  installs : s.installs i = none
  phases : s.phases i = none
  subscribers : s.subscribers i = none
  cancels : s.cancels i = false
  keeps : s.keeps i = false

/-- The events of a concluded install: one terminal event, last. -/
def EndsOnce (events : List Event) : Prop :=
  ∃ (front : List Event) (last : Event), events = front ++ [last] ∧ last.isTerminal = true ∧
    ∀ event ∈ front, event.isTerminal = false

/-- What the maps hold for an active install. -/
structure Active (s : State) (i : ℕ) (task : Task) (install : ActiveInstall) : Prop where
  installs : s.installs i = some install
  provider : install.provider = task.plan.provider
  reference : install.reference = task.plan.reference
  phases : s.phases i = lastPhase (s.emitted i)
  progress : install.progress = lastProgress (s.emitted i)
  cancels : s.cancels i = true
  keeps : s.keeps i = true
  running : ∀ event ∈ s.emitted i, event.isTerminal = false
  ending : ∀ terminal failure, task.pc = .dropping terminal failure ∨
    task.pc = .concluding terminal failure → terminal.isTerminal = true

/-- An id is not given out yet, or active, or concluded. -/
inductive IdOk (s : State) (i : ℕ) : Prop
  | unused (hid : s.nextId ≤ i) (htask : s.tasks i = none) (habsent : Absent s i)
      (hemitted : s.emitted i = [])
  | active (task : Task) (install : ActiveInstall) (hid : i < s.nextId)
      (htask : s.tasks i = some task) (hpc : task.pc ≠ .finished)
      (hactive : Active s i task install)
  | concluded (task : Task) (hid : i < s.nextId) (htask : s.tasks i = some task)
      (hpc : task.pc = .finished) (habsent : Absent s i) (hemitted : EndsOnce (s.emitted i))

/-- What a feed has received of what was emitted: a snapshot when it began, then everything. -/
structure FeedHistory (emitted : ℕ → List Event) (feed : Feed) : Prop where
  since : feed.live = true → feed.since ≤ (emitted feed.install).length
  replayed : feed.live = true → feed.replayed = snapshot ((emitted feed.install).take feed.since)
  running : feed.live = true → ∀ event ∈ (emitted feed.install).take feed.since,
    event.isTerminal = false
  received : feed.gone = false → feed.received = feed.replayed ++
    if feed.live then (emitted feed.install).drop feed.since else []

/-- The feed with the number `n`. -/
structure FeedOk (s : State) (n : ℕ) (feed : Feed) : Prop where
  history : FeedHistory s.emitted feed
  begun : feed.live = true → feed.install < s.nextId
  subscribed : feed.live = true → feed.gone = false → (s.installs feed.install).isSome = true →
    ∃ tokens, s.subscribers feed.install = some tokens ∧ n ∈ tokens
  closed : feed.gone = false → s.installs feed.install = none → feed.isOpen = false
  live : feed.isOpen = true → feed.live = true

/-- The install of the id is begun and not concluded. -/
def IsRunning (s : State) (i : ℕ) (key : String) : Prop :=
  ∃ task, s.tasks i = some task ∧ task.pc ≠ .finished ∧ flightKey task.plan = key

structure Inv (s : State) : Prop where
  ids : ∀ i, IdOk s i
  flights : ∀ key i, s.inFlight key = some i ↔ IsRunning s i key
  nodup : s.concluded.Nodup
  concluded : ∀ i, i ∈ s.concluded ↔ ∃ task, s.tasks i = some task ∧ task.pc = .finished
  order : s.terminalOrder = s.concluded.drop (s.concluded.length - terminalHistoryLimit)
  terminal : ∀ i, s.terminal i = if i ∈ s.terminalOrder then (s.emitted i).getLast? else none
  failures : ∀ i, (s.failures i).isSome = true → i ∈ s.terminalOrder
  feeds : ∀ n feed, s.feeds[n]? = some feed → FeedOk s n feed
  tokens : ∀ i tokens n, s.subscribers i = some tokens → n ∈ tokens →
    ∃ feed, s.feeds[n]? = some feed ∧ feed.install = i ∧ feed.live = true

theorem inv_init : Inv {} where
  ids i := .unused (Nat.zero_le i) rfl ⟨rfl, rfl, rfl, rfl, rfl⟩ rfl
  flights key i := by simp [IsRunning]
  nodup := List.nodup_nil
  concluded i := by simp
  order := rfl
  terminal _ := rfl
  failures _ h := by cases h
  feeds n feed h := by simp at h
  tokens i tokens n h := by cases h

/-! ## A task moves -/

section

variable {s s' : State} {i : ℕ} {task task' : Task}

variable {j : ℕ}

/-- What holds for an id only depends on what the maps hold for it. -/
theorem IdOk.congr (h : IdOk s j) (hid : j < s'.nextId ↔ j < s.nextId)
    (htask : s'.tasks j = s.tasks j) (hinstalls : s'.installs j = s.installs j)
    (hphases : s'.phases j = s.phases j)
    (hsubscribers : s.subscribers j = none → s.installs j = none → s'.subscribers j = none)
    (hcancels : s'.cancels j = s.cancels j) (hkeeps : s'.keeps j = s.keeps j)
    (hemitted : s'.emitted j = s.emitted j) : IdOk s' j := by
  have habsent : Absent s j → Absent s' j := fun h =>
    ⟨hinstalls.trans h.installs, hphases.trans h.phases, hsubscribers h.subscribers h.installs,
      hcancels.trans h.cancels, hkeeps.trans h.keeps⟩
  cases h with
  | unused hj hnone ha he =>
    exact .unused (by omega) (htask.trans hnone) (habsent ha) (hemitted.trans he)
  | active task install hj hsome hpc ha =>
    refine .active task install (by omega) (htask.trans hsome) hpc ?_
    exact ⟨hinstalls.trans ha.installs, ha.provider, ha.reference,
      by rw [hphases, hemitted]; exact ha.phases, by rw [hemitted]; exact ha.progress,
      hcancels.trans ha.cancels, hkeeps.trans ha.keeps, by rw [hemitted]; exact ha.running,
      ha.ending⟩
  | concluded task hj hsome hpc ha he =>
    exact .concluded task (by omega) (htask.trans hsome) hpc (habsent ha) (by rwa [hemitted])

/-- The maps of an install whose task has not finished. -/
theorem Inv.active (h : Inv s) (htask : s.tasks i = some task) (hpc : task.pc ≠ .finished) :
    i < s.nextId ∧ ∃ install, Active s i task install := by
  cases h.ids i with
  | unused _ hnone => rw [hnone] at htask; cases htask
  | active other install hid hsome _ ha =>
    obtain rfl := Option.some.inj (hsome.symm.trans htask)
    exact ⟨hid, install, ha⟩
  | concluded other _ hsome hfinished =>
    obtain rfl := Option.some.inj (hsome.symm.trans htask)
    exact absurd hfinished hpc

theorem isRunning_setTask {key : String} (htask : s.tasks i = some task)
    (hplan : task'.plan = task.plan) (hpc : task'.pc = .finished ↔ task.pc = .finished) :
    IsRunning (setTask s i task') j key ↔ IsRunning s j key := by
  by_cases hj : j = i
  · subst hj
    simp [IsRunning, setTask, htask, hplan, hpc]
  · simp [IsRunning, setTask, update_of_ne hj]

theorem finished_setTask (htask : s.tasks i = some task)
    (hpc : task'.pc = .finished ↔ task.pc = .finished) :
    (∃ t, (setTask s i task').tasks j = some t ∧ t.pc = .finished) ↔
      ∃ t, s.tasks j = some t ∧ t.pc = .finished := by
  by_cases hj : j = i
  · subst hj
    simp [setTask, htask, hpc]
  · simp [setTask, update_of_ne hj]

/-- A task that moves changes nothing for the others. -/
theorem Inv.task_moves (h : Inv s) (htask : s.tasks i = some task) (hplan : task'.plan = task.plan)
    (hpc : task.pc ≠ .finished) (hpc' : task'.pc ≠ .finished)
    (hending : ∀ terminal failure, task'.pc = .dropping terminal failure ∨
      task'.pc = .concluding terminal failure → terminal.isTerminal = true) :
    Inv (setTask s i task') := by
  have hsame : task'.pc = .finished ↔ task.pc = .finished := iff_of_false hpc' hpc
  refine ⟨fun j => ?_, fun key j => ?_, h.nodup, fun j => ?_, h.order, h.terminal, h.failures,
    fun n feed hfeed => ?_, h.tokens⟩
  · by_cases hj : j = i
    · subst hj
      obtain ⟨hid, install, ha⟩ := h.active htask hpc
      refine .active task' install hid (by simp [setTask]) hpc' ?_
      exact ⟨ha.installs, by rw [hplan]; exact ha.provider, by rw [hplan]; exact ha.reference,
        ha.phases, ha.progress, ha.cancels, ha.keeps, ha.running, hending⟩
    · exact (h.ids j).congr Iff.rfl (by simp [setTask, update_of_ne hj]) rfl rfl
        (fun hnone _ => hnone) rfl rfl rfl
  · exact (h.flights key j).trans (isRunning_setTask htask hplan hsame).symm
  · exact (h.concluded j).trans (finished_setTask htask hsame).symm
  · obtain ⟨hhistory, hbegun, hsubscribed, hclosed, hlive⟩ := h.feeds n feed hfeed
    exact ⟨hhistory, hbegun, hsubscribed, hclosed, hlive⟩

end

/-! ## An event is emitted -/

section

variable {s : State} {i : ℕ} {event : Event}

theorem send_nil (feeds : List Feed) : send [] event feeds = feeds := by
  refine List.ext_getElem? fun n => ?_
  simp [send]

/-- The three fields an emission changes. -/
theorem emit_eq (s : State) (i : ℕ) (event : Event) :
    emit s i event =
      { s with
        emitted := update s.emitted i (s.emitted i ++ [event])
        feeds := send ((s.subscribers i).getD []) event s.feeds
        subscribers := update s.subscribers i
          ((s.subscribers i).map (·.filter fun n => !isGone s.feeds n)) } := by
  unfold emit
  simp only
  split
  · rename_i hnone
    rw [hnone, Option.getD_none, send_nil, Option.map_none, ← hnone, update_eq_self]
  · rename_i tokens hsome
    rw [hsome, Option.getD_some, Option.map_some]

variable {tokens : List ℕ} {feeds : List Feed} {n : ℕ} {feed old : Feed}

theorem getElem?_send (h : (send tokens event feeds)[n]? = some feed) :
    ∃ old, feeds[n]? = some old ∧
      ((n ∈ tokens ∧ old.gone = false ∧ feed = { old with received := old.received ++ [event] }) ∨
        ((n ∉ tokens ∨ old.gone = true) ∧ feed = old)) := by
  rw [send, List.getElem?_mapIdx, Option.map_eq_some_iff] at h
  obtain ⟨old, hold, rfl⟩ := h
  refine ⟨old, hold, ?_⟩
  split
  · rename_i hsent
    simp only [Bool.and_eq_true, List.contains_iff_mem, Bool.not_eq_true'] at hsent
    exact .inl ⟨hsent.1, hsent.2, rfl⟩
  · rename_i hsent
    simp only [Bool.and_eq_true, List.contains_iff_mem, Bool.not_eq_true', not_and,
      Bool.not_eq_false] at hsent
    by_cases hn : n ∈ tokens
    · exact .inr ⟨.inr (hsent hn), rfl⟩
    · exact .inr ⟨.inl hn, rfl⟩

/-- A feed that is sent an event has it behind the others; one that is not sent it does not need
it. -/
theorem FeedHistory.emit {emitted : ℕ → List Event}
    (h : FeedHistory emitted old) (htoken : n ∈ tokens → old.install = i ∧ old.live = true)
    (hreached : old.live = true → old.gone = false → old.install = i → n ∈ tokens)
    (hfeed : (n ∈ tokens ∧ old.gone = false ∧
        feed = { old with received := old.received ++ [event] }) ∨
      ((n ∉ tokens ∨ old.gone = true) ∧ feed = old)) :
    FeedHistory (update emitted i (emitted i ++ [event])) feed := by
  rcases hfeed with ⟨hn, hgone, rfl⟩ | ⟨hnot, rfl⟩
  · obtain ⟨rfl, hlive⟩ := htoken hn
    have hsince := h.since hlive
    refine ⟨fun _ => ?_, fun _ => ?_, fun _ => ?_, fun _ => ?_⟩
    · simp only [update_self, List.length_append, List.length_singleton]
      omega
    · simp only [update_self]
      rw [List.take_append_of_le_length hsince]
      exact h.replayed hlive
    · simp only [update_self]
      rw [List.take_append_of_le_length hsince]
      exact h.running hlive
    · simp only [update_self, hlive, if_true]
      rw [List.drop_append_of_le_length hsince, h.received hgone, hlive, if_pos rfl,
        List.append_assoc]
  · by_cases hinstall : feed.install = i
    · subst hinstall
      refine ⟨fun hlive => ?_, fun hlive => ?_, fun hlive => ?_, fun hgone => ?_⟩
      · simp only [update_self, List.length_append, List.length_singleton]
        have hsince := h.since hlive
        omega
      · simp only [update_self]
        rw [List.take_append_of_le_length (h.since hlive)]
        exact h.replayed hlive
      · simp only [update_self]
        rw [List.take_append_of_le_length (h.since hlive)]
        exact h.running hlive
      · -- such a feed is not live, or it would have been sent the event
        cases hlive : feed.live with
        | false =>
          have hreceived := h.received hgone
          rw [hlive] at hreceived
          exact hreceived
        | true =>
          rcases hnot with hn | hgone'
          · exact absurd (hreached hlive hgone rfl) hn
          · rw [hgone] at hgone'
            cases hgone'
    · refine ⟨?_, ?_, ?_, ?_⟩
      · simpa only [update_of_ne hinstall] using h.since
      · simpa only [update_of_ne hinstall] using h.replayed
      · simpa only [update_of_ne hinstall] using h.running
      · simpa only [update_of_ne hinstall] using h.received

theorem getElem?_send_of (tokens : List ℕ) (event : Event) (h : feeds[n]? = some old) :
    ∃ feed, (send tokens event feeds)[n]? = some feed ∧ feed.install = old.install ∧
      feed.live = old.live := by
  rw [send, List.getElem?_mapIdx, h, Option.map_some]
  refine ⟨_, rfl, ?_⟩
  split <;> exact ⟨rfl, rfl⟩

/-- What the feeds are behind an emission of an active install. -/
theorem Inv.feeds_emit (h : Inv s) (hactive : (s.installs i).isSome = true)
    (hfeed : (send ((s.subscribers i).getD []) event s.feeds)[n]? = some feed) :
    ∃ old, s.feeds[n]? = some old ∧ feed.install = old.install ∧ feed.gone = old.gone ∧
      feed.live = old.live ∧ feed.isOpen = old.isOpen ∧
      FeedHistory (update s.emitted i (s.emitted i ++ [event])) feed := by
  obtain ⟨old, hold, hcases⟩ := getElem?_send hfeed
  have hok := h.feeds n old hold
  refine ⟨old, hold, ?_⟩
  have hhistory : FeedHistory (update s.emitted i (s.emitted i ++ [event])) feed := by
    refine hok.history.emit (fun hn => ?_) (fun hlive hgone hinstall => ?_) hcases
    · cases htokens : s.subscribers i with
      | none => simp [htokens] at hn
      | some tokens =>
        rw [htokens, Option.getD_some] at hn
        obtain ⟨other, hother, hinstall, hlive⟩ := h.tokens i tokens n htokens hn
        obtain rfl := Option.some.inj (hother.symm.trans hold)
        exact ⟨hinstall, hlive⟩
    · obtain ⟨tokens, htokens, hn⟩ := hok.subscribed hlive hgone (by rwa [hinstall])
      rw [hinstall] at htokens
      rwa [htokens]
  rcases hcases with ⟨-, -, rfl⟩ | ⟨-, rfl⟩
  · exact ⟨rfl, rfl, rfl, rfl, hhistory⟩
  · exact ⟨rfl, rfl, rfl, rfl, hhistory⟩

/-- Behind it the tokens are those of the feeds that are there. -/
theorem Inv.tokens_emit (h : Inv s) {j : ℕ}
    (htokens : update s.subscribers i
      ((s.subscribers i).map (·.filter fun n => !isGone s.feeds n)) j = some tokens)
    (hn : n ∈ tokens) :
    ∃ feed, (send ((s.subscribers i).getD []) event s.feeds)[n]? = some feed ∧
      feed.install = j ∧ feed.live = true := by
  have hold : ∃ old, s.feeds[n]? = some old ∧ old.install = j ∧ old.live = true := by
    by_cases hj : j = i
    · subst hj
      rw [update_self, Option.map_eq_some_iff] at htokens
      obtain ⟨before, hbefore, rfl⟩ := htokens
      exact h.tokens j before n hbefore (List.mem_filter.1 hn).1
    · rw [update_of_ne hj] at htokens
      exact h.tokens j tokens n htokens hn
  obtain ⟨old, hold, hinstall, hlive⟩ := hold
  obtain ⟨feed, hfeed, hinstall', hlive'⟩ := getElem?_send_of _ event hold
  exact ⟨feed, hfeed, hinstall'.trans hinstall, hlive'.trans hlive⟩

theorem subscribed_emit {subscribers : ℕ → Option (List ℕ)} {j : ℕ} (hold : feeds[n]? = some old)
    (hgone : old.gone = false) (h : ∃ tokens, subscribers j = some tokens ∧ n ∈ tokens) :
    ∃ tokens, update subscribers i
      ((subscribers i).map (·.filter fun n => !isGone feeds n)) j = some tokens ∧ n ∈ tokens := by
  obtain ⟨tokens, htokens, hn⟩ := h
  by_cases hj : j = i
  · subst hj
    refine ⟨tokens.filter fun n => !isGone feeds n, by simp [htokens], ?_⟩
    rw [List.mem_filter]
    exact ⟨hn, by simp [isGone, hold, hgone]⟩
  · exact ⟨tokens, by rw [update_of_ne hj, htokens], hn⟩

/-- A phase or a progress is emitted, and the maps follow. -/
theorem Inv.emission {task : Task} {install : ActiveInstall} {phase : Option Event} (h : Inv s)
    (event : Event) (task' : Task) (install' : ActiveInstall) (htask : s.tasks i = some task)
    (hpc : task.pc ≠ .finished) (hinstall : s.installs i = some install)
    (hevent : event.isTerminal = false) (hprovider : install'.provider = install.provider)
    (hreference : install'.reference = install.reference)
    (hphase : phase = lastPhase (s.emitted i ++ [event]))
    (hprogress : install'.progress = lastProgress (s.emitted i ++ [event]))
    (hplan : task'.plan = task.plan) (hpc' : task'.pc = .selecting) :
    Inv (setTask (emit { s with
      installs := update s.installs i (some install')
      phases := update s.phases i phase } i event) i task') := by
  obtain ⟨hid, install'', ha⟩ := h.active htask hpc
  obtain rfl := Option.some.inj (hinstall.symm.trans ha.installs)
  have hnot : task'.pc ≠ .finished := by simp [hpc']
  have hsame : task'.pc = .finished ↔ task.pc = .finished := iff_of_false hnot hpc
  have hsome : ∀ j, (update s.installs i (some install') j).isSome = (s.installs j).isSome := by
    intro j
    by_cases hj : j = i
    · subst hj
      simp [hinstall]
    · rw [update_of_ne hj]
  rw [emit_eq]
  refine ⟨fun j => ?_, fun key j => ?_, h.nodup, fun j => ?_, h.order, fun j => ?_, h.failures,
    fun n feed hfeed => ?_, fun j tokens n htokens hn => h.tokens_emit htokens hn⟩
  · by_cases hj : j = i
    · subst hj
      refine .active task' install' hid (by simp [setTask]) hnot ?_
      refine ⟨by simp [setTask], ?_, ?_, by simp [setTask, hphase],
        by simp [setTask, hprogress], ha.cancels, ha.keeps, ?_, by simp [hpc']⟩
      · rw [hprovider, ha.provider, hplan]
      · rw [hreference, ha.reference, hplan]
      · intro e he
        simp only [setTask, update_self, List.mem_append, List.mem_singleton] at he
        rcases he with he | rfl
        · exact ha.running e he
        · exact hevent
    · refine (h.ids j).congr Iff.rfl ?_ ?_ ?_ (fun hnone _ => ?_) rfl rfl ?_
      all_goals simp only [setTask, update_of_ne hj]
      exact hnone
  · exact (h.flights key j).trans (isRunning_setTask htask hplan hsame).symm
  · exact (h.concluded j).trans (finished_setTask htask hsame).symm
  · show s.terminal j = _
    rw [h.terminal j]
    by_cases hj : j = i
    · subst hj
      have hout : j ∉ s.terminalOrder := by
        intro hmem
        rw [h.order] at hmem
        obtain ⟨other, hother, hfinished⟩ := (h.concluded j).1 (List.mem_of_mem_drop hmem)
        obtain rfl := Option.some.inj (hother.symm.trans htask)
        exact hpc hfinished
      simp [setTask, hout]
    · simp [setTask, update_of_ne hj]
  · obtain ⟨old, hold, hi, hg, hl, ho, hhistory⟩ := h.feeds_emit (by simp [hinstall]) hfeed
    obtain ⟨-, hbegun, hsubscribed, hclosed, hlive⟩ := h.feeds n old hold
    refine ⟨hhistory, fun hfl => ?_, fun hfl hfg hfi => ?_, fun hfg hfi => ?_, fun hfo => ?_⟩
    · rw [hi]
      exact hbegun (hl ▸ hfl)
    · rw [hi] at hfi ⊢
      refine subscribed_emit hold (hg ▸ hfg) (hsubscribed (hl ▸ hfl) (hg ▸ hfg) ?_)
      rw [← hsome]
      exact hfi
    · rw [ho]
      refine hclosed (hg ▸ hfg) ?_
      rw [hi] at hfi
      rw [← Option.not_isSome_iff_eq_none, ← hsome, Option.not_isSome_iff_eq_none]
      exact hfi
    · rw [hl]
      exact hlive (ho ▸ hfo)

end

/-! ## An install is concluded -/

section

variable {s : State} {i : ℕ} {event : Event}

/-- The terminal events as a conclusion leaves them. -/
def remembered (s : State) (i : ℕ) (event : Event) (failure : Option InstallError) : State :=
  forgetOldest
    { s with
      terminal := update s.terminal i (some event)
      failures := noteFailure s.failures i failure
      terminalOrder := s.terminalOrder ++ [i] }

theorem conclude_eq {install : ActiveInstall} (hinstall : s.installs i = some install)
    (key : String) (event : Event) (failure : Option InstallError) :
    conclude s i key event failure =
      { s with
        emitted := update s.emitted i (s.emitted i ++ [event])
        feeds := closeFeeds
          (((s.subscribers i).map (·.filter fun n => !isGone s.feeds n)).getD [])
          (send ((s.subscribers i).getD []) event s.feeds)
        subscribers := update s.subscribers i none
        installs := update s.installs i none
        phases := update s.phases i none
        cancels := update s.cancels i false
        keeps := update s.keeps i false
        inFlight :=
          if s.inFlight key = some i then update s.inFlight key none else s.inFlight
        concluded := s.concluded ++ [i]
        terminalOrder := (remembered s i event failure).terminalOrder
        terminal := (remembered s i event failure).terminal
        failures := (remembered s i event failure).failures } := by
  rw [conclude, hinstall, emit_eq]
  simp only [remembered, forgetOldest]
  split
  · split
    · simp [update_idem]
    · simp [update_idem]
  · simp [update_idem]

theorem drop_append_of_ge {l : List ℕ} (h : terminalHistoryLimit ≤ l.length) :
    (l ++ [i]).drop ((l ++ [i]).length - terminalHistoryLimit) =
      (l.drop (l.length - terminalHistoryLimit)).tail ++ [i] := by
  have hpos : 0 < terminalHistoryLimit := by decide
  rw [List.length_append, List.length_singleton, List.drop_append_of_le_length (by omega),
    List.tail_drop]
  congr 2
  omega

theorem drop_append_of_lt {l : List ℕ} (h : l.length < terminalHistoryLimit) :
    (l ++ [i]).drop ((l ++ [i]).length - terminalHistoryLimit) = l ++ [i] := by
  rw [List.length_append, List.length_singleton, Nat.sub_eq_zero_of_le (by omega), List.drop_zero]

variable {failure : Option InstallError}

theorem remembered_of_few (h : s.terminalOrder.length < terminalHistoryLimit) :
    remembered s i event failure =
      { s with
        terminal := update s.terminal i (some event)
        failures := noteFailure s.failures i failure
        terminalOrder := s.terminalOrder ++ [i] } := by
  unfold remembered forgetOldest
  split
  · rw [if_neg (by simp only [List.length_append, List.length_singleton]; omega)]
  · rfl

theorem remembered_of_many {oldest : ℕ} {rest : List ℕ} (horder : s.terminalOrder = oldest :: rest)
    (h : terminalHistoryLimit ≤ s.terminalOrder.length) :
    remembered s i event failure =
      { s with
        terminal := update (update s.terminal i (some event)) oldest none
        failures := update (noteFailure s.failures i failure) oldest none
        terminalOrder := rest ++ [i] } := by
  have hlong : (oldest :: (rest ++ [i])).length > terminalHistoryLimit := by
    rw [horder] at h
    simp only [List.length_cons, List.length_append, List.length_nil] at h ⊢
    omega
  simp only [remembered, forgetOldest, horder, List.cons_append]
  rw [if_pos hlong]

/-- The terminal events of the last conclusions are remembered, with their failures. -/
theorem Inv.remembered (h : Inv s) (hout : i ∉ s.concluded) (event : Event)
    (failure : Option InstallError) :
    (remembered s i event failure).terminalOrder =
        (s.concluded ++ [i]).drop ((s.concluded ++ [i]).length - terminalHistoryLimit) ∧
      (∀ j, (Service.remembered s i event failure).terminal j =
        if j ∈ (Service.remembered s i event failure).terminalOrder then
          (update s.emitted i (s.emitted i ++ [event]) j).getLast? else none) ∧
      ∀ j, ((Service.remembered s i event failure).failures j).isSome = true →
        j ∈ (Service.remembered s i event failure).terminalOrder := by
  have hnot : i ∉ s.terminalOrder := by
    rw [h.order]
    exact fun hmem => hout (List.mem_of_mem_drop hmem)
  have hnodup : s.terminalOrder.Nodup := by
    rw [h.order]
    exact h.nodup.sublist (List.drop_sublist _ _)
  have hlength : s.terminalOrder.length = min s.concluded.length terminalHistoryLimit := by
    rw [h.order, List.length_drop]
    omega
  -- what is known of the terminal events and the failures before the oldest is forgotten
  have hterminal : ∀ j, update s.terminal i (some event) j =
      if j ∈ s.terminalOrder ++ [i] then
        (update s.emitted i (s.emitted i ++ [event]) j).getLast? else none := by
    intro j
    by_cases hj : j = i
    · subst hj
      simp
    · simp [hj, h.terminal j]
  have hfailures : ∀ j, (noteFailure s.failures i failure j).isSome = true →
      j ∈ s.terminalOrder ++ [i] := by
    intro j hj
    rw [List.mem_append, List.mem_singleton]
    by_cases hji : j = i
    · exact .inr hji
    · refine .inl (h.failures j ?_)
      cases failure with
      | none => exact hj
      | some error => simpa [noteFailure, update_of_ne hji] using hj
  rcases Nat.lt_or_ge s.concluded.length terminalHistoryLimit with hfew | hmany
  · have hall : s.terminalOrder = s.concluded := by
      rw [h.order, Nat.sub_eq_zero_of_le hfew.le, List.drop_zero]
    rw [remembered_of_few (by omega), drop_append_of_lt hfew, ← hall]
    exact ⟨rfl, hterminal, hfailures⟩
  · cases horder : s.terminalOrder with
    | nil =>
      have hpos : 0 < terminalHistoryLimit := by decide
      rw [horder, List.length_nil] at hlength
      omega
    | cons oldest rest =>
      rw [remembered_of_many horder (by omega), drop_append_of_ge hmany, ← h.order, horder]
      rw [horder] at hterminal hfailures hnodup hnot
      have holdest : oldest ∉ rest ++ [i] := by
        rw [List.mem_append, List.mem_singleton]
        rintro (hmem | rfl)
        · exact (List.nodup_cons.1 hnodup).1 hmem
        · exact hnot (.head _)
      refine ⟨rfl, fun j => ?_, fun j hj => ?_⟩
      · by_cases hj : j = oldest
        · subst hj
          simp [holdest]
        · simp only [update_of_ne hj, hterminal j, List.cons_append, List.mem_cons, hj, false_or]
      · by_cases hjo : j = oldest
        · subst hjo
          simp at hj
        · simp only [update_of_ne hjo] at hj
          have hmem := hfailures j hj
          simpa only [List.cons_append, List.mem_cons, hjo, false_or] using hmem

theorem getElem?_closeFeeds {tokens : List ℕ} {feeds : List Feed} {n : ℕ} {feed : Feed}
    (h : (closeFeeds tokens feeds)[n]? = some feed) :
    ∃ old, feeds[n]? = some old ∧
      feed = if n ∈ tokens then { old with isOpen := false } else old := by
  rw [closeFeeds, List.getElem?_mapIdx, Option.map_eq_some_iff] at h
  obtain ⟨old, hold, rfl⟩ := h
  exact ⟨old, hold, by simp⟩

/-- A feed that was sent the terminal event is closed with it. -/
theorem Inv.feeds_conclude (h : Inv s) (hactive : (s.installs i).isSome = true) {n : ℕ}
    {feed : Feed} (hfeed : (closeFeeds
      (((s.subscribers i).map (·.filter fun n => !isGone s.feeds n)).getD [])
      (send ((s.subscribers i).getD []) event s.feeds))[n]? = some feed) :
    ∃ old, s.feeds[n]? = some old ∧ feed.install = old.install ∧ feed.gone = old.gone ∧
      feed.live = old.live ∧ (feed.isOpen = true → old.isOpen = true) ∧
      (old.install = i → old.gone = false → feed.isOpen = false) ∧
      FeedHistory (update s.emitted i (s.emitted i ++ [event])) feed := by
  obtain ⟨sent, hsent, rfl⟩ := getElem?_closeFeeds hfeed
  obtain ⟨old, hold, hi, hg, hl, ho, hhistory⟩ := h.feeds_emit hactive hsent
  have hok := h.feeds n old hold
  refine ⟨old, hold, ?_⟩
  by_cases hn : n ∈ ((s.subscribers i).map (·.filter fun n => !isGone s.feeds n)).getD []
  · simp only [hn, if_true]
    refine ⟨hi, hg, hl, by simp, fun _ _ => trivial, ?_⟩
    exact ⟨hhistory.since, hhistory.replayed, hhistory.running, hhistory.received⟩
  · simp only [hn, if_false]
    refine ⟨hi, hg, hl, fun hopen => ho ▸ hopen, fun hinstall hgone => ?_, hhistory⟩
    -- an open feed of the install would be among the tokens
    by_contra hopen
    rw [Bool.not_eq_false, ho] at hopen
    obtain ⟨tokens, htokens, hmem⟩ := subscribed_emit (i := i) hold hgone
      (hok.subscribed (hok.live hopen) hgone (by rwa [hinstall]))
    rw [hinstall, update_self] at htokens
    rw [htokens] at hn
    exact hn hmem

theorem Inv.conclude {task : Task} (h : Inv s)
    (htask : s.tasks i = some task) (hpc : task.pc ≠ .finished) (hevent : event.isTerminal = true) :
    Inv (setTask (conclude s i (flightKey task.plan) event failure) i
      { task with pc := .finished }) := by
  obtain ⟨hid, install, ha⟩ := h.active htask hpc
  have hout : i ∉ s.concluded := by
    intro hmem
    obtain ⟨other, hother, hfinished⟩ := (h.concluded i).1 hmem
    obtain rfl := Option.some.inj (hother.symm.trans htask)
    exact hpc hfinished
  obtain ⟨horder, hterminal, hfailures⟩ := h.remembered hout event failure
  have hflight : s.inFlight (flightKey task.plan) = some i :=
    (h.flights _ i).2 ⟨task, htask, hpc, rfl⟩
  rw [conclude_eq ha.installs, if_pos hflight]
  refine ⟨fun j => ?_, fun key j => ?_, ?_, fun j => ?_, horder, hterminal, hfailures,
    fun n feed hfeed => ?_, fun j tokens n htokens hn => ?_⟩
  · by_cases hj : j = i
    · subst hj
      refine .concluded { task with pc := .finished } hid (by simp [setTask]) rfl
        ⟨by simp [setTask], by simp [setTask], by simp [setTask], by simp [setTask],
          by simp [setTask]⟩ ?_
      simp only [setTask, update_self]
      exact ⟨s.emitted j, event, rfl, hevent, ha.running⟩
    · refine (h.ids j).congr Iff.rfl ?_ ?_ ?_ (fun hnone _ => ?_) ?_ ?_ ?_
      all_goals simp only [setTask, update_of_ne hj]
      exact hnone
  · simp only [setTask]
    by_cases hkey : key = flightKey task.plan
    · subst hkey
      rw [update_self]
      refine iff_of_false (by simp) ?_
      rintro ⟨other, hother, hother_pc, hother_key⟩
      by_cases hj : j = i
      · subst hj
        simp only [update_self, Option.some.injEq] at hother
        exact hother_pc (by rw [← hother])
      · simp only [update_of_ne hj] at hother
        have hsame := (h.flights _ j).2 ⟨other, hother, hother_pc, hother_key⟩
        rw [hflight, Option.some.injEq] at hsame
        exact hj hsame.symm
    · rw [update_of_ne hkey, h.flights key j]
      by_cases hj : j = i
      · subst hj
        refine iff_of_false ?_ ?_
        · rintro ⟨other, hother, -, hother_key⟩
          obtain rfl := Option.some.inj (hother.symm.trans htask)
          exact hkey hother_key.symm
        · rintro ⟨other, hother, hother_pc, -⟩
          simp only [update_self, Option.some.injEq] at hother
          exact hother_pc (by rw [← hother])
      · simp [IsRunning, update_of_ne hj]
  · exact List.nodup_append.2 ⟨h.nodup, List.nodup_singleton i, by
      rintro a ha b hb rfl
      rw [List.mem_singleton.1 hb] at ha
      exact hout ha⟩
  · simp only [setTask, List.mem_append, List.mem_singleton, h.concluded j]
    by_cases hj : j = i
    · subst hj
      simp
    · simp [hj]
  · obtain ⟨old, hold, hi, hg, hl, ho, hclosing, hhistory⟩ :=
      h.feeds_conclude (by simp [ha.installs]) hfeed
    obtain ⟨-, hbegun, hsubscribed, hclosed, hlive⟩ := h.feeds n old hold
    refine ⟨hhistory, fun hfl => ?_, fun hfl hfg hfi => ?_, fun hfg hfi => ?_, fun hfo => ?_⟩
    · rw [hi]
      exact hbegun (hl ▸ hfl)
    · rw [hi] at hfi ⊢
      by_cases hinstall : old.install = i
      · rw [hinstall] at hfi
        simp [setTask] at hfi
      · simp only [setTask, update_of_ne hinstall] at hfi ⊢
        exact hsubscribed (hl ▸ hfl) (hg ▸ hfg) hfi
    · by_cases hinstall : old.install = i
      · exact hclosing hinstall (hg ▸ hfg)
      · rw [hi] at hfi
        simp only [setTask, update_of_ne hinstall] at hfi
        have hold_closed := hclosed (hg ▸ hfg) hfi
        by_contra hopen
        rw [Bool.not_eq_false] at hopen
        rw [ho hopen] at hold_closed
        cases hold_closed
    · rw [hl]
      exact hlive (ho hfo)
  · by_cases hj : j = i
    · subst hj
      simp [setTask] at htokens
    · simp only [setTask, update_of_ne hj] at htokens
      obtain ⟨old, hold, hinstall, hlive⟩ := h.tokens j tokens n htokens hn
      obtain ⟨sent, hsent, hinstall', hlive'⟩ :=
        getElem?_send_of ((s.subscribers i).getD []) event hold
      simp only [setTask, closeFeeds, List.getElem?_mapIdx, hsent, Option.map_some]
      refine ⟨_, rfl, ?_⟩
      split
      · exact ⟨hinstall'.trans hinstall, hlive'.trans hlive⟩
      · exact ⟨hinstall'.trans hinstall, hlive'.trans hlive⟩

end

/-! ## An install is begun -/

section

variable {s : State} {i : ℕ}

theorem Inv.unused (h : Inv s) (hid : s.nextId ≤ i) :
    s.tasks i = none ∧ Absent s i ∧ s.emitted i = [] := by
  cases h.ids i with
  | unused _ htask habsent hemitted => exact ⟨htask, habsent, hemitted⟩
  | active _ _ hlt => omega
  | concluded _ hlt => omega

/-- The state behind a `begin` that made an install. -/
def begun (s : State) (plan : Plan) (now : ℤ) : State :=
  emit
    { s with
      nextId := s.nextId + 1
      installs := update s.installs s.nextId (some
        { provider := plan.provider, reference := plan.reference, displayName := plan.displayName
          totalBytes := plan.totalBytes, progress := {}, startedAt := now })
      phases := update s.phases s.nextId (some .queued)
      inFlight := update s.inFlight (flightKey plan) (some s.nextId)
      cancels := update s.cancels s.nextId true
      keeps := update s.keeps s.nextId true
      tasks := update s.tasks s.nextId (some { plan }) } s.nextId .queued

theorem begin_cases (config : Config) (plan : Plan) (available now : ℤ) (s : State) :
    (begin config plan available now s).2 = s ∨
      (s.inFlight (flightKey plan) = none ∧
        begin config plan available now s = (.ok s.nextId, begun s plan now)) := by
  unfold begin
  split
  · exact .inl rfl
  · split
    · exact .inl rfl
    · rename_i hnone
      split
      · exact .inl rfl
      · exact .inr ⟨hnone, rfl⟩

theorem Inv.begun (h : Inv s) {plan : Plan} (hfree : s.inFlight (flightKey plan) = none) (now : ℤ) :
    Inv (begun s plan now) := by
  obtain ⟨htask, habsent, hemitted⟩ := h.unused (Nat.le_refl s.nextId)
  have hne : ∀ {j task}, s.tasks j = some task → j ≠ s.nextId := by
    rintro j task hj rfl
    rw [htask] at hj
    cases hj
  rw [Service.begun, emit_eq]
  simp only [habsent.subscribers, Option.getD_none, send_nil, Option.map_none]
  refine ⟨fun j => ?_, fun key j => ?_, h.nodup, fun j => ?_, h.order, fun j => ?_, h.failures,
    fun n feed hfeed => ?_, fun j tokens n htokens hn => ?_⟩
  · by_cases hj : j = s.nextId
    · subst hj
      refine .active { plan } _ (Nat.lt_succ_self _) (by simp) (by simp)
        ⟨update_self _ _ _, rfl, rfl, ?_, ?_, by simp, by simp, ?_, by simp⟩
      · simp [hemitted, lastPhase, Event.isPhase]
      · simp [hemitted, lastProgress, Event.asProgress]
      · simp [hemitted, Event.isTerminal]
    · refine (h.ids j).congr ?_ ?_ ?_ ?_ (fun hnone _ => ?_) ?_ ?_ ?_
      · show j < s.nextId + 1 ↔ j < s.nextId
        omega
      all_goals simp only [update_of_ne hj]
      exact hnone
  · show update s.inFlight (flightKey plan) (some s.nextId) key = some j ↔ _
    by_cases hkey : key = flightKey plan
    · subst hkey
      rw [update_self, Option.some.injEq]
      constructor
      · rintro rfl
        exact ⟨{ plan }, update_self _ _ _, by simp, rfl⟩
      · rintro ⟨task, hother, hpc, hkey⟩
        by_contra hj
        simp only [update_of_ne (Ne.symm hj)] at hother
        have hflight := (h.flights _ j).2 ⟨task, hother, hpc, hkey⟩
        rw [hfree] at hflight
        cases hflight
    · rw [update_of_ne hkey, h.flights key j]
      constructor
      · rintro ⟨task, hother, hpc, htaskKey⟩
        exact ⟨task, by simp [update_of_ne (hne hother), hother], hpc, htaskKey⟩
      · rintro ⟨task, hother, hpc, htaskKey⟩
        by_cases hj : j = s.nextId
        · subst hj
          simp only [update_self, Option.some.injEq] at hother
          rw [← hother] at htaskKey
          exact absurd htaskKey.symm hkey
        · simp only [update_of_ne hj] at hother
          exact ⟨task, hother, hpc, htaskKey⟩
  · rw [h.concluded j]
    by_cases hj : j = s.nextId
    · subst hj
      simp [htask]
    · simp [update_of_ne hj]
  · show s.terminal j = if j ∈ s.terminalOrder then _ else none
    rw [h.terminal j]
    by_cases hj : j = s.nextId
    · subst hj
      have hout : s.nextId ∉ s.terminalOrder := by
        intro hmem
        rw [h.order] at hmem
        obtain ⟨task, hother, -⟩ := (h.concluded _).1 (List.mem_of_mem_drop hmem)
        exact hne hother rfl
      simp [hout]
    · simp [update_of_ne hj]
  · obtain ⟨hhistory, hbegun, hsubscribed, hclosed, hlive⟩ := h.feeds n feed hfeed
    refine ⟨⟨fun hl => ?_, fun hl => ?_, fun hl => ?_, fun hg => ?_⟩, fun hl => ?_,
      fun hl hg hi => ?_, fun hg hi => ?_, hlive⟩
    · have hlt := hbegun hl
      simp only [update_of_ne (Nat.ne_of_lt hlt)]
      exact hhistory.since hl
    · have hlt := hbegun hl
      simp only [update_of_ne (Nat.ne_of_lt hlt)]
      exact hhistory.replayed hl
    · have hlt := hbegun hl
      simp only [update_of_ne (Nat.ne_of_lt hlt)]
      exact hhistory.running hl
    · cases hl : feed.live with
      | false =>
        have hreceived := hhistory.received hg
        rw [hl] at hreceived
        exact hreceived
      | true =>
        have hlt := hbegun hl
        have hreceived := hhistory.received hg
        rw [hl] at hreceived
        simp only [update_of_ne (Nat.ne_of_lt hlt)]
        exact hreceived
    · exact Nat.lt_succ_of_lt (hbegun hl)
    · have hlt := hbegun hl
      simp only [update_of_ne (Nat.ne_of_lt hlt)] at hi ⊢
      exact hsubscribed hl hg hi
    · by_cases hinstall : feed.install = s.nextId
      · simp [hinstall] at hi
      · simp only [update_of_ne hinstall] at hi
        exact hclosed hg hi
  · by_cases hj : j = s.nextId
    · subst hj
      simp at htokens
    · simp only [update_of_ne hj] at htokens
      exact h.tokens j tokens n htokens hn

end

/-! ## A feed is opened or dropped -/

section

variable {s : State} {i : ℕ}

/-- A feed the state replays to, or one that is closed at once. -/
theorem newFeed_cases (h : Inv s) (i : ℕ) :
    (∃ install task, (newFeed s i).live = true ∧ s.tasks i = some task ∧ i < s.nextId ∧
        Active s i task install ∧ (newFeed s i).replayed = snapshot (s.emitted i)) ∨
      ((newFeed s i).live = false ∧ (newFeed s i).isOpen = false) := by
  unfold newFeed
  simp only
  split
  · exact .inr ⟨rfl, rfl⟩
  · split
    · exact .inr ⟨rfl, rfl⟩
    · rename_i install hinstall
      cases h.ids i with
      | unused _ _ habsent => rw [habsent.installs] at hinstall; cases hinstall
      | concluded _ _ _ _ habsent => rw [habsent.installs] at hinstall; cases hinstall
      | active task other hid htask hpc ha =>
        obtain rfl := Option.some.inj (ha.installs.symm.trans hinstall)
        refine .inl ⟨other, task, rfl, htask, hid, ha, ?_⟩
        rw [snapshot, ← ha.phases, ← ha.progress]

theorem newFeed_basic (s : State) (i : ℕ) :
    (newFeed s i).install = i ∧ (newFeed s i).since = (s.emitted i).length ∧
      (newFeed s i).received = (newFeed s i).replayed ∧ (newFeed s i).gone = false := by
  unfold newFeed
  simp only
  split
  · exact ⟨rfl, rfl, rfl, rfl⟩
  · split <;> exact ⟨rfl, rfl, rfl, rfl⟩

/-- The feed that `events` returns. -/
theorem Inv.feed_new (h : Inv s) (i : ℕ) :
    FeedHistory s.emitted (newFeed s i) ∧
      ((newFeed s i).live = true → i < s.nextId ∧ (s.installs i).isSome = true) ∧
      ((newFeed s i).live = false → (newFeed s i).isOpen = false) := by
  obtain ⟨hinstall, hsince, hreceived, -⟩ := newFeed_basic s i
  rcases newFeed_cases h i with ⟨install, task, hlive, -, hid, ha, hreplayed⟩ | ⟨hlive, hopen⟩
  · refine ⟨⟨fun _ => ?_, fun _ => ?_, fun _ => ?_, fun _ => ?_⟩,
      fun _ => ⟨hid, by simp [ha.installs]⟩, fun hnot => ?_⟩
    · rw [hinstall, hsince]
    · rw [hinstall, hsince, List.take_length, hreplayed]
    · rw [hinstall, hsince, List.take_length]
      exact ha.running
    · rw [hinstall, hsince, hlive, if_pos rfl, List.drop_length, List.append_nil, hreceived]
    · rw [hlive] at hnot
      cases hnot
  · have hnot : ¬ (newFeed s i).live = true := by simp [hlive]
    refine ⟨⟨fun hyes => absurd hyes hnot, fun hyes => absurd hyes hnot,
      fun hyes => absurd hyes hnot, fun _ => ?_⟩, fun hyes => absurd hyes hnot, fun _ => hopen⟩
    simp [hlive, hreceived]

/-- The tokens of an install behind a call of `events`. -/
theorem subscribers_events {j : ℕ} :
    (events i s).subscribers j =
      if j = i ∧ (newFeed s i).live = true then some ((s.subscribers i).getD [] ++ [s.feeds.length])
      else s.subscribers j := by
  unfold events
  cases hlive : (newFeed s i).live with
  | false => simp [hlive]
  | true =>
    by_cases hj : j = i
    · subst hj
      simp [hlive]
    · simp [hlive, hj]

theorem mem_subscribers_events {j n : ℕ} {tokens : List ℕ} (h : s.subscribers j = some tokens)
    (hn : n ∈ tokens) : ∃ tokens, (events i s).subscribers j = some tokens ∧ n ∈ tokens := by
  rw [subscribers_events]
  split
  · rename_i hsame
    refine ⟨_, rfl, ?_⟩
    rw [← hsame.1, h]
    exact List.mem_append_left _ hn
  · exact ⟨tokens, h, hn⟩

theorem Inv.events (h : Inv s) (i : ℕ) : Inv (events i s) := by
  obtain ⟨hinstall, -, -, hgone⟩ := newFeed_basic s i
  obtain ⟨hhistory, hlive, hclosed⟩ := h.feed_new i
  refine ⟨fun j => ?_, h.flights, h.nodup, h.concluded, h.order, h.terminal, h.failures,
    fun n feed hfeed => ?_, fun j tokens n htokens hn => ?_⟩
  · refine (h.ids j).congr Iff.rfl rfl rfl rfl (fun hnone habsent => ?_) rfl rfl rfl
    rw [subscribers_events, if_neg]
    · exact hnone
    · rintro ⟨rfl, hyes⟩
      rw [habsent] at hlive
      exact absurd (hlive hyes).2 (by simp)
  · rcases Nat.lt_or_ge n s.feeds.length with hn | hn
    · have hold : s.feeds[n]? = some feed := by
        rw [← List.getElem?_append_left hn]
        exact hfeed
      obtain ⟨hhistory, hbegun, hsubscribed, hclosed, hopen⟩ := h.feeds n feed hold
      refine ⟨hhistory, hbegun, fun hl hg hi => ?_, hclosed, hopen⟩
      obtain ⟨tokens, htokens, hmem⟩ := hsubscribed hl hg hi
      exact mem_subscribers_events htokens hmem
    · have hnew : n = s.feeds.length ∧ newFeed s i = feed := by
        have hlast : ([newFeed s i])[n - s.feeds.length]? = some feed := by
          rw [← List.getElem?_append_right hn]
          exact hfeed
        rw [List.getElem?_singleton] at hlast
        split at hlast
        · exact ⟨by omega, Option.some.inj hlast⟩
        · cases hlast
      obtain ⟨rfl, rfl⟩ := hnew
      refine ⟨hhistory, fun hl => ?_, fun hl _ _ => ?_, fun _ hi => ?_, fun hopen => ?_⟩
      · rw [hinstall]
        exact (hlive hl).1
      · rw [hinstall, subscribers_events, if_pos ⟨rfl, hl⟩]
        exact ⟨_, rfl, by simp⟩
      · refine hclosed ?_
        by_contra hnot
        rw [Bool.not_eq_false] at hnot
        have hsome := (hlive hnot).2
        rw [hinstall] at hi
        rw [show s.installs i = none from hi] at hsome
        cases hsome
      · by_contra hnot
        rw [Bool.not_eq_true] at hnot
        rw [hclosed hnot] at hopen
        cases hopen
  · rw [subscribers_events] at htokens
    have hold : ∀ {feed}, s.feeds[n]? = some feed → (Service.events i s).feeds[n]? = some feed := by
      intro feed hfeed
      obtain ⟨hn, -⟩ := List.getElem?_eq_some_iff.1 hfeed
      exact (List.getElem?_append_left hn).trans hfeed
    split at htokens
    · rename_i hsame
      obtain ⟨rfl, hl⟩ := hsame
      rw [← Option.some.inj htokens, List.mem_append, List.mem_singleton] at hn
      rcases hn with hn | rfl
      · cases hbefore : s.subscribers j with
        | none => simp [hbefore] at hn
        | some before =>
          rw [hbefore, Option.getD_some] at hn
          obtain ⟨feed, hfeed, hfi, hfl⟩ := h.tokens j before n hbefore hn
          exact ⟨feed, hold hfeed, hfi, hfl⟩
      · exact ⟨newFeed s j, by simp [Service.events], hinstall, hl⟩
    · obtain ⟨feed, hfeed, hfi, hfl⟩ := h.tokens j tokens n htokens hn
      exact ⟨feed, hold hfeed, hfi, hfl⟩

/-- A feed whose receiver is gone asks for nothing. -/
theorem Inv.dropFeed (h : Inv s) (k : ℕ) :
    Inv { s with feeds := s.feeds.modify k fun feed => { feed with gone := true } } := by
  refine ⟨fun j => (h.ids j).congr Iff.rfl rfl rfl rfl (fun hnone _ => hnone) rfl rfl rfl,
    h.flights, h.nodup, h.concluded, h.order, h.terminal, h.failures, fun n feed hfeed => ?_,
    fun j tokens n htokens hn => ?_⟩
  · rw [List.getElem?_modify, Option.map_eq_map, Option.map_eq_some_iff] at hfeed
    obtain ⟨old, hold, rfl⟩ := hfeed
    obtain ⟨hhistory, hbegun, hsubscribed, hclosed, hlive⟩ := h.feeds n old hold
    split
    · exact ⟨⟨hhistory.since, hhistory.replayed, hhistory.running, by simp⟩, hbegun, by simp,
        by simp, hlive⟩
    · exact ⟨hhistory, hbegun, hsubscribed, hclosed, hlive⟩
  · obtain ⟨old, hold, hinstall, hlive⟩ := h.tokens j tokens n htokens hn
    simp only [List.getElem?_modify, hold, Option.map_eq_map, Option.map_some]
    refine ⟨_, rfl, ?_⟩
    split
    · exact ⟨hinstall, hlive⟩
    · exact ⟨hinstall, hlive⟩

end

/-! ## Every step -/

section

variable {config : Config} {s t : State} {i : ℕ} {task task' : Task}

/-- A task that is marked, or given something, where it is. -/
theorem Inv.task_marked (h : Inv s) (htask : s.tasks i = some task)
    (hplan : task'.plan = task.plan) (hsame : task'.pc = task.pc) (hpc : task.pc ≠ .finished) :
    Inv (setTask s i task') := by
  obtain ⟨-, install, ha⟩ := h.active htask hpc
  refine h.task_moves htask hplan hpc (by rwa [hsame]) fun terminal failure hat => ?_
  rw [hsame] at hat
  exact ha.ending terminal failure hat

/-- Only an active install can be cancelled or kept. -/
theorem Inv.not_finished (h : Inv s) (htask : s.tasks i = some task)
    (hmark : s.cancels i = true ∨ s.keeps i = true) : task.pc ≠ .finished := by
  have hpresent : ¬ Absent s i := by
    rintro ⟨-, -, -, hcancels, hkeeps⟩
    rw [hcancels, hkeeps] at hmark
    simp at hmark
  cases h.ids i with
  | unused _ _ habsent => exact absurd habsent hpresent
  | concluded _ _ _ _ habsent => exact absurd habsent hpresent
  | active other _ _ hsome hpc =>
    obtain rfl := Option.some.inj (hsome.symm.trans htask)
    exact hpc

theorem Inv.cancel (h : Inv s) (i : ℕ) : Inv (cancel i s) := by
  unfold Service.cancel
  split
  · rename_i task htask
    split
    · rename_i hcancels
      exact h.task_marked htask rfl rfl (h.not_finished htask (.inl hcancels))
    · exact h
  · exact h

theorem Inv.stopKeeping (h : Inv s) (i : ℕ) : Inv (stopKeeping i s) := by
  unfold Service.stopKeeping
  split
  · rename_i task htask
    cases hkeeps : s.keeps i with
    | true =>
      have hpc := h.not_finished htask (.inr hkeeps)
      cases hcancels : s.cancels i with
      | true => exact h.task_marked htask rfl rfl hpc
      | false => exact h.task_marked htask rfl rfl hpc
    | false =>
      cases hcancels : s.cancels i with
      | true => exact h.task_marked htask rfl rfl (h.not_finished htask (.inl hcancels))
      | false =>
        have hsame : setTask s i task = s := by
          rw [setTask, ← htask, update_eq_self]
        simp only [Bool.false_eq_true, if_false]
        rwa [hsame]
  · exact h

theorem Task.hasReceiver_not_finished (h : task.hasReceiver = true) : task.pc ≠ .finished := by
  intro hpc
  simp [Task.hasReceiver, hpc] at h

theorem Inv.stepProvider (h : Inv s) {change : Task → Task}
    (hplan : ∀ task, (change task).plan = task.plan) (hpc : ∀ task, (change task).pc = task.pc)
    (hstep : stepProvider s i change = some t) : Inv t := by
  unfold Service.stepProvider at hstep
  split at hstep
  · rename_i task htask
    split at hstep
    · rename_i hreceiver
      cases hstep
      exact h.task_marked htask (hplan task) (hpc task) (Task.hasReceiver_not_finished hreceiver)
    · cases hstep
  · cases hstep

/-- What a round of the loop does to a task. -/
theorem select_cases (h : select config task = some task') :
    task'.plan = task.plan ∧
      ((∃ event, task'.pc = .handling event) ∨
        ∃ terminal failure, task'.pc = .dropping terminal failure ∧
          terminal.isTerminal = true) := by
  unfold select at h
  split at h
  · cases h
    exact ⟨rfl, .inr ⟨_, _, rfl, rfl⟩⟩
  · split at h
    · split at h
      · cases h
        exact ⟨rfl, .inr ⟨_, _, rfl, rfl⟩⟩
      · cases h
    · cases h
      exact ⟨rfl, .inl ⟨_, rfl⟩⟩
    · cases h
      exact ⟨rfl, .inr ⟨_, _, rfl, rfl⟩⟩

theorem Inv.transition (h : Inv s) (htask : s.tasks i = some task) (hpc : task.pc ≠ .finished)
    {event : Event} (hphase : event.isPhase = true) :
    Inv (setTask (transition s i event) i { task with pc := .selecting }) := by
  obtain ⟨-, install, ha⟩ := h.active htask hpc
  have hevent : event.isTerminal = false := by
    cases event <;> first | rfl | cases hphase
  have hemission := h.emission event { task with pc := .selecting } install htask hpc ha.installs
    hevent rfl rfl (lastPhase_phase _ hphase).symm
    (ha.progress.trans (lastProgress_phase _ hphase).symm) rfl rfl
  rw [← ha.installs, update_eq_self] at hemission
  exact hemission

theorem Inv.applyProgress (h : Inv s) (htask : s.tasks i = some task) (hpc : task.pc ≠ .finished)
    (progress : Progress) :
    Inv (setTask (applyProgress s i progress) i { task with pc := .selecting }) := by
  obtain ⟨-, install, ha⟩ := h.active htask hpc
  have hemission := h.emission (.progress progress) { task with pc := .selecting }
    { install with progress } htask hpc ha.installs rfl rfl rfl
    (lastPhase_progress _ _).symm (lastProgress_progress _ _).symm rfl rfl
  rw [← ha.phases, update_eq_self] at hemission
  simp only [Service.applyProgress, ha.installs]
  exact hemission

theorem Inv.stepTask (h : Inv s) (htask : s.tasks i = some task)
    (hstep : stepTask config s i task = some t) : Inv t := by
  unfold Service.stepTask at hstep
  split at hstep
  · rename_i hpc
    cases hstep
    exact h.transition htask (by simp [hpc]) rfl
  · rename_i hpc
    rw [Option.map_eq_some_iff] at hstep
    obtain ⟨task', hselect, rfl⟩ := hstep
    obtain ⟨hplan, ⟨event, hat⟩ | ⟨terminal, failure, hat, hterminal⟩⟩ := select_cases hselect
    · exact h.task_moves htask hplan (by simp [hpc]) (by simp [hat]) (by simp [hat])
    · refine h.task_moves htask hplan (by simp [hpc]) (by simp [hat]) fun _ _ hat' => ?_
      rw [hat] at hat'
      simp only [Pc.dropping.injEq, reduceCtorEq, or_false] at hat'
      rw [← hat'.1]
      exact hterminal
  · rename_i message hpc
    cases hstep
    exact h.transition htask (by simp [hpc]) rfl
  · rename_i progress hpc
    cases hstep
    exact h.applyProgress htask (by simp [hpc]) progress
  · rename_i terminal failure hpc
    cases hstep
    obtain ⟨-, install, ha⟩ := h.active htask (by simp [hpc])
    refine h.task_moves htask rfl (by simp [hpc]) (by simp) fun _ _ hat => ?_
    simp only [reduceCtorEq, false_or, Pc.concluding.injEq] at hat
    rw [← hat.1]
    exact ha.ending terminal failure (.inl hpc)
  · rename_i terminal failure hpc
    cases hstep
    obtain ⟨-, install, ha⟩ := h.active htask (by simp [hpc])
    exact h.conclude htask (by simp [hpc]) (ha.ending terminal failure (.inr hpc))
  · cases hstep

theorem inv_step (action : Action) (h : Inv s) (hstep : step config s action = some t) :
    Inv t := by
  cases action with
  | begin plan available now =>
    cases hstep
    rcases begin_cases config plan available now s with hsame | ⟨hfree, hbegin⟩
    · rw [hsame]
      exact h
    · rw [hbegin]
      exact h.begun hfree now
  | events i =>
    cases hstep
    exact h.events i
  | dropFeed n =>
    cases hstep
    exact h.dropFeed n
  | cancel i =>
    cases hstep
    exact h.cancel i
  | stopKeeping i =>
    cases hstep
    exact h.stopKeeping i
  | push i item =>
    rw [step] at hstep
    exact h.stepProvider (fun _ => by rfl) (fun _ => by rfl) hstep
  | close i =>
    rw [step] at hstep
    exact h.stepProvider (fun _ => by rfl) (fun _ => by rfl) hstep
  | task i =>
    simp only [step] at hstep
    split at hstep
    · rename_i task htask
      exact h.stepTask htask hstep
    · cases hstep

end

end Hedos.Install.Service
