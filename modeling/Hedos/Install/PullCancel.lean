import Hedos.Install.PullRuns

/-!
# What becomes of a cancel

A client asks for a cancel by writing the job's control file. In every run the ask stays there
until somebody deletes a cancel, and no pause replaces it (`Pulls.step_control`). In a run whose
steps meet the condition, the job then ends cancelled, or done if it was past stopping, and until
then the ask is on disk or in the hands of the process that holds the job
(`accepted_cancel_is_heeded`).

Without the condition a cancel can be lost. A client that asked for a pause and found nobody
there writes `paused` when it gets to it, whatever has been written since:
`late_pause_undoes_cancel` is a pause and a cancel of one interrupted pull.
-/

namespace Hedos.Install

open Programs Transition

variable {worker : PullWorker} {i : ℕ} {w : World} {path : String} {pulls pulls' : Pulls}

/-! ## The control file -/

variable {action : PullAction}

/-- What one step does to the world. -/
theorem Pulls.step_cases (h : pulls.step worker action = some pulls') :
    (∃ i input command op next, action = .move i input ∧
      pulls.procs[i]? = some (command, .call op next) ∧
      pulls'.world = (exec i op input pulls.world).2) ∨
    (∃ i, action = .kill i ∧ pulls'.world = pulls.world.reap i) ∨
    pulls'.world.store = pulls.world.store ∧ pulls'.world.asked = pulls.world.asked := by
  unfold Pulls.step at h
  cases action with
  | launch command =>
    obtain ⟨world, hlaunch, rfl⟩ := Option.map_eq_some_iff.1 h
    obtain ⟨hstore, -, hasked, -⟩ := World.launch_same hlaunch
    exact .inr (.inr ⟨hstore, hasked⟩)
  | move i input =>
    rw [Pool.step] at h
    cases hproc : pulls.procs[i]? with
    | none => simp [hproc] at h
    | some proc =>
      obtain ⟨command, prog⟩ := proc
      cases prog with
      | ret a => simp [hproc] at h
      | fail e => simp [hproc] at h
      | stall => simp [hproc] at h
      | call op next =>
        simp only [hproc, Option.some.injEq] at h
        rw [← h]
        exact .inl ⟨i, input, command, op, next, rfl, hproc, rfl⟩
  | kill i =>
    rw [Pool.step] at h
    cases hproc : pulls.procs[i]? with
    | none => simp [hproc] at h
    | some proc =>
      simp only [hproc, Option.some.injEq] at h
      rw [← h]
      exact .inr (.inl ⟨i, rfl, rfl⟩)
  | drift later =>
    cases h
    exact .inr (.inr ⟨rfl, rfl⟩)

/-- A control file stands in a job. -/
theorem World.job_isSome_of_control {control : PullControl} (h : w.control path = some control) :
    (w.job path).isSome = true := by
  cases hjob : w.job path with
  | some job => rfl
  | none =>
    rw [World.control, World.files_of_none hjob] at h
    cases h

theorem World.control_modify {change : JobFiles → JobFiles} {other : String}
    (h : w.control path = some .cancel)
    (hchange : ∀ files, (change files).control = files.control) :
    (w.modify other change).control path = some .cancel := by
  rcases eq_or_ne path other with rfl | hne
  · cases hjob : w.job path with
    | none =>
      rw [World.modify_of_none hjob]
      exact h
    | some job =>
      rw [World.control, World.files_modify_self (by rw [hjob]; rfl), hchange]
      exact h
  · rw [World.control, World.files_modify_of_ne hne]
    exact h

/-- A pause does not replace a cancel. -/
theorem World.control_request (control : PullControl) (other : String)
    (h : w.control path = some .cancel) :
    (w.request other control).2.control path = some .cancel := by
  unfold World.request
  split
  · exact h
  · rename_i hbehind
    change (w.modify other _).control path = some .cancel
    rcases eq_or_ne path other with rfl | hne
    · have hcancel : control = .cancel := by
        cases control with
        | cancel => rfl
        | pause => exact absurd ⟨rfl, h⟩ hbehind
      rw [World.control, World.files_modify_self (World.job_isSome_of_control h), hcancel]
    · rw [World.control, World.files_modify_of_ne hne]
      exact h

theorem World.control_clear {honoured : PullControl} {other : String}
    (h : w.control path = some .cancel) (hkeeps : other = path → honoured ≠ .cancel) :
    (w.clear other honoured).2.control path = some .cancel := by
  unfold World.clear
  split
  · rename_i hstored
    rcases eq_or_ne path other with rfl | hne
    · exact absurd (Option.some.inj (hstored.symm.trans h)) (hkeeps rfl)
    · change (w.modify other _).control path = some .cancel
      rw [World.control, World.files_modify_of_ne hne]
      exact h
  · exact h

/-- A cancel stays where it is, unless the operation deletes it. -/
theorem World.control_exec {op : Op} (input : Input) (h : w.control path = some .cancel)
    (hclear : op ≠ .clear path .cancel) (hclearWithin : op ≠ .clearWithin path .cancel) :
    (exec i op input w).2.control path = some .cancel := by
  unfold exec
  cases op with
  | write other status => exact World.control_modify h fun _ => rfl
  | append other event => exact World.control_modify h fun _ => rfl
  | claim other purpose =>
    change (w.claim i other input.refused).2.control path = some .cancel
    unfold World.claim
    split
    · exact World.control_modify h fun _ => rfl
    · exact h
  | release other =>
    change (w.release i other).control path = some .cancel
    unfold World.release
    split
    · exact World.control_modify h fun _ => rfl
    · exact h
  | claimReference key purpose =>
    change (w.claimReference i key input.refused).2.control path = some .cancel
    unfold World.claimReference
    split <;> exact h
  | releaseReference key =>
    change (w.releaseReference i key).control path = some .cancel
    unfold World.releaseReference
    split <;> exact h
  | request other control =>
    cases input.busy with
    | true => exact h
    | false => exact World.control_request control other h
  | clear other honoured =>
    refine World.control_clear h ?_
    rintro rfl rfl
    exact hclear rfl
  | clearWithin other honoured =>
    cases input.busy with
    | true => exact h
    | false =>
      refine World.control_clear h ?_
      rintro rfl rfl
      exact hclearWithin rfl
  | create other job =>
    change ((w.create other job input.refused).2.files path).control = some .cancel
    rw [World.files_create]
    exact h
  | spawn other => cases input.said .spawned <;> exact h
  | _ => exact h

/-- No operation forgets an ask. -/
theorem World.asked_exec {op : Op} (input : Input) (h : path ∈ w.asked) :
    path ∈ (exec i op input w).2.asked := by
  unfold exec
  cases op with
  | claim other purpose =>
    change path ∈ (w.claim i other input.refused).2.asked
    unfold World.claim
    split <;> exact h
  | release other =>
    change path ∈ (w.release i other).asked
    unfold World.release
    split <;> exact h
  | claimReference key purpose =>
    change path ∈ (w.claimReference i key input.refused).2.asked
    unfold World.claimReference
    split <;> exact h
  | releaseReference key =>
    change path ∈ (w.releaseReference i key).asked
    unfold World.releaseReference
    split <;> exact h
  | request other control =>
    cases input.busy with
    | true => exact h
    | false =>
      change path ∈ (w.request other control).2.asked
      unfold World.request
      split
      · exact h
      · dsimp only
        split
        · exact .tail _ h
        · exact h
  | clear other honoured =>
    change path ∈ (w.clear other honoured).2.asked
    unfold World.clear
    split <;> exact h
  | clearWithin other honoured =>
    cases input.busy with
    | true => exact h
    | false =>
      change path ∈ (w.clear other honoured).2.asked
      unfold World.clear
      split <;> exact h
  | create other job =>
    change path ∈ (w.create other job input.refused).2.asked
    unfold World.create
    split <;> exact h
  | spawn other => cases input.said .spawned <;> exact h
  | _ => exact h

/-- The step deletes a cancel of the job at `path`. -/
def Pulls.clearsCancel (pulls : Pulls) (path : String) : PullAction → Bool
  | .move process _ =>
    match pulls.procs[process]? with
    | some (_, .call op _) => op == .clear path .cancel || op == .clearWithin path .cancel
    | _ => false
  | _ => false

theorem Pulls.step_control (h : pulls.step worker action = some pulls')
    (hcancel : pulls.world.control path = some .cancel)
    (hkeeps : pulls.clearsCancel path action = false) :
    pulls'.world.control path = some .cancel := by
  obtain ⟨i, input, command, op, next, rfl, hproc, hworld⟩ | ⟨i, -, hworld⟩ | ⟨hstore, -⟩ :=
    Pulls.step_cases h
  · simp only [Pulls.clearsCancel, hproc, Bool.or_eq_false_iff, beq_eq_false_iff_ne] at hkeeps
    rw [hworld]
    exact World.control_exec input hcancel hkeeps.1 hkeeps.2
  · rw [hworld]
    change ((pulls.world.store.letGo i).files path).control = some .cancel
    rw [PullStore.files_letGo]
    split <;> exact hcancel
  · change (pulls'.world.store.files path).control = some .cancel
    rw [hstore]
    exact hcancel

theorem Pulls.step_asked (h : pulls.step worker action = some pulls')
    (hasked : path ∈ pulls.world.asked) : path ∈ pulls'.world.asked := by
  obtain ⟨i, input, command, op, next, -, -, hworld⟩ | ⟨i, -, hworld⟩ | ⟨-, hsame⟩ :=
    Pulls.step_cases h
  · rw [hworld]
    exact World.asked_exec input hasked
  · rw [hworld]
    exact hasked
  · rw [hsame]
    exact hasked

/-! ## The job that was asked -/

/-- The conditions under which a cancel is heeded: `World.inTurn`, `World.heedsCancel` and
`World.sparesAsked`. -/
def Terms.heeds : Terms := ⟨true, false, []⟩

/-- In every run a cancel stays on disk until a cancel of the job is deleted. In a run whose
steps meet the conditions, a job that was asked to cancel before it had ended is cancelled or
done once it has ended, and until then the cancel is on disk or the job is in somebody's hands. -/
theorem accepted_cancel_is_heeded (worker : PullWorker) :
    (∀ (pulls pulls' : Pulls) (action : PullAction) (path : String),
      pulls.step worker action = some pulls' → pulls.world.control path = some .cancel →
      pulls.clearsCancel path action = false → pulls'.world.control path = some .cancel) ∧
    ∀ (store : PullStore) (coming : List String) (clock : ℤ) (pulls pulls' : Pulls) (path : String),
      store.Unheld →
      ReachableWhen (Pulls.step worker) (fun s a => s.meets .heeds a = true)
        (· = Pulls.opened store coming clock) pulls →
      pulls.world.control path = some .cancel → (pulls.world.record path).ended = false →
      ReachableWhen (Pulls.step worker) (fun s a => s.meets .heeds a = true) (· = pulls) pulls' →
      Heeded (pulls'.world.files path) := by
  refine ⟨fun pulls pulls' action path => Pulls.step_control, ?_⟩
  intro store coming clock pulls pulls' path hfree hreach hcancel hended hlater
  have hkept : pulls.Kept worker .heeds :=
    (Pulls.Kept.reached (P := fun _ => True) (Pulls.kept_opened hfree (fun h => by cases h) coming
      clock) trivial (fun _ _ _ _ h => h) hreach).1
  have hasked : path ∈ pulls.world.asked :=
    hkept.inv.pending path hcancel hended (World.job_isSome_of_control hcancel)
  have hkept' : pulls'.Kept worker .heeds ∧ path ∈ pulls'.world.asked := by
    refine hlater.invariant (P := fun pulls => pulls.Kept worker .heeds ∧ path ∈ pulls.world.asked)
      ?_ ?_
    · rintro _ rfl
      exact ⟨hkept, hasked⟩
    · rintro s action t ⟨hs, hasked⟩ hmeets hstep
      exact ⟨(hs.step hmeets hstep).1, Pulls.step_asked hstep hasked⟩
  exact hkept'.1.inv.heeded rfl path hkept'.2

/-! ### A pull whose worker died -/

/-- A pull that was running when its worker died. -/
def interruptedDir : JobDir where
  path := "900-org-m"
  job := ⟨"900-org-m", "huggingface", "org/m", 900⟩
  files := {
    record := .stored { state := .running, attempt := 1, pid := some 7, updatedAtMs := 950 } }

def interruptedStore : PullStore := ⟨[interruptedDir], List.nodup_singleton _⟩

/-- A cancel, up to where it is on disk. -/
def cancelAsked : List PullAction :=
  ([.launch (.stop "900-org-m" .cancel)] : List PullAction) ++ moves 0 5

/-- The rest of it. -/
def cancelSettled : List PullAction := moves 0 8

theorem accepted_cancel_is_heeded_interrupted :
    ∃ pulls pulls', runWhen (Pulls.step plainWorker) (Pulls.meets .heeds)
        (Pulls.opened interruptedStore [] 1000) cancelAsked = some pulls ∧
      runWhen (Pulls.step plainWorker) (Pulls.meets .heeds) pulls cancelSettled = some pulls' ∧
      pulls.world.control "900-org-m" = some .cancel ∧
      pulls'.world.control "900-org-m" = none ∧ Heeded (pulls'.world.files "900-org-m") := by
  obtain ⟨pulls, hpulls, hcancel⟩ := Option.map_eq_some_iff.1 (show
    (runWhen (Pulls.step plainWorker) (Pulls.meets .heeds) (Pulls.opened interruptedStore [] 1000)
      cancelAsked).map (fun pulls => (pulls.world.control "900-org-m",
        (pulls.world.record "900-org-m").ended)) = some (some .cancel, false) by decide)
  obtain ⟨pulls', hpulls', hcleared⟩ := Option.map_eq_some_iff.1 (show
    ((runWhen (Pulls.step plainWorker) (Pulls.meets .heeds) (Pulls.opened interruptedStore [] 1000)
      cancelAsked).bind fun pulls => runWhen (Pulls.step plainWorker) (Pulls.meets .heeds) pulls
        cancelSettled).map (fun pulls => pulls.world.control "900-org-m") = some none by
    decide)
  rw [hpulls, Option.bind_some] at hpulls'
  obtain ⟨hcancel, hended⟩ := Prod.mk.inj hcancel
  have hfree : interruptedStore.Unheld := by decide
  exact ⟨pulls, pulls', hpulls, hpulls', hcancel, hcleared,
    (accepted_cancel_is_heeded plainWorker).2 _ _ _ _ _ _ hfree (.of_runWhen hpulls) hcancel hended
      (.of_runWhen hpulls')⟩

/-- A pause is asked for and finds nobody there; before it is settled the pull is cancelled. -/
def pauseAndCancel : List PullAction :=
  ([.launch (.stop "900-org-m" .pause)] : List PullAction) ++ moves 0 7 ++
    ([.launch (.stop "900-org-m" .cancel)] : List PullAction) ++ moves 1 5

/-- The cancel is settled and deleted, then the pause is settled. -/
def latePause : List PullAction := moves 1 8 ++ moves 0 5

theorem late_pause_undoes_cancel :
    (run (Pulls.step plainWorker) (Pulls.opened interruptedStore [] 1000) pauseAndCancel).map
        (fun pulls => (pulls.world.control "900-org-m",
          (pulls.world.record "900-org-m").ended)) = some (some .cancel, false) ∧
    (run (Pulls.step plainWorker) (Pulls.opened interruptedStore [] 1000)
        (pauseAndCancel ++ latePause)).map
        (fun pulls => (pulls.world.control "900-org-m", pulls.world.holder "900-org-m",
          ((pulls.world.record "900-org-m").storedStatus 900).state)) =
      some (none, none, .paused) := by
  decide

end Hedos.Install
