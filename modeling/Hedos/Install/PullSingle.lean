import Hedos.Install.PullRuns

/-!
# One live pull of a model

Clients that start a pull look for one to join under the claim of the reference, and create
theirs only if there is none. In a run whose steps meet the condition, no second job of the model
is created beside one that is going, and whatever a client reports is a job of the model
(`one_live_pull_per_model`).

The look is not repeated where the claim was let go and taken again. A client that found a
stopped job and settled the cancel it carried starts a new pull without looking whether another
did so meanwhile: `second_claim_creates_second_pull` is a run of two starts.
-/

namespace Hedos.Install

open Programs Transition

/-- The conditions under which one pull of a model is live: `World.inTurn` and
`World.guardsReference`. -/
def Terms.guards (store : PullStore) : Terms := ⟨false, true, store.jobs.map JobDir.path⟩

/-- What process `i` reported, once it has started a pull. -/
def Pulls.started (pulls : Pulls) (i : ℕ) : Option (InstallPlan × Started) :=
  match pulls.procs[i]? with
  | some (.start plan, .ret (.started started)) => some (plan, started)
  | _ => none

theorem Pulls.started_eq_some {pulls : Pulls} {i : ℕ} {plan : InstallPlan} {started : Started}
    (h : pulls.started i = some (plan, started)) :
    pulls.procs[i]? = some (.start plan, .ret (.started started)) := by
  unfold Pulls.started at h
  split at h
  · rename_i hproc
    cases h
    exact hproc
  · cases h

/-- In every run whose steps meet the condition: next to a job of a model that was created in the
run and has not ended, every other job of the model has ended, or was there before and cannot be
read. What a client that starts a pull reports is a job of the model. -/
theorem one_live_pull_per_model (worker : PullWorker) {store : PullStore} (hfree : store.Unheld)
    {coming : List String} {clock : ℤ} {pulls : Pulls}
    (hreach : ReachableWhen (Pulls.step worker) (fun s a => s.meets (.guards store) a = true)
      (· = Pulls.opened store coming clock) pulls) :
    (∀ p q job job', pulls.world.job p = some job → pulls.world.job q = some job' →
      job.key = job'.key → p ≠ q → store.find p = none →
      (pulls.world.record p).ended = false →
      (pulls.world.record q).ended = true ∨
        (store.find q).isSome = true ∧ (pulls.world.record q).readable = false) ∧
    ∀ i plan started, pulls.started i = some (plan, started) →
      started.Names plan.key pulls.world := by
  have hold : ∀ dir ∈ store.jobs, dir.path ∈ (Terms.guards store).old :=
    fun dir hdir => List.mem_map_of_mem hdir
  have hopened : (Pulls.opened store coming clock).Kept worker (.guards store) :=
    Pulls.kept_opened hfree (fun _ => hold) coming clock
  -- a job created in the run never becomes unreadable
  have hreadable : ∀ path, store.find path = none → (pulls.world.record path).readable = true := by
    intro path hnew
    refine (hopened.reached (P := fun w => (w.record path).readable = true) ?_
      (fun j w w' hrely h => hrely.readable path h) hreach).2
    have hjob : (World.opened store coming clock).job path = none := Option.map_eq_none_iff.2 hnew
    change ((World.opened store coming clock).record path).readable = true
    rw [World.record, World.files_of_none hjob]
    rfl
  have hkept : pulls.Kept worker (.guards store) :=
    (hopened.reached (P := fun _ => True) trivial (fun _ _ _ _ h => h) hreach).1
  constructor
  · intro p q job job' hp hq hkey hne hnew hended
    have hgoing : (pulls.world.record p).going = true :=
      RecordFile.going_iff.2 ⟨hended, hreadable p hnew⟩
    have hrest : (pulls.world.record q).going = false := by
      by_contra hq'
      rw [Bool.not_eq_false] at hq'
      obtain ⟨hmem, -⟩ := hkept.inv.single rfl p q job job' hp hq hkey hne hgoing hq'
      obtain ⟨dir, hdir, rfl⟩ := List.mem_map.1 hmem
      rw [PullStore.find_of_mem hdir] at hnew
      cases hnew
    cases hended' : (pulls.world.record q).ended with
    | true => exact .inl rfl
    | false =>
      have hunreadable : (pulls.world.record q).readable = false := by
        simpa [RecordFile.going, hended'] using hrest
      refine .inr ⟨?_, hunreadable⟩
      by_contra hnew'
      rw [hreadable q (Option.not_isSome_iff_eq_none.1 hnew')] at hunreadable
      exact absurd hunreadable.symm Bool.false_ne_true
  · intro i plan started hstarted
    have hproc := Pulls.started_eq_some hstarted
    exact hkept.procs i _ _ hproc plan started rfl rfl

/-! ### Two starts of one model -/

/-- Two starts at once: the second one is refused the claim, and joins. -/
def startedTogether : List PullAction :=
  ([.launch (.start modelPlan), .launch (.start modelPlan)] : List PullAction) ++
    moves 0 3 ++ moves 1 3 ++ moves 0 7 ++ moves 1 6

theorem one_live_pull_per_model_together :
    ∃ pulls, runWhen (Pulls.step plainWorker) (Pulls.meets (.guards freshStore))
        (Pulls.opened freshStore [] 1000) startedTogether = some pulls ∧
      pulls.started 0 = some (modelPlan, .created "1000-org-m") ∧
      pulls.started 1 = some (modelPlan, .joined "1000-org-m") ∧
      (Started.joined "1000-org-m").Names modelPlan.key pulls.world := by
  obtain ⟨pulls, hpulls, hstarted⟩ := Option.map_eq_some_iff.1 (show
    (runWhen (Pulls.step plainWorker) (Pulls.meets (.guards freshStore))
      (Pulls.opened freshStore [] 1000) startedTogether).map
        (fun pulls => (pulls.started 0, pulls.started 1)) =
      some (some (modelPlan, .created "1000-org-m"), some (modelPlan, .joined "1000-org-m")) by
    with_unfolding_all decide)
  obtain ⟨hfirst, hsecond⟩ := Prod.mk.inj hstarted
  have hfree : freshStore.Unheld := by decide
  exact ⟨pulls, hpulls, hfirst, hsecond,
    (one_live_pull_per_model plainWorker hfree (.of_runWhen hpulls)).2 1 _ _ hsecond⟩

/-- A pull that was paused, with a cancel its worker never read. -/
def unreadCancelDir : JobDir where
  path := "900-org-m"
  job := ⟨"900-org-m", "huggingface", "org/m", 900⟩
  files := {
    record := .stored { state := .paused, attempt := 1, updatedAtMs := 950 }
    control := some .cancel }

def unreadCancelStore : PullStore := ⟨[unreadCancelDir], List.nodup_singleton _⟩

/-- The first start settles the cancel; the second one runs to its end before the first takes the
claim again. -/
def claimedAgain : List PullAction :=
  ([.launch (.start modelPlan)] : List PullAction) ++ moves 0 18 ++
    ([.launch (.start modelPlan)] : List PullAction) ++ moves 1 12 ++ moves 0 11

/-- The listing of a store whose directory is in order already, which evaluates. -/
def PullStore.inOrder (store : PullStore) : List JobDir :=
  if store.jobs.Pairwise (fun a b => older a b = true) then store.jobs else store.list

theorem PullStore.list_eq_inOrder (store : PullStore) : store.list = store.inOrder := by
  unfold PullStore.inOrder
  split
  · rename_i hsorted
    exact List.mergeSort_of_pairwise hsorted
  · rfl

def execInOrder (i : ℕ) (op : Op) (input : Input) (w : World) : op.Answer × World :=
  match op with
  | .jobs => (w.store.inOrder.map fun dir => ⟨dir.path, dir.job⟩, w)
  | op => exec i op input w

theorem exec_eq_inOrder : exec = execInOrder := by
  funext i op input w
  cases op with
  | jobs =>
    change (w.store.list.map _, w) = (w.store.inOrder.map _, w)
    rw [PullStore.list_eq_inOrder]
  | _ => rfl

theorem second_claim_creates_second_pull :
    (run (Pulls.step plainWorker) (Pulls.opened unreadCancelStore [] 1000) claimedAgain).map
        (fun pulls => (pulls.started 0, pulls.started 1)) =
      some (some (modelPlan, .created "1000-org-m-2"), some (modelPlan, .created "1000-org-m")) ∧
    (run (Pulls.step plainWorker) (Pulls.opened unreadCancelStore [] 1000) claimedAgain).map
        (fun pulls => pulls.world.store.jobs.map fun dir =>
          (dir.job.id, dir.job.key, dir.storedStatus.state)) =
      some [("900-org-m", modelPlan.key, .cancelled), ("1000-org-m", modelPlan.key, .queued),
        ("1000-org-m-2", modelPlan.key, .queued)] := by
  unfold Pulls.step machine
  rw [exec_eq_inOrder]
  with_unfolding_all decide

end Hedos.Install
