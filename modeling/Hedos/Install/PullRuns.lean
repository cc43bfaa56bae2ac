import Hedos.Install.PullWorkerSpecs
import Hedos.Install.PullStartSpecs

/-!
# Runs of clients and workers over one pull store

Every command keeps the contract from the moment its process starts (`programOf_spec`), so a
pool of them keeps it for as long as every step meets the condition (`Pulls.Kept.reached`). What
follows for a job that has ended: its record is not written again
(`terminal_pull_stays_terminal`).

The condition cannot be dropped. A worker takes its job's lock without looking whether the job
has ended in the meantime, and stamps the record `queued` again: `late_worker_reopens_failed_pull`
is a run of two starts of one model and the first one's worker.
-/

namespace Hedos.Install

open Programs Transition

variable {worker : PullWorker} {terms : Terms} {i : ℕ} {w w' : World}

/-! ## Every command keeps the contract -/

/-- What a process that starts a pull reports is a job of the model. -/
def Reported (command : Command) (report : Report) (w : World) : Prop :=
  ∀ plan started, command = .start plan → report = .started started → started.Names plan.key w

theorem Reported.rely {command : Command} {report : Report} (h : Reported command report w)
    (hrely : Rely terms i w w') : Reported command report w' :=
  fun plan started hcommand hreport => (h plan started hcommand hreport).rely hrely

theorem openJob_spec (path : String) (h : Lockless i w) :
    wp (contract worker terms) i (openJob path)
      (fun dir w' => Lockless i w' ∧ Listed dir w') (fun _ => Lockless i) w := by
  refine wp_bind (wp_silent (silent_descriptor path) fun w₁ hrely hinv input hrely' => ?_)
  have h₁ := h.rely hrely'
  split
  · rename_i job hjob
    exact ⟨h₁, hjob⟩
  · exact h₁

theorem programOf_spec (command : Command) (hidle : Idle i w) :
    wp (contract worker terms) i (programOf worker command) (Reported command)
      (fun _ _ => True) w := by
  have h : Lockless i w := hidle.1
  cases command with
  | stop path control =>
    refine wp_then (wp_mono (openJob_spec path h) (fun _ _ h => h) fun _ _ _ => trivial) ?_
    rintro dir w₁ ⟨h₁, hlisted⟩
    refine wp_then (wp_mono (stopAndReport_spec control h₁ hlisted) (fun _ _ h => h)
      fun _ _ _ => trivial) fun answer w₂ _ => ?_
    exact fun plan started hcommand => by cases hcommand
  | resume path =>
    refine wp_then (wp_mono (openJob_spec path h) (fun _ _ h => h) fun _ _ _ => trivial) ?_
    rintro dir w₁ ⟨h₁, -⟩
    refine wp_then (wp_mono (restart_spec h₁) (fun _ _ h => h) fun _ _ _ => trivial)
      fun pid w₂ _ => ?_
    exact fun plan started hcommand => by cases hcommand
  | resumeAll pausedToo =>
    refine wp_then (wp_mono (resumeAll_spec pausedToo h) (fun _ _ h => h) fun _ _ _ => trivial)
      fun results w₁ _ => ?_
    exact fun plan started hcommand => by cases hcommand
  | start plan =>
    refine wp_then (wp_mono (startOrJoin_spec h) (fun _ _ h => h) fun _ _ _ => trivial)
      fun started w₁ hnames => ?_
    rintro _ _ ⟨⟩ ⟨⟩
    exact hnames
  | settleSuperseded =>
    refine wp_quiet_then quiet_now fun now w₁ hrely₁ => ?_
    refine wp_then (wp_mono (settleAllSuperseded_spec now (h.rely hrely₁)) (fun _ _ h => h)
      fun _ _ _ => trivial) fun count w₂ _ => ?_
    exact fun plan started hcommand => by cases hcommand
  | worker path =>
    refine wp_then (wp_mono (PullWorker.run_spec path h) (fun _ _ h => h) fun _ _ _ => trivial)
      fun state w₁ _ => ?_
    exact fun plan started hcommand => by cases hcommand

/-! ## Runs -/

/-- The condition of `terms` on a step of the pool. -/
def Pulls.meets (terms : Terms) (pulls : Pulls) (action : PullAction) : Bool :=
  Pool.meets terms.allows terms.spares pulls action

/-- Every process of the pool keeps the contract from here on. -/
def Pulls.Kept (worker : PullWorker) (terms : Terms) (pulls : Pulls) : Prop :=
  Pool.Sound (contract worker terms) Reported pulls

variable {pulls pulls' : Pulls}

theorem Pulls.Kept.step {action : PullAction} (h : pulls.Kept worker terms)
    (hmeets : pulls.meets terms action = true) (hstep : pulls.step worker action = some pulls') :
    pulls'.Kept worker terms ∧ ∃ j, Rely terms j pulls.world pulls'.world := by
  exact Pool.Sound.step h (fun _ _ _ _ _ hrely h => h.rely hrely)
    (fun _ command _ _ hidle => programOf_spec command hidle) hmeets hstep

/-- What every process can rely on, in every state reached from here. -/
theorem Pulls.Kept.reached {P : World → Prop} (h : pulls.Kept worker terms) (hp : P pulls.world)
    (hstable : ∀ j w w', Rely terms j w w' → P w → P w')
    (hreach : ReachableWhen (Pulls.step worker)
      (fun pulls action => pulls.meets terms action = true)
      (· = pulls) pulls') : pulls'.Kept worker terms ∧ P pulls'.world := by
  refine hreach.invariant (P := fun pulls => pulls.Kept worker terms ∧ P pulls.world) ?_ ?_
  · rintro _ rfl
    exact ⟨h, hp⟩
  · rintro s action t ⟨hkept, hs⟩ hmeets hstep
    obtain ⟨hkept', j, hrely⟩ := hkept.step hmeets hstep
    exact ⟨hkept', hstable j _ _ hrely hs⟩

/-- Nobody holds a job of the store. -/
def PullStore.Unheld (store : PullStore) : Prop := ∀ dir ∈ store.jobs, dir.files.holder = none

instance (store : PullStore) : Decidable store.Unheld :=
  inferInstanceAs (Decidable (∀ dir ∈ store.jobs, dir.files.holder = none))

/-- A store nobody holds anything of, with the jobs there are named by `terms.old`. -/
theorem Pulls.kept_opened {store : PullStore} (hfree : store.Unheld)
    (hold : terms.references = true → ∀ dir ∈ store.jobs, dir.path ∈ terms.old)
    (coming : List String) (clock : ℤ) :
    (Pulls.opened store coming clock).Kept worker terms := by
  have hasked : ∀ path, path ∈ (World.opened store coming clock).asked ↔
      ∃ dir, store.find path = some dir ∧ dir.files.control = some .cancel ∧
        dir.files.record.ended = false := by
    intro path
    simp only [World.opened, List.mem_map, List.mem_filter, Bool.and_eq_true, beq_iff_eq,
      Bool.not_eq_true']
    constructor
    · rintro ⟨dir, ⟨hdir, hcontrol⟩, rfl⟩
      exact ⟨dir, PullStore.find_of_mem hdir, hcontrol⟩
    · rintro ⟨dir, hfind, hcontrol⟩
      obtain ⟨hdir, hpath⟩ := PullStore.find_eq_some hfind
      exact ⟨dir, ⟨hdir, hcontrol⟩, hpath⟩
  have hfiles : ∀ path dir, store.find path = some dir →
      (World.opened store coming clock).files path = dir.files := by
    intro path dir hfind
    simp only [World.files, PullStore.files, World.opened, hfind]
  have hinv : Inv terms (World.opened store coming clock) := by
    refine ⟨fun path hmem => ?_, fun path hcontrol hended hjob => ?_, fun _ path hmem => ?_, ?_⟩
    · obtain ⟨dir, hfind, -⟩ := (hasked path).1 hmem
      exact Option.isSome_map.trans (Option.isSome_iff_exists.2 ⟨dir, hfind⟩)
    · obtain ⟨dir, hfind⟩ := Option.isSome_iff_exists.1 (Option.isSome_map.symm.trans hjob)
      rw [World.control, hfiles path dir hfind] at hcontrol
      rw [World.record, hfiles path dir hfind] at hended
      exact (hasked path).2 ⟨dir, hfind, hcontrol, hended⟩
    · obtain ⟨dir, hfind, hcontrol, hended⟩ := (hasked path).1 hmem
      rw [hfiles path dir hfind]
      exact .inr ⟨hended, .inl hcontrol⟩
    · intro hterms p q job job' hp hq _ _ _ _
      have hknown : ∀ path job, (World.opened store coming clock).job path = some job →
          path ∈ terms.old := by
        intro path job hjob
        obtain ⟨dir, hfind, -⟩ := Option.map_eq_some_iff.1 hjob
        obtain ⟨hdir, hpath⟩ := PullStore.find_eq_some hfind
        exact hpath ▸ hold hterms dir hdir
      exact ⟨hknown p job hp, hknown q job' hq⟩
  have hidle : ∀ i, Idle i (World.opened store coming clock) := by
    refine fun i => ⟨fun path hheld => ?_, fun key hclaim => by cases hclaim⟩
    cases hfind : store.find path with
    | none =>
      rw [World.holder, World.files_of_none (Option.map_eq_none_iff.2 hfind)] at hheld
      cases hheld
    | some dir =>
      rw [World.holder, hfiles path dir hfind, hfree dir (PullStore.find_eq_some hfind).1] at hheld
      cases hheld
  refine ⟨hinv, fun i command prog hproc => ?_, fun i _ => hidle i⟩
  cases hproc

/-! ## A job that has ended -/

/-- No condition beside `World.inTurn`. -/
def Terms.turns : Terms := ⟨false, false, []⟩

/-- In every run in which workers take jobs up before they have ended, and records are written
in turn, the record of a job that has ended is never written again. -/
theorem terminal_pull_stays_terminal (worker : PullWorker) {store : PullStore}
    (hfree : store.Unheld) {coming : List String} {clock : ℤ} {pulls pulls' : Pulls}
    (hreach : ReachableWhen (Pulls.step worker) (fun s a => s.meets .turns a = true)
      (· = Pulls.opened store coming clock) pulls)
    (hlater : ReachableWhen (Pulls.step worker) (fun s a => s.meets .turns a = true)
      (· = pulls) pulls') {path : String} (hended : (pulls.world.record path).ended = true) :
    pulls'.world.record path = pulls.world.record path := by
  have hkept : pulls.Kept worker .turns :=
    (Pulls.Kept.reached (P := fun _ => True) (Pulls.kept_opened hfree (fun h => by cases h) coming
      clock) trivial (fun _ _ _ _ h => h) hreach).1
  refine (hkept.reached (P := fun w => w.record path = pulls.world.record path) rfl ?_ hlater).2
  intro j w w' hrely hsame
  have hgoing : (w.record path).going = false := by
    rw [hsame]
    simp [RecordFile.going, hended]
  exact (hrely.frozen path hgoing).trans hsame

/-! ### One model, pulled twice -/

def freshStore : PullStore := ⟨[], List.nodup_nil⟩

def plainWorker : PullWorker := ⟨⟨[5000], 60000⟩, true, 30000⟩

def modelPlan : InstallPlan := ⟨"huggingface", "org/m"⟩

/-- `count` operations of one process, with nothing going wrong around it. -/
def moves (process count : ℕ) : List PullAction := List.replicate count (.move process {})

/-- A start of the model and the worker it spawned, to the end of the transfer. -/
def pulledOnce : List PullAction :=
  ([.launch (.start modelPlan)] : List PullAction) ++ moves 0 10 ++
    ([.launch (.worker "1000-org-m")] : List PullAction) ++ moves 1 42

/-- The model is started again. -/
def pulledTwice : List PullAction :=
  ([.drift 1, .launch (.start modelPlan)] : List PullAction) ++ moves 2 12

theorem terminal_pull_stays_terminal_done :
    ∃ pulls pulls', runWhen (Pulls.step plainWorker) (Pulls.meets .turns)
        (Pulls.opened freshStore [] 1000) pulledOnce = some pulls ∧
      runWhen (Pulls.step plainWorker) (Pulls.meets .turns) pulls pulledTwice = some pulls' ∧
      (pulls.world.record "1000-org-m").ended = true ∧
      pulls'.world.record "1000-org-m" = pulls.world.record "1000-org-m" := by
  obtain ⟨pulls, hpulls, hended⟩ := Option.map_eq_some_iff.1 (show
    (runWhen (Pulls.step plainWorker) (Pulls.meets .turns) (Pulls.opened freshStore [] 1000)
      pulledOnce).map (fun pulls => (pulls.world.record "1000-org-m").ended) = some true by
    with_unfolding_all decide)
  obtain ⟨pulls', hpulls'⟩ := Option.isSome_iff_exists.1 (show
    ((runWhen (Pulls.step plainWorker) (Pulls.meets .turns) (Pulls.opened freshStore [] 1000)
      pulledOnce).bind fun pulls => runWhen (Pulls.step plainWorker) (Pulls.meets .turns) pulls
        pulledTwice).isSome = true by with_unfolding_all decide)
  rw [hpulls, Option.bind_some] at hpulls'
  have hfree : freshStore.Unheld := by decide
  exact ⟨pulls, pulls', hpulls, hpulls', hended, terminal_pull_stays_terminal plainWorker hfree
    (.of_runWhen hpulls) (.of_runWhen hpulls') hended⟩

/-- The model is started twice, the second time after the first start's worker has not come for
longer than the grace: the second start fails the first job. -/
def startedTwice : List PullAction :=
  ([.launch (.start modelPlan)] : List PullAction) ++ moves 0 10 ++
    ([.drift 5000, .launch (.start modelPlan)] : List PullAction) ++ moves 1 18

/-- The first start's worker comes after all. -/
def lateWorker : List PullAction :=
  ([.launch (.worker "1000-org-m")] : List PullAction) ++ moves 2 6

theorem late_worker_reopens_failed_pull :
    (run (Pulls.step plainWorker) (Pulls.opened freshStore [] 1000) startedTwice).map
        (fun pulls => (pulls.world.record "1000-org-m").storedStatus 1000 |>.state) =
      some .failed ∧
    (run (Pulls.step plainWorker) (Pulls.opened freshStore [] 1000)
        (startedTwice ++ lateWorker)).map
        (fun pulls => (pulls.world.record "1000-org-m").storedStatus 1000 |>.state) =
      some .queued := by
  with_unfolding_all decide

end Hedos.Install
