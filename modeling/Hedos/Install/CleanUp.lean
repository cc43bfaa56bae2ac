import Hedos.Install.Ending
import Hedos.Install.HfProvider

/-!
# The clean-up of a cancelled install

An install whose provider task prepares the repo directory when no provider task of an earlier
install is left has all it makes use of until it gives it up itself (`later_install_unharmed`).
Without that the clean-up of a cancelled install, which comes whenever its task is scheduled,
takes away what a later one works on (`clean_up_removes_a_download`).

* `Provider.Good` is what a provider task keeps to itself, `there_act` that its own steps leave what
  it holds;
* `Inv` says who can work on the repo.
-/

namespace Hedos.Install.HuggingFace

open Function

open Service (StreamEvent)

/-! ## What the operations leave -/

section

variable {repo : Repo} {item : Item}

theorem has_makeBlobs (h : repo.has item = true) : repo.makeBlobs.has item = true := by
  cases item <;> first | rfl | exact h

theorem has_makeRefs (h : repo.has item = true) : repo.makeRefs.has item = true := by
  cases item <;> first | rfl | exact h

theorem has_makeSnapshot (h : repo.has item = true) (revision : String) :
    (repo.makeSnapshot revision).has item = true := by
  cases item with
  | snapshot other =>
    by_cases hsame : other = revision
    · simp [Repo.has, Repo.makeSnapshot, hsame]
    · simp only [Repo.has, List.contains_iff_mem] at h
      simp [Repo.has, Repo.makeSnapshot, hsame, List.mem_erase_of_ne hsame, h]
  | directory => rfl
  | refs | main | incomplete => exact h

theorem has_main (h : repo.has item = true) (revision : String) :
    ({ repo with main := some revision } : Repo).has item = true := by
  cases item <;> first | rfl | exact h

theorem has_dropPartials {names : List String} (h : repo.has item = true)
    (hout : ∀ name ∈ names, item ≠ .incomplete name) :
    (repo.dropPartials names).has item = true := by
  cases item with
  | incomplete name =>
    simp only [Repo.has, Repo.hasPartial, List.any_eq_true, beq_iff_eq] at h
    obtain ⟨file, hmem, rfl⟩ := h
    have hkeep : file.1 ∉ names := fun hin => hout _ hin rfl
    simp only [Repo.has, Repo.hasPartial, Repo.dropPartials, List.any_eq_true, List.mem_filter]
    exact ⟨file, ⟨hmem, by simpa using hkeep⟩, by simp⟩
  | directory | refs | main | snapshot => exact h

theorem has_setPartial_self (repo : Repo) (name : String) (length : ℕ) :
    (repo.setPartial name length).has (.incomplete name) = true := by
  simp [Repo.has, Repo.hasPartial, Repo.setPartial]

theorem has_setPartial (h : repo.has item = true) (name : String) (length : ℕ) :
    (repo.setPartial name length).has item = true := by
  by_cases hsame : item = .incomplete name
  · rw [hsame]
    exact has_setPartial_self repo name length
  · have hdrop : (repo.dropPartials [name]).has item = true :=
      has_dropPartials h (by simpa using hsame)
    cases item with
    | incomplete other =>
      simp only [Repo.has, Repo.hasPartial, Repo.setPartial, List.any_cons, Bool.or_eq_true]
      exact .inr hdrop
    | directory | refs | main | snapshot => exact h

theorem has_append (h : repo.has item = true) (name : String) (length : ℕ) :
    (repo.append name length).has item = true := by
  cases item with
  | incomplete other =>
    simp only [Repo.has, Repo.hasPartial, List.any_eq_true, beq_iff_eq] at h
    obtain ⟨file, hmem, rfl⟩ := h
    simp only [Repo.has, Repo.hasPartial, Repo.append, List.any_map, List.any_eq_true]
    refine ⟨file, hmem, ?_⟩
    by_cases hname : file.1 = name
    · simp [hname]
    · simp [hname]
  | directory | refs | main | snapshot => exact h

theorem has_rename (h : repo.has item = true) (old new : String) (hold : item ≠ .incomplete old) :
    (repo.rename old new).has item = true := by
  unfold Repo.rename
  split
  · exact has_setPartial (has_dropPartials h (by simpa using hold)) _ _
  · exact h

theorem has_rename_new {old : String} (h : repo.hasPartial old = true) (new : String) :
    (repo.rename old new).has (.incomplete new) = true := by
  unfold Repo.rename
  split
  · exact has_setPartial_self _ _ _
  · rename_i hnone
    simp only [Repo.hasPartial, List.any_eq_true] at h
    obtain ⟨file, hmem, hname⟩ := h
    exact absurd hname (List.find?_eq_none.1 hnone file hmem)

theorem has_land (h : repo.has item = true) (name blob : String) (hname : item ≠ .incomplete name) :
    (repo.land name blob).has item = true := by
  have hdrop : (repo.dropPartials [name]).has item = true :=
    has_dropPartials h (by simpa using hname)
  unfold Repo.land
  split
  · simp only
    split
    · exact hdrop
    · cases item <;> exact hdrop
  · exact h

end

/-! ## A provider task -/

section

variable {params : Params} {p : Provider} {gone keep : Bool} {repo : Repo} {move : Move}
  {effect : Effect}

/-- What a provider task knows of its own. -/
structure Provider.Good (params : Params) (p : Provider) : Prop where
  fresh : p.stage = .spawned ∨ p.stage = .resolving → p.holds = []
  held : ∀ name, .incomplete name ∈ p.holds → name ∈ p.keeping
  first : ∀ name, p.firstWeight = some name → name ∈ p.keeping
  files : ∀ file ∈ p.files, pendingBlobName params.hash file p.revision ∈ p.keeping

theorem Provider.good_init (params : Params) : Provider.Good params {} :=
  ⟨fun _ => rfl, by simp, by simp, by simp⟩

/-- Another stage, with less to hold and to do. -/
theorem Provider.Good.moves {p' : Provider} (h : p.Good params)
    (hstage : p'.stage ≠ .spawned ∧ p'.stage ≠ .resolving) (hrevision : p'.revision = p.revision)
    (hkeeping : p'.keeping = p.keeping) (hfirst : p'.firstWeight = p.firstWeight)
    (hfiles : p'.files ⊆ p.files)
    (hholds : ∀ name, .incomplete name ∈ p'.holds → .incomplete name ∈ p.holds ∨
      name ∈ p.keeping) : p'.Good params := by
  refine ⟨fun hat => ?_, fun name hname => ?_, ?_, fun file hfile => ?_⟩
  · rcases hat with hat | hat
    · exact absurd hat hstage.1
    · exact absurd hat hstage.2
  · rw [hkeeping]
    rcases hholds name hname with hin | hin
    · exact h.held name hin
    · exact hin
  · rw [hkeeping, hfirst]
    exact h.first
  · rw [hkeeping, hrevision]
    exact h.files file (hfiles hfile)

/-- What the install holds is on disk. -/
def Provider.There (p : Provider) (repo : Repo) : Prop :=
  ∀ item ∈ p.holds, repo.has item = true

/-- A step keeps what the task knows, and what it holds where it is. -/
structure Kept (params : Params) (p : Provider) (repo : Repo) (effect : Effect) : Prop where
  good : p.Good params → effect.provider.Good params
  there : p.Good params → p.There repo → effect.provider.stage.isUsing = true →
    effect.provider.There effect.repo

variable {repo' : Repo} {stage : Stage} {file : HFSibling}

variable {holds : List Item} {told : Option (Except InstallError StreamEvent)}

/-- A step that leads to the clean-up. -/
theorem Kept.failing {failure : Option InstallError} (hholds : holds ⊆ p.holds) :
    Kept params p repo
      { provider := { p with stage := .sweeping failure, holds }, repo := repo' } :=
  ⟨fun h => h.moves ⟨by simp, by simp⟩ rfl rfl rfl (List.Subset.refl _)
    fun _ hname => .inl (hholds hname), fun _ _ huse => by simp [Stage.isUsing] at huse⟩

theorem Kept.needing {there : Bool} (h : there = true → Kept params p repo effect) :
    Kept params p repo (needing there p repo' effect) := by
  unfold HuggingFace.needing
  split
  · rename_i hthere
    exact h hthere
  · exact .failing (List.Subset.refl _)

/-- A step that takes up what it makes, and leaves what it holds on. -/
theorem Kept.takes {files : List HFSibling} (items : List Item)
    (hstage : stage ≠ .spawned ∧ stage ≠ .resolving) (hfiles : files ⊆ p.files)
    (hholds : holds ⊆ items ++ p.holds)
    (hnames : p.Good params → ∀ name, .incomplete name ∈ items → name ∈ p.keeping)
    (hmade : ∀ item ∈ items, repo'.has item = true)
    (hrest : p.Good params → ∀ item ∈ p.holds, item ∈ holds → repo.has item = true →
      repo'.has item = true) :
    Kept params p repo { provider := { p with stage, files, holds }, repo := repo', told } := by
  refine ⟨fun h => h.moves hstage rfl rfl rfl hfiles fun name hname => ?_,
    fun h hthere _ item hitem => ?_⟩
  · rcases List.mem_append.1 (hholds hname) with hin | hin
    · exact .inr (hnames h name hin)
    · exact .inl hin
  · rcases List.mem_append.1 (hholds hitem) with hin | hin
    · exact hmade item hin
    · exact hrest h item hin hitem (hthere item hin)

/-- A step that only goes on. -/
theorem Kept.goes (hstage : stage ≠ .spawned ∧ stage ≠ .resolving) :
    Kept params p repo { provider := { p with stage }, repo, told } :=
  .takes [] hstage (List.Subset.refl _) (List.Subset.refl _) (by simp) (by simp)
    fun _ _ _ _ h => h

theorem kept_resolved (hat : p.stage = .resolving) (revision : String) (files : List HFSibling) :
    Kept params p repo { provider := p.resolved params revision files, repo } := by
  unfold Provider.resolved
  split
  · exact .failing (List.Subset.refl _)
  · split
    · exact .failing (List.Subset.refl _)
    · refine ⟨fun h => ⟨by simp, fun name hname => ?_, fun name hname => ?_, fun file hfile => ?_⟩,
        fun h hthere _ => hthere⟩
      · rw [show p.holds = [] from h.fresh (.inr hat)] at hname
        cases hname
      · simp only [Option.map_eq_some_iff] at hname
        obtain ⟨file, hfind, rfl⟩ := hname
        exact List.mem_map_of_mem (List.mem_of_find?_eq_some hfind)
      · exact List.mem_map_of_mem hfile

theorem kept_place : Kept params p repo (p.place repo) := by
  unfold Provider.place
  split
  · exact .goes (by simp)
  · rename_i name hname
    have hkeeping : p.Good params → ∀ other, Item.incomplete other ∈ [Item.incomplete name] →
        other ∈ p.keeping := by
      intro h other hother
      rw [List.mem_singleton, Item.incomplete.injEq] at hother
      rw [hother]
      exact h.first name hname
    split
    · rename_i hpartial
      exact .takes [.incomplete name] (by simp) (List.Subset.refl _) (List.Subset.refl _) hkeeping
        (by simpa [Repo.has] using hpartial) fun _ _ _ _ h => h
    · split
      · exact .goes (by simp)
      · refine .needing fun _ => ?_
        exact .takes [.incomplete name] (by simp) (List.Subset.refl _) (List.Subset.refl _) hkeeping
          (by simpa using has_setPartial_self repo name 0) fun _ _ _ _ h => has_setPartial h name 0

theorem kept_openPartial (hfile : file ∈ p.files) :
    Kept params p repo (p.openPartial params file repo) := by
  have hkeeping : p.Good params → ∀ other,
      Item.incomplete other ∈ [Item.incomplete (pendingBlobName params.hash file p.revision)] →
        other ∈ p.keeping := by
    intro h other hother
    rw [List.mem_singleton, Item.incomplete.injEq] at hother
    rw [hother]
    exact h.files file hfile
  unfold Provider.openPartial
  simp only
  split
  · rename_i hadopts
    have hnew := has_rename_new (Bool.and_eq_true _ _ ▸ hadopts).2
      (pendingBlobName params.hash file p.revision)
    rw [if_pos (show Repo.hasPartial _ _ = true from hnew)]
    refine .takes [.incomplete (pendingBlobName params.hash file p.revision)] (by simp)
      (List.Subset.refl _) (List.cons_subset_cons _ (List.filter_subset_self _)) hkeeping
      (by simpa using hnew) fun _ item _ hitem h => ?_
    rcases List.mem_cons.1 hitem with rfl | hitem
    · exact hnew
    · rw [List.mem_filter] at hitem
      exact has_rename h _ _ (by simpa using hitem.2)
  · split
    · rename_i hpartial
      exact .takes [.incomplete (pendingBlobName params.hash file p.revision)] (by simp)
        (List.Subset.refl _) (List.Subset.refl _) hkeeping (by simpa [Repo.has] using hpartial)
        fun _ _ _ _ h => h
    · refine .needing fun _ => ?_
      exact .takes [.incomplete (pendingBlobName params.hash file p.revision)] (by simp)
        (List.Subset.refl _) (List.Subset.refl _) hkeeping
        (by simpa using has_setPartial_self repo _ 0) fun _ _ _ _ h => has_setPartial h _ 0

theorem kept_open (hfile : file ∈ p.files) : Kept params p repo (p.open params file repo) := by
  unfold Provider.open
  split
  · refine .takes [] (by simp) (List.Subset.refl _) (List.filter_subset_self _) (by simp) (by simp)
      fun _ item _ hitem h => has_dropPartials h ?_
    rw [List.mem_filter] at hitem
    simpa using hitem.2
  · exact kept_openPartial hfile

theorem kept_finish (digest : String) : Kept params p repo (p.finish params file digest repo) := by
  unfold Provider.finish
  simp only
  split
  · exact .failing (List.filter_subset_self _)
  · refine .needing fun _ => ?_
    refine .takes [] (by simp) (List.Subset.refl _) (List.filter_subset_self _) (by simp) (by simp)
      fun _ item _ hitem h => has_land h _ _ ?_
    rw [List.mem_filter] at hitem
    simpa using hitem.2

theorem Kept.cleaning (hstage : stage.isUsing = false ∧ stage ≠ .spawned ∧ stage ≠ .resolving) :
    Kept params p repo { provider := { p with stage }, repo := repo' } :=
  ⟨fun h => h.moves hstage.2 rfl rfl rfl (List.Subset.refl _) fun _ hname => .inl hname,
    fun _ _ huse => by rw [show stage.isUsing = true from huse] at hstage; cases hstage.1⟩

theorem afterCleanUp_stage (failure : Option InstallError) :
    (afterCleanUp failure).isUsing = false ∧ afterCleanUp failure ≠ .spawned ∧
      afterCleanUp failure ≠ .resolving := by
  cases failure <;> simp [afterCleanUp, Stage.isUsing]

/-- A step of the clean-up leads to another, or out of it. -/
theorem cleanUp_cases (h : p.cleanUp keep repo = some effect) :
    ∃ stage repo', effect = { provider := { p with stage }, repo := repo' } ∧
      stage.isUsing = false ∧ stage ≠ .spawned ∧ stage ≠ .resolving := by
  unfold Provider.cleanUp at h
  simp only at h
  split at h
  case h_8 => cases h
  all_goals refine ⟨_, _, (Option.some.inj h).symm, ?_⟩
  · simp [Stage.isUsing]
  · split
    · exact afterCleanUp_stage _
    · simp [Stage.isUsing]
  · split <;> simp [Stage.isUsing]
  · exact afterCleanUp_stage _
  · split
    · exact afterCleanUp_stage _
    · simp [Stage.isUsing]
  · simp [Stage.isUsing]
  · exact afterCleanUp_stage _

theorem kept_act (h : p.act params gone keep repo move = some effect) :
    Kept params p repo effect := by
  unfold Provider.act at h
  split at h
  · cases h
    rename_i hat
    refine ⟨fun hgood => ⟨fun _ => hgood.fresh (.inl hat), hgood.held, hgood.first, hgood.files⟩,
      fun _ _ huse => by simp [Stage.isUsing] at huse⟩
  · cases h
    rename_i hat
    exact kept_resolved hat _ _
  · cases h
    exact .takes [.directory] (by simp) (List.Subset.refl _) (List.Subset.refl _) (by simp)
      (by simp [Repo.has, Repo.makeBlobs]) fun _ _ _ _ h => has_makeBlobs h
  · cases h
    exact .takes [.snapshot p.revision] (by simp) (List.Subset.refl _) (List.Subset.refl _)
      (by simp) (by simp [Repo.has, Repo.makeSnapshot]) fun _ _ _ _ h => has_makeSnapshot h _
  · cases h
    exact .takes [.refs] (by simp) (List.Subset.refl _) (List.Subset.refl _) (by simp)
      (by simp [Repo.has, Repo.makeRefs]) fun _ _ _ _ h => has_makeRefs h
  · simp only at h
    split at h
    · cases h
      rename_i hmain
      exact .takes [.main] (by simp) (List.Subset.refl _) (List.Subset.refl _) (by simp)
        (by simpa [Repo.has] using hmain) fun _ _ _ _ h => h
    · cases h
      refine .needing fun _ => ?_
      exact .takes [.main] (by simp) (List.Subset.refl _) (List.Subset.refl _) (by simp)
        (by simp [Repo.has]) fun _ _ _ _ h => has_main h _
  · cases h
    exact kept_place
  · cases h
    refine .takes [] (by split <;> simp) (List.Subset.refl _) (List.Subset.refl _) (by simp)
      (by simp) fun hgood item hitem _ h => has_dropPartials h fun name hname => ?_
    -- what is held is kept
    rintro rfl
    rw [List.mem_filter] at hname
    simp [hgood.held name hitem] at hname
  · rw [Option.map_eq_some_iff] at h
    obtain ⟨file, hfile, rfl⟩ := h
    exact kept_open (List.mem_of_head? hfile)
  · rename_i hat
    rw [Option.map_eq_some_iff] at h
    obtain ⟨file, hfile, rfl⟩ := h
    exact .takes [] (by simp [hat]) (List.Subset.refl _) (List.Subset.refl _) (by simp) (by simp)
      fun _ _ _ _ h => has_append h _ _
  · rename_i hat
    rw [Option.map_eq_some_iff] at h
    obtain ⟨file, hfile, rfl⟩ := h
    refine .needing fun _ => ?_
    exact .takes [] (by simp [hat]) (List.Subset.refl _) (List.Subset.refl _) (by simp) (by simp)
      fun _ _ _ _ h => has_setPartial h _ _
  · rw [Option.map_eq_some_iff] at h
    obtain ⟨file, hfile, rfl⟩ := h
    exact kept_finish _
  · rw [Option.map_eq_some_iff] at h
    obtain ⟨file, hfile, rfl⟩ := h
    refine .takes [] (by split <;> simp) (List.tail_sublist _).subset (List.Subset.refl _) (by simp)
      (by simp) fun _ item _ _ h => ?_
    have hmade := has_makeSnapshot h p.revision
    cases item <;> exact hmade
  · cases h
    refine .needing fun _ => ?_
    exact .takes [] (by simp) (List.Subset.refl _) (List.Subset.refl _) (by simp) (by simp)
      fun _ _ _ _ h => has_main h _
  · cases h
    refine .takes [] (by simp) (List.Subset.refl _) (List.filter_subset_self _) (by simp) (by simp)
      fun _ item _ hitem h => has_dropPartials h fun name hname => ?_
    rintro rfl
    rw [List.mem_filter] at hitem
    simp at hitem
    exact hitem.2 name hname rfl
  · cases h
    exact .goes (by simp)
  · split at h
    · cases h
      exact .failing (List.Subset.refl _)
    · cases h
  · split at h
    · cases h
      exact .failing (List.Subset.refl _)
    · cases h
  · split at h
    · cases h
      exact .failing (List.Subset.refl _)
    · cases h
  · cases h
    exact .goes (by simp)
  · split at h
    · cases h
      exact .failing (List.Subset.refl _)
    · cases h
  · obtain ⟨stage, repo', rfl, hstage⟩ := cleanUp_cases h
    exact .cleaning hstage
  · cases h

/-- The repo is prepared behind the listing only. -/
theorem act_enters (h : p.act params gone keep repo move = some effect)
    (huse : effect.provider.stage.isUsing = true) :
    p.stage.isUsing = true ∨
      (p.stage = .resolving ∧ ∃ revision files, move = .resolved revision files) := by
  by_cases hp : p.stage.isUsing = true
  · exact .inl hp
  have hgone : ∀ {stage : Stage} {repo' told}, some (Effect.mk { p with stage } repo' told) =
      some effect → stage.isUsing = false → False := by
    intro stage repo' told hsome hnot
    rw [← Option.some.inj hsome] at huse
    exact absurd huse (by simp [hnot])
  unfold Provider.act at h
  split at h
  case h_1 => exact absurd ((Option.some.inj h) ▸ huse) (by simp [Stage.isUsing])
  case h_2 hat => exact .inr ⟨hat, _, _, rfl⟩
  case h_17 | h_18 | h_19 =>
    split at h
    · exact (hgone h rfl).elim
    · cases h
  case h_20 => exact (hgone h rfl).elim
  case h_21 =>
    split at h
    · exact (hgone h rfl).elim
    · cases h
  case h_22 =>
    obtain ⟨stage, repo', rfl, hstage⟩ := cleanUp_cases h
    exact absurd huse (by simp [hstage.1])
  case h_23 => cases h
  all_goals
    rename_i hat
    exact absurd (by rw [hat]; rfl) hp

theorem act_ended (hat : p.stage = .ended) : p.act params gone keep repo move = none := by
  cases move <;> simp [Provider.act, Provider.cleanUp, hat, Stage.isUsing]

end

/-! ## Who works on the repo -/

section

variable {params : Params} {w t : World} {i : ℕ}

/-- The install is begun and not concluded. -/
def IsRunning (service : Service.State) (i : ℕ) : Prop :=
  ∃ task, service.tasks i = some task ∧ task.pc ≠ .finished

def IsOurs (params : Params) (service : Service.State) (i : ℕ) : Prop :=
  ∃ task, service.tasks i = some task ∧ params.isOurs task = true

structure Inv (params : Params) (w : World) : Prop where
  service : Service.Inv w.service
  ours : ∀ i p, w.providers i = some p → IsOurs params w.service i ∧ p.Good params
  later : ∀ i k, i < k → IsOurs params w.service i → IsOurs params w.service k →
    ¬ IsRunning w.service i
  alone : ∀ j p, w.providers j = some p → p.stage.isUsing = true →
    ∀ i < j, ∀ q, w.providers i = some q → q.stage = .ended
  intact : ∀ j p, w.providers j = some p → p.stage.isUsing = true → IsRunning w.service j →
    p.There w.repo

variable {s s' : Service.State} {action : Service.Action} {task' : Service.Task}

/-- What a step of the service does to the installs that are there, and which it adds. -/
theorem service_step (h : Service.Inv s) (hstep : Service.step params.config s action = some s')
    (htask' : s'.tasks i = some task') :
    (∃ task, s.tasks i = some task ∧ task'.plan = task.plan ∧
        (task.pc = .finished → task'.pc = .finished)) ∨
      (i = s.nextId ∧ s.inFlight (Service.flightKey task'.plan) = none) := by
  cases htask : s.tasks i with
  | none =>
    obtain ⟨-, hid, hfree⟩ := Service.task_fresh htask hstep htask'
    exact .inr ⟨hid, hfree⟩
  | some task =>
    obtain ⟨other, hother, hmove⟩ := Service.tasks_step h hstep htask
    obtain rfl := Option.some.inj (hother.symm.trans htask')
    refine .inl ⟨task, rfl, ?_⟩
    rcases hmove with ⟨-, htold⟩ | ⟨-, hadvance⟩
    · exact ⟨htold.plan, fun hpc => htold.pc.trans hpc⟩
    · refine ⟨Service.advance_plan hadvance, fun hpc => ?_⟩
      simp [Service.advance, hpc] at hadvance

theorem isOurs_step (h : Service.Inv s)
    (hstep : Service.step params.config s action = some s') (hours : IsOurs params s i) :
    IsOurs params s' i := by
  obtain ⟨task, htask, hours⟩ := hours
  obtain ⟨task', htask', hmove⟩ := Service.tasks_step h hstep htask
  refine ⟨task', htask', ?_⟩
  have hplan : task'.plan = task.plan := by
    rcases hmove with ⟨-, htold⟩ | ⟨-, hadvance⟩
    · exact htold.plan
    · exact Service.advance_plan hadvance
  rw [Params.isOurs, hplan]
  exact hours

theorem flightKey_ours {task : Service.Task} (h : params.isOurs task = true)
    (h' : params.isOurs task' = true) :
    Service.flightKey task.plan = Service.flightKey task'.plan := by
  simp only [Params.isOurs, Bool.and_eq_true, beq_iff_eq] at h h'
  rw [Service.flightKey, Service.flightKey, h.1, h.2, h'.1, h'.2]

/-- The installs of the reference come one behind the other. -/
theorem later_step (h : Service.Inv s)
    (hlater : ∀ i k, i < k → IsOurs params s i → IsOurs params s k → ¬ IsRunning s i)
    (hstep : Service.step params.config s action = some s') {i k : ℕ} (hik : i < k)
    (hi : IsOurs params s' i) (hk : IsOurs params s' k) : ¬ IsRunning s' i := by
  rintro ⟨running, hrunning, hpc⟩
  obtain ⟨ti, hti, hi⟩ := hi
  obtain ⟨tk, htk, hk⟩ := hk
  obtain rfl := Option.some.inj (hrunning.symm.trans hti)
  have hbegun : ∀ {j task}, s.tasks j = some task → j < s.nextId := by
    intro j task hj
    cases h.ids j with
    | unused _ hnone => rw [hnone] at hj; cases hj
    | active _ _ hid => exact hid
    | concluded _ hid => exact hid
  rcases service_step h hstep hti with ⟨ti₀, hti₀, hplan, hfinished⟩ | ⟨hid, -⟩
  · have hpc₀ : ti₀.pc ≠ .finished := fun hpc₀ => hpc (hfinished hpc₀)
    have hi₀ : params.isOurs ti₀ = true := by rwa [Params.isOurs, ← hplan]
    rcases service_step h hstep htk with ⟨tk₀, htk₀, hplank, -⟩ | ⟨-, hfree⟩
    · have hk₀ : params.isOurs tk₀ = true := by rwa [Params.isOurs, ← hplank]
      exact hlater i k hik ⟨ti₀, hti₀, hi₀⟩ ⟨tk₀, htk₀, hk₀⟩ ⟨ti₀, hti₀, hpc₀⟩
    · -- a new one is begun only when none is in flight
      rw [flightKey_ours hk hi₀] at hfree
      rw [(h.flights _ i).2 ⟨ti₀, hti₀, hpc₀, rfl⟩] at hfree
      cases hfree
  · rcases service_step h hstep htk with ⟨tk₀, htk₀, -, -⟩ | ⟨hidk, -⟩
    · have := hbegun htk₀
      omega
    · omega

theorem isRunning_step (h : Service.Inv s) (hstep : Service.step params.config s action = some s')
    (hours : IsOurs params s i) (hrunning : IsRunning s' i) : IsRunning s i := by
  obtain ⟨task, htask, -⟩ := hours
  obtain ⟨task', htask', hpc⟩ := hrunning
  rcases service_step h hstep htask' with ⟨task₀, htask₀, -, hfinished⟩ | ⟨hid, -⟩
  · exact ⟨task₀, htask₀, fun hpc₀ => hpc (hfinished hpc₀)⟩
  · rw [hid, (h.unused (Nat.le_refl _)).1] at htask
    cases htask

variable {providers : ℕ → Option Provider} {j : ℕ} {p : Provider}

theorem providers_service
    (h : providers = (spawned params w.service action).elim w.providers fun i =>
      update w.providers i (some {}))
    (hp : providers j = some p) :
    w.providers j = some p ∨
      (p = {} ∧ ∃ task, w.service.tasks j = some task ∧ task.pc = .preparing ∧
        params.isOurs task = true) := by
  cases hspawned : spawned params w.service action with
  | none =>
    rw [hspawned, Option.elim_none] at h
    exact .inl (h ▸ hp)
  | some i =>
    rw [hspawned, Option.elim_some] at h
    by_cases hj : j = i
    · subst hj
      rw [h, update_self, Option.some.injEq] at hp
      refine .inr ⟨hp.symm, ?_⟩
      unfold spawned at hspawned
      split at hspawned
      · rw [Option.bind_eq_some_iff] at hspawned
        obtain ⟨task, htask, hif⟩ := hspawned
        split at hif
        · rename_i hcond
          cases hif
          simp only [Bool.and_eq_true, decide_eq_true_eq] at hcond
          exact ⟨task, htask, hcond⟩
        · cases hif
      · cases hspawned
    · rw [h, update_of_ne hj] at hp
      exact .inl hp

theorem Inv.service_step (h : Inv params w)
    (hstep : step params w (.service action) = some t) : Inv params t := by
  simp only [step, Option.ite_none_right_eq_some] at hstep
  obtain ⟨-, hstep⟩ := hstep
  rw [Option.map_eq_some_iff] at hstep
  obtain ⟨service, hservice, rfl⟩ := hstep
  refine ⟨Service.inv_step action h.service hservice, fun j p hp => ?_,
    fun j k => later_step h.service h.later hservice, fun j p hp huse k hkj q hq => ?_,
    fun j p hp huse hrunning => ?_⟩
  · rcases providers_service rfl hp with hp | ⟨rfl, task, htask, -, hours⟩
    · obtain ⟨hours, hgood⟩ := h.ours j p hp
      exact ⟨isOurs_step h.service hservice hours, hgood⟩
    · exact ⟨isOurs_step h.service hservice ⟨task, htask, hours⟩, Provider.good_init params⟩
  · rcases providers_service rfl hp with hp | ⟨rfl, -⟩
    · rcases providers_service rfl hq with hq | ⟨-, task, htask, hpc, hours⟩
      · exact h.alone j p hp huse k hkj q hq
      · -- an earlier install has been concluded, so its provider task was spawned long ago
        exact absurd ⟨task, htask, by simp [hpc]⟩
          (h.later k j hkj ⟨task, htask, hours⟩ (h.ours j p hp).1)
    · cases huse
  · rcases providers_service rfl hp with hp | ⟨rfl, -⟩
    · exact h.intact j p hp huse (isRunning_step h.service hservice (h.ours j p hp).1 hrunning)
    · cases huse

/-- The service goes on as it did: the tasks have the plans they had and are where they were. -/
structure Quiet (s s' : Service.State) : Prop where
  inv : Service.Inv s → Service.Inv s'
  tasks : ∀ j, (s'.tasks j).map (fun task => (task.plan, task.pc)) =
    (s.tasks j).map fun task => (task.plan, task.pc)

theorem Quiet.refl (s : Service.State) : Quiet s s := ⟨id, fun _ => rfl⟩

theorem Quiet.trans {s'' : Service.State} (h : Quiet s s') (h' : Quiet s' s'') :
    Quiet s s'' :=
  ⟨fun hs => h'.inv (h.inv hs), fun j => (h'.tasks j).trans (h.tasks j)⟩

theorem Quiet.task (h : Quiet s s') (htask' : s'.tasks i = some task') :
    ∃ task, s.tasks i = some task ∧ task.plan = task'.plan ∧ task.pc = task'.pc := by
  have hsame := h.tasks i
  rw [htask', Option.map_some, eq_comm, Option.map_eq_some_iff] at hsame
  obtain ⟨task, htask, heq⟩ := hsame
  rw [Prod.mk.injEq] at heq
  exact ⟨task, htask, heq⟩

theorem Quiet.symm_task (h : Quiet s s') {task : Service.Task} (htask : s.tasks i = some task) :
    ∃ task', s'.tasks i = some task' ∧ task'.plan = task.plan ∧ task'.pc = task.pc := by
  have hsame := h.tasks i
  rw [htask, Option.map_some, Option.map_eq_some_iff] at hsame
  obtain ⟨task', htask', heq⟩ := hsame
  rw [Prod.mk.injEq] at heq
  exact ⟨task', htask', heq⟩

theorem Quiet.isOurs (h : Quiet s s') : IsOurs params s' i ↔ IsOurs params s i := by
  constructor
  · rintro ⟨task', htask', hours⟩
    obtain ⟨task, htask, hplan, -⟩ := h.task htask'
    exact ⟨task, htask, by rwa [Params.isOurs, hplan]⟩
  · rintro ⟨task, htask, hours⟩
    obtain ⟨task', htask', hplan, -⟩ := h.symm_task htask
    exact ⟨task', htask', by rwa [Params.isOurs, hplan]⟩

theorem Quiet.isRunning (h : Quiet s s') (hrunning : IsRunning s' i) :
    IsRunning s i := by
  obtain ⟨task', htask', hpc⟩ := hrunning
  obtain ⟨task, htask, -, hsame⟩ := h.task htask'
  exact ⟨task, htask, by rwa [hsame]⟩

theorem quiet_stepProvider {change : Service.Task → Service.Task}
    (hplan : ∀ task, (change task).plan = task.plan) (hpc : ∀ task, (change task).pc = task.pc) :
    Quiet s ((Service.stepProvider s i change).getD s) := by
  unfold Service.stepProvider
  split
  · rename_i task htask
    split
    · rename_i hreceiver
      refine ⟨fun h => h.task_marked htask (hplan task) (hpc task)
        (Service.Task.hasReceiver_not_finished hreceiver), fun j => ?_⟩
      by_cases hj : j = i
      · subst hj
        simp [Service.setTask, htask, hplan, hpc]
      · simp [Service.setTask, update_of_ne hj]
    · exact .refl s
  · exact .refl s

theorem quiet_tell (s : Service.State) (i : ℕ) (told : Option (Except InstallError StreamEvent)) :
    Quiet s (tell s i told) := by
  cases told with
  | none => exact .refl s
  | some item => exact quiet_stepProvider (fun _ => rfl) fun _ => rfl

theorem quiet_hangUp (s : Service.State) (i : ℕ) (stage : Stage) : Quiet s (hangUp s i stage) := by
  unfold hangUp
  split
  · exact quiet_stepProvider (fun _ => rfl) fun _ => rfl
  · exact .refl s

theorem update_eq_some {q : Provider} (h : update providers i (some p) j = some q) :
    (j = i ∧ p = q) ∨ (j ≠ i ∧ providers j = some q) := by
  by_cases hj : j = i
  · rw [hj, update_self, Option.some.injEq] at h
    exact .inl ⟨hj, h⟩
  · rw [update_of_ne hj] at h
    exact .inr ⟨hj, h⟩

/-- The provider task of an install goes on to prepare the repo when none of an earlier one is
left. -/
def isClear (w : World) : Action → Bool
  | .provider j (.resolved ..) =>
    (List.range j).all fun i => (w.providers i).all fun p => p.stage == .ended
  | _ => true

theorem Inv.provider_step (h : Inv params w) {move : Move}
    (hclear : isClear w (.provider i move) = true)
    (hstep : step params w (.provider i move) = some t) : Inv params t := by
  simp only [step, Option.bind_eq_some_iff, Option.map_eq_some_iff] at hstep
  obtain ⟨p, hp, effect, hact, rfl⟩ := hstep
  have hkept := kept_act hact
  have hquiet : Quiet w.service (hangUp (tell w.service i effect.told) i effect.provider.stage) :=
    (quiet_tell _ _ _).trans (quiet_hangUp _ _ _)
  have halive : p.stage ≠ .ended := fun hended => by rw [act_ended hended] at hact; cases hact
  obtain ⟨hours, hgood⟩ := h.ours i p hp
  refine ⟨hquiet.inv h.service, fun j q hq => ?_, fun j k hjk hj hk hrunning => ?_,
    fun j q hq huse k hkj r hr => ?_, fun j q hq huse hrunning => ?_⟩
  · rw [hquiet.isOurs]
    rcases update_eq_some hq with ⟨rfl, rfl⟩ | ⟨-, hq⟩
    · exact ⟨hours, hkept.good hgood⟩
    · exact h.ours j q hq
  · rw [hquiet.isOurs] at hj hk
    exact h.later j k hjk hj hk (hquiet.isRunning hrunning)
  · rcases update_eq_some hq with ⟨rfl, rfl⟩ | ⟨-, hq'⟩
    · rcases update_eq_some hr with ⟨rfl, -⟩ | ⟨-, hr⟩
      · exact absurd hkj (Nat.lt_irrefl _)
      rcases act_enters hact huse with hold | ⟨-, revision, files, rfl⟩
      · exact h.alone j p hp hold k hkj r hr
      · simp only [isClear, List.all_eq_true, List.mem_range] at hclear
        have hk := hclear k hkj
        rw [hr, Option.all_some] at hk
        exact beq_iff_eq.1 hk
    · rcases update_eq_some hr with ⟨rfl, -⟩ | ⟨-, hr⟩
      · exact absurd (h.alone j q hq' huse k hkj p hp) halive
      · exact h.alone j q hq' huse k hkj r hr
  · have hrunning' := hquiet.isRunning hrunning
    rcases update_eq_some hq with ⟨rfl, rfl⟩ | ⟨hj, hq⟩
    · refine hkept.there hgood ?_ huse
      rcases act_enters hact huse with hold | ⟨hat, -⟩
      · exact h.intact j p hp hold hrunning'
      · intro item hitem
        rw [hgood.fresh (.inr hat)] at hitem
        cases hitem
    · -- who acts comes before or behind an install that runs, and then it is at its end
      rcases Nat.lt_or_gt_of_ne hj with hlt | hgt
      · exact absurd hrunning' (h.later j i hlt (h.ours j q hq).1 hours)
      · exact absurd (h.alone j q hq huse i hgt p hp) halive

theorem inv_step {action : Action} (h : Inv params w) (hclear : isClear w action = true)
    (hstep : step params w action = some t) : Inv params t := by
  cases action with
  | service action => exact h.service_step hstep
  | provider i move => exact h.provider_step hclear hstep

/-- The service has done nothing yet, and the repo is as it may be. -/
def World.IsInit (w : World) : Prop := ∃ repo, w = { repo }

theorem inv_init (h : w.IsInit) : Inv params w := by
  obtain ⟨repo, rfl⟩ := h
  refine ⟨Service.inv_init, fun i p hp => ?_, fun i k _ hi => ?_, fun j p hp => ?_,
    fun j p hp => ?_⟩
  · cases hp
  · obtain ⟨task, htask, -⟩ := hi
    cases htask
  · cases hp
  · cases hp

end

/-! ## What a later install has -/

/-- What a later install has of the repo. -/
structure Unharmed (params : Params) (w : World) : Prop where
  /-- No step of a clean-up takes anything of the repo from a later install that works on it. -/
  cleanUp : ∀ i j p q move t, i < j → w.providers i = some p → p.stage.isCleaning = true →
    w.providers j = some q → q.stage.isUsing = true → step params w (.provider i move) = some t →
      ∀ item, w.repo.has item = true → t.repo.has item = true
  /-- The install that runs has all it has made use of. -/
  intact : ∀ j q, w.providers j = some q → q.stage.isUsing = true → IsRunning w.service j →
    ∀ item ∈ q.holds, w.repo.has item = true

/-- In every run in which an install prepares the repo only when the provider tasks of the earlier
ones have come to their end, no clean-up harms a later install. -/
theorem later_install_unharmed {params : Params} {w : World}
    (h : Transition.ReachableWhen (step params) (fun w action => isClear w action = true)
      World.IsInit w) : Unharmed params w := by
  have hinv : Inv params w :=
    h.invariant (fun _ => inv_init) fun _ _ _ hw hclear hstep => inv_step hw hclear hstep
  refine ⟨fun i j p q move t hij hp hclean hq huse => ?_, hinv.intact⟩
  rw [hinv.alone j q hq huse i hij p hp] at hclean
  cases hclean

/-! ## Two installs -/

def smallParams : Params where
  config := Service.oneProvider
  reference := "org/model"
  hash _ := "0a"
  isWeight file := file.rfilename == "model.safetensors"

def smallFile : HFSibling :=
  { rfilename := "model.safetensors", bytes := some 20, sha256 := some "5f" }

/-- The first install is cancelled while it waits for the listing, and a second one is begun. -/
def cancelled : List Action :=
  [.service (.begin Service.smallPlan 100 0), .service (.task 0), .provider 0 .go,
    .service (.cancel 0), .service (.task 0), .service (.task 0), .service (.task 0),
    .service (.begin Service.smallPlan 100 1), .service (.task 1), .provider 1 .go]

/-- The provider task of the first sees that its receiver is gone, and cleans up. -/
def cleans : List Action :=
  [.provider 0 .closed, .provider 0 .go, .provider 0 .go, .provider 0 .go]

/-- The second install prepares the repo and downloads a chunk. -/
def downloads : List Action :=
  [.provider 1 (.resolved "main-sha" [smallFile]), .provider 1 .go, .provider 1 .go,
    .provider 1 .go, .provider 1 .go, .provider 1 .go, .provider 1 (.stale []), .provider 1 .go,
    .provider 1 (.chunk 12 none)]

/-- The clean-up comes first, and the second install has what it holds. -/
theorem cleaned_before_download :
    ∃ w, Transition.runWhen (step smallParams) isClear {}
        (cancelled ++ cleans ++ [Action.provider 0 .go] ++ downloads) = some w ∧
      (w.providers 1).map Provider.holds = some [.incomplete "5f", .incomplete "5f", .main, .refs,
        .snapshot "main-sha", .directory] ∧ w.repo.partials = [("5f", 12)] ∧
      Unharmed smallParams w := by
  have hrun : (Transition.runWhen (step smallParams) isClear {}
      (cancelled ++ cleans ++ [Action.provider 0 .go] ++ downloads)).map
        (fun w => ((w.providers 1).map Provider.holds, w.repo.partials)) =
      some (some [.incomplete "5f", .incomplete "5f", .main, .refs, .snapshot "main-sha",
        .directory], [("5f", 12)]) := by
    decide +kernel
  rw [Option.map_eq_some_iff] at hrun
  obtain ⟨w, hw, hend⟩ := hrun
  rw [Prod.mk.injEq] at hend
  exact ⟨w, hw, hend.1, hend.2,
    later_install_unharmed (Transition.ReachableWhen.runWhen (.init ⟨{}, rfl⟩) hw)⟩

/-- The clean-up of the cancelled install comes when the second one downloads, and removes the repo
directory with all that is in it. -/
theorem clean_up_removes_a_download :
    ∃ w t p q, Transition.Reachable (step smallParams) World.IsInit w ∧
      w.service.concluded = [0] ∧
      w.service.inFlight (Service.flightKey Service.smallPlan) = some 1 ∧
      w.providers 0 = some p ∧ p.stage.isCleaning = true ∧ w.providers 1 = some q ∧
      q.stage.isUsing = true ∧ step smallParams w (.provider 0 .go) = some t ∧
      ∀ item ∈ [Item.directory, .refs, .main, .snapshot "main-sha", .incomplete "5f"],
        item ∈ q.holds ∧ w.repo.has item = true ∧ t.repo.has item = false := by
  have hrun : (Transition.run (step smallParams) {} (cancelled ++ downloads ++ cleans)).any
      (fun w => w.service.concluded == [0] &&
        w.service.inFlight (Service.flightKey Service.smallPlan) == some 1 &&
        (w.providers 0).any fun p => p.stage.isCleaning && (w.providers 1).any fun q =>
          q.stage.isUsing && (step smallParams w (.provider 0 .go)).any fun t =>
            [Item.directory, .refs, .main, .snapshot "main-sha", .incomplete "5f"].all fun item =>
              q.holds.contains item && w.repo.has item && !t.repo.has item) = true := by
    decide +kernel
  simp only [Option.any_eq_true, Bool.and_eq_true, beq_iff_eq, List.all_eq_true,
    List.contains_iff_mem, Bool.not_eq_true'] at hrun
  obtain ⟨w, hw, ⟨hconcluded, hflight⟩, p, hp, hclean, q, hq, huse, t, ht, hitems⟩ := hrun
  refine ⟨w, t, p, q, Transition.Reachable.run (.init ⟨{}, rfl⟩) hw, hconcluded, hflight, hp,
    hclean, hq, huse, ht, fun item hitem => ?_⟩
  obtain ⟨⟨hholds, hhas⟩, hnot⟩ := hitems item hitem
  exact ⟨hholds, hhas, hnot⟩

end Hedos.Install.HuggingFace
