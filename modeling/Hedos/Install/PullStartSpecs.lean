import Hedos.Install.PullClientSpecs

/-!
# Starting a pull under the contract

A client that holds the claim of a reference looks at every job of the model and finds nothing
to join: each has ended, cannot be read, or waits for a worker that did not come in time
(`JobFiles.AtRest`). While it holds the claim nobody adds a job or wakes one up (`Cleared`), so
after it has ended those that wait (`failAbandoned_spec`) its new job is the only one going
(`create_spec`). A client that finds a job joins it. Either way what it reports is a job of the
model (`startOrJoin_spec`).
-/

namespace Hedos.Install

open Programs

variable {worker : PullWorker} {terms : Terms} {i : ℕ} {w w' : World} {dir : PullJobDir}

/-! ## A reference at rest -/

/-- Nothing goes on in the job: it has ended or cannot be read, or it waits for a worker that
had not come by `t` and nobody holds it. -/
def JobFiles.AtRest (files : JobFiles) (job : PullJob) (t : ℤ) : Prop :=
  files.record.going = false ∨ files.Waits job t ∧ files.holder = none

/-- The handle is on a job of the store. -/
def Listed (dir : PullJobDir) (w : World) : Prop := w.job dir.path = some dir.job

/-- Process `i` holds the claim of a reference whose jobs are all at rest; those that may still
wait are in `left`. -/
structure Cleared (i : ℕ) (key : ModelKey) (t : ℤ) (left : PullJobDir → Prop) (w : World) :
    Prop where
  claimed : w.claims key = some i
  time : t ≤ w.clock
  rests : ∀ dir, Listed dir w → dir.job.key = key →
    (w.record dir.path).going = false ∨ left dir ∧ (w.files dir.path).AtRest dir.job t

section Rest

variable {key : ModelKey} {path : String} {t : ℤ} {left : PullJobDir → Prop}

theorem Listed.rely (h : Listed dir w) (hrely : Rely terms i w w') : Listed dir w' :=
  hrely.jobs dir.path dir.job h

theorem Rely.rests (hrely : Rely terms i w w') (h : (w.record path).going = false) :
    (w'.record path).going = false := by
  rw [hrely.frozen path h]
  exact h

theorem JobFiles.AtRest.rely (hterms : terms.references = true) (hrely : Rely terms i w w')
    (hclaimed : w.claims dir.job.key = some i) (hlisted : Listed dir w) (htime : t ≤ w.clock)
    (h : (w.files dir.path).AtRest dir.job t) : (w'.files dir.path).AtRest dir.job t := by
  rcases h with hgoing | ⟨hwaits, hfree⟩
  · exact .inl (hrely.rests hgoing)
  · have hfenced := hrely.fenced hterms dir.job.key hclaimed
    rcases hfenced.waits dir.path dir.job t hlisted rfl htime hwaits with ⟨hwaits', hfree'⟩ | hended
    · exact .inr ⟨hwaits', hfree' hfree⟩
    · exact .inl (by simp [RecordFile.going, hended])

theorem Cleared.rely (hterms : terms.references = true) (hrely : Rely terms i w w')
    (h : Cleared i key t left w) : Cleared i key t left w' := by
  refine ⟨(hrely.claims key).2 h.claimed, h.time.trans hrely.clock, fun dir hlisted hkey => ?_⟩
  have hlisted' := (hrely.fenced hterms key h.claimed).jobs dir.path dir.job hlisted hkey
  rcases h.rests dir hlisted' hkey with hgoing | ⟨hleft, hrest⟩
  · exact .inl (hrely.rests hgoing)
  · exact .inr ⟨hleft, hrest.rely hterms hrely (hkey ▸ h.claimed) hlisted' h.time⟩

/-- One job less can be waiting. -/
theorem Cleared.less {left' : PullJobDir → Prop} (h : Cleared i key t left w)
    (hless : ∀ dir, Listed dir w → dir.job.key = key → left dir →
      (w.files dir.path).AtRest dir.job t → left' dir ∨ (w.record dir.path).going = false) :
    Cleared i key t left' w := by
  refine ⟨h.claimed, h.time, fun dir hlisted hkey => ?_⟩
  rcases h.rests dir hlisted hkey with hgoing | ⟨hleft, hrest⟩
  · exact .inl hgoing
  · exact (hless dir hlisted hkey hleft hrest).symm.imp_right fun hleft => ⟨hleft, hrest⟩

/-- Ending one of the jobs leaves the others as they are. -/
theorem Cleared.write (h : Cleared i key t left w) {status : PullStatus} (path : String)
    (hterminal : status.state.isTerminal = true) :
    Cleared i key t (fun dir => left dir ∧ dir.path ≠ path)
      (w.modify path fun files => { files with record := .stored status }) := by
  refine ⟨h.claimed, h.time, fun dir hlisted hkey => ?_⟩
  rw [Listed, World.job_modify] at hlisted
  rcases eq_or_ne dir.path path with rfl | hne
  · refine .inl ?_
    rw [World.record, World.files_modify_self (by rw [hlisted]; rfl)]
    simp [RecordFile.going, RecordFile.ended, hterminal]
  · rw [World.record, World.files_modify_of_ne hne]
    exact (h.rests dir hlisted hkey).imp_right fun hleft => ⟨⟨hleft.1, hne⟩, hleft.2⟩

end Rest

/-! ## The look -/

/-- The lock rule makes no record end. -/
theorem PullStatus.going_withLiveness {status : PullStatus} {alive : Bool} :
    (status.withLiveness alive).state.going = status.state.going := by
  unfold PullStatus.withLiveness
  split
  · rename_i hexpects
    have hworker : status.expectsWorker = true := (Bool.and_eq_true_iff.1 hexpects).1
    unfold PullStatus.expectsWorker at hworker
    split at hworker
    · rename_i hstate
      rw [hstate]
      rfl
    · rename_i hstate
      rw [hstate]
      rfl
    · cases hworker
  · rfl

/-- Who takes part in a pull: what has not ended, can be read and is not abandoned. -/
theorem PullReading.takesPart_shown (status : PullStatus) (abandoned : Bool) :
    (PullReading.mk (if abandoned then { status with state := .interrupted } else status)
      abandoned false).takesPart = (status.state.going && !abandoned) := by
  cases abandoned with
  | true => rw [PullReading.takesPart, Bool.not_true, Bool.and_false, Bool.and_false]
  | false => rfl

/-- A job that takes no part is at rest. -/
theorem JobDir.atRest {dir : JobDir} {now : ℤ} (h : dir.takesPart now = false) :
    dir.files.AtRest dir.job now := by
  have htakes : dir.takesPart now =
      ((dir.storedStatus.withLiveness dir.workerAlive).state.going &&
        !((dir.storedStatus.withLiveness dir.workerAlive).unclaimed now startGraceMs &&
          !dir.workerAlive)) := PullReading.takesPart_shown _ _
  rw [h, PullStatus.going_withLiveness, PullStatus.unclaimed_withLiveness, JobDir.storedStatus,
    RecordFile.going_storedStatus] at htakes
  cases hgoing : dir.files.record.going with
  | false => exact .inl hgoing
  | true =>
    rw [hgoing, Bool.true_and, Eq.comm, Bool.not_eq_false', Bool.and_eq_true,
      Bool.not_eq_true'] at htakes
    exact .inr ⟨htakes.1, Option.isSome_eq_false_iff.1 htakes.2 |> Option.isNone_iff_eq_none.1⟩

section Look

variable {fails : WorkerError → World → Prop}

theorem nowMillis_spec (w : World) :
    wp (contract worker terms) i nowMillis
      (fun now w' => Rely terms i w w' ∧ now = w'.clock) fails w :=
  wp_silent silent_now fun _ hrely _ _ _ => ⟨hrely, rfl⟩

theorem workerAlive_spec (w : World) :
    wp (contract worker terms) i dir.workerAlive
      (fun alive w' => Rely terms i w w' ∧ alive = (w'.holder dir.path).isSome) fails w :=
  wp_silent (silent_probe dir.path) fun _ hrely _ _ _ => ⟨hrely, rfl⟩

theorem status_spec (w : World) :
    wp (contract worker terms) i dir.status
      (fun status w' => ∃ w₁ alive, Rely terms i w w₁ ∧ Rely terms i w₁ w' ∧
        status = ((w₁.record dir.path).storedStatus dir.job.createdAtMs).withLiveness alive)
      fails w := by
  refine wp_then (storedStatus_spec w) ?_
  rintro stored w₁ ⟨hrely₁, hstored⟩
  split
  · refine wp_then (workerAlive_spec w₁) ?_
    rintro alive w₂ ⟨hrely₂, -⟩
    exact ⟨w₁, alive, hrely₁, hrely₂, by rw [hstored]⟩
  · rename_i hexpects
    refine ⟨w₁, true, hrely₁, Rely.refl terms i w₁, ?_⟩
    rw [← hstored, PullStatus.withLiveness, Bool.not_true, Bool.and_false]
    rfl

theorem abandonedBy_spec (status : PullStatus) (now graceMs : ℤ) (w : World) :
    wp (contract worker terms) i (dir.abandonedBy status now graceMs)
      (fun abandoned w' => Rely terms i w w' ∧ (abandoned = true ↔
        status.unclaimed now graceMs = true ∧ w'.holder dir.path = none)) fails w := by
  unfold PullJobDir.abandonedBy
  split
  · rename_i hunclaimed
    refine wp_then (workerAlive_spec w) ?_
    rintro alive w₁ ⟨hrely, halive⟩
    refine ⟨hrely, ?_⟩
    rw [halive]
    cases w₁.holder dir.path <;> simp [hunclaimed]
  · rename_i hclaimed
    exact ⟨Rely.refl terms i w, by simp [hclaimed]⟩

/-- A job of a claimed reference that takes no part is at rest. -/
theorem takesPart_spec (now : ℤ) (w : World) :
    wp (contract worker terms) i (dir.takesPart now)
      (fun going w' => Rely terms i w w' ∧ (terms.references = true →
        w.claims dir.job.key = some i → Listed dir w → now ≤ w.clock → going = false →
        (w'.files dir.path).AtRest dir.job now)) fails w := by
  refine wp_bind (wp_then (status_spec w) ?_)
  rintro status w₂ ⟨w₁, alive, hrely₁, hrely₂, hstatus⟩
  refine wp_then (abandonedBy_spec status now startGraceMs w₂) ?_
  rintro abandoned w₃ ⟨hrely₃, habandoned⟩
  have hrely := hrely₂.trans hrely₃
  refine ⟨hrely₁.trans hrely, fun hterms hclaimed hlisted htime hgoing => ?_⟩
  rw [PullReading.takesPart_shown, hstatus, PullStatus.going_withLiveness,
    RecordFile.going_storedStatus] at hgoing
  rw [hstatus, PullStatus.unclaimed_withLiveness] at habandoned
  cases hrecord : (w₁.record dir.path).going with
  | false => exact .inl (hrely.rests hrecord)
  | true =>
    rw [hrecord, Bool.true_and, Bool.not_eq_false', habandoned] at hgoing
    obtain ⟨hwaits, hfree⟩ := hgoing
    have hfenced := hrely.fenced hterms dir.job.key ((hrely₁.claims _).2 hclaimed)
    rcases hfenced.waits dir.path dir.job now (hlisted.rely hrely₁) rfl
      (htime.trans hrely₁.clock) hwaits with ⟨hwaits', -⟩ | hended
    · exact .inr ⟨hwaits', hfree⟩
    · exact .inl (by simp [RecordFile.going, hended])

theorem World.mem_jobs {dir : PullJobDir} :
    dir ∈ (w.store.list.map fun dir => (⟨dir.path, dir.job⟩ : PullJobDir)) ↔ Listed dir w := by
  rw [List.mem_map, Listed, World.job, PullStore.job, Option.map_eq_some_iff]
  constructor
  · rintro ⟨found, hfound, rfl⟩
    exact ⟨found, PullStore.find_of_mem (List.mem_mergeSort.1 hfound), rfl⟩
  · rintro ⟨found, hfound, hjob⟩
    obtain ⟨hmem, hpath⟩ := PullStore.find_eq_some hfound
    refine ⟨found, List.mem_mergeSort.2 hmem, ?_⟩
    rw [hpath, hjob]

theorem jobs_spec (w : World) :
    wp (contract worker terms) i jobs
      (fun listed w' => Rely terms i w w' ∧ ∀ dir, dir ∈ listed ↔ Listed dir w') fails w :=
  wp_silent silent_jobs fun _ hrely _ _ _ => ⟨hrely, fun _ => World.mem_jobs⟩

theorem InstallPlan.isFor_iff {plan : InstallPlan} {job : PullJob} :
    plan.isFor job = true ↔ job.key = plan.key := by
  simp [InstallPlan.isFor, InstallPlan.key, PullJob.key, ModelKey.of, eqIgnoreAsciiCase]

theorem firstGoing_spec {key : ModelKey} (now : ℤ) (dirs : List PullJobDir)
    (hdirs : ∀ dir ∈ dirs, Listed dir w ∧ dir.job.key = key) :
    wp (contract worker terms) i (firstGoing now dirs)
      (fun found w' => Rely terms i w w' ∧ (∀ dir, found = some dir → dir ∈ dirs) ∧
        (terms.references = true → w.claims key = some i → now ≤ w.clock → found = none →
          ∀ dir ∈ dirs, (w'.files dir.path).AtRest dir.job now)) fails w := by
  induction dirs generalizing w with
  | nil =>
    refine ⟨Rely.refl terms i w, fun dir hdir => ?_, fun _ _ _ _ dir hdir => ?_⟩
    · cases hdir
    · cases hdir
  | cons first dirs ih =>
    obtain ⟨hlisted, hkey⟩ := hdirs first (.head _)
    refine wp_then (takesPart_spec now w) ?_
    rintro going w₁ ⟨hrely₁, hrests⟩
    cases going with
    | true =>
      refine ⟨hrely₁, fun dir hdir => ?_, fun _ _ _ hnone => by cases hnone⟩
      cases hdir
      exact .head _
    | false =>
      refine wp_mono (ih fun dir hdir => ?_) ?_ fun _ _ h => h
      · obtain ⟨hlisted, hkey⟩ := hdirs dir (.tail _ hdir)
        exact ⟨hlisted.rely hrely₁, hkey⟩
      · rintro found w₂ ⟨hrely₂, hfound, hothers⟩
        refine ⟨hrely₁.trans hrely₂, fun dir hdir => .tail _ (hfound dir hdir), ?_⟩
        intro hterms hclaimed htime hnone dir hdir
        have hclaimed₁ : w₁.claims key = some i := (hrely₁.claims key).2 hclaimed
        rcases List.mem_cons.1 hdir with rfl | hdir
        · subst hkey
          have hrest := hrests hterms hclaimed hlisted htime rfl
          exact hrest.rely hterms hrely₂ hclaimed₁ (hlisted.rely hrely₁) (htime.trans hrely₁.clock)
        · exact hothers hterms hclaimed₁ (htime.trans hrely₁.clock) hnone dir hdir

/-- A job under way is a job of the model; with none, the claimed reference is at rest. -/
theorem underWay_spec (plan : InstallPlan) (now : ℤ) (w : World) :
    wp (contract worker terms) i (underWay plan now)
      (fun found w' => Rely terms i w w' ∧
        (∀ dir, found = some dir → Listed dir w' ∧ dir.job.key = plan.key) ∧
        (terms.references = true → w.claims plan.key = some i → now ≤ w.clock → found = none →
          Cleared i plan.key now (fun _ => True) w')) fails w := by
  refine wp_then (jobs_spec w) ?_
  rintro listed w₁ ⟨hrely₁, hlisted⟩
  have hmem : ∀ dir, dir ∈ (listed.reverse.filter fun dir => plan.isFor dir.job) ↔
      Listed dir w₁ ∧ dir.job.key = plan.key := by
    intro dir
    rw [List.mem_filter, List.mem_reverse, hlisted, InstallPlan.isFor_iff]
  refine wp_mono (firstGoing_spec now _ fun dir hdir => (hmem dir).1 hdir) ?_ fun _ _ h => h
  rintro found w₂ ⟨hrely₂, hfound, hrests⟩
  refine ⟨hrely₁.trans hrely₂, fun dir hdir => ?_, fun hterms hclaimed htime hnone => ?_⟩
  · obtain ⟨hdir, hkey⟩ := (hmem dir).1 (hfound dir hdir)
    exact ⟨hdir.rely hrely₂, hkey⟩
  · have hclaimed₁ : w₁.claims plan.key = some i := (hrely₁.claims _).2 hclaimed
    have htime₁ := htime.trans hrely₁.clock
    refine ⟨(hrely₂.claims _).2 hclaimed₁, htime₁.trans hrely₂.clock, ?_⟩
    intro dir hdir hkey
    have hdir₁ := (hrely₂.fenced hterms _ hclaimed₁).jobs dir.path dir.job hdir hkey
    exact .inr ⟨trivial, hrests hterms hclaimed₁ htime₁ hnone dir ((hmem _).2 ⟨hdir₁, hkey⟩)⟩

end Look

/-! ## Ending what was abandoned -/

section Abandoned

variable {plan : InstallPlan} {t now : ℤ} {left : PullJobDir → Prop}
  {fails : WorkerError → World → Prop}

/-- Of the jobs at rest, one that waits is found abandoned. -/
theorem abandoned_spec (hle : terms.references = true → t ≤ now)
    (hcleared : terms.references = true → Cleared i dir.job.key t left w) :
    wp (contract worker terms) i (dir.abandoned now startGraceMs)
      (fun abandoned w' => Rely terms i w w' ∧ (terms.references = true → abandoned = false →
        Cleared i dir.job.key t (fun other => left other ∧ other ≠ dir) w')) fails w := by
  refine wp_then (storedStatus_spec w) ?_
  rintro stored w₁ ⟨hrely₁, rfl⟩
  refine wp_mono (abandonedBy_spec _ now startGraceMs w₁) ?_ fun _ _ h => h
  rintro abandoned w₂ ⟨hrely₂, habandoned⟩
  refine ⟨hrely₁.trans hrely₂, fun hterms hnot => ?_⟩
  have hcleared₁ := (hcleared hterms).rely hterms hrely₁
  refine (hcleared₁.rely hterms hrely₂).less fun other hlisted hkey hleft hrest => ?_
  by_cases hsame : other = dir
  · subst hsame
    have hlisted₁ := (hrely₂.fenced hterms _ hcleared₁.claimed).jobs _ _ hlisted rfl
    rcases hcleared₁.rests other hlisted₁ rfl with hgoing | ⟨-, hgoing | ⟨hwaits, -⟩⟩
    · exact .inr (hrely₂.rests hgoing)
    · exact .inr (hrely₂.rests hgoing)
    · rcases hrest with hgoing | ⟨-, hfree⟩
      · exact .inr hgoing
      · have hunclaimed := PullStatus.unclaimed_later hwaits (hle hterms)
        have hfound := habandoned.2 ⟨hunclaimed, hfree⟩
        exact absurd (hnot.symm.trans hfound) Bool.false_ne_true
  · exact .inl ⟨hleft, hsame⟩

/-- Ending a job of a cleared reference. -/
theorem fail_cleared (message : String) {key : ModelKey} (h : Lockless i w)
    (hcleared : terms.references = true → Cleared i key t left w) :
    wp (contract worker terms) i (fail dir message)
      (fun _ w' => Lockless i w' ∧ (terms.references = true →
        Cleared i key t (fun other => left other ∧ other.path ≠ dir.path) w'))
      (fun _ => Lockless i) w := by
  refine wp_quiet_then quiet_now fun now w₁ hrely₁ => ?_
  have h₁ := h.rely hrely₁
  refine wp_then (wp_mono (updateStatus_spec (fun hheld => absurd hheld (h₁ dir.path))
    (fun old _ => show PullState.failed ≠ .unreadable by decide)
    (fun hheld => absurd hheld (h₁ dir.path))) (fun _ _ h => h)
    (fun _ _ hfails => h₁.rely hfails.1)) ?_
  rintro new w₃ ⟨old, w₂, hrely₂, -, -, -, hnew, rfl⟩
  have hterminal : new.state.isTerminal = true := by rw [hnew]; rfl
  refine wp_mono (wp_quiet (quiet_append dir _ _) _) (fun _ w₄ hrely₄ => ?_)
    (fun _ _ h => absurd h id)
  refine ⟨((h₁.rely hrely₂).write new).rely hrely₄, fun hterms => ?_⟩
  have hcleared₂ := (hcleared hterms).rely hterms (hrely₁.trans hrely₂)
  exact (hcleared₂.write dir.path hterminal).rely hterms hrely₄

theorem failAbandonedOf_spec (dirs : List PullJobDir) (h : Lockless i w)
    (hle : terms.references = true → t ≤ now)
    (hcleared : terms.references = true → Cleared i plan.key t (· ∈ dirs) w) :
    wp (contract worker terms) i (failAbandonedOf plan now dirs)
      (fun _ w' => Lockless i w' ∧
        (terms.references = true → Cleared i plan.key t (fun _ => False) w'))
      (fun _ => Lockless i) w := by
  induction dirs generalizing w with
  | nil =>
    refine ⟨h, fun hterms => (hcleared hterms).less fun dir _ _ hdir => ?_⟩
    cases hdir
  | cons first dirs ih =>
    unfold failAbandonedOf
    split
    · rename_i hfor
      have hkey : first.job.key = plan.key := InstallPlan.isFor_iff.1 hfor
      rw [← hkey] at hcleared ih ⊢
      refine wp_then (abandoned_spec hle hcleared) ?_
      rintro abandoned w₁ ⟨hrely₁, hnot⟩
      have h₁ := h.rely hrely₁
      cases abandoned with
      | true =>
        refine wp_then (fail_cleared _ h₁ fun hterms => (hcleared hterms).rely hterms hrely₁) ?_
        rintro _ w₂ ⟨h₂, hcleared₂⟩
        refine ih h₂ fun hterms => (hcleared₂ hterms).less fun dir _ _ hdir _ => .inl ?_
        exact (List.mem_cons.1 hdir.1).resolve_left fun heq => hdir.2 (by rw [heq])
      | false =>
        refine ih h₁ fun hterms => (hnot hterms rfl).less fun dir _ _ hdir _ => .inl ?_
        exact (List.mem_cons.1 hdir.1).resolve_left hdir.2
    · rename_i hother
      refine ih h fun hterms => (hcleared hterms).less fun dir _ hkey hdir _ => .inl ?_
      refine (List.mem_cons.1 hdir).resolve_left fun heq => hother ?_
      exact InstallPlan.isFor_iff.2 (heq ▸ hkey)

/-- Every job of the claimed reference that waits is ended. -/
theorem failAbandoned_spec (h : Lockless i w)
    (hcleared : terms.references = true → Cleared i plan.key t (fun _ => True) w) :
    wp (contract worker terms) i (failAbandoned plan)
      (fun _ w' => Lockless i w' ∧
        (terms.references = true → Cleared i plan.key t (fun _ => False) w'))
      (fun _ => Lockless i) w := by
  refine wp_then (nowMillis_spec w) ?_
  rintro now w₁ ⟨hrely₁, rfl⟩
  have hcleared₁ := fun hterms => (hcleared hterms).rely hterms hrely₁
  refine wp_then (jobs_spec w₁) ?_
  rintro listed w₂ ⟨hrely₂, hlisted⟩
  refine failAbandonedOf_spec listed (h.rely (hrely₁.trans hrely₂))
    (fun hterms => (hcleared₁ hterms).time) fun hterms => ?_
  exact ((hcleared₁ hterms).rely hterms hrely₂).less fun dir hdir _ _ _ =>
    .inl ((hlisted dir).2 hdir)

end Abandoned

/-! ## The new job -/

section Create

variable {plan : InstallPlan} {t : ℤ} {path : String} {job : PullJob} {refused : Bool}

theorem World.files_create (w : World) (path : String) (job : PullJob) (refused : Bool)
    (other : String) : (w.create path job refused).2.files other = w.files other := by
  unfold World.create
  split
  · rename_i hfree
    exact PullStore.files_add hfree.2 other
  · rfl

theorem World.create_of_true (h : (w.create path job refused).1 = true) :
    (w.create path job refused).2.job path = some job ∧
      (w.create path job refused).2.record path = .missing := by
  rw [World.record, World.files_create]
  unfold World.create at h ⊢
  split at h
  · rename_i hfree
    rw [dif_pos hfree, World.files_of_none (Option.map_eq_none_iff.2 hfree.2)]
    exact ⟨(PullStore.job_add hfree.2 path).trans (if_pos rfl), rfl⟩
  · cases h

theorem World.create_of_false (h : (w.create path job refused).1 = false) :
    (w.create path job refused).2 = w := by
  unfold World.create at h ⊢
  split at h
  · exact absurd h.symm Bool.false_ne_true
  · rename_i htaken
    rw [dif_neg htaken]

/-- The first record of a new job. -/
theorem writeQueued_spec (dir : PullJobDir) (now : ℤ) (h : Lockless i w) (hlisted : Listed dir w)
    (hrecord : (w.record dir.path).readable = true) {fails : WorkerError → World → Prop} :
    wp (contract worker terms) i (perform (.write dir.path (PullStatus.queued now)))
      (fun _ w' => Lockless i w' ∧ Listed dir w') fails w := by
  refine wp_ask fun w₁ hrely hinv input hallows => ?_
  have h₁ := h.rely hrely
  have hgoing : (w₁.record dir.path).going = true := by
    have hturn := (Terms.allows_iff.1 hallows).1
    simp only [World.inTurn, Bool.or_eq_true, beq_iff_eq, Bool.and_eq_true,
      Bool.not_eq_true'] at hturn
    exact RecordFile.going_iff.2
      ⟨(hturn.resolve_left (h₁ dir.path)).2, hrely.readable dir.path hrecord⟩
  obtain ⟨hothers, hinv'⟩ := write_effect hinv hallows hgoing
    (show PullState.queued ≠ .unreadable by decide) fun _ hheld => absurd hheld (h₁ dir.path)
  refine ⟨hothers, hinv', h₁.write _, ?_⟩
  exact (World.job_modify _ _ _ _).trans (hlisted.rely hrely)

theorem createAt_spec (now : ℤ) (ids : List String) (h : Lockless i w)
    (halone : terms.references = true → Cleared i plan.key t (fun _ => False) w) :
    wp (contract worker terms) i (createAt plan now ids)
      (fun dir w' => Lockless i w' ∧ Listed dir w' ∧ dir.job.key = plan.key)
      (fun _ => Lockless i) w := by
  induction ids generalizing w with
  | nil => exact h
  | cons id ids ih =>
    have hcreate : wp (contract worker terms) i
        (perform (.create id ⟨id, plan.provider, plan.reference, now⟩))
        (fun created w' => Lockless i w' ∧
          (created = true → w'.job id = some ⟨id, plan.provider, plan.reference, now⟩ ∧
            (w'.record id).readable = true) ∧
          (created = false → terms.references = true → Cleared i plan.key t (fun _ => False) w'))
        (fun _ => Lockless i) w := by
      refine wp_ask fun w₁ hrely hinv input _ => ?_
      have halone₁ := fun hterms => (halone hterms).rely hterms hrely
      have heffect : Harmless terms i w₁
          (w₁.create id ⟨id, plan.provider, plan.reference, now⟩ input.refused).2 := by
        refine create_effect hinv fun hterms => ⟨(halone₁ hterms).claimed,
          fun q job hjob hkey => ?_⟩
        exact ((halone₁ hterms).rests ⟨q, job⟩ hjob hkey).resolve_right fun hleft => hleft.1
      refine ⟨heffect.1, heffect.2, fun path => ?_, fun hcreated => ?_, fun htaken hterms => ?_⟩
      · change ((w₁.create id _ input.refused).2.files path).holder ≠ some i
        rw [World.files_create]
        exact h.rely hrely path
      · obtain ⟨hjob, hrecord⟩ := World.create_of_true hcreated
        refine ⟨hjob, ?_⟩
        change ((w₁.create id _ input.refused).2.record id).readable = true
        rw [hrecord]
        rfl
      · change Cleared i plan.key t _ (w₁.create id _ input.refused).2
        rw [World.create_of_false htaken]
        exact halone₁ hterms
    refine wp_then hcreate ?_
    rintro created w₁ ⟨h₁, hcreated, htaken⟩
    cases created with
    | true =>
      obtain ⟨hjob, hreadable⟩ := hcreated rfl
      refine wp_then (writeQueued_spec ⟨id, _⟩ now h₁ hjob hreadable) ?_
      rintro _ w₂ ⟨h₂, hlisted⟩
      exact ⟨h₂, hlisted, rfl⟩
    | false => exact ih h₁ (htaken rfl)

end Create

/-! ## Joining or starting -/

section Start

variable {plan : InstallPlan} {key : ModelKey} {purpose : Purpose}

variable {fails : WorkerError → World → Prop}

/-- Taking the claim of a reference; one taken to start a pull after the look is over finds
nothing under way. -/
theorem claimReference_cleared (h : Lockless i w) :
    wp (contract worker terms) i (perform (.claimReference key purpose))
      (fun held w' => Lockless i w' ∧ (held = true → w'.claims key = some i ∧
        (purpose = .create → terms.references = true →
          Cleared i key w'.clock (fun _ => True) w'))) fails w := by
  refine wp_ask fun w₁ hrely hinv input hallows => ?_
  obtain ⟨hothers, hinv'⟩ := claimReference_effect key input.refused hinv
  refine ⟨hothers, hinv', ?_⟩
  have h₁ := h.rely hrely
  change Lockless i (w₁.claimReference i key input.refused).2 ∧
    ((w₁.claimReference i key input.refused).1 = true →
      (w₁.claimReference i key input.refused).2.claims key = some i ∧ (purpose = .create →
        terms.references = true →
          Cleared i key (w₁.claimReference i key input.refused).2.clock (fun _ => True)
            (w₁.claimReference i key input.refused).2))
  unfold World.claimReference
  split
  · rename_i hfree
    have hclaimed : Function.update w₁.claims key (some i) key = some i := Function.update_self ..
    refine ⟨h₁, fun _ => ⟨hclaimed, ?_⟩⟩
    rintro rfl hterms
    refine ⟨hclaimed, le_rfl, fun dir hlisted hkey => .inr ⟨trivial, ?_⟩⟩
    have hguard := (Terms.allows_iff.1 hallows).2.2 hterms
    simp only [World.guardsReference, hfree.1, hfree.2, Option.isSome_none, Bool.false_or,
      Bool.not_eq_true', World.underWay, List.any_eq_false] at hguard
    obtain ⟨found, hfound, hjob⟩ := Option.map_eq_some_iff.1 hlisted
    obtain ⟨hmem, hpath⟩ := PullStore.find_eq_some hfound
    have hfiles : w₁.files dir.path = found.files := by
      simp only [World.files, PullStore.files, show w₁.store.find dir.path = some found from hfound]
    have hrest := hguard found hmem
    rw [hjob, hkey, beq_self_eq_true, Bool.true_and, Bool.not_eq_true] at hrest
    have hatRest := JobDir.atRest hrest
    rw [hjob, ← hfiles] at hatRest
    exact hatRest
  · exact ⟨h₁, fun hheld => absurd hheld Bool.false_ne_true⟩

theorem claimToStart_spec (attempts : ℕ) (h : Lockless i w) :
    wp (contract worker terms) i (claimToStart plan attempts)
      (fun claimed w' => Lockless i w' ∧ (claimed = true → w'.claims plan.key = some i))
      fails w := by
  induction attempts generalizing w with
  | zero => exact ⟨h, fun hheld => absurd hheld Bool.false_ne_true⟩
  | succ attempts ih =>
    refine wp_then (claimReference_cleared h) ?_
    rintro claimed w₁ ⟨h₁, hclaimed⟩
    cases claimed with
    | true => exact ⟨h₁, fun _ => (hclaimed rfl).1⟩
    | false =>
      refine wp_quiet_then quiet_now fun now w₂ hrely₂ => ?_
      refine wp_quiet_then (quiet_underWay plan now) fun found w₃ hrely₃ => ?_
      have h₃ := h₁.rely (hrely₂.trans hrely₃)
      split
      · exact ⟨h₃, fun hheld => absurd hheld Bool.false_ne_true⟩
      · exact ih h₃

theorem releaseReference_lockless (key : ModelKey) (h : Lockless i w) :
    wp (contract worker terms) i (perform (.releaseReference key)) (fun _ => Lockless i) fails
      w := by
  refine wp_ask fun w₁ hrely hinv input _ => ?_
  obtain ⟨hothers, hinv'⟩ := releaseReference_effect key hinv
  refine ⟨hothers, hinv', ?_⟩
  have h₁ := h.rely hrely
  change Lockless i (w₁.releaseReference i key)
  unfold World.releaseReference
  split <;> exact h₁

/-- The job a start reports. -/
def Started.id : Started → String
  | .created id => id
  | .joined id => id
  | .resumed id => id

/-- What a start reports is a job of the model. -/
def Started.Names (started : Started) (key : ModelKey) (w : World) : Prop :=
  ∃ dir, Listed dir w ∧ dir.job.id = started.id ∧ dir.job.key = key

theorem Started.Names.rely {started : Started} (h : started.Names key w)
    (hrely : Rely terms i w w') : started.Names key w' := by
  obtain ⟨dir, hlisted, hid, hkey⟩ := h
  exact ⟨dir, hlisted.rely hrely, hid, hkey⟩

/-- The new pull, under the claim from the look to the first record. -/
theorem startNew_claimed (t : ℤ) (h : Lockless i w)
    (hcleared : terms.references = true → Cleared i plan.key t (fun _ => True) w) :
    wp (contract worker terms) i (startNew plan true)
      (fun started => started.Names plan.key) (fun _ => Lockless i) w := by
  have hcreated : wp (contract worker terms) i
      (do
        failAbandoned plan
        let now ← nowMillis
        create plan now)
      (fun dir w' => Lockless i w' ∧ Listed dir w' ∧ dir.job.key = plan.key)
      (fun _ => Lockless i) w := by
    refine wp_then (failAbandoned_spec h hcleared) ?_
    rintro _ w₁ ⟨h₁, halone⟩
    refine wp_quiet_then quiet_now fun now w₂ hrely₂ => ?_
    exact createAt_spec now _ (h₁.rely hrely₂) fun hterms => (halone hterms).rely hterms hrely₂
  have hreleased : wp (contract worker terms) i
      (Prog.andThen
        (do
          failAbandoned plan
          let now ← nowMillis
          create plan now)
        (perform (.releaseReference plan.key)))
      (fun dir w' => Lockless i w' ∧ Listed dir w' ∧ dir.job.key = plan.key)
      (fun _ => Lockless i) w := by
    refine wp_andThen (wp_mono hcreated ?_ fun _ _ h => releaseReference_lockless plan.key h)
    rintro dir w₁ ⟨h₁, hlisted, hkey⟩
    refine wp_mono (wp_frame (releaseReference_lockless plan.key h₁) hlisted
      fun j w w' hrely hlisted => hlisted.rely hrely) (fun _ _ h => ⟨h.1, h.2, hkey⟩)
      fun _ _ h => h.1
  refine wp_pure_then ?_
  simp only [if_true]
  refine wp_then hreleased ?_
  rintro dir w₁ ⟨h₁, hlisted, hkey⟩
  refine wp_then (wp_mono (wp_frame (spawnWorker_spec h₁) hlisted
    fun j w w' hrely hlisted => hlisted.rely hrely) (fun _ _ h => h) fun _ _ h => h.1) ?_
  rintro _ w₂ ⟨-, hlisted₂⟩
  exact ⟨dir, hlisted₂, rfl, hkey⟩

/-- A pull started by a client that has let its claim go, or never had it. -/
theorem startNew_unclaimed (h : Lockless i w) :
    wp (contract worker terms) i (startNew plan false)
      (fun started => started.Names plan.key) (fun _ => Lockless i) w := by
  refine wp_then (claimReference_cleared h) ?_
  rintro held w₁ ⟨h₁, hheld⟩
  cases held with
  | false => exact h₁
  | true => exact startNew_claimed w₁.clock h₁ ((hheld rfl).2 rfl)

/-- The job found is joined, or put back to work and named again. -/
theorem joinFound_spec (h : Lockless i w) (hlisted : Listed dir w) (hkey : dir.job.key = plan.key) :
    wp (contract worker terms) i (joinFound plan dir)
      (fun started => started.Names plan.key) (fun _ => Lockless i) w := by
  refine wp_quiet_then (quiet_status dir) fun status w₁ hrely₁ => ?_
  split
  · refine wp_bind (wp_attempt (wp_mono (wp_frame (restart_spec (h.rely hrely₁))
      (hlisted.rely hrely₁) fun j w w' hrely hlisted => hlisted.rely hrely) ?_ ?_))
    · exact fun _ _ h => ⟨dir, h.2, rfl, hkey⟩
    · rintro error w₂ ⟨h₂, hlisted₂⟩
      have hnames : ∀ started : Started, started.id = dir.job.id →
          started.Names plan.key w₂ := fun _ hid => ⟨dir, hlisted₂, hid.symm, hkey⟩
      cases error with
      | cancelled => exact startNew_unclaimed h₂
      | ended state => exact hnames _ rfl
      | alreadyRunning => exact hnames _ rfl
      | _ => exact h₂
  · exact ⟨dir, hlisted.rely hrely₁, rfl, hkey⟩

/-- A client that starts a pull ends with a job of the model, its own or one that was there. -/
theorem startOrJoin_spec (h : Lockless i w) :
    wp (contract worker terms) i (startOrJoin plan)
      (fun started => started.Names plan.key) (fun _ => Lockless i) w := by
  refine wp_then (claimToStart_spec startClaimAttempts h) ?_
  rintro claimed w₁ ⟨h₁, hclaimed⟩
  refine wp_then (nowMillis_spec w₁) ?_
  rintro now w₂ ⟨hrely₂, rfl⟩
  refine wp_then (underWay_spec plan w₂.clock w₂) ?_
  rintro found w₃ ⟨hrely₃, hfound, hnone⟩
  have h₃ := h₁.rely (hrely₂.trans hrely₃)
  cases found with
  | none =>
    cases claimed with
    | false => exact startNew_unclaimed h₃
    | true =>
      refine startNew_claimed w₂.clock h₃ fun hterms => ?_
      exact hnone hterms ((hrely₂.claims _).2 (hclaimed rfl)) le_rfl rfl
  | some dir =>
    obtain ⟨hlisted, hkey⟩ := hfound dir rfl
    cases claimed with
    | false => exact joinFound_spec h₃ hlisted hkey
    | true =>
      refine wp_then (wp_mono (wp_frame (releaseReference_lockless plan.key h₃) hlisted
        fun j w w' hrely hlisted => hlisted.rely hrely) (fun _ _ h => h) fun _ _ h => h.1) ?_
      rintro _ w₄ ⟨h₄, hlisted₄⟩
      exact joinFound_spec h₄ hlisted₄ hkey

end Start

end Hedos.Install
