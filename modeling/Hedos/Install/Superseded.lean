import Hedos.Install.Pulls

/-!
# Settling superseded pulls

Whether a job reads superseded is computed from its siblings, and settling it changes what the
siblings see. It changes nothing they ask about: a job nobody took up counts for no sibling
(`JobDir.replacedBy_abandoned`), and neither does the failure it is settled as
(`JobDir.replacedBy_settled`). So the jobs can be settled in any order.
-/

namespace Hedos.Install

/-! ## What a settled job is to its siblings -/

/-- The job as it is once settled. -/
def JobDir.settled (dir : JobDir) (now : ℤ) : JobDir :=
  { dir with
    files :=
      { dir.files with
        record := .stored { dir.storedStatus.pulledAgain with updatedAtMs := now }
        events := dir.files.events ++ [⟨now, .state .failed⟩] } }

section Readings

variable {store : PullStore} {dir other : JobDir} {now : ℤ}

/-- The record says the job was never taken up, and nobody is there. -/
def JobDir.abandoned (dir : JobDir) (now graceMs : ℤ) : Bool :=
  dir.storedStatus.unclaimed now graceMs && !dir.workerAlive

theorem PullStatus.unclaimed_iff {status : PullStatus} {graceMs : ℤ} :
    status.unclaimed now graceMs = true ↔ status.state = .queued ∧ status.pid = none ∧
      saturatingSub now status.updatedAtMs ≥ graceMs := by
  simp [PullStatus.unclaimed, and_assoc]

/-- The lock rule makes no record unclaimed. -/
theorem PullStatus.unclaimed_withLiveness {status : PullStatus} {graceMs : ℤ} {alive : Bool} :
    (status.withLiveness alive).unclaimed now graceMs = status.unclaimed now graceMs := by
  by_cases hexpects : (status.expectsWorker && !alive) = true
  · -- a record that expects a worker is not unclaimed, and an interrupted one is not queued
    have hbefore : status.unclaimed now graceMs ≠ true := by
      intro h
      obtain ⟨hstate, hpid, -⟩ := PullStatus.unclaimed_iff.1 h
      simp [PullStatus.expectsWorker, hstate, hpid] at hexpects
    have hafter : (status.withLiveness alive).unclaimed now graceMs ≠ true := by
      intro h
      have hstate := (PullStatus.unclaimed_iff.1 h).1
      rw [PullStatus.withLiveness, if_pos hexpects] at hstate
      cases hstate
    rw [Bool.eq_false_iff.2 hbefore, Bool.eq_false_iff.2 hafter]
  · rw [PullStatus.withLiveness, if_neg hexpects]

theorem JobDir.shown_abandoned : (dir.shown now).abandoned = dir.abandoned now startGraceMs := by
  show ((dir.storedStatus.withLiveness dir.workerAlive).unclaimed now startGraceMs
    && !dir.workerAlive) = _
  rw [PullStatus.unclaimed_withLiveness]
  rfl

theorem PullStore.reading_superseded : (store.reading dir now).superseded =
    (dir.abandoned now startGraceMs && store.pulledAgain dir now) := by
  unfold PullStore.reading PullReading.withSibling
  rw [JobDir.shown_abandoned]
  split
  · rename_i hboth
    simp [hboth]
  · rename_i hnot
    rw [Bool.not_eq_true] at hnot
    rw [hnot]
    rfl

/-- A job nobody took up counts for no sibling. -/
theorem JobDir.replacedBy_abandoned (h : other.abandoned now startGraceMs = true) :
    dir.replacedBy other now = false := by
  have hpart : other.takesPart now = false := by
    simp [JobDir.takesPart, PullReading.takesPart, JobDir.shown_abandoned, h]
  have hqueued : other.storedStatus.state = .queued := by
    rw [JobDir.abandoned, Bool.and_eq_true] at h
    exact (PullStatus.unclaimed_iff.1 h.1).1
  have hlanded : other.landedAfter dir.job.createdAtMs = false := by
    simp [JobDir.landedAfter, PullStatus.landedAfter, hqueued]
  simp [JobDir.replacedBy, hpart, hlanded]

/-- A job whose record says failed reads failed. -/
theorem PullStore.reading_of_failed (h : dir.storedStatus.state = .failed) :
    (store.reading dir now).status.state = .failed ∧
      (store.reading dir now).superseded = false := by
  have hlive : dir.storedStatus.withLiveness dir.workerAlive = dir.storedStatus := by
    simp [PullStatus.withLiveness, PullStatus.expectsWorker, h]
  have hclaimed : dir.storedStatus.unclaimed now startGraceMs = false := by
    simp [PullStatus.unclaimed, h]
  have hshown : dir.shown now = ⟨dir.storedStatus, false, false⟩ := by
    simp [JobDir.shown, PullStatus.shownWith, hlive, hclaimed]
  simp [PullStore.reading, PullReading.withSibling, hshown, h]

/-- Nor does a settled job. -/
theorem JobDir.replacedBy_settled : dir.replacedBy (other.settled now) now = false := by
  have hfailed : (other.settled now).storedStatus.state = .failed := rfl
  have hpart : (other.settled now).takesPart now = false := by
    simp [JobDir.takesPart, PullReading.takesPart, JobDir.shown, PullStatus.shownWith,
      PullStatus.withLiveness, PullStatus.expectsWorker, PullStatus.unclaimed, hfailed,
      PullState.going, PullState.isTerminal]
  have hlanded : (other.settled now).landedAfter dir.job.createdAtMs = false := by
    simp [JobDir.landedAfter, PullStatus.landedAfter, hfailed]
  simp [JobDir.replacedBy, hpart, hlanded]

end Readings

/-! ## One settlement -/

section Settle

variable {store : PullStore} {dir other : JobDir} {now : ℤ}

theorem PullStore.find_eq_some {path : String} (h : store.find path = some dir) :
    dir ∈ store.jobs ∧ dir.path = path := by
  have hpath := List.find?_some h
  exact ⟨List.mem_of_find?_eq_some h, by simpa using hpath⟩

/-- A directory is the only one at its path. -/
theorem PullStore.eq_of_path (hdir : dir ∈ store.jobs) (hother : other ∈ store.jobs)
    (h : dir.path = other.path) : dir = other :=
  List.inj_on_of_nodup_map store.distinct hdir hother h

theorem PullStore.find_of_mem (h : dir ∈ store.jobs) : store.find dir.path = some dir := by
  have hsome : (store.find dir.path).isSome := by
    rw [PullStore.find, List.find?_isSome]
    exact ⟨dir, h, by simp⟩
  obtain ⟨found, hfound⟩ := Option.isSome_iff_exists.1 hsome
  obtain ⟨hmem, hpath⟩ := PullStore.find_eq_some hfound
  rw [hfound, PullStore.eq_of_path hmem h hpath]

/-- The question about the siblings does not depend on the order they are listed in. -/
theorem PullStore.pulledAgain_eq : store.pulledAgain dir now =
    store.jobs.any fun other => dir.replacedBy other now :=
  (List.mergeSort_perm _ _).any_eq

/-- Settling writes the job's record when it reads superseded, and nothing otherwise. -/
theorem PullStore.settleSuperseded_jobs (hdir : dir ∈ store.jobs) :
    (store.settleSuperseded dir now).1.jobs = store.jobs.map fun other =>
      if other.path = dir.path ∧ (store.reading other now).superseded = true
        then other.settled now else other := by
  by_cases hsup : (store.reading dir now).superseded = true
  · have hboth := hsup
    rw [PullStore.reading_superseded, Bool.and_eq_true, JobDir.abandoned, Bool.and_eq_true] at hboth
    obtain ⟨⟨hunclaimed, hfree⟩, hagain⟩ := hboth
    have halive : dir.workerAlive = false := by simpa using hfree
    have hreadable : ¬ dir.storedStatus.state = .unreadable := by
      rw [(PullStatus.unclaimed_iff.1 hunclaimed).1]
      decide
    simp only [PullStore.settleSuperseded, hsup, halive, hunclaimed, hagain, JobDir.updateStatus,
      if_neg hreadable, Bool.not_true, Bool.or_false, Bool.false_eq_true, if_false,
      PullStore.modify]
    apply List.map_congr_left
    intro other hother
    by_cases hpath : other.path = dir.path
    · have hsame : other = dir := PullStore.eq_of_path hother hdir hpath
      subst hsame
      simp [hsup, JobDir.settled]
    · simp [hpath]
  · have hstay : (store.settleSuperseded dir now).1 = store := by
      simp [PullStore.settleSuperseded, hsup]
    rw [hstay]
    have hnone : ∀ other ∈ store.jobs, id other =
        if other.path = dir.path ∧ (store.reading other now).superseded = true
          then other.settled now else other := by
      intro other hother
      rw [if_neg]
      · rfl
      · rintro ⟨hpath, hother_sup⟩
        rw [PullStore.eq_of_path hother hdir hpath] at hother_sup
        exact hsup hother_sup
    rw [← List.map_congr_left hnone, List.map_id]

/-- The job at `path`, settled if it reads superseded. -/
def PullStore.settledDir (store : PullStore) (now : ℤ) (path : String) (dir : JobDir) : JobDir :=
  if dir.path = path ∧ (store.reading dir now).superseded = true then dir.settled now else dir

variable (path : String)

theorem PullStore.settlePath_jobs :
    (store.settlePath now path).jobs = store.jobs.map (store.settledDir now path) := by
  unfold PullStore.settlePath
  cases hfind : store.find path with
  | some dir =>
    obtain ⟨hmem, hpath⟩ := PullStore.find_eq_some hfind
    simp only
    rw [PullStore.settleSuperseded_jobs hmem, hpath]
    rfl
  | none =>
    have hnone : ∀ dir ∈ store.jobs, id dir = store.settledDir now path dir := by
      intro dir hdir
      have hpath : dir.path ≠ path := by
        simpa using (List.find?_eq_none.1 hfind) dir hdir
      simp [PullStore.settledDir, hpath]
    rw [← List.map_congr_left hnone, List.map_id]

/-- A settlement answers no sibling's question differently. -/
theorem PullStore.pulledAgain_settlePath :
    (store.settlePath now path).pulledAgain dir now = store.pulledAgain dir now := by
  rw [PullStore.pulledAgain_eq, PullStore.pulledAgain_eq, PullStore.settlePath_jobs, List.any_map]
  congr 1
  funext other
  simp only [Function.comp_apply, PullStore.settledDir]
  split
  · rename_i hsup
    have habandoned : other.abandoned now startGraceMs = true := by
      have hboth := hsup.2
      rw [PullStore.reading_superseded, Bool.and_eq_true] at hboth
      exact hboth.1
    rw [JobDir.replacedBy_settled, JobDir.replacedBy_abandoned habandoned]
  · rfl

theorem PullStore.reading_settlePath :
    (store.settlePath now path).reading dir now = store.reading dir now := by
  unfold PullStore.reading
  rw [PullStore.pulledAgain_settlePath]

end Settle

/-! ## Settling in any order -/

/-- Settling job after job settles each of them that reads superseded to begin with. -/
theorem PullStore.settleAll_jobs (store : PullStore) (now : ℤ) (paths : List String) :
    (store.settleAll now paths).jobs = store.jobs.map fun dir =>
      if dir.path ∈ paths ∧ (store.reading dir now).superseded = true
        then dir.settled now else dir := by
  induction paths generalizing store with
  | nil => simp [PullStore.settleAll]
  | cons path paths ih =>
    have hstep : store.settleAll now (path :: paths)
        = (store.settlePath now path).settleAll now paths := rfl
    rw [hstep, ih, PullStore.settlePath_jobs, List.map_map]
    apply List.map_congr_left
    intro dir _
    simp only [Function.comp_apply, PullStore.reading_settlePath]
    by_cases hnow : dir.path = path ∧ (store.reading dir now).superseded = true
    · -- settled by the first step, and not superseded after it
      have hfailed : (store.reading (dir.settled now) now).superseded = false :=
        (PullStore.reading_of_failed rfl).2
      simp [PullStore.settledDir, hnow, hfailed]
    · have hsame : store.settledDir now path dir = dir := if_neg hnow
      rw [hsame]
      by_cases hsup : (store.reading dir now).superseded = true
      · have hpath : dir.path ≠ path := fun h => hnow ⟨h, hsup⟩
        simp [hsup, hpath]
      · simp [hsup]

/-- The record a settlement writes. -/
theorem PullStore.settleSuperseded_record {store : PullStore} {dir written : JobDir} {now : ℤ}
    (hdir : dir ∈ store.jobs) (hsup : (store.reading dir now).superseded = true)
    (h : (store.settleSuperseded dir now).1.find dir.path = some written) :
    written.storedStatus.state = .failed := by
  obtain ⟨hmem, hpath⟩ := PullStore.find_eq_some h
  rw [PullStore.settleSuperseded_jobs hdir, List.mem_map] at hmem
  obtain ⟨before, hbefore, heq⟩ := hmem
  have hsame : before.path = dir.path := by
    rw [← hpath, ← heq]
    split <;> rfl
  have hdir' : before = dir := PullStore.eq_of_path hbefore hdir hsame
  rw [hdir', if_pos ⟨rfl, hsup⟩] at heq
  rw [← heq]
  rfl

/-- Settling a superseded job changes no sibling's reading, the superseded jobs can be settled
in any order, and a settled job reads failed, never interrupted, in every store that still has
its record. -/
theorem settle_superseded_order_independent (store : PullStore) (now : ℤ) :
    (∀ dir ∈ store.jobs, ∀ other ∈ store.jobs, other.path ≠ dir.path →
      (store.settleSuperseded dir now).1.find other.path = some other ∧
        (store.settleSuperseded dir now).1.reading other now = store.reading other now) ∧
    (∀ first second : List String,
      (∀ dir ∈ store.jobs, (store.reading dir now).superseded = true →
        dir.path ∈ first ∧ dir.path ∈ second) →
      store.settleAll now first = store.settleAll now second) ∧
    ∀ dir ∈ store.jobs, (store.reading dir now).superseded = true →
      ∃ written, (store.settleSuperseded dir now).1.find dir.path = some written ∧
        ∀ (later : PullStore), ∀ job ∈ later.jobs, ∀ instant : ℤ, job.job = written.job →
          job.files.record = written.files.record →
          (later.reading job instant).status.state = .failed := by
  refine ⟨?_, ?_, ?_⟩
  · intro dir hdir other hother hne
    have hpath : store.settlePath now dir.path = (store.settleSuperseded dir now).1 := by
      simp [PullStore.settlePath, PullStore.find_of_mem hdir]
    rw [← hpath]
    refine ⟨?_, PullStore.reading_settlePath dir.path⟩
    apply PullStore.find_of_mem
    rw [PullStore.settlePath_jobs, List.mem_map]
    exact ⟨other, hother, by simp [PullStore.settledDir, hne]⟩
  · intro first second hboth
    apply PullStore.ext_jobs
    rw [PullStore.settleAll_jobs, PullStore.settleAll_jobs]
    apply List.map_congr_left
    intro dir hdir
    by_cases hsup : (store.reading dir now).superseded = true
    · obtain ⟨hfirst, hsecond⟩ := hboth dir hdir hsup
      simp [hfirst, hsecond]
    · simp [hsup]
  · intro dir hdir hsup
    have hmem : dir.settled now ∈ (store.settleSuperseded dir now).1.jobs := by
      rw [PullStore.settleSuperseded_jobs hdir, List.mem_map]
      exact ⟨dir, hdir, by simp [hsup]⟩
    have hfind : (store.settleSuperseded dir now).1.find dir.path = some (dir.settled now) :=
      PullStore.find_of_mem hmem
    refine ⟨dir.settled now, hfind, ?_⟩
    intro later job _ instant hjob hrecord
    have hfailed := PullStore.settleSuperseded_record hdir hsup hfind
    have hstored : job.storedStatus = (dir.settled now).storedStatus := by
      simp [JobDir.storedStatus, hjob, hrecord]
    rw [← hstored] at hfailed
    exact (PullStore.reading_of_failed hfailed).1

/-- A job queued with no worker. -/
def abandonedDir : JobDir where
  path := "1-m"
  job := ⟨"1-m", "hf", "org/Model", 1⟩
  files := { record := .stored (PullStatus.queued 1) }

/-- A pull of the same model that is running. -/
def runningDir : JobDir where
  path := "2-m"
  job := ⟨"2-m", "hf", "org/model", 2⟩
  files :=
    { record := .stored { state := .running, pid := some 7, updatedAtMs := 3 }
      holder := some 7 }

def supersededStore : PullStore where
  jobs := [abandonedDir, runningDir]
  distinct := by decide

theorem supersededStore_reading :
    (supersededStore.reading abandonedDir 5000).superseded = true := by
  rw [PullStore.reading_superseded, PullStore.pulledAgain_eq]
  decide +kernel

/-- The abandoned job of that store reads failed for good once it is settled. -/
theorem settle_superseded_order_independent_pair :
    ∃ written,
      (supersededStore.settleSuperseded abandonedDir 5000).1.find abandonedDir.path = some written ∧
        ∀ later : PullStore, ∀ job ∈ later.jobs, ∀ instant : ℤ, job.job = written.job →
          job.files.record = written.files.record →
          (later.reading job instant).status.state = .failed :=
  (settle_superseded_order_independent supersededStore 5000).2.2 abandonedDir (.head _)
    supersededStore_reading

end Hedos.Install
