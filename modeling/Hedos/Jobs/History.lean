import Hedos.Jobs.Job
import Mathlib.Data.String.Basic

/-!
# The store of concluded jobs

`JobHistoryStore` (`kernel/src/jobs/history.rs`) with its file: it is read at the first use, as far
as it can be, and written after each record. A store keeps its newest jobs by submission, so a job
that waited long enough is not kept when it is recorded.

* a recorded job is there exactly when fewer others are newer than the limit (`get_record_iff`);
* records leave the list sorted and within the limit, and its ids unique if they were when it was
  loaded (`history_keeps_newest`).
-/

namespace Hedos.Jobs

structure JobHistoryStore where
  /-- The limit, and the jobs in memory. -/
  history : JobHistory
  loaded : Bool
  /-- What `jobs.json` is read as: nothing where it is missing, corrupt or not readable. -/
  file : Option (List Job)

namespace JobHistoryStore

/-- `new`, over a directory; the limit is floored at one. -/
def new (limit : ℕ) (file : Option (List Job)) : JobHistoryStore :=
  ⟨⟨[], max limit 1, le_max_right limit 1⟩, false, file⟩

def loadIfNeeded (store : JobHistoryStore) : JobHistoryStore :=
  if store.loaded then store
  else
    { store with
      loaded := true
      history := { store.history with jobs := store.file.getD store.history.jobs } }

/-- `record`; `saved` is how the write of the file ends. A preview is not written. -/
def record {ε : Type} (store : JobHistoryStore) (job : Job) (saved : Except ε Unit) :
    JobHistoryStore × Except ε Unit :=
  let store := store.loadIfNeeded
  let history := store.history.record job
  let file :=
    match saved with
    | .ok () => some (history.jobs.map fun job => { job with preview := none })
    | .error _ => store.file
  ({ store with history, file }, saved)

def get (store : JobHistoryStore) (id : String) : JobHistoryStore × Option Job :=
  let store := store.loadIfNeeded
  (store, store.history.get id)

/-- Some records, one after the other. -/
def recordAll {ε : Type} (store : JobHistoryStore) (records : List (Job × Except ε Unit)) :
    JobHistoryStore :=
  records.foldl (fun store entry => (store.record entry.1 entry.2).1) store

end JobHistoryStore

/-! ## The order -/

instance : Std.Total newerFirst where
  total a b := by
    unfold newerFirst
    rcases lt_trichotomy a.submittedAt b.submittedAt with hlt | heq | hgt
    · exact .inr (.inl hlt)
    · exact (le_total b.id a.id).imp (fun h => .inr ⟨heq.symm, h⟩) fun h => .inr ⟨heq, h⟩
    · exact .inl (.inl hgt)

instance : IsTrans Job newerFirst where
  trans a b c hab hbc := by
    unfold newerFirst at *
    rcases hab with hab | ⟨hab, hid⟩ <;> rcases hbc with hbc | ⟨hbc, hid'⟩
    · exact .inl (hbc.trans hab)
    · exact .inl (hbc ▸ hab)
    · exact .inl (hab ▸ hbc)
    · exact .inr ⟨hbc.trans hab, hid'.trans hid⟩

theorem id_eq_of_newerFirst {a b : Job} (hab : newerFirst a b) (hba : newerFirst b a) :
    a.id = b.id := by
  unfold newerFirst at *
  rcases hab with hab | ⟨hab, hid⟩ <;> rcases hba with hba | ⟨hba, hid'⟩
  · omega
  · omega
  · omega
  · exact le_antisymm hid' hid

namespace JobHistory

/-- The recorded jobs of other ids. -/
def others (history : JobHistory) (job : Job) : List Job :=
  history.jobs.filter fun existing => existing.id ≠ job.id

theorem jobs_record (history : JobHistory) (job : Job) :
    (history.record job).jobs =
      ((history.others job ++ [job]).insertionSort newerFirst).take history.limit := rfl

/-- Where a job comes in the sorted list: behind those that are newer. -/
theorem mem_jobs_record_iff (history : JobHistory) (job : Job) :
    job ∈ (history.record job).jobs ↔
      ((history.others job).filter fun other => newerFirst other job).length < history.limit := by
  rw [jobs_record]
  have hperm := List.perm_insertionSort newerFirst (history.others job ++ [job])
  have hsorted := List.pairwise_insertionSort newerFirst (history.others job ++ [job])
  generalize (history.others job ++ [job]).insertionSort newerFirst = sorted at hperm hsorted
  obtain ⟨newer, older, rfl⟩ := List.append_of_mem
    (hperm.symm.subset (List.mem_append_right _ (.head _)))
  have hothers : (newer ++ older).Perm (history.others job) := by
    have hmiddle := List.perm_middle.symm.trans hperm
    have hlast := hmiddle.trans (List.perm_append_singleton job _)
    exact hlast.cons_inv
  have hne : ∀ other ∈ newer ++ older, other.id ≠ job.id := fun other hother => by
    simpa using (List.mem_filter.1 (hothers.subset hother)).2
  obtain ⟨-, hjob, hnewer⟩ := List.pairwise_append.1 hsorted
  have hcount : ((history.others job).filter fun other => newerFirst other job).length =
      newer.length := by
    rw [← (hothers.filter _).length_eq, List.filter_append]
    have hall : newer.filter (fun other => newerFirst other job) = newer := by
      rw [List.filter_eq_self]
      exact fun other hother => decide_eq_true (hnewer other hother job (.head _))
    have hnone : older.filter (fun other => newerFirst other job) = [] := by
      rw [List.filter_eq_nil_iff]
      intro other hother
      have hbefore := List.rel_of_pairwise_cons hjob hother
      simp only [decide_eq_true_eq]
      exact fun hafter => hne other (List.mem_append_right _ hother)
        (id_eq_of_newerFirst hafter hbefore)
    rw [hall, hnone, List.append_nil]
  rw [hcount]
  constructor
  · intro hmem
    by_contra hlimit
    rw [List.take_append_of_le_length (not_lt.1 hlimit)] at hmem
    exact hne job (List.mem_append_left _ (List.mem_of_mem_take hmem)) rfl
  · intro hlimit
    rw [List.take_append]
    obtain ⟨more, hmore⟩ := Nat.exists_eq_add_of_lt hlimit
    refine List.mem_append_right _ ?_
    have hsub : history.limit - newer.length = more + 1 := by omega
    rw [hsub, List.take_succ_cons]
    exact .head _

theorem get_eq_some_iff (history : JobHistory) (job : Job)
    (h : ∀ other ∈ history.jobs, other.id = job.id → other = job) :
    history.get job.id = some job ↔ job ∈ history.jobs := by
  constructor
  · exact fun hget => List.mem_of_find?_eq_some hget
  · intro hmem
    have hsome : (history.jobs.find? fun found => found.id == job.id).isSome = true :=
      List.find?_isSome.2 ⟨job, hmem, beq_self_eq_true job.id⟩
    obtain ⟨found, hfound⟩ := Option.isSome_iff_exists.1 hsome
    have hid : found.id = job.id := by simpa using List.find?_some hfound
    rw [get, hfound, h found (List.mem_of_find?_eq_some hfound) hid]

/-- A recorded job can be found exactly when fewer others are newer than the limit. -/
theorem get_record_iff (history : JobHistory) (job : Job) :
    (history.record job).get job.id = some job ↔
      ((history.others job).filter fun other => newerFirst other job).length < history.limit := by
  rw [get_eq_some_iff, mem_jobs_record_iff]
  intro other hother hid
  rw [jobs_record] at hother
  rcases List.mem_append.1 ((List.mem_insertionSort _).1 (List.mem_of_mem_take hother)) with
    hmem | hmem
  · simp [others, hid] at hmem
  · exact List.mem_singleton.1 hmem

theorem record_sorted (history : JobHistory) (job : Job) :
    (history.record job).jobs.Pairwise newerFirst :=
  (List.pairwise_insertionSort _ _).sublist (List.take_sublist _ _)

theorem length_record_le (history : JobHistory) (job : Job) :
    (history.record job).jobs.length ≤ history.limit := List.length_take_le _ _

theorem nodup_record {history : JobHistory} (h : (history.jobs.map Job.id).Nodup) (job : Job) :
    ((history.record job).jobs.map Job.id).Nodup := by
  rw [jobs_record]
  refine List.Nodup.sublist ((List.take_sublist _ _).map _) ?_
  rw [((List.perm_insertionSort newerFirst _).map Job.id).nodup_iff, List.map_append,
    List.map_singleton, List.nodup_append_comm, List.singleton_append, List.nodup_cons]
  refine ⟨fun hmem => ?_, h.sublist (List.filter_sublist.map _)⟩
  obtain ⟨other, hother, hid⟩ := List.mem_map.1 hmem
  simp [others, hid] at hother

end JobHistory

namespace JobHistoryStore

theorem loadIfNeeded_record {ε : Type} (store : JobHistoryStore) (job : Job)
    (saved : Except ε Unit) :
    (store.record job saved).1.loadIfNeeded.history = store.loadIfNeeded.history.record job := by
  have hloaded : store.loadIfNeeded.loaded = true := by
    unfold loadIfNeeded
    split
    · assumption
    · rfl
  have hrecord : (store.record job saved).1.loaded = true := hloaded
  rw [loadIfNeeded, if_pos hrecord]
  rfl

theorem limit_loadIfNeeded (store : JobHistoryStore) :
    store.loadIfNeeded.history.limit = store.history.limit := by
  unfold loadIfNeeded
  split <;> rfl

/-- What holds of the jobs in memory after any number of records. -/
structure Kept (store start : JobHistoryStore) : Prop where
  limit : store.loadIfNeeded.history.limit = start.history.limit
  unique : (start.loadIfNeeded.history.jobs.map Job.id).Nodup →
    (store.loadIfNeeded.history.jobs.map Job.id).Nodup

theorem Kept.record {ε : Type} {store start : JobHistoryStore} (h : store.Kept start) (job : Job)
    (saved : Except ε Unit) :
    (store.record job saved).1.Kept start ∧
      (store.record job saved).1.history.jobs.Pairwise newerFirst ∧
      (store.record job saved).1.history.jobs.length ≤ start.history.limit := by
  have hsame := loadIfNeeded_record store job saved
  refine ⟨⟨?_, fun hunique => ?_⟩, JobHistory.record_sorted _ job, ?_⟩
  · rw [hsame]
    exact h.limit
  · rw [hsame]
    exact JobHistory.nodup_record (h.unique hunique) job
  · exact h.limit ▸ JobHistory.length_record_le store.loadIfNeeded.history job

theorem Kept.recordAll {ε : Type} {store start : JobHistoryStore} (h : store.Kept start)
    (records : List (Job × Except ε Unit)) : (store.recordAll records).Kept start := by
  induction records generalizing store with
  | nil => exact h
  | cons entry records ih => exact ih (h.record entry.1 entry.2).1

/-- The store keeps the newest of what it loaded and what was recorded, whether or not the file
could be written. -/
theorem history_keeps_newest {ε : Type} (store : JobHistoryStore) :
    (∀ (job : Job) (saved : Except ε Unit),
      ((store.record job saved).1.get job.id).2 = some job ↔
        ((store.loadIfNeeded.history.others job).filter fun other => newerFirst other job).length <
          store.history.limit) ∧
    ∀ (records : List (Job × Except ε Unit)) (job : Job) (saved : Except ε Unit),
      let after := (store.recordAll (records ++ [(job, saved)])).history.jobs
      after.Pairwise newerFirst ∧ after.length ≤ store.history.limit ∧
        ((store.loadIfNeeded.history.jobs.map Job.id).Nodup → (after.map Job.id).Nodup) := by
  constructor
  · intro job saved
    simp only [get, loadIfNeeded_record]
    rw [JobHistory.get_record_iff, limit_loadIfNeeded]
  · intro records job saved
    have hstart : store.Kept store := ⟨limit_loadIfNeeded store, fun h => h⟩
    have hlast : store.recordAll (records ++ [(job, saved)]) =
        ((store.recordAll records).record job saved).1 := by
      rw [recordAll, List.foldl_append]
      rfl
    obtain ⟨hkept, hsorted, hlimit⟩ := (hstart.recordAll records).record job saved
    rw [hlast]
    refine ⟨hsorted, hlimit, fun hunique => ?_⟩
    have hnodup := hkept.unique hunique
    rw [loadIfNeeded_record] at hnodup
    exact hnodup

/-- A job submitted before all of a full list is not kept, and ids that a file holds twice stay
twice. -/
theorem late_job_not_kept :
    (((new 1 (some [.new "b" 2])).record (.new "a" 1) (.ok () : Except String Unit)).2 = .ok () ∧
      (((new 1 (some [.new "b" 2])).record (.new "a" 1) (.ok () : Except String Unit)).1.get
        "a").2 = none) ∧
    (((new 5 (some [.new "b" 2, .new "b" 3])).recordAll
      [(.new "a" 1, (.ok () : Except String Unit))]).history.jobs.map Job.id) =
        ["b", "b", "a"] := by
  decide +kernel

end JobHistoryStore

end Hedos.Jobs
