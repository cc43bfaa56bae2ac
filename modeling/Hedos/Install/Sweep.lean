import Hedos.Install.Superseded
import Mathlib.Data.List.Induction

/-!
# Sweeping ended pulls

`PullStore::sweep` with `PullJobDir::forget` (`kernel/src/install/pulls.rs`): superseded jobs are
settled, then the ended ones are removed but for the newest and those touched since the cut-off.
Nothing else touches the store meanwhile, and no call to the file system fails.

* gathering settles what reads superseded and changes no reading (`gather_eq`);
* a job that has ended by its record is forgotten whatever the clock says (`forgetPath_ended`);
* `sweep_safe`: what may be removed, and what becomes of a superseded job.
-/

namespace Hedos.Install

namespace PullStore

/-! ## The sweep -/

/-- `PullJobDir::remove`. -/
def remove (store : PullStore) (path : String) : PullStore where
  jobs := store.jobs.filter fun dir => dir.path ≠ path
  distinct := List.Nodup.sublist (List.filter_sublist.map _) store.distinct

/-- `PullJobDir::forget`: settle the job, and remove it if it has ended and nobody holds it. -/
def forgetPath (store : PullStore) (now : ℤ) (path : String) : PullStore × Bool :=
  let store := store.settlePath now path
  match store.find path with
  | none => (store, false)
  | some dir =>
    if !(store.reading dir now).status.state.isTerminal then (store, false)
    else if dir.workerAlive then (store, false)
    else (store.remove path, true)

/-- An ended job no worker holds, with the time it was last touched. -/
abbrev Ended := ℤ × String

/-- Add the job at `path` if it has ended; one that reads superseded is settled first. -/
def gatherOne (now : ℤ) (state : PullStore × List Ended) (path : String) : PullStore × List Ended :=
  match state.1.find path with
  | none => state
  | some dir =>
    if dir.workerAlive then state
    else
      let reading := state.1.reading dir now
      let (store, settled) :=
        if reading.superseded then state.1.settleSuperseded dir now else (state.1, true)
      if settled && reading.status.state.isTerminal then
        (store, state.2 ++ [(reading.status.updatedAtMs, path)])
      else (store, state.2)

def gather (store : PullStore) (now : ℤ) : PullStore × List Ended :=
  (store.list.map JobDir.path).foldl (gatherOne now) (store, [])

def sweepOne (clock : String → ℤ) (beforeMs : ℤ) (state : PullStore × ℕ) (ended : Ended) :
    PullStore × ℕ :=
  if ended.1 < beforeMs then
    let (store, gone) := state.1.forgetPath (clock ended.2) ended.2
    (store, if gone then state.2 + 1 else state.2)
  else state

/-- `PullStore::sweep`, its clock read once, and again for each job that is forgotten. -/
def sweep (store : PullStore) (now : ℤ) (clock : String → ℤ) (keep : ℕ) (beforeMs : ℤ) :
    PullStore × ℕ :=
  let (store, ended) := store.gather now
  ((ended.mergeSort fun a b => b.1 ≤ a.1).drop keep).foldl (sweepOne clock beforeMs) (store, 0)

end PullStore

/-! ## Ended jobs -/

section Ended

variable {store : PullStore} {dir : JobDir} {now : ℤ} {path : String}

/-- A record that has ended is read as it is, at any time and in any store. -/
theorem PullStore.reading_of_terminal (h : dir.storedStatus.state.isTerminal = true) :
    store.reading dir now = ⟨dir.storedStatus, false, false⟩ := by
  have hexpects : dir.storedStatus.expectsWorker = false := by
    unfold PullStatus.expectsWorker
    split
    · rename_i hstate
      rw [hstate] at h
      cases h
    · rename_i hstate
      rw [hstate] at h
      cases h
    · rfl
  have hqueued : dir.storedStatus.unclaimed now startGraceMs = false := by
    rw [Bool.eq_false_iff]
    intro hunclaimed
    rw [(PullStatus.unclaimed_iff.1 hunclaimed).1] at h
    cases h
  have hshown : dir.shown now = ⟨dir.storedStatus, false, false⟩ := by
    simp [JobDir.shown, PullStatus.shownWith, PullStatus.withLiveness, hexpects, hqueued]
  simp [PullStore.reading, PullReading.withSibling, hshown]

/-- A reading has ended when the record has, or when it is superseded. -/
theorem PullStore.terminal_of_reading (h : (store.reading dir now).status.state.isTerminal = true) :
    dir.storedStatus.state.isTerminal = true ∨ (store.reading dir now).superseded = true := by
  by_cases hsup : (store.reading dir now).superseded = true
  · exact Or.inr hsup
  · left
    have hshown : store.reading dir now = dir.shown now := by
      unfold PullStore.reading PullReading.withSibling at hsup ⊢
      split
      · rename_i hboth
        rw [if_pos hboth] at hsup
        exact absurd rfl hsup
      · rfl
    rw [hshown] at h
    simp only [JobDir.shown, PullStatus.shownWith, PullStatus.withLiveness] at h
    split at h
    · cases h
    · split at h
      · cases h
      · exact h

theorem PullStore.settleSuperseded_of_not (h : (store.reading dir now).superseded = false) :
    store.settleSuperseded dir now = (store, false) := by
  rw [PullStore.settleSuperseded, h]
  rfl

/-- A superseded job is always written down. -/
theorem PullStore.settleSuperseded_done (h : (store.reading dir now).superseded = true) :
    (store.settleSuperseded dir now).2 = true ∧ dir.workerAlive = false := by
  have hboth := h
  rw [PullStore.reading_superseded, Bool.and_eq_true, JobDir.abandoned, Bool.and_eq_true] at hboth
  obtain ⟨⟨hunclaimed, hfree⟩, hagain⟩ := hboth
  have halive : dir.workerAlive = false := by simpa using hfree
  have hreadable : ¬ dir.storedStatus.state = .unreadable := by
    rw [(PullStatus.unclaimed_iff.1 hunclaimed).1]
    decide
  refine ⟨?_, halive⟩
  simp [PullStore.settleSuperseded, h, halive, hunclaimed, hagain, JobDir.updateStatus, hreadable]

end Ended

/-! ## Gathering -/

section Gather

variable {store : PullStore} {dir : JobDir} {now : ℤ} {path : String} {paths : List String}

theorem PullStore.reading_settleAll :
    (store.settleAll now paths).reading dir now = store.reading dir now := by
  induction paths generalizing store with
  | nil => rfl
  | cons path paths ih => exact ih.trans (PullStore.reading_settlePath path)

/-- A job is found as it was, or as it was settled. -/
theorem PullStore.find_settleAll :
    (store.settleAll now paths).find path = (store.find path).map fun dir =>
      if dir.path ∈ paths ∧ (store.reading dir now).superseded = true
        then dir.settled now else dir := by
  rw [PullStore.find, PullStore.settleAll_jobs, List.find?_map]
  have hpath : ((fun dir : JobDir => dir.path == path) ∘ fun dir =>
      if dir.path ∈ paths ∧ (store.reading dir now).superseded = true
        then dir.settled now else dir) = fun dir => dir.path == path := by
    funext dir
    simp only [Function.comp_apply]
    split <;> rfl
  rw [hpath]
  rfl

theorem PullStore.settleAll_snoc :
    store.settleAll now (paths ++ [path]) = (store.settleAll now paths).settlePath now path := by
  rw [PullStore.settleAll, List.foldl_append]
  rfl

/-- What gathering notes of the job at a path. -/
def PullStore.endedAt (store : PullStore) (now : ℤ) (path : String) : Option PullStore.Ended :=
  (store.find path).bind fun dir =>
    if dir.workerAlive = false ∧ (store.reading dir now).status.state.isTerminal = true
      then some ((store.reading dir now).status.updatedAtMs, path) else none

/-- Gathering settles every job, and notes what had ended. -/
theorem PullStore.gatherOne_eq (hpath : path ∉ paths) (ended : List PullStore.Ended) :
    PullStore.gatherOne now (store.settleAll now paths, ended) path =
      (store.settleAll now (paths ++ [path]), ended ++ (store.endedAt now path).toList) := by
  rw [PullStore.settleAll_snoc, PullStore.gatherOne, PullStore.settlePath, PullStore.endedAt,
    PullStore.find_settleAll]
  cases hfind : store.find path with
  | none => simp
  | some dir =>
    have hhere : dir.path = path := (PullStore.find_eq_some hfind).2
    have hout : dir.path ∉ paths := hhere ▸ hpath
    simp only [Option.map_some, hout, false_and, if_false, Option.bind_some,
      PullStore.reading_settleAll]
    by_cases hsup : (store.reading dir now).superseded = true
    · have hsup' : ((store.settleAll now paths).reading dir now).superseded = true := by
        rw [PullStore.reading_settleAll, hsup]
      obtain ⟨hdone, halive⟩ := PullStore.settleSuperseded_done hsup'
      rw [hsup, halive]
      simp only [Bool.false_eq_true, if_false, if_true, hdone, Bool.true_and, true_and]
      split <;> simp
    · have hnot := Bool.eq_false_iff.2 hsup
      have hsame : (store.settleAll now paths).settleSuperseded dir now =
          (store.settleAll now paths, false) :=
        PullStore.settleSuperseded_of_not (by rw [PullStore.reading_settleAll, hnot])
      rw [hsame, hnot]
      cases halive : dir.workerAlive with
      | true => simp
      | false =>
        simp only [Bool.false_eq_true, if_false, Bool.true_and, true_and]
        split <;> simp

theorem PullStore.foldl_gatherOne (hpaths : paths.Nodup) :
    paths.foldl (PullStore.gatherOne now) (store, []) =
      (store.settleAll now paths, paths.filterMap (store.endedAt now)) := by
  induction paths using List.reverseRecOn with
  | nil => rfl
  | append_singleton paths path ih =>
    obtain ⟨hbefore, _, hdisjoint⟩ := List.nodup_append.1 hpaths
    have hlast : [path].filterMap (store.endedAt now) = (store.endedAt now path).toList := by
      cases h : store.endedAt now path <;> simp [h]
    rw [List.foldl_append, ih hbefore, List.foldl_cons, List.foldl_nil,
      PullStore.gatherOne_eq fun h => hdisjoint path h path (List.mem_singleton_self _) rfl,
      List.filterMap_append, hlast]

theorem PullStore.list_paths_nodup (store : PullStore) : (store.list.map JobDir.path).Nodup :=
  ((List.mergeSort_perm _ _).map _).nodup_iff.2 store.distinct

theorem PullStore.mem_list_paths : path ∈ store.list.map JobDir.path ↔
    ∃ dir ∈ store.jobs, dir.path = path := by
  simp [PullStore.list]

theorem PullStore.endedAt_eq_some {ended : PullStore.Ended} :
    store.endedAt now path = some ended ↔ ∃ dir ∈ store.jobs, dir.path = path ∧
      dir.workerAlive = false ∧ (store.reading dir now).status.state.isTerminal = true ∧
      ended = ((store.reading dir now).status.updatedAtMs, path) := by
  rw [PullStore.endedAt, Option.bind_eq_some_iff]
  constructor
  · rintro ⟨dir, hfind, hif⟩
    obtain ⟨hmem, hpath⟩ := PullStore.find_eq_some hfind
    split at hif
    · rename_i hboth
      exact ⟨dir, hmem, hpath, hboth.1, hboth.2, (Option.some.inj hif).symm⟩
    · cases hif
  · rintro ⟨dir, hmem, rfl, halive, hterminal, rfl⟩
    exact ⟨dir, PullStore.find_of_mem hmem, if_pos ⟨halive, hterminal⟩⟩

/-- The store after gathering, and what was noted. -/
theorem PullStore.gather_eq (store : PullStore) (now : ℤ) :
    (store.gather now).1 = store.settleAll now (store.list.map JobDir.path) ∧
      (∀ ended, ended ∈ (store.gather now).2 ↔ store.endedAt now ended.2 = some ended) ∧
      ((store.gather now).2.map Prod.snd).Nodup := by
  have hfold : store.gather now = _ := PullStore.foldl_gatherOne store.list_paths_nodup
  rw [hfold]
  refine ⟨rfl, fun ended => ?_, ?_⟩
  · dsimp only
    rw [List.mem_filterMap]
    constructor
    · rintro ⟨path, _, hended⟩
      obtain ⟨_, _, _, _, _, rfl⟩ := PullStore.endedAt_eq_some.1 hended
      exact hended
    · intro hended
      obtain ⟨dir, hdir, hpath, _⟩ := PullStore.endedAt_eq_some.1 hended
      exact ⟨ended.2, PullStore.mem_list_paths.2 ⟨dir, hdir, hpath⟩, hended⟩
  · dsimp only
    rw [List.map_filterMap]
    refine store.list_paths_nodup.filterMap ?_
    intro a b c ha hb
    obtain ⟨x, hx, rfl⟩ := Option.map_eq_some_iff.1 ha
    obtain ⟨y, hy, hxy⟩ := Option.map_eq_some_iff.1 hb
    obtain ⟨_, _, _, _, _, rfl⟩ := PullStore.endedAt_eq_some.1 hx
    obtain ⟨_, _, _, _, _, rfl⟩ := PullStore.endedAt_eq_some.1 hy
    exact hxy.symm

end Gather

/-! ## Forgetting -/

section Forget

variable {store : PullStore} {dir : JobDir} {now : ℤ} {path : String}

/-- A job that nobody holds and that has ended by its record is removed, at whatever time. -/
theorem PullStore.forgetPath_ended (hfind : store.find path = some dir)
    (halive : dir.workerAlive = false) (hterminal : dir.storedStatus.state.isTerminal = true) :
    store.forgetPath now path = (store.remove path, true) := by
  have hreading := @PullStore.reading_of_terminal store _ now hterminal
  have hsettled : store.settlePath now path = store := by
    have hnot : (store.reading dir now).superseded = false := by rw [hreading]
    rw [PullStore.settlePath, hfind]
    exact congrArg Prod.fst (PullStore.settleSuperseded_of_not hnot)
  rw [PullStore.forgetPath, hsettled, hfind]
  dsimp only
  rw [hreading, halive]
  simp [hterminal]

theorem PullStore.find_remove_ne {other : String} (h : path ≠ other) :
    (store.remove other).find path = store.find path := by
  rw [PullStore.find, PullStore.find, PullStore.remove, List.find?_filter]
  congr 1
  funext dir
  by_cases hdir : dir.path = path <;> simp [hdir, h]

theorem PullStore.find_remove_self : (store.remove path).find path = none := by
  refine List.find?_eq_none.2 fun dir hdir => ?_
  simpa using (List.mem_filter.1 hdir).2

/-- The paths of the jobs that are touched before the cut-off. -/
def gonePaths (beforeMs : ℤ) (ended : List PullStore.Ended) : List String :=
  (ended.filter fun job => decide (job.1 < beforeMs)).map Prod.snd

/-- Every job in the list that was touched before the cut-off is removed, and no other. -/
theorem PullStore.foldl_sweepOne {clock : String → ℤ} {beforeMs : ℤ}
    {ended : List PullStore.Ended} (hnodup : (ended.map Prod.snd).Nodup)
    (hended : ∀ job ∈ ended, ∃ dir, store.find job.2 = some dir ∧ dir.workerAlive = false ∧
      dir.storedStatus.state.isTerminal = true) (count : ℕ) (path : String) :
    (ended.foldl (PullStore.sweepOne clock beforeMs) (store, count)).1.find path =
      if path ∈ gonePaths beforeMs ended then none else store.find path := by
  induction ended generalizing store count with
  | nil => rfl
  | cons job ended ih =>
    obtain ⟨hfirst, hrest⟩ := List.nodup_cons.1 hnodup
    obtain ⟨hjob, hjobs⟩ := List.forall_mem_cons.1 hended
    rw [List.foldl_cons]
    by_cases htouched : job.1 < beforeMs
    · obtain ⟨dir, hfind, halive, hterminal⟩ := hjob
      have hstep : PullStore.sweepOne clock beforeMs (store, count) job =
          (store.remove job.2, count + 1) := by
        rw [PullStore.sweepOne, if_pos htouched, PullStore.forgetPath_ended hfind halive hterminal]
        rfl
      have hlater : ∀ other ∈ ended, (store.remove job.2).find other.2 = store.find other.2 :=
        fun other hother => PullStore.find_remove_ne fun hsame =>
          hfirst (hsame ▸ List.mem_map_of_mem hother)
      have hgone : gonePaths beforeMs (job :: ended) = job.2 :: gonePaths beforeMs ended := by
        simp [gonePaths, htouched]
      rw [hstep,
        ih hrest (fun other hother => by rw [hlater other hother]; exact hjobs other hother),
        hgone]
      by_cases hpath : path = job.2
      · subst hpath
        rw [PullStore.find_remove_self, if_pos List.mem_cons_self]
        exact ite_self _
      · rw [PullStore.find_remove_ne hpath]
        simp [hpath]
    · have hstep : PullStore.sweepOne clock beforeMs (store, count) job = (store, count) :=
        if_neg htouched
      have hgone : gonePaths beforeMs (job :: ended) = gonePaths beforeMs ended := by
        simp [gonePaths, htouched]
      rw [hstep, ih hrest hjobs, hgone]

end Forget

/-! ## What a sweep does -/

section Sweep

variable (store : PullStore) (now : ℤ) (clock : String → ℤ) (keep : ℕ) (beforeMs : ℤ)

/-- The ended jobs, newest first. -/
def newestFirst : List PullStore.Ended := (store.gather now).2.mergeSort fun a b => b.1 ≤ a.1

theorem newestFirst_perm : (newestFirst store now).Perm (store.gather now).2 :=
  List.mergeSort_perm _ _

theorem newestFirst_sorted : (newestFirst store now).Pairwise fun a b => b.1 ≤ a.1 := by
  have hsorted := @List.pairwise_mergeSort _ (fun a b : PullStore.Ended => decide (b.1 ≤ a.1))
    (fun a b c hab hbc => by simp only [decide_eq_true_eq] at *; omega)
    (fun a b => by simp only [Bool.or_eq_true, decide_eq_true_eq]; omega) (store.gather now).2
  exact hsorted.imp fun h => of_decide_eq_true h

variable {store now} in
/-- What is noted of an ended job, and what its record says once it is settled. -/
theorem ended_of_mem {job : PullStore.Ended} (h : job ∈ newestFirst store now) :
    ∃ dir ∈ store.jobs, dir.path = job.2 ∧ dir.workerAlive = false ∧
      (store.reading dir now).status.state.isTerminal = true ∧
      job.1 = (store.reading dir now).status.updatedAtMs ∧
      ∃ settled, (store.gather now).1.find job.2 = some settled ∧ settled.workerAlive = false ∧
        settled.storedStatus.state.isTerminal = true := by
  obtain ⟨hstore, hmem, _⟩ := store.gather_eq now
  have hended := (hmem job).1 ((newestFirst_perm store now).mem_iff.1 h)
  obtain ⟨dir, hdir, hpath, halive, hterminal, hjob⟩ := PullStore.endedAt_eq_some.1 hended
  refine ⟨dir, hdir, hpath, halive, hterminal, congrArg Prod.fst hjob, ?_⟩
  have hlisted : dir.path ∈ store.list.map JobDir.path :=
    PullStore.mem_list_paths.2 ⟨dir, hdir, rfl⟩
  rw [hstore, PullStore.find_settleAll, ← hpath, PullStore.find_of_mem hdir, Option.map_some]
  by_cases hsup : (store.reading dir now).superseded = true
  · rw [if_pos ⟨hlisted, hsup⟩]
    exact ⟨_, rfl, halive, rfl⟩
  · rw [if_neg fun hboth => hsup hboth.2]
    exact ⟨_, rfl, halive, (PullStore.terminal_of_reading hterminal).resolve_right hsup⟩

/-- What the sweep leaves at a path. -/
theorem find_sweep (path : String) :
    (store.sweep now clock keep beforeMs).1.find path =
      if path ∈ gonePaths beforeMs ((newestFirst store now).drop keep) then none
      else (store.settleAll now (store.list.map JobDir.path)).find path := by
  obtain ⟨hstore, _, hnodup⟩ := store.gather_eq now
  have hpaths : ((newestFirst store now).map Prod.snd).Nodup :=
    ((newestFirst_perm store now).map _).nodup_iff.2 hnodup
  rw [← hstore]
  refine PullStore.foldl_sweepOne ?_ ?_ 0 path
  · exact hpaths.sublist ((List.drop_sublist _ _).map _)
  · intro job hjob
    obtain ⟨_, _, _, _, _, _, settled⟩ := ended_of_mem (List.mem_of_mem_drop hjob)
    exact settled

/-- A job that reads as ended and that nobody holds, last touched at a time. -/
def EndedAt (dir : JobDir) (touchedAt : ℤ) : Prop :=
  dir ∈ store.jobs ∧ dir.workerAlive = false ∧
    (store.reading dir now).status.state.isTerminal = true ∧
    (store.reading dir now).status.updatedAtMs = touchedAt

variable {store now keep} in
/-- A job behind the newest has `keep` others in front of it. -/
theorem newest_kept {job : PullStore.Ended} (h : job ∈ (newestFirst store now).drop keep) :
    (((newestFirst store now).take keep).map Prod.snd).Nodup ∧
      (((newestFirst store now).take keep).map Prod.snd).length = keep ∧
      job.2 ∉ ((newestFirst store now).take keep).map Prod.snd ∧
      ∀ path ∈ ((newestFirst store now).take keep).map Prod.snd,
        ∃ other ∈ newestFirst store now, other.2 = path ∧ job.1 ≤ other.1 := by
  obtain ⟨_, _, hnodup⟩ := store.gather_eq now
  have hpaths : ((newestFirst store now).map Prod.snd).Nodup :=
    ((newestFirst_perm store now).map _).nodup_iff.2 hnodup
  have hsorted := newestFirst_sorted store now
  have hlength : keep < (newestFirst store now).length := by
    have hpos := List.length_pos_of_mem h
    rw [List.length_drop] at hpos
    omega
  rw [← List.take_append_drop keep (newestFirst store now)] at hpaths hsorted
  rw [List.map_append] at hpaths
  obtain ⟨htake, _, hdisjoint⟩ := List.nodup_append.1 hpaths
  refine ⟨htake, ?_, fun hmem => hdisjoint _ hmem _ (List.mem_map_of_mem h) rfl, ?_⟩
  · rw [List.length_map, List.length_take, Nat.min_eq_left (Nat.le_of_lt hlength)]
  · intro path hpath
    obtain ⟨other, hother, rfl⟩ := List.mem_map.1 hpath
    exact ⟨other, List.mem_of_mem_take hother, rfl,
      (List.pairwise_append.1 hsorted).2.2 other hother job h⟩

/-- Only jobs go that have ended, that nobody holds, that were last touched before the cut-off and
that have `keep` others as new or newer; and no job that read superseded can be resumed after. -/
theorem sweep_safe :
    (∀ dir ∈ store.jobs, (store.sweep now clock keep beforeMs).1.find dir.path = none →
      ∃ touchedAt, EndedAt store now dir touchedAt ∧ touchedAt < beforeMs ∧
        ∃ newer : List String, newer.Nodup ∧ newer.length = keep ∧ dir.path ∉ newer ∧
          ∀ path ∈ newer, ∃ other newerAt, other.path = path ∧ EndedAt store now other newerAt ∧
            touchedAt ≤ newerAt) ∧
    ∀ dir ∈ store.jobs, (store.reading dir now).superseded = true → ∀ after later,
      (store.sweep now clock keep beforeMs).1.find dir.path = some after →
        ((store.sweep now clock keep beforeMs).1.reading after later).status.state.isResumable =
          false := by
  constructor
  · intro dir hdir hnone
    rw [find_sweep] at hnone
    split at hnone
    · rename_i hgone
      obtain ⟨job, hjob, hpath⟩ := List.mem_map.1 hgone
      obtain ⟨hdrop, hbefore⟩ := List.mem_filter.1 hjob
      obtain ⟨found, hfound, hfoundPath, halive, hterminal, htouched, _⟩ :=
        ended_of_mem (List.mem_of_mem_drop hdrop)
      obtain rfl : found = dir := PullStore.eq_of_path hfound hdir (hfoundPath.trans hpath)
      refine ⟨job.1, ⟨hfound, halive, hterminal, htouched.symm⟩, of_decide_eq_true hbefore, ?_⟩
      obtain ⟨hnodup, hlength, hout, hnewer⟩ := newest_kept hdrop
      refine ⟨_, hnodup, hlength, hpath ▸ hout, fun path hmem => ?_⟩
      obtain ⟨other, hother, rfl, hle⟩ := hnewer path hmem
      obtain ⟨held, hheld, hheldPath, hfree, hended, hat, _⟩ := ended_of_mem hother
      exact ⟨held, other.1, hheldPath, ⟨hheld, hfree, hended, hat.symm⟩, hle⟩
    · rw [PullStore.find_settleAll, PullStore.find_of_mem hdir] at hnone
      cases hnone
  · intro dir hdir hsup after later hafter
    have hlisted : dir.path ∈ store.list.map JobDir.path :=
      PullStore.mem_list_paths.2 ⟨dir, hdir, rfl⟩
    rw [find_sweep] at hafter
    split at hafter
    · cases hafter
    · rw [PullStore.find_settleAll, PullStore.find_of_mem hdir, Option.map_some,
        if_pos ⟨hlisted, hsup⟩] at hafter
      rw [← Option.some.inj hafter, (PullStore.reading_of_failed rfl).1]
      rfl

end Sweep

/-- A pull that landed. -/
def landedDir (path : String) (updatedAtMs : ℤ) : JobDir :=
  ⟨path, ⟨path, "hf", "", 5⟩, { record := .stored { state := .done, updatedAtMs } }⟩

/-- Two pulls that landed, one that reads superseded and the one that runs in its place. -/
def landedStore : PullStore where
  jobs := [landedDir "7-model" 7, landedDir "9-model" 9, abandonedDir, runningDir]
  distinct := by decide

theorem landedStore_newest {path : String} {updatedAtMs : ℤ}
    (h : landedDir path updatedAtMs ∈ landedStore.jobs) :
    (updatedAtMs, path) ∈ newestFirst landedStore 5000 := by
  have hended : landedStore.endedAt 5000 path = some (updatedAtMs, path) := by
    refine PullStore.endedAt_eq_some.2 ⟨_, h, rfl, rfl, ?_, ?_⟩
    · rw [PullStore.reading_of_terminal rfl]
      rfl
    · rw [PullStore.reading_of_terminal rfl]
      rfl
  exact (newestFirst_perm landedStore 5000).mem_iff.2
    (((landedStore.gather_eq 5000).2.1 _).2 hended)

theorem landedStore_sweep :
    (landedStore.sweep 5000 (fun _ => 5001) 1 8).1.find "7-model" = none := by
  have hseven : (7, "7-model") ∈ newestFirst landedStore 5000 :=
    landedStore_newest (by simp [landedStore])
  have hnine : (9, "9-model") ∈ newestFirst landedStore 5000 :=
    landedStore_newest (by simp [landedStore])
  have hdrop : (7, "7-model") ∈ (newestFirst landedStore 5000).drop 1 := by
    have hsorted := newestFirst_sorted landedStore 5000
    cases hjobs : newestFirst landedStore 5000 with
    | nil => simp [hjobs] at hseven
    | cons first rest =>
      rw [hjobs] at hseven hnine hsorted
      rcases List.mem_cons.1 hseven with rfl | hseven
      · -- the other one would stand in front
        rcases List.mem_cons.1 hnine with hnine | hnine
        · cases hnine
        · exact absurd (List.rel_of_pairwise_cons hsorted hnine) (by decide)
      · exact hseven
  rw [find_sweep, if_pos]
  exact List.mem_map.2 ⟨_, List.mem_filter.2 ⟨hdrop, by decide⟩, rfl⟩

/-- One newer job is left, and the superseded one cannot be resumed. -/
theorem sweep_safe_landed :
    (∃ dir touchedAt, EndedAt landedStore 5000 dir touchedAt ∧ touchedAt < 8 ∧
      ∃ newer : List String, newer.length = 1 ∧ dir.path ∉ newer) ∧
    ∀ after later,
      (landedStore.sweep 5000 (fun _ => 5001) 1 8).1.find abandonedDir.path = some after →
      ((landedStore.sweep 5000 (fun _ => 5001) 1 8).1.reading after
        later).status.state.isResumable = false := by
  have hsup : (landedStore.reading abandonedDir 5000).superseded = true := by
    rw [PullStore.reading_superseded, PullStore.pulledAgain_eq]
    decide +kernel
  obtain ⟨hgone, hsettled⟩ := sweep_safe landedStore 5000 (fun _ => 5001) 1 8
  obtain ⟨touchedAt, hended, hbefore, newer, -, hlength, hout, -⟩ :=
    hgone _ (.head _) landedStore_sweep
  exact ⟨⟨_, touchedAt, hended, hbefore, newer, hlength, hout⟩,
    hsettled abandonedDir (by simp [landedStore]) hsup⟩

end Hedos.Install
