import Hedos.Install.PullWorker
import Hedos.Install.Superseded

/-!
# What the processes of a pull store can rely on

One process over a pull store may count on little: a lock it holds stays its own, the record
under that lock is written by nobody else, a record that has ended or cannot be read is not
written again. Not all of it is true of every run. The three conditions on a step below say of
which runs it is:

* `World.inTurn`: a worker takes a job up before its record has ended, and a record is written
  without the job's lock only while nobody holds it and before the record has ended;
* `World.heedsCancel`, `World.sparesAsked`: no failure is written over a cancel that waits, and
  no process dies between deleting a cancel and ending the job;
* `World.guardsReference`: while a process holds the claim of a reference nobody else takes up a
  job of it that was left waiting, or writes it back as going, and a claim taken again after the
  look is taken with nothing under way.

`contract` puts them together for `Programs.wp`: `Rely`, the invariant `Inv`, and what each
operation does to both.
-/

namespace Hedos.Install

open Programs Function

/-! ## Reading the shared state -/

namespace PullStore

variable {store : PullStore} {path other : String}

theorem find_modify (store : PullStore) (path : String) (change : JobFiles → JobFiles)
    (other : String) :
    (store.modify path change).find other = (store.find other).map fun dir =>
      if dir.path = path then { dir with files := change dir.files } else dir := by
  simp only [find, modify, List.find?_map]
  congr 2
  funext dir
  simp only [comp_apply]
  split <;> rfl

theorem job_modify (store : PullStore) (path : String) (change : JobFiles → JobFiles)
    (other : String) : (store.modify path change).job other = store.job other := by
  rw [job, job, find_modify, Option.map_map]
  congr 1
  funext dir
  simp only [comp_apply]
  split <;> rfl

theorem files_modify_self (h : (store.job path).isSome) (change : JobFiles → JobFiles) :
    (store.modify path change).files path = change (store.files path) := by
  rw [job, Option.isSome_map] at h
  obtain ⟨dir, hdir⟩ := Option.isSome_iff_exists.1 h
  have hpath := (find_eq_some hdir).2
  simp only [files, find_modify, hdir, Option.map_some, if_pos hpath]

theorem files_modify_of_ne (h : other ≠ path) (change : JobFiles → JobFiles) :
    (store.modify path change).files other = store.files other := by
  simp only [files, find_modify]
  cases hfind : store.find other with
  | none => rfl
  | some dir =>
    have hne : dir.path ≠ path := (find_eq_some hfind).2 ▸ h
    simp only [Option.map_some, if_neg hne]

/-- A job that is not there is not changed. -/
theorem modify_of_none (h : store.job path = none) (change : JobFiles → JobFiles) :
    store.modify path change = store := by
  rw [job, Option.map_eq_none_iff] at h
  apply ext_jobs
  rw [modify]
  refine (List.map_congr_left fun dir hdir => ?_).trans (List.map_id' _)
  have hne : dir.path ≠ path := by simpa using List.find?_eq_none.1 h dir hdir
  exact if_neg hne

variable {job : PullJob}

theorem find_add (h : store.find path = none) (other : String) :
    (store.add path job h).find other =
      if other = path then some { path, job, files := { record := .missing } }
      else store.find other := by
  simp only [find, add, List.find?_append, List.find?_singleton, beq_iff_eq]
  by_cases hother : other = path
  · subst hother
    change store.jobs.find? (fun dir => dir.path == other) = none at h
    rw [h]
    simp
  · rw [if_neg (Ne.symm hother), if_neg hother, Option.or_none]

theorem job_add (h : store.find path = none) (other : String) :
    (store.add path job h).job other = if other = path then some job else store.job other := by
  rw [PullStore.job, find_add]
  split <;> rfl

theorem files_add (h : store.find path = none) (other : String) :
    (store.add path job h).files other = store.files other := by
  by_cases hother : other = path
  · subst hother
    simp only [files, find_add, if_true, h]
  · simp only [files, find_add, if_neg hother]

theorem find_letGo (store : PullStore) (i : ℕ) (other : String) :
    (store.letGo i).find other = (store.find other).map fun dir =>
      if dir.files.holder = some i then { dir with files := { dir.files with holder := none } }
      else dir := by
  simp only [find, letGo, List.find?_map]
  congr 2
  funext dir
  simp only [comp_apply]
  split <;> rfl

theorem job_letGo (store : PullStore) (i : ℕ) (other : String) :
    (store.letGo i).job other = store.job other := by
  rw [job, job, find_letGo, Option.map_map]
  congr 1
  funext dir
  simp only [comp_apply]
  split <;> rfl

theorem files_letGo (store : PullStore) (i : ℕ) (other : String) :
    (store.letGo i).files other =
      if (store.files other).holder = some i then { store.files other with holder := none }
      else store.files other := by
  rcases Option.eq_none_or_eq_some (store.find other) with hfind | ⟨dir, hfind⟩
  · simp [files, find_letGo, hfind]
  · simp only [files, find_letGo, hfind, Option.map_some]
    split <;> rfl

end PullStore

namespace World

variable {w : World} {path other : String}

@[simp] theorem job_modify (w : World) (path : String) (change : JobFiles → JobFiles)
    (other : String) : (w.modify path change).job other = w.job other :=
  w.store.job_modify path change other

theorem files_modify_self (h : (w.job path).isSome) (change : JobFiles → JobFiles) :
    (w.modify path change).files path = change (w.files path) :=
  PullStore.files_modify_self h change

theorem files_modify_of_ne (h : other ≠ path) (change : JobFiles → JobFiles) :
    (w.modify path change).files other = w.files other :=
  PullStore.files_modify_of_ne h change

theorem modify_of_none (h : w.job path = none) (change : JobFiles → JobFiles) :
    w.modify path change = w := by
  rw [modify, PullStore.modify_of_none h]

end World

/-! ### The record as a state -/

namespace RecordFile

variable {record : RecordFile} {createdAtMs : ℤ}

theorem isTerminal_storedStatus :
    (record.storedStatus createdAtMs).state.isTerminal = record.ended := by
  cases record <;> rfl

theorem state_eq_unreadable :
    (record.storedStatus createdAtMs).state = .unreadable ↔ record.readable = false := by
  cases record with
  | missing => simp [storedStatus, PullStatus.queued, readable]
  | damaged modifiedMs reason => simp [storedStatus, PullStatus.unreadable, readable]
  | stored status => simp [storedStatus, readable]

theorem going_iff : record.going = true ↔ record.ended = false ∧ record.readable = true := by
  simp [going]

theorem going_storedStatus : (record.storedStatus createdAtMs).state.going = record.going := by
  have hreadable : (record.storedStatus createdAtMs).state = .unreadable ↔
      record.readable = false := state_eq_unreadable
  rw [PullState.going, isTerminal_storedStatus, going]
  congr 1
  rw [Bool.eq_iff_iff, bne_iff_ne, ne_eq, hreadable]
  simp

/-- A record that waits for its worker has not ended and can be read. -/
theorem going_of_unclaimed {now graceMs : ℤ}
    (h : (record.storedStatus createdAtMs).unclaimed now graceMs = true) :
    record.going = true := by
  rw [← going_storedStatus, (PullStatus.unclaimed_iff.1 h).1]
  rfl

end RecordFile

theorem saturatingSub_le_saturatingSub {a a' : ℤ} (h : a ≤ a') (b : ℤ) :
    saturatingSub a b ≤ saturatingSub a' b := by
  unfold saturatingSub
  omega

/-- A job nobody took up in time is not taken up later. -/
theorem PullStatus.unclaimed_later {status : PullStatus} {now later graceMs : ℤ}
    (h : status.unclaimed now graceMs = true) (hle : now ≤ later) :
    status.unclaimed later graceMs = true := by
  simp only [unclaimed, Bool.and_eq_true, decide_eq_true_eq] at h ⊢
  exact ⟨h.1, h.2.trans (saturatingSub_le_saturatingSub hle _)⟩

/-! ## The conditions on a step -/

namespace World

variable (w : World) (i : ℕ)

/-- The record of the job at `path` has waited for a worker past the grace. -/
def unclaimed (path : String) : Bool :=
  (w.store.find path).any fun dir => dir.storedStatus.unclaimed w.clock startGraceMs

/-- Another process than `i` holds the claim of the reference that the job at `path` is for. -/
def claimedByAnother (path : String) : Bool :=
  (w.job path).any fun job => (w.claims job.key).any fun claimant => claimant != i

/-- A job of the model is under way. -/
def underWay (key : ModelKey) : Bool :=
  w.store.jobs.any fun dir => dir.job.key == key && dir.takesPart w.clock

/-- A worker takes its job up before the record has ended. A record is written by the process
that holds the job, or while nobody does and before the record has ended. -/
def inTurn (input : Input) : Op → Bool
  | .claim path .hold => input.refused || (w.holder path).isSome || !(w.record path).ended
  | .write path _ =>
    w.holder path == some i || (w.holder path).isNone && !(w.record path).ended
  | _ => true

/-- No failure is written while a cancel waits. -/
def heedsCancel : Op → Bool
  | .write path status => status.state != .failed || w.control path != some .cancel
  | _ => true

/-- Process `i` holds no job whose cancel is gone and which has not ended. -/
def sparesAsked : Bool :=
  w.store.jobs.all fun dir => dir.files.holder != some i || !w.asked.contains dir.path ||
    dir.files.record.ended || dir.files.control == some .cancel

/-- A job that has waited past the grace is neither taken up nor written back as going while
another process holds the claim of its reference; a claim taken after the look is taken with
nothing under way. -/
def guardsReference (input : Input) : Op → Bool
  | .claim path _ => input.refused || (w.holder path).isSome ||
    !(w.unclaimed path && w.claimedByAnother i path)
  | .write path status =>
    status.state.isTerminal || !(w.unclaimed path && w.claimedByAnother i path)
  | .claimReference key .create =>
    input.refused || (w.claims key).isSome || !w.underWay key
  | _ => true

end World

/-- Which of the conditions are kept beside `World.inTurn`, and the jobs there were at first. -/
structure Terms where
  cancels : Bool
  references : Bool
  old : List String

namespace Terms

variable (terms : Terms)

def allows (i : ℕ) (op : Op) (input : Input) (w : World) : Bool :=
  w.inTurn i input op && (!terms.cancels || w.heedsCancel op) &&
    (!terms.references || w.guardsReference i input op)

def spares (i : ℕ) (w : World) : Bool := !terms.cancels || w.sparesAsked i

end Terms

/-! ## Rely and invariant -/

/-- The record waits for a worker that had not come by `t`. -/
def JobFiles.Waits (files : JobFiles) (job : PullJob) (t : ℤ) : Prop :=
  (files.record.storedStatus job.createdAtMs).unclaimed t startGraceMs = true

/-- A job that waits goes on waiting and is not taken up, unless it is ended. -/
def StillWaits (job : PullJob) (t : ℤ) (old new : JobFiles) : Prop :=
  old.Waits job t → new.Waits job t ∧ (old.holder = none → new.holder = none) ∨
    new.record.ended = true

/-- What the others do to the jobs of a reference whose claim they do not hold: none is added,
and one that waits goes on waiting. -/
structure Fenced (key : ModelKey) (w w' : World) : Prop where
  jobs : ∀ path job, w'.job path = some job → job.key = key → w.job path = some job
  waits : ∀ path job t, w.job path = some job → job.key = key → t ≤ w.clock →
    StillWaits job t (w.files path) (w'.files path)

/-- What the others may do between two operations of process `i`. -/
structure Rely (terms : Terms) (i : ℕ) (w w' : World) : Prop where
  own : ∀ path, w'.holder path = some i ↔ w.holder path = some i
  held : ∀ path, w.holder path = some i → w'.record path = w.record path
  frozen : ∀ path, (w.record path).going = false → w'.record path = w.record path
  readable : ∀ path, (w.record path).readable = true → (w'.record path).readable = true
  cancel : ∀ path, w.holder path = some i → (w.record path).ended = false →
    (path ∈ w.asked → w.control path = some .cancel) →
    path ∈ w'.asked → w'.control path = some .cancel
  jobs : ∀ path job, w.job path = some job → w'.job path = some job
  clock : w.clock ≤ w'.clock
  claims : ∀ key, w'.claims key = some i ↔ w.claims key = some i
  fenced : terms.references = true → ∀ key, w.claims key = some i → Fenced key w w'

/-- The record ended the way a cancel may end it. -/
def RecordFile.heeded : RecordFile → Bool
  | .stored status => status.state == .cancelled || status.state == .done
  | _ => false

/-- What became of a cancel: the job ended for it, or it has not ended and the cancel waits or
is in the hands of the process that holds the job. -/
def Heeded (files : JobFiles) : Prop :=
  files.record.heeded = true ∨
    files.record.ended = false ∧ (files.control = some .cancel ∨ files.holder.isSome = true)

structure Inv (terms : Terms) (w : World) : Prop where
  known : ∀ path ∈ w.asked, (w.job path).isSome = true
  pending : ∀ path, w.control path = some .cancel → (w.record path).ended = false →
    (w.job path).isSome = true → path ∈ w.asked
  heeded : terms.cancels = true → ∀ path ∈ w.asked, Heeded (w.files path)
  single : terms.references = true → ∀ p q job job', w.job p = some job → w.job q = some job' →
    job.key = job'.key → p ≠ q → (w.record p).going = true → (w.record q).going = true →
    p ∈ terms.old ∧ q ∈ terms.old

/-- Process `i` has taken nothing. -/
def Idle (i : ℕ) (w : World) : Prop :=
  (∀ path, w.holder path ≠ some i) ∧ ∀ key, w.claims key ≠ some i

theorem RecordFile.ended_of_heeded {record : RecordFile} (h : record.heeded = true) :
    record.ended = true := by
  cases record with
  | missing => exact absurd h (by decide)
  | damaged modifiedMs reason => cases h
  | stored status =>
    simp only [heeded, Bool.or_eq_true, beq_iff_eq] at h
    rcases h with h | h <;> simp [ended, h, PullState.isTerminal]

variable {terms : Terms} {i j : ℕ} {w w' w'' : World}

theorem StillWaits.of_eq {job : PullJob} {t : ℤ} {old new : JobFiles}
    (hrecord : new.record = old.record) (hholder : old.holder = none → new.holder = none) :
    StillWaits job t old new := by
  intro hwaits
  rw [JobFiles.Waits, ← hrecord] at hwaits
  exact .inl ⟨hwaits, hholder⟩

theorem Fenced.refl (key : ModelKey) (w : World) : Fenced key w w :=
  ⟨fun _ _ h _ => h, fun _ _ _ _ _ _ => StillWaits.of_eq rfl id⟩

theorem Rely.refl (terms : Terms) (i : ℕ) (w : World) : Rely terms i w w where
  own _ := Iff.rfl
  held _ _ := rfl
  frozen _ _ := rfl
  readable _ h := h
  cancel _ _ _ h := h
  jobs _ _ h := h
  clock := le_rfl
  claims _ := Iff.rfl
  fenced _ key _ := Fenced.refl key w

theorem Rely.trans (h : Rely terms i w w') (h' : Rely terms i w' w'') : Rely terms i w w'' where
  own path := (h'.own path).trans (h.own path)
  held path hheld := (h'.held path ((h.own path).2 hheld)).trans (h.held path hheld)
  frozen path hended := by
    have hsame := h.frozen path hended
    exact (h'.frozen path (hsame ▸ hended)).trans hsame
  readable path hreadable := h'.readable path (h.readable path hreadable)
  cancel path hheld hended hstands := by
    have hended' : (w'.record path).ended = false := (h.held path hheld).symm ▸ hended
    exact h'.cancel path ((h.own path).2 hheld) hended' (h.cancel path hheld hended hstands)
  jobs path job hjob := h'.jobs path job (h.jobs path job hjob)
  clock := h.clock.trans h'.clock
  claims key := (h'.claims key).trans (h.claims key)
  fenced hterms key hclaims := by
    have hfenced := h.fenced hterms key hclaims
    have hfenced' := h'.fenced hterms key ((h.claims key).2 hclaims)
    refine ⟨fun path job hjob hkey => ?_, fun path job t hjob hkey hle hwaits => ?_⟩
    · exact hfenced.jobs path job (hfenced'.jobs path job hjob hkey) hkey
    · have hfrozen : (w'.record path).ended = true → (w''.record path).ended = true := by
        intro hended
        rw [h'.frozen path (by simp [RecordFile.going, hended])]
        exact hended
      rcases hfenced.waits path job t hjob hkey hle hwaits with ⟨hwaits', hfree⟩ | hended
      · rcases hfenced'.waits path job t (h.jobs path job hjob) hkey (hle.trans h.clock) hwaits'
          with ⟨hwaits'', hfree'⟩ | hended
        · exact .inl ⟨hwaits'', fun hnone => hfree' (hfree hnone)⟩
        · exact .inr hended
      · exact .inr (hfrozen hended)

theorem Idle.rely (h : Idle i w) (hrely : Rely terms i w w') : Idle i w' :=
  ⟨fun path hheld => h.1 path ((hrely.own path).1 hheld),
    fun key hclaim => h.2 key ((hrely.claims key).1 hclaim)⟩

end Hedos.Install
