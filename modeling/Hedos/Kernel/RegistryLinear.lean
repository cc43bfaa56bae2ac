import Hedos.Kernel.RegistryStore
import Hedos.Lib.Transition

/-!
# Registry instances on one directory

Any number of `Registry` instances, in any number of processes, share one `models.json`
and its lock file. A mutator call goes through `waiting` for the lock, `locked`, `applied`
(the store read again and the change made in memory, the write still to come) and
`settled` (nothing left but to drop the lock); between any two of these, other instances
move. What is assumed of the file system is what the steps say: the lock is held by one
process, a write replaces the file as a whole or fails and leaves it alone. The memory an
instance starts with is arbitrary, so it may be as stale as it likes.

`order` lists the mutations in the order in which they took the lock, less those that
reported an error.
-/

namespace Hedos.Kernel

open Transition

variable {δ : Type}

/-! ## The processes -/

inductive Phase (δ : Type)
  | idle
  | waiting (op : Mutation δ)
  | locked (op : Mutation δ)
  | applied (op : Mutation δ) (commit : Commit)
  | settled

/-- The phases in which an instance holds the file lock. -/
def Phase.holding : Phase δ → Prop
  | .idle | .waiting _ => False
  | .locked _ | .applied _ _ | .settled => True

structure Process (δ : Type) where
  registry : Registry δ
  phase : Phase δ

structure World (δ : Type) where
  file : StoreFile δ
  lock : Option ℕ
  processes : ℕ → Process δ
  order : List (Mutation δ)

/-- Processes that have not begun, on a given store file. -/
def World.Fresh (file : StoreFile δ) (w : World δ) : Prop :=
  w.file = file ∧ w.lock = none ∧ (∀ i, (w.processes i).phase = .idle) ∧ w.order = []

inductive WorldAction (δ : Type)
  /-- A mutator is called. -/
  | call (i : ℕ) (op : Mutation δ)
  /-- The file lock is granted. -/
  | lock (i : ℕ)
  /-- The lock file cannot be opened or locked. -/
  | lockFails (i : ℕ)
  /-- The store is read again and the change is made in memory. -/
  | read (i : ℕ)
  /-- The store is written, or the write fails. -/
  | write (i : ℕ) (ok : Bool)
  /-- The mutator returns and drops the lock. -/
  | unlock (i : ℕ)
  /-- `refresh`, which takes no lock. -/
  | refresh (i : ℕ)

def World.set (w : World δ) (i : ℕ) (p : Process δ) : World δ :=
  { w with processes := Function.update w.processes i p }

variable [DecidableEq δ]

/-- The read of a mutator that holds the lock: an error returns it, with the lock. -/
def World.readUnderLock (w : World δ) (i : ℕ) (op : Mutation δ) : World δ :=
  match (w.processes i).registry.read op w.file with
  | .error _ =>
    { w.set i ⟨(w.processes i).registry, .settled⟩ with
      file := w.file.afterRead
      order := w.order.dropLast }
  | .ok r =>
    match r.apply op with
    | (r', .none) => w.set i ⟨r', .settled⟩
    | (r', commit) => w.set i ⟨r', .applied op commit⟩

/-- One step of one process. -/
def World.step (w : World δ) : WorldAction δ → Option (World δ)
  | .call i op =>
    match (w.processes i).phase with
    | .idle => some (w.set i ⟨(w.processes i).registry, .waiting op⟩)
    | _ => none
  | .lock i =>
    match (w.processes i).phase, w.lock with
    | .waiting op, none =>
      some { w.set i ⟨(w.processes i).registry, .locked op⟩ with
        lock := some i
        order := w.order ++ [op] }
    | _, _ => none
  | .lockFails i =>
    match (w.processes i).phase with
    | .waiting _ => some (w.set i ⟨(w.processes i).registry, .idle⟩)
    | _ => none
  | .read i =>
    match (w.processes i).phase with
    | .locked op => some (w.readUnderLock i op)
    | _ => none
  | .write i ok =>
    match (w.processes i).phase with
    | .applied _ commit =>
      if ok then
        some { w.set i ⟨(w.processes i).registry.committed commit, .settled⟩ with
          file := (w.processes i).registry.write }
      else
        some { w.set i ⟨(w.processes i).registry, .settled⟩ with order := w.order.dropLast }
    | _ => none
  | .unlock i =>
    match (w.processes i).phase with
    | .settled => some { w.set i ⟨(w.processes i).registry, .idle⟩ with lock := none }
    | _ => none
  | .refresh i =>
    match (w.processes i).phase, (w.processes i).registry.refresh w.file with
    | .idle, .ok (r, _) => some (w.set i ⟨r, .idle⟩)
    | .idle, .error _ => some { w with file := w.file.afterRead }
    | _, _ => none

/-! ## The sequential meaning -/

omit [DecidableEq δ] in
/-- Run a mutation alone on a stored map: change it, write it, read it back. -/
def Mutation.run (op : Mutation δ) (models : Models δ) : Models δ := persisted (op.spec models)

omit [DecidableEq δ] in
/-- Run mutations one after another. -/
def runAll (ops : List (Mutation δ)) (models : Models δ) : Models δ :=
  ops.foldl (fun m op => op.run m) models

omit [DecidableEq δ] in
theorem runAll_append (ops : List (Mutation δ)) (op : Mutation δ) (models : Models δ) :
    runAll (ops ++ [op]) models = op.run (runAll ops models) := by
  simp [runAll]

omit [DecidableEq δ] in
/-- The store file holds what the mutations `ops` make of `models`. -/
def Holds (models : Models δ) (ops : List (Mutation δ)) (file : StoreFile δ) : Prop :=
  ∃ level, load file = .ok (runAll ops models, level)

variable {models : Models δ} {file : StoreFile δ}

omit [DecidableEq δ] in
theorem Holds.afterRead {ops : List (Mutation δ)}
    (h : Holds models ops file) : file.afterRead = file := by
  obtain ⟨level, h⟩ := h
  cases file with
  | corrupt => simp [load] at h
  | missing => rfl
  | unreadable => rfl
  | envelope schema l records => rfl

/-- What a mutator reads under the lock is the stored map. -/
theorem Registry.read_ok (r : Registry δ) (op : Mutation δ) {level : ℕ}
    (h : load file = .ok (models, level)) :
    ∃ r', r.read op file = .ok r' ∧ r'.models = models := by
  cases op with
  | markMigrated l migrated =>
    simp only [Registry.read, Registry.refresh, h]
    by_cases hsame : models = r.models
    · rw [if_pos hsame]
      exact ⟨_, rfl, hsame.symm⟩
    · rw [if_neg hsame]
      exact ⟨_, rfl, rfl⟩
  | _ =>
    simp only [Registry.read, Registry.reload, h]
    exact ⟨_, rfl, rfl⟩

/-! ## The invariant -/

omit [DecidableEq δ] in
/-- How far the lock holder has come, in terms of the file it works on. -/
def Progress (models : Models δ) (order : List (Mutation δ)) (file : StoreFile δ)
    (p : Process δ) : Prop :=
  match p.phase with
  | .idle | .waiting _ => False
  | .locked op => ∃ done, order = done ++ [op] ∧ Holds models done file
  | .applied op _ => ∃ done, order = done ++ [op] ∧ Holds models done file ∧
      p.registry.models = op.spec (runAll done models)
  | .settled => Holds models order file

omit [DecidableEq δ] in
/-- The file holds every finished mutation, and only the lock holder is at work on it. -/
structure Consistent (models : Models δ) (w : World δ) : Prop where
  exclusive : ∀ i, (w.processes i).phase.holding → w.lock = some i
  free : w.lock = none → Holds models w.order w.file
  held : ∀ i, w.lock = some i → Progress models w.order w.file (w.processes i)

section Invariant

variable {models : Models δ} {w t : World δ}

variable {file : StoreFile δ} {p : Process δ} {i : ℕ}

variable {order done : List (Mutation δ)} {r : Registry δ} {op : Mutation δ}

omit [DecidableEq δ] in
theorem Progress.holds (h : Progress models order file p) : ∃ ops, Holds models ops file := by
  unfold Progress at h
  split at h
  · exact h.elim
  · exact h.elim
  · obtain ⟨done, -, hdone⟩ := h
    exact ⟨done, hdone⟩
  · obtain ⟨done, -, hdone, -⟩ := h
    exact ⟨done, hdone⟩
  · exact ⟨order, h⟩

omit [DecidableEq δ] in
/-- The file can be read in every state. -/
theorem Consistent.holds (h : Consistent models w) : ∃ ops, Holds models ops w.file := by
  cases hlock : w.lock with
  | none => exact ⟨w.order, h.free hlock⟩
  | some i => exact (h.held i hlock).holds

omit [DecidableEq δ] in
/-- What a process without the lock does to itself is nobody's concern. -/
theorem Consistent.set (h : Consistent models w)
    (hold : ¬ (w.processes i).phase.holding) (hnew : ¬ p.phase.holding) :
    Consistent models (w.set i p) := by
  -- the lock holder has made progress, so it is another process
  have hne : ∀ j, w.lock = some j → j ≠ i := by
    intro j hlock hji
    have hprog := h.held j hlock
    rw [hji] at hprog
    unfold Progress at hprog
    split at hprog <;> simp_all [Phase.holding]
  refine ⟨fun j hj => ?_, h.free, fun j hlock => ?_⟩
  · by_cases hji : j = i
    · subst hji
      simp only [World.set, Function.update_self] at hj
      exact absurd hj hnew
    · simp only [World.set, Function.update_of_ne hji] at hj
      exact h.exclusive j hj
  · have hprog := h.held j hlock
    simpa only [World.set, Function.update_of_ne (hne j hlock)] using hprog

omit [DecidableEq δ] in
/-- While `i` keeps the lock, its progress is all there is to show. -/
theorem Consistent.holder {f : StoreFile δ} (h : Consistent models w)
    (hlock : w.lock = some i) (hprog : Progress models order f p) :
    Consistent models { w.set i p with file := f, order := order } := by
  refine ⟨fun j hj => ?_, fun hnone => ?_, fun j hj => ?_⟩
  · by_cases hji : j = i
    · subst hji
      exact hlock
    · simp only [World.set, Function.update_of_ne hji] at hj
      exact h.exclusive j hj
  · simp only [World.set] at hnone
    rw [hlock] at hnone
    simp at hnone
  · obtain rfl : i = j := by
      simp only [World.set] at hj
      rw [hlock] at hj
      exact Option.some.inj hj
    simpa only [World.set, Function.update_self] using hprog

/-- A mutation that reports no change has nothing to write: the file already holds it. -/
theorem runAll_of_commit_none (op : Mutation δ) (hdone : Holds models done file)
    (hr : r.models = runAll done models) (hnone : (r.apply op).2 = .none) :
    Holds models (done ++ [op]) file := by
  obtain ⟨level, hload⟩ := hdone
  obtain ⟨hkeyed, hadopted⟩ := load_sound hload
  have hspec : op.spec (runAll done models) = runAll done models := by
    have hsame := r.apply_models_of_not_save op (by rw [hnone]; decide)
    rw [r.apply_models op (hr ▸ hkeyed), hr] at hsame
    exact hsame
  refine ⟨level, ?_⟩
  rw [runAll_append, Mutation.run, hspec, persisted_of_adopted hadopted]
  exact hload

theorem Consistent.readUnderLock (h : Consistent models w)
    (hphase : (w.processes i).phase = .locked op) :
    Consistent models (w.readUnderLock i op) := by
  have hlock : w.lock = some i := h.exclusive i (by rw [hphase]; trivial)
  have hprog := h.held i hlock
  simp only [Progress, hphase] at hprog
  obtain ⟨done, horder, hdone⟩ := hprog
  obtain ⟨level, hload⟩ := hdone
  obtain ⟨r, hread, hr⟩ := (w.processes i).registry.read_ok op hload
  have hmodels : (r.apply op).1.models = op.spec (runAll done models) := by
    rw [r.apply_models op (hr ▸ (load_sound hload).1), hr]
  unfold World.readUnderLock
  simp only [hread]
  split
  · -- nothing to change: the file already holds the mutation
    rename_i r' happly
    have hsettled := runAll_of_commit_none op (r := r) ⟨level, hload⟩ hr (by rw [happly])
    exact h.holder hlock (p := ⟨r', .settled⟩) (horder ▸ hsettled)
  · rename_i r' commit _ happly
    rw [happly] at hmodels
    exact h.holder hlock (p := ⟨r', .applied op commit⟩) ⟨done, horder, ⟨level, hload⟩, hmodels⟩

omit [DecidableEq δ] in
/-- A successful write commits the last mutation of the lock order. -/
theorem Holds.write
    (hdone : Holds models done file) (hr : r.models = op.spec (runAll done models)) :
    Holds models (done ++ [op]) r.write := by
  obtain ⟨level, hload⟩ := hdone
  refine ⟨r.migrationLevel, ?_⟩
  rw [load_write (hr ▸ (load_sound hload).1.spec op), runAll_append, Mutation.run, hr]

/-- Every step of every process keeps the invariant. -/
theorem Consistent.step {a : WorldAction δ} (h : Consistent models w)
    (hstep : w.step a = some t) : Consistent models t := by
  cases a with
  | call i op =>
    simp only [World.step] at hstep
    split at hstep
    · rename_i hphase
      cases hstep
      exact h.set (by rw [hphase]; exact id) id
    · simp at hstep
  | lock i =>
    -- the lock was free, so the file holds all of the order before this mutation
    simp only [World.step] at hstep
    split at hstep
    · rename_i op hphase hlock
      cases hstep
      refine ⟨fun j hj => ?_, fun hnone => ?_, fun j hj => ?_⟩
      · by_cases hji : j = i
        · rw [hji]
        · simp only [World.set, Function.update_of_ne hji] at hj
          rw [h.exclusive j hj] at hlock
          simp at hlock
      · simp at hnone
      · obtain rfl : i = j := Option.some.inj hj
        simp only [World.set, Function.update_self, Progress]
        exact ⟨w.order, rfl, h.free hlock⟩
    · simp at hstep
  | lockFails i =>
    simp only [World.step] at hstep
    split at hstep
    · rename_i op hphase
      cases hstep
      exact h.set (by rw [hphase]; exact id) id
    · simp at hstep
  | read i =>
    simp only [World.step] at hstep
    split at hstep
    · rename_i op hphase
      cases hstep
      exact h.readUnderLock hphase
    · simp at hstep
  | write i ok =>
    simp only [World.step] at hstep
    split at hstep
    · rename_i op commit hphase
      have hlock : w.lock = some i := h.exclusive i (by rw [hphase]; trivial)
      have hprog := h.held i hlock
      simp only [Progress, hphase] at hprog
      obtain ⟨done, horder, hdone, hr⟩ := hprog
      split at hstep
      · cases hstep
        exact h.holder hlock (p := ⟨_, .settled⟩) (horder ▸ hdone.write hr)
      · -- the write failed: the mutation reports an error and leaves the order
        cases hstep
        refine h.holder hlock (p := ⟨_, .settled⟩) (f := w.file) ?_
        rw [horder, List.dropLast_concat]
        exact hdone
    · simp at hstep
  | unlock i =>
    simp only [World.step] at hstep
    split at hstep
    · rename_i hphase
      cases hstep
      have hlock : w.lock = some i := h.exclusive i (by rw [hphase]; trivial)
      have hprog := h.held i hlock
      simp only [Progress, hphase] at hprog
      refine ⟨fun j hj => ?_, fun _ => hprog, fun j hj => by simp at hj⟩
      by_cases hji : j = i
      · subst hji
        simp only [World.set, Function.update_self] at hj
        exact hj.elim
      · simp only [World.set, Function.update_of_ne hji] at hj
        rw [h.exclusive j hj] at hlock
        exact absurd (Option.some.inj hlock) hji
    · simp at hstep
  | refresh i =>
    -- takes no lock and may run while another process holds it; the file is whole all the same
    simp only [World.step] at hstep
    obtain ⟨ops, hops⟩ := h.holds
    split at hstep
    · rename_i hphase _
      cases hstep
      exact h.set (by rw [hphase]; exact id) id
    · rw [← Option.some.inj hstep, hops.afterRead]
      exact h
    · simp at hstep

end Invariant

/-- Every reachable directory holds a map keyed by the ids of its records, and whenever no
mutator is at work, that map is what the mutations make of the first one when they are run
one after another in the order in which they took the lock. -/
theorem registry_linearizable {file : StoreFile δ} {models : Models δ} {level : ℕ} {w : World δ}
    (hload : load file = .ok (models, level)) (hw : Reachable World.step (World.Fresh file) w) :
    ∃ (stored : Models δ) (l : ℕ), load w.file = .ok (stored, l) ∧ KeyedById stored ∧
      (w.lock = none → stored = runAll w.order models) := by
  have hinv : Consistent models w := by
    refine hw.invariant (fun s hs => ?_) (fun s a t hs hstep => hs.step hstep)
    obtain ⟨hfile, hlock, hidle, horder⟩ := hs
    refine ⟨fun i hi => ?_, fun _ => ?_, fun i hi => ?_⟩
    · rw [hidle i] at hi
      exact hi.elim
    · rw [horder, hfile]
      exact ⟨level, hload⟩
    · rw [hlock] at hi
      simp at hi
  obtain ⟨ops, l, hstored⟩ := hinv.holds
  refine ⟨_, l, hstored, (load_sound hstored).1, fun hlock => ?_⟩
  obtain ⟨l', hfree⟩ := hinv.free hlock
  rw [hstored] at hfree
  exact (Prod.mk.inj (Except.ok.inj hfree)).1

/-! ## Two instances, the second with a stale view -/

/-- No store file yet, and instances that have loaded it. -/
def emptyWorld : World Unit := ⟨.missing, none, fun _ => ⟨⟨∅, 0, 0⟩, .idle⟩, []⟩

/-- Instance 0 registers `a` while instance 1 waits to move `a` to the id `b`. -/
def renameBehindRegister : List (WorldAction Unit) :=
  [.call 0 (.register (bareRecord "a")),
    .call 1 (.update ["a"] fun record => some { record with id := "b" }),
    .lock 0, .read 0, .write 0 true, .unlock 0,
    .lock 1, .read 1, .write 1 true, .unlock 1]

/-- The stale instance loses nothing: the store ends with the moved record alone. -/
theorem registry_linearizable_rename :
    ∃ (w : World Unit) (stored : Models Unit) (l : ℕ), w.lock = none ∧
      load w.file = .ok (stored, l) ∧ KeyedById stored ∧ stored = runAll w.order ∅ ∧
      stored.toList = [("b", bareRecord "b")] := by
  have hrun : (run World.step emptyWorld renameBehindRegister).map
      (fun w => (w.lock, (runAll w.order ∅).toList)) = some (none, [("b", bareRecord "b")]) := by
    decide
  obtain ⟨w, hw, hend⟩ := Option.map_eq_some_iff.1 hrun
  obtain ⟨hlock, horder⟩ := Prod.mk.inj hend
  have hreach : Reachable World.step (World.Fresh .missing) w :=
    Reachable.run (.init ⟨rfl, rfl, fun _ => rfl, rfl⟩) hw
  have hload : load (δ := Unit) .missing = .ok (∅, 0) := rfl
  obtain ⟨stored, l, hstored, hkeyed, heq⟩ := registry_linearizable hload hreach
  have hrunAll := heq hlock
  exact ⟨w, stored, l, hlock, hstored, hkeyed, hrunAll, hrunAll ▸ horder⟩

end Hedos.Kernel
