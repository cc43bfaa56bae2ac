import Hedos.Kernel.RegistryStore
import Hedos.Lib.Transition

/-!
# The generation of a registry view

`Registry::generation` is documented as a key for caches of what the records say, and the
facade keeps its shelf snapshot under it. The counter moves in `save` and in `refresh`. A
mutator changes the records in two more places without moving it: it reloads the store
before it decides that there is nothing to do, and it edits the records before a write
that may fail.

One `Registry` is followed here through its own calls (`mutate`, `refresh`), with other
processes free to replace the file between any two of them (`external`).
-/

namespace Hedos.Kernel

open Transition

variable {δ : Type}

/-! ## One view and its file -/

structure View (δ : Type) where
  registry : Registry δ
  file : StoreFile δ

/-- The records the view serves. -/
def View.models (v : View δ) : Models δ := v.registry.models

/-- `Registry::generation`. -/
def View.generation (v : View δ) : ℕ := v.registry.generation

/-- `Registry::open`. -/
def View.Opened (v : View δ) : Prop :=
  ∃ models level, load v.file = .ok (models, level) ∧ v.registry = ⟨models, level, 0⟩

inductive ViewAction (δ : Type)
  /-- A mutator; `locked` says that it gets the lock, `written` that a write succeeds. -/
  | mutate (op : Mutation δ) (locked written : Bool)
  | refresh
  /-- Another process leaves this file behind. -/
  | external (file : StoreFile δ)

variable [DecidableEq δ]

/-- A whole mutator call. -/
def View.mutate (v : View δ) (op : Mutation δ) (locked written : Bool) : View δ :=
  if locked then
    match v.registry.read op v.file with
    | .error _ => { v with file := v.file.afterRead }
    | .ok r =>
      -- the view that was read stays in memory, also on an early return and a failed write
      match r.apply op with
      | (r', .none) => { v with registry := r' }
      | (r', commit) =>
        if written then ⟨r'.committed commit, r'.write⟩ else { v with registry := r' }
  else v

def View.refresh (v : View δ) : View δ :=
  match v.registry.refresh v.file with
  | .error _ => { v with file := v.file.afterRead }
  | .ok (r, _) => { v with registry := r }

def View.step (v : View δ) : ViewAction δ → Option (View δ)
  | .mutate op locked written => some (v.mutate op locked written)
  | .refresh => some v.refresh
  | .external file => some { v with file := file }

/-! ## When a mutator has nothing to do -/

omit [DecidableEq δ] in
/-- The mutation finds the store as it would leave it. `mark_migrated` never changes
records. -/
def Mutation.Redundant (op : Mutation δ) (models : Models δ) : Prop :=
  match op with
  | .register record => models[record.id]? = some record
  | .registerAll records => ∀ record ∈ records, models[record.id]? = some record
  | .unregister id => models[id]? = none
  | .setStateIfPresent id state => ∀ record, models[id]? = some record → record.state = state
  | .update ids transform =>
    ∀ id ∈ ids, ∀ next, (models[id]?).bind transform = some next → models[id]? = some next
  | .markMigrated _ _ => True

theorem foldl_registerOne_eq_zero_iff (records : List (ModelRecord δ)) (models : Models δ) :
    (records.foldl registerOne (models, 0)).2 = 0 ↔
      ∀ record ∈ records, models[record.id]? = some record := by
  induction records with
  | nil => simp
  | cons r records ih =>
    rw [List.foldl_cons, List.forall_mem_cons, registerOne]
    by_cases hr : models[r.id]? = some r
    · rw [if_neg (not_not.2 hr), ih]
      exact (and_iff_right hr).symm
    · rw [if_pos hr]
      have hle := (foldl_registerOne_count records (models.insert r.id r, 0 + 1)).1
      constructor
      · intro hzero
        simp only at hzero hle
        omega
      · exact fun h => absurd h.1 hr

theorem foldl_updateOne_eq_nil_iff (transform : ModelRecord δ → Option (ModelRecord δ))
    (ids : List String) (models : Models δ) :
    (ids.foldl (updateOne transform) (models, [])).2 = [] ↔
      ∀ id ∈ ids, ∀ next, (models[id]?).bind transform = some next → models[id]? = some next := by
  induction ids with
  | nil => simp
  | cons id ids ih =>
    rw [List.foldl_cons, List.forall_mem_cons, updateOne]
    cases hnext : (models[id]?).bind transform with
    | none =>
      simp only [reduceCtorEq, false_implies, implies_true, true_and]
      exact ih
    | some next =>
      simp only
      by_cases hsame : models[id]? = some next
      · rw [if_pos hsame, ih]
        refine (and_iff_right fun found hfound => ?_).symm
        rw [hsame, Option.some.inj hfound]
      · -- one change is on the list already, and later rounds only add to it
        rw [if_neg hsame]
        have hle := (foldl_updateOne_changed transform ids
          ((if next.id ≠ id then models.erase id else models).insert next.id next, [] ++ [next])).1
        constructor
        · intro hnil
          rw [hnil] at hle
          simp at hle
        · exact fun h => absurd (h.1 next rfl) hsame

/-- A mutator calls `save` exactly when its mutation is not redundant. -/
theorem Registry.apply_save_iff (r : Registry δ) (op : Mutation δ) :
    (r.apply op).2 = .save ↔ ¬ op.Redundant r.models := by
  cases op with
  | register record =>
    simp only [Registry.apply, register, Mutation.Redundant]
    split <;> simp_all
  | registerAll records =>
    simp only [Registry.apply, registerAll, Mutation.Redundant]
    rw [← foldl_registerOne_eq_zero_iff]
    split
    · simp only [true_iff]
      omega
    · simp only [reduceCtorEq, false_iff, not_not]
      omega
  | unregister id =>
    simp only [Registry.apply, unregister, Mutation.Redundant]
    cases hr : r.models[id]? <;> simp
  | setStateIfPresent id state =>
    simp only [Registry.apply, setStateIfPresent, Mutation.Redundant]
    cases hr : r.models[id]? with
    | none => simp
    | some record =>
      simp only
      split <;> simp_all
  | update ids transform =>
    simp only [Registry.apply, update, Mutation.Redundant]
    rw [← foldl_updateOne_eq_nil_iff]
    split <;> simp_all
  | markMigrated level migrated =>
    simp only [Registry.apply, Mutation.Redundant]
    split
    · simp
    · split <;> simp

/-! ## When the generation tells -/

/-- What a step has to meet so that an unmoved generation means unmoved records. A mutator
that gets the lock and reads the store (`mark_migrated` apart, which refreshes) either has
nothing to change and finds in the store the records it already serves, or has something
to change and writes it; a write that fails must have been about the records it already
serves. -/
def View.Tells (v : View δ) : ViewAction δ → Prop
  | .mutate (.markMigrated _ _) _ _ => True
  | .mutate op locked written => locked = true → ∀ stored level, load v.file = .ok (stored, level) →
      (op.Redundant stored → stored = v.models) ∧
      (¬ op.Redundant stored → written = false → op.spec stored = v.models)
  | .refresh => True
  | .external _ => True

section Steps

variable {v t : View δ}

/-- A refresh moves the generation exactly when it moves the records. -/
theorem View.refresh_generation (v : View δ) :
    v.generation ≤ v.refresh.generation ∧
      (v.generation = v.refresh.generation → v.models = v.refresh.models) := by
  unfold View.refresh Registry.refresh
  cases hload : load v.file with
  | error e => exact ⟨le_refl _, fun _ => rfl⟩
  | ok stored =>
    obtain ⟨models, level⟩ := stored
    simp only
    by_cases hsame : models = v.registry.models
    · rw [if_pos hsame]
      exact ⟨le_refl _, fun _ => rfl⟩
    · rw [if_neg hsame]
      refine ⟨Nat.le_succ _, fun hgen => ?_⟩
      simp only [View.generation] at hgen
      omega

/-- `mark_migrated` moves the generation exactly when its refresh moves the records. -/
theorem View.markMigrated_generation (v : View δ) (level : ℕ) (migrated : Models δ)
    (locked written : Bool) :
    v.generation ≤ (v.mutate (.markMigrated level migrated) locked written).generation ∧
      (v.generation = (v.mutate (.markMigrated level migrated) locked written).generation →
        v.models = (v.mutate (.markMigrated level migrated) locked written).models) := by
  unfold View.mutate
  split
  · have hrefresh := v.refresh_generation
    simp only [View.refresh, Registry.read] at hrefresh ⊢
    cases hread : v.registry.refresh v.file with
    | error e =>
      simp only [hread, Except.map] at hrefresh ⊢
      exact hrefresh
    | ok result =>
      obtain ⟨r, changed⟩ := result
      simp only [hread, Except.map] at hrefresh ⊢
      have hmodels := r.apply_models_of_not_save (.markMigrated level migrated)
        (by rw [Ne, r.apply_save_iff]; exact not_not.2 trivial)
      have hgen := r.apply_generation (.markMigrated level migrated)
      have hnotsave : (r.apply (.markMigrated level migrated)).2 ≠ .save := by
        rw [Ne, r.apply_save_iff]
        exact not_not.2 trivial
      rcases happly : r.apply (.markMigrated level migrated) with ⟨r', commit⟩
      rw [happly] at hmodels hgen hnotsave
      simp only [View.generation, View.models] at hrefresh hmodels hgen hnotsave ⊢
      cases commit with
      | none =>
        simp only
        rw [hgen, hmodels]
        exact hrefresh
      | save => exact absurd rfl hnotsave
      | write =>
        cases written <;>
        · simp only [Registry.committed, if_true, Bool.false_eq_true, if_false]
          rw [hgen, hmodels]
          exact hrefresh
  · exact ⟨le_refl _, fun _ => rfl⟩

variable {op : Mutation δ}

/-- What a mutator that reloads leaves behind: the mutation of the stored records, and a
generation that has moved exactly if something was to be written and was. -/
theorem View.mutate_of_reload {stored : Models δ} {level : ℕ} (written : Bool)
    (hread : v.registry.read op v.file = v.registry.reload v.file)
    (hload : load v.file = .ok (stored, level)) :
    (v.mutate op true written).models = op.spec stored ∧
      (v.generation = (v.mutate op true written).generation ↔
        (op.Redundant stored ∨ written = false)) ∧
      v.generation ≤ (v.mutate op true written).generation := by
  simp only [View.mutate, hread, Registry.reload, hload, if_true]
  have hmodels := Registry.apply_models
    { v.registry with models := stored, migrationLevel := level } op (load_sound hload).1
  have hgen := Registry.apply_generation
    { v.registry with models := stored, migrationLevel := level } op
  have hsave := Registry.apply_save_iff
    { v.registry with models := stored, migrationLevel := level } op
  rcases happly : Registry.apply
    { v.registry with models := stored, migrationLevel := level } op with ⟨r', commit⟩
  rw [happly] at hmodels hgen hsave
  simp only [View.generation, View.models] at hmodels hgen hsave ⊢
  cases commit with
  | none =>
    simp only [reduceCtorEq, false_iff, not_not] at hsave
    simp only [hmodels, hgen, hsave, true_or, and_self, le_refl]
  | save =>
    simp only [true_iff] at hsave
    cases written
    · simp only [Bool.false_eq_true, if_false, hmodels, hgen, or_true, and_self, le_refl]
    · simp only [if_true, Registry.committed, hmodels, hgen, hsave, Bool.true_eq_false,
        or_self, iff_false, true_and]
      omega
  | write =>
    simp only [reduceCtorEq, false_iff, not_not] at hsave
    cases written <;>
    · simp only [Bool.false_eq_true, if_false, if_true, Registry.committed, hmodels, hgen, hsave,
        true_or, and_self, le_refl]

/-- A redundant mutation means no change. -/
theorem Mutation.Redundant.spec {models : Models δ} (h : op.Redundant models)
    (hkeyed : KeyedById models) : op.spec models = models := by
  have hsame := Registry.apply_models_of_not_save ⟨models, 0, 0⟩ op
    (by rw [Ne, Registry.apply_save_iff]; exact not_not.2 h)
  rw [Registry.apply_models _ op hkeyed] at hsame
  exact hsame

/-- A mutator that cannot read the store leaves the view alone. -/
theorem View.mutate_of_error (locked written : Bool) {e : RegistryError}
    (hread : v.registry.read op v.file = v.registry.reload v.file)
    (hload : load v.file = .error e) :
    (v.mutate op locked written).registry = v.registry := by
  unfold View.mutate
  split
  · simp only [hread, Registry.reload, hload]
  · rfl

/-- A mutator that reloads keeps records and generation in step exactly when `Tells` says. -/
theorem View.reload_exact (locked written : Bool)
    (hread : v.registry.read op v.file = v.registry.reload v.file) :
    v.generation ≤ (v.mutate op locked written).generation ∧
      ((v.generation = (v.mutate op locked written).generation →
        v.models = (v.mutate op locked written).models) ↔
      (locked = true → ∀ stored level, load v.file = .ok (stored, level) →
        (op.Redundant stored → stored = v.models) ∧
        (¬ op.Redundant stored → written = false → op.spec stored = v.models))) := by
  cases hlocked : locked with
  | false => simp [View.mutate]
  | true =>
    cases hload : load v.file with
    | error e =>
      have hreg := View.mutate_of_error true written hread hload
      simp [View.generation, View.models, hreg]
    | ok result =>
      obtain ⟨stored, level⟩ := result
      obtain ⟨hmodels, hgen, hle⟩ := View.mutate_of_reload written hread hload
      refine ⟨hle, ?_⟩
      rw [hgen, hmodels]
      have hkeyed := (load_sound hload).1
      constructor
      · rintro h - stored' level' heq
        obtain ⟨rfl, rfl⟩ := Prod.mk.inj (Except.ok.inj heq)
        refine ⟨fun hred => ?_, fun _ hfail => (h (.inr hfail)).symm⟩
        rw [h (.inl hred), hred.spec hkeyed]
      · intro h hcase
        obtain ⟨hred, hfail⟩ := h rfl stored level rfl
        by_cases hr : op.Redundant stored
        · rw [hr.spec hkeyed, hred hr]
        · exact (hfail hr (hcase.resolve_left hr)).symm

/-- The generation never goes down, and it tells of every change of the records exactly
when the step meets `Tells`. -/
theorem View.step_exact {a : ViewAction δ} (hstep : v.step a = some t) :
    v.generation ≤ t.generation ∧
      ((v.generation = t.generation → v.models = t.models) ↔ v.Tells a) := by
  cases a with
  | mutate op locked written =>
    cases hstep
    cases op with
    | markMigrated level migrated =>
      obtain ⟨hle, himp⟩ := v.markMigrated_generation level migrated locked written
      exact ⟨hle, fun _ => trivial, fun _ => himp⟩
    | _ => exact View.reload_exact locked written rfl
  | refresh =>
    cases hstep
    exact ⟨v.refresh_generation.1, fun _ => trivial, fun _ => v.refresh_generation.2⟩
  | external file =>
    cases hstep
    exact ⟨le_refl _, fun _ => trivial, fun _ _ => rfl⟩

end Steps

/-- In a run of one view, equal generations mean equal records at every two moments exactly
when every mutator that does not end in a successful save finds, or computes, the records
it already serves. -/
theorem generation_coherent_iff (v : View δ) (as : List (ViewAction δ)) :
    Coherent View.generation View.models (visited View.step v as) ↔
      StepsMeet View.step View.Tells v as :=
  coherent_iff_stepsMeet (fun _ _ _ hstep => (View.step_exact hstep).1)
    (fun _ _ _ hstep => (View.step_exact hstep).2) v as

/-! ## A no-op that changes what is served -/

/-- The store of another process, with `a` and `b`. -/
def storeOfTwo : StoreFile Unit := .envelope 1 0 [bareRecord "a", bareRecord "b"]

/-- A view of a store that holds `a` alone. -/
def viewOfOne : View Unit :=
  ⟨⟨byId [bareRecord "a"], 0, 0⟩, .envelope 1 0 [bareRecord "a"]⟩

/-- Another process adds `b`, and the view registers `a` again, which touches no disk. -/
def registerAgain : List (ViewAction Unit) :=
  [.external storeOfTwo, .mutate (.register (bareRecord "a")) true true]

/-- The view serves `b` from then on, under the generation it had without `b`. -/
theorem generation_not_coherent :
    ¬ ∀ (v : View Unit) (as : List (ViewAction Unit)), v.Opened →
      Coherent View.generation View.models (visited View.step v as) := by
  intro hall
  have hopened : viewOfOne.Opened := ⟨byId [bareRecord "a"], 0, rfl, rfl⟩
  have hlast : ∃ w ∈ visited View.step viewOfOne registerAgain,
      viewOfOne.generation = w.generation ∧ w.models["b"]? = some (bareRecord "b") :=
    ⟨_, .tail _ (.tail _ (.head _)), rfl, by decide⟩
  obtain ⟨w, hmem, hgen, hb⟩ := hlast
  have hsame := hall viewOfOne registerAgain hopened viewOfOne (mem_visited_self _ _ _) w hmem hgen
  rw [← hsame] at hb
  revert hb
  decide

end Hedos.Kernel
