import Hedos.Auction.Stranded

/-!
# The migrations of a shelf

`migrate` of `runtime/src/facade/mod.rs`, run once for each level when a process first reads its
shelf: an attempt reads the level and the records of its view, makes a pass over them, and marks the
level over the store the pass has read. Between any two of its sections another process may leave
any file behind (`external`).

A state lists the marks the process has made, each with what it was made over.
-/

namespace Hedos.Auction

open Hedos.Kernel Hedos.Discovery Transition

variable {ν : Type}

/-! ## The state of a migration -/

/-- The levels, each with the pass that brings a store there. -/
def migrations : List (ℕ × StrandedPass ν) :=
  [(1, resolveStrandedEmbedders), (2, resolveStrandedJudges), (3, resolveStrandedAudio)]

def migrationAttempts : ℕ := 3

/-- Where an attempt is: about to start, planned and about to write, or about to mark. -/
inductive MigrationPhase (ν : Type)
  | idle
  | planned (reached : ℕ) (read : Models (ServedDetails ν)) (outside : Outside ν)
      (companions : CompanionsHeld) (plans : Plans ν) (unread : ℕ)
  | passed (reached : ℕ) (read : Models (ServedDetails ν)) (changed : List (ServedRecord ν))

/-- A level recorded: what the store held when it was, the records the attempt had read, and those
its pass had changed. -/
structure Mark (ν : Type) where
  level : ℕ
  storedLevel : ℕ
  store : Models (ServedDetails ν)
  read : Models (ServedDetails ν)
  changed : List (ServedRecord ν)

structure Migration (ν : Type) where
  view : View (ServedDetails ν)
  /-- The levels still to come, the current one first. -/
  todo : List (ℕ × StrandedPass ν)
  attempts : ℕ
  phase : MigrationPhase ν
  marks : List (Mark ν)

inductive MigrationAct (ν : Type)
  /-- An attempt reads its view and plans. -/
  | plan (outside : Outside ν)
  /-- The pass writes; `locked` says that it gets the lock, `written` that a write succeeds. -/
  | update (locked written : Bool)
  | mark (locked written : Bool)
  /-- Another process leaves this file behind. -/
  | external (file : StoreFile (ServedDetails ν))

/-- The records the attempt read, with those its pass changed. -/
def migrated (read : Models (ServedDetails ν)) (changed : List (ServedRecord ν)) :
    Models (ServedDetails ν) :=
  changed.foldl (fun models record => models.insert record.id record) read

namespace Migration

/-- A process about to run its migrations. -/
def begin (view : View (ServedDetails ν)) : Migration ν where
  view := view
  todo := migrations
  attempts := migrationAttempts
  phase := .idle
  marks := []

/-- `migrate` returns, and the next one starts. -/
def returns (s : Migration ν) : Migration ν :=
  { s with todo := s.todo.tail, attempts := migrationAttempts, phase := .idle }

/-- The loop of `migrate` goes round. -/
def retries (s : Migration ν) : Migration ν :=
  if s.attempts ≤ 1 then s.returns else { s with attempts := s.attempts - 1, phase := .idle }

/-- Behind a pass, which gives the records it changed or fails. -/
def afterPass (s : Migration ν) (level reached : ℕ) (read : Models (ServedDetails ν)) (unread : ℕ) :
    Option (List (ServedRecord ν)) → Migration ν
  | none => s.returns
  | some changed =>
    if unread > 0 ∨ reached + 1 < level then s.returns
    else { s with phase := .passed reached read changed }

variable [DecidableEq ν]

/-- What `Registry::update` answers: the changed records, or an error. -/
def updateResult (view : View (ServedDetails ν)) (ids : List String)
    (transform : ServedRecord ν → Option (ServedRecord ν)) (locked written : Bool) :
    Option (List (ServedRecord ν)) :=
  match load view.file with
  | .error _ => none
  | .ok (models, _) =>
    let changed := (ids.foldl (updateOne transform) (models, [])).2
    if locked && (changed.isEmpty || written) then some changed else none

/-- What `Registry::mark_migrated` answers. -/
def markResult (view : View (ServedDetails ν)) (level : ℕ) (migrated : Models (ServedDetails ν))
    (locked written : Bool) : Option Bool :=
  match load view.file with
  | .error _ => none
  | .ok (models, stored) =>
    if !locked then none
    else if stored ≥ level ∨ models = ∅ then some true
    else if models ≠ migrated then some false
    else if written then some true else none

/-- The mark that `mark_migrated` makes, if it comes to writing one. -/
def markMade (view : View (ServedDetails ν)) (level : ℕ) (read : Models (ServedDetails ν))
    (changed : List (ServedRecord ν)) (locked written : Bool) : List (Mark ν) :=
  match load view.file with
  | .error _ => []
  | .ok (models, stored) =>
    if locked ∧ written ∧ stored < level ∧ models ≠ ∅ ∧ models = migrated read changed then
      [⟨level, stored, models, read, changed⟩]
    else []

def step (s : Migration ν) : MigrationAct ν → Option (Migration ν)
  | .plan outside =>
    match s.phase, s.todo with
    | .idle, (level, pass) :: _ =>
      let reached := s.view.registry.migrationLevel
      let models := s.view.models
      if reached ≥ level then some s.returns
      else some { s with
        phase := .planned reached models outside (companionsHeld outside models)
          (pass.plans outside models) (pass.unread outside models) }
    | _, _ => none
  | .update locked written =>
    match s.phase, s.todo with
    | .planned reached read outside companions plans unread, (level, _) :: _ =>
      -- a pass with nothing to write does not touch the store
      if plans.isEmpty then some (s.afterPass level reached read unread (some []))
      else
        let transform := planTransform outside companions plans
        let result := updateResult s.view plans.keys transform locked written
        let view := s.view.mutate (.update plans.keys transform) locked written
        some ({ s with view := view }.afterPass level reached read unread result)
    | _, _ => none
  | .mark locked written =>
    match s.phase, s.todo with
    | .passed _ read changed, (level, _) :: _ =>
      let records := migrated read changed
      let view := s.view.mutate (.markMigrated level records) locked written
      let marks := s.marks ++ markMade s.view level read changed locked written
      match markResult s.view level records locked written with
      | some false => some { s with view := view, marks := marks }.retries
      | _ => some { s with view := view, marks := marks }.returns
    | _, _ => none
  | .external file => some { s with view := { s.view with file := file } }

/-! ## What a migration promises -/

/-- The records the pass of this state hands to `Registry::update` changed. -/
def transform (s : Migration ν) (record : ServedRecord ν) : Option (ServedRecord ν) :=
  match s.phase with
  | .planned _ _ outside companions plans _ => planTransform outside companions plans record
  | _ => none

end Migration

/-- A level recorded over exactly the records read with the pass's changes, and over the level
right below it. -/
def Mark.Sound (mark : Mark ν) : Prop :=
  mark.store = migrated mark.read mark.changed ∧ mark.storedLevel + 1 = mark.level

/-- Every mark is sound, and the levels marked only grow. -/
def MarksSound (s : Migration ν) : Prop :=
  (∀ mark ∈ s.marks, mark.Sound) ∧ (s.marks.map Mark.level).Pairwise (· < ·)

def MigrationAct.own : MigrationAct ν → Bool
  | .external _ => false
  | _ => true

/-- Every record of the one is in the other, as it was or as the transform changes it. -/
def Carries {δ : Type} (transform : ModelRecord δ → Option (ModelRecord δ))
    (before after : Models δ) : Prop :=
  ∀ id : String, after[id]? = before[id]? ∨
    after[id]? = (before[id]?).map fun record => (transform record).getD record

variable [DecidableEq ν]

/-- A section of the migration loses nothing the store holds when it runs: every record is there
afterwards, as it was or as the pass changes this very record. And the level it leaves is the one it
found, unless it makes a mark over what it found. -/
def LosesNothing (s : Migration ν) (a : MigrationAct ν) : Prop :=
  a.own = true → ∀ t, s.step a = some t →
    ∀ models level, load s.view.file = .ok (models, level) →
      ∃ models' level', load t.view.file = .ok (models', level') ∧
        Carries s.transform models models' ∧
        (level' = level ∧ t.marks = s.marks ∨
          ∃ mark : Mark ν, t.marks = s.marks ++ [mark] ∧ mark.store = models ∧
            mark.storedLevel = level ∧ mark.level = level' ∧ models' = models)

/-- A mark is not made when the store holds the very records to be marked, but at a lower level than
the attempt had read. -/
def LevelKept (s : Migration ν) : MigrationAct ν → Prop
  | .mark locked written => locked = true → written = true →
    ∀ reached read changed, s.phase = .passed reached read changed →
      ∀ models stored, load s.view.file = .ok (models, stored) →
        models ≠ ∅ → models = migrated read changed → reached ≤ stored
  | _ => True

/-! ## What the registry's calls leave in the store -/

section Store

variable {δ : Type} {models : Models δ} {level : ℕ}
  {transform : ModelRecord δ → Option (ModelRecord δ)}

theorem Carries.refl (models : Models δ) : Carries transform models models := fun _ => .inl rfl

/-- What the rounds of an update leave, once written and read again. -/
theorem load_write_moved {r : Registry δ} {ids : List String} (hkeyed : KeyedById models)
    (hadopted : Adopted models) (hnodup : ids.Nodup)
    (hkeeps : ∀ record next, transform record = some next →
      next.id = record.id ∧ next.legacyFootprintMb = record.legacyFootprintMb)
    (hmodels : r.models = ids.foldl (moved transform) models) :
    ∃ models', load r.write = .ok (models', r.migrationLevel) ∧
      Carries transform models models' := by
  have hchanged := getElem?_foldl_moved hkeyed (fun r n h => (hkeeps r n h).1) hnodup
  have hadopted' : Adopted r.models := by
    rw [hmodels]
    intro id record hrecord
    rw [hchanged] at hrecord
    split at hrecord
    · obtain ⟨old, hold, rfl⟩ := Option.map_eq_some_iff.1 hrecord
      cases hnext : transform old with
      | none => exact hadopted id old hold
      | some next => exact (hkeeps old next hnext).2.trans (hadopted id old hold)
    · exact hadopted id record hrecord
  have hkeyed' : KeyedById r.models := hmodels ▸ hkeyed.spec (.update ids transform)
  refine ⟨_, load_write hkeyed', fun id => ?_⟩
  rw [persisted_of_adopted hadopted', hmodels, hchanged]
  split
  · exact .inr rfl
  · exact .inl rfl

variable [DecidableEq δ] {v : View δ}

/-- An update with a transform that keeps the id changes the records it names, each once, or leaves
the store alone. -/
theorem load_mutate_update {ids : List String} (hload : load v.file = .ok (models, level))
    (hnodup : ids.Nodup)
    (hkeeps : ∀ record next, transform record = some next →
      next.id = record.id ∧ next.legacyFootprintMb = record.legacyFootprintMb)
    (locked written : Bool) :
    ∃ models', load (v.mutate (.update ids transform) locked written).file = .ok (models', level) ∧
      Carries transform models models' := by
  have hsame : ∃ models', load v.file = .ok (models', level) ∧ Carries transform models models' :=
    ⟨models, hload, .refl models⟩
  obtain ⟨hkeyed, hadopted⟩ := load_sound hload
  unfold View.mutate
  cases locked with
  | false => exact hsame
  | true =>
    simp only [if_true, Registry.read, Registry.reload, hload]
    have hmodels := Registry.apply_models
      { v.registry with models := models, migrationLevel := level } (.update ids transform) hkeyed
    simp only [Registry.apply, Mutation.spec] at hmodels ⊢
    have hwrite := load_write_moved (r := { v.registry with
      models := (update models ids transform).1, migrationLevel := level }) hkeyed hadopted hnodup
      hkeeps hmodels
    cases (update models ids transform).2 with
    | none => exact hsame
    | save => cases written with
      | false => exact hsame
      | true => exact hwrite
    | write => cases written with
      | false => exact hsame
      | true => exact hwrite

/-- `mark_migrated` writes exactly when it gets the lock and the store is neither empty nor there
already nor another one than was migrated. -/
theorem load_mutate_mark (hload : load v.file = .ok (models, level)) (target : ℕ)
    (expected : Models δ) (locked written : Bool) :
    load (v.mutate (.markMigrated target expected) locked written).file =
      .ok (models, if locked ∧ written ∧ level < target ∧ models ≠ ∅ ∧ models = expected then target
        else level) := by
  obtain ⟨hkeyed, hadopted⟩ := load_sound hload
  unfold View.mutate
  cases locked with
  | false => simpa using hload
  | true =>
    have hread : ∃ generation, v.registry.read (.markMigrated target expected) v.file =
        .ok ⟨models, level, generation⟩ := by
      simp only [Registry.read, Registry.refresh, hload]
      split
      · rename_i hsame
        exact ⟨v.registry.generation, by rw [hsame]; rfl⟩
      · exact ⟨_, rfl⟩
    obtain ⟨generation, hread⟩ := hread
    simp only [if_true, hread, Registry.apply]
    by_cases hdone : level ≥ target ∨ models = ∅
    · have hnot : ¬ (level < target ∧ models ≠ ∅ ∧ models = expected) := fun h =>
        hdone.elim (Nat.not_le.2 h.1) h.2.1
      simp only [if_pos hdone, true_and, hload]
      rw [if_neg fun h => hnot h.2]
    · obtain ⟨hlower, hsome⟩ := not_or.1 hdone
      simp only [if_neg hdone, true_and]
      by_cases hsame : models = expected
      · simp only [if_neg (not_not.2 hsame)]
        cases written with
        | false => simpa using hload
        | true =>
          have hall : True ∧ level < target ∧ models ≠ ∅ ∧ models = expected :=
            ⟨trivial, Nat.lt_of_not_le hlower, hsome, hsame⟩
          simp only [if_true, Registry.committed]
          rw [load_write hkeyed, persisted_of_adopted hadopted, if_pos hall]
      · simp only [if_pos hsame, hload]
        rw [if_neg fun h => hsame h.2.2.2]

end Store

/-! ## One step -/

namespace Migration

omit [DecidableEq ν] in
theorem retries_eq (s : Migration ν) :
    s.retries.view = s.view ∧ s.retries.marks = s.marks ∧ s.retries.phase = .idle ∧
      (s.retries.todo = s.todo ∨ s.retries.todo = s.todo.tail) := by
  unfold retries
  split
  · exact ⟨rfl, rfl, rfl, .inr rfl⟩
  · exact ⟨rfl, rfl, rfl, .inl rfl⟩

omit [DecidableEq ν] in
theorem afterPass_eq (s : Migration ν) (level reached : ℕ) (read : Models (ServedDetails ν))
    (unread : ℕ) (result : Option (List (ServedRecord ν))) :
    (s.afterPass level reached read unread result).view = s.view ∧
      (s.afterPass level reached read unread result).marks = s.marks ∧
      ((s.afterPass level reached read unread result).phase = .idle ∧
          (s.afterPass level reached read unread result).todo = s.todo.tail ∨
        ∃ changed, level ≤ reached + 1 ∧
          (s.afterPass level reached read unread result).phase = .passed reached read changed ∧
          (s.afterPass level reached read unread result).todo = s.todo) := by
  unfold afterPass
  cases result with
  | none => exact ⟨rfl, rfl, .inl ⟨rfl, rfl⟩⟩
  | some changed =>
    simp only
    split
    · exact ⟨rfl, rfl, .inl ⟨rfl, rfl⟩⟩
    · rename_i hgoes
      exact ⟨rfl, rfl, .inr ⟨changed, Nat.le_of_not_lt (not_or.1 hgoes).2, rfl, rfl⟩⟩

variable {s t : Migration ν} {a : MigrationAct ν}

/-- What a section can do: plan, write and go on to mark or return, mark, or none of it. -/
theorem step_cases (h : s.step a = some t) :
    (∃ outside level pass rest, a = .plan outside ∧ s.todo = (level, pass) :: rest ∧
      t.view = s.view ∧ t.marks = s.marks ∧
      (t.phase = .idle ∧ t.todo = rest ∨
        s.view.registry.migrationLevel < level ∧ t.todo = s.todo ∧
          ∃ companions plans unread, t.phase = .planned s.view.registry.migrationLevel
            s.view.models outside companions plans unread)) ∨
    (∃ locked written reached read outside companions plans unread level pass rest,
      a = .update locked written ∧ s.phase = .planned reached read outside companions plans unread ∧
      s.todo = (level, pass) :: rest ∧ t.marks = s.marks ∧
      (t.view = s.view ∨ t.view = s.view.mutate
        (.update plans.keys (planTransform outside companions plans)) locked written) ∧
      (t.phase = .idle ∧ t.todo = rest ∨
        ∃ changed, level ≤ reached + 1 ∧ t.phase = .passed reached read changed ∧
          t.todo = s.todo)) ∨
    (∃ locked written reached read changed level pass rest,
      a = .mark locked written ∧ s.phase = .passed reached read changed ∧
      s.todo = (level, pass) :: rest ∧
      t.view = s.view.mutate (.markMigrated level (migrated read changed)) locked written ∧
      t.marks = s.marks ++ markMade s.view level read changed locked written ∧
      t.phase = .idle ∧
      (t.todo = rest ∨ t.todo = (level, pass) :: rest ∧
        markResult s.view level (migrated read changed) locked written = some false)) ∨
    ∃ file, a = .external file ∧ t = { s with view := { s.view with file := file } } := by
  cases a with
  | plan outside =>
    left
    unfold step at h
    simp only at h
    split at h
    · rename_i level pass rest hphase htodo
      refine ⟨outside, level, pass, rest, rfl, htodo, ?_⟩
      split at h
      · cases h
        exact ⟨rfl, rfl, .inl ⟨rfl, by rw [returns, htodo]; rfl⟩⟩
      · rename_i hlower
        cases h
        exact ⟨rfl, rfl, .inr ⟨Nat.lt_of_not_le hlower, rfl, _, _, _, rfl⟩⟩
    · simp at h
  | update locked written =>
    right; left
    unfold step at h
    simp only at h
    split at h
    · rename_i reached read outside companions plans unread level pass rest hphase htodo
      refine ⟨locked, written, reached, read, outside, companions, plans, unread, level, pass, rest,
        rfl, hphase, htodo, ?_⟩
      split at h
      · cases h
        have hafter := s.afterPass_eq level reached read unread (some [])
        rw [htodo] at hafter
        rw [htodo]
        exact ⟨hafter.2.1, .inl hafter.1, hafter.2.2⟩
      · cases h
        have hafter := afterPass_eq { s with view := s.view.mutate (.update plans.keys
          (planTransform outside companions plans)) locked written } level reached read unread
          (updateResult s.view plans.keys (planTransform outside companions plans) locked written)
        simp only [htodo] at hafter
        rw [htodo]
        exact ⟨hafter.2.1, .inr hafter.1, hafter.2.2⟩
    · simp at h
  | mark locked written =>
    right; right; left
    unfold step at h
    simp only at h
    split at h
    · rename_i reached read changed level pass rest hphase htodo
      refine ⟨locked, written, reached, read, changed, level, pass, rest, rfl, hphase, htodo, ?_⟩
      split at h
      · rename_i hresult
        cases h
        obtain ⟨hview, hmarks, hidle, hnext⟩ := retries_eq { s with
          view := s.view.mutate (.markMigrated level (migrated read changed)) locked written
          marks := s.marks ++ markMade s.view level read changed locked written }
        refine ⟨hview, hmarks, hidle, ?_⟩
        rcases hnext with hnext | hnext
        · exact .inr ⟨hnext.trans htodo, hresult⟩
        · exact .inl (hnext.trans (by simp only [htodo, List.tail_cons]))
      · cases h
        exact ⟨rfl, rfl, rfl, .inl (by rw [returns, htodo]; rfl)⟩
    · simp at h
  | external file =>
    right; right; right
    exact ⟨file, rfl, (Option.some.inj h).symm⟩

/-- A mark is made only over the records that were to be marked, at a lower level. -/
theorem markMade_cases (view : View (ServedDetails ν)) (level : ℕ)
    (read : Models (ServedDetails ν)) (changed : List (ServedRecord ν)) (locked written : Bool) :
    markMade view level read changed locked written = [] ∧
      (∀ models stored, load view.file = .ok (models, stored) →
        ¬ (locked ∧ written ∧ stored < level ∧ models ≠ ∅ ∧ models = migrated read changed)) ∨
    ∃ models stored, load view.file = .ok (models, stored) ∧
      (locked ∧ written ∧ stored < level ∧ models ≠ ∅ ∧ models = migrated read changed) ∧
      markMade view level read changed locked written =
        [⟨level, stored, models, read, changed⟩] := by
  unfold markMade
  cases hload : load view.file with
  | error e => exact .inl ⟨rfl, fun _ _ h => by simp at h⟩
  | ok loaded =>
    obtain ⟨models, stored⟩ := loaded
    simp only
    split
    · rename_i hmade
      exact .inr ⟨models, stored, rfl, hmade, rfl⟩
    · rename_i hnot
      refine .inl ⟨rfl, fun m l h => ?_⟩
      obtain ⟨rfl, rfl⟩ := Prod.mk.inj (Except.ok.inj h)
      exact hnot

/-- An attempt goes round again only when it has marked nothing. -/
theorem markMade_of_retry {view : View (ServedDetails ν)} {level : ℕ}
    {read : Models (ServedDetails ν)} {changed : List (ServedRecord ν)} {locked written : Bool}
    (h : markResult view level (migrated read changed) locked written = some false) :
    markMade view level read changed locked written = [] := by
  rcases markMade_cases view level read changed locked written with ⟨hnone, -⟩ | hmade
  · exact hnone
  · obtain ⟨models, stored, hload, ⟨hlocked, hwritten, hlower, hsome, hsame⟩, -⟩ := hmade
    have hnot : ¬ (stored ≥ level ∨ models = ∅) := fun h =>
      h.elim (Nat.not_le.2 hlower) hsome
    unfold markResult at h
    rw [hload] at h
    simp only [hlocked, Bool.not_true, Bool.false_eq_true, if_false, if_neg hnot,
      if_neg (not_not.2 hsame), hwritten, if_true] at h
    simp at h

/-! ## The invariant -/

/-- The levels to come are above the marked ones, and an attempt that has read a level is about the
next one. -/
structure Inv (s : Migration ν) : Prop where
  ordered : (s.todo.map Prod.fst).Pairwise (· < ·)
  ahead : ∀ mark ∈ s.marks, ∀ level ∈ s.todo.map Prod.fst, mark.level < level
  below : ∀ reached read outside companions plans unread,
    s.phase = .planned reached read outside companions plans unread →
      ∀ level pass rest, s.todo = (level, pass) :: rest → reached < level
  next : ∀ reached read changed, s.phase = .passed reached read changed →
    ∀ level pass rest, s.todo = (level, pass) :: rest → reached + 1 = level

omit [DecidableEq ν] in
theorem inv_begin (view : View (ServedDetails ν)) : Inv (begin view) where
  ordered := by simp [begin, migrations]
  ahead := fun _ h => absurd h List.not_mem_nil
  below := fun _ _ _ _ _ _ h => by simp [begin] at h
  next := fun _ _ _ h => by simp [begin] at h

omit [DecidableEq ν] in
/-- The levels to come may be cut, when no attempt is under way. -/
theorem Inv.of_idle (h : Inv s) (hidle : t.phase = .idle) (htodo : t.todo <:+ s.todo)
    (hahead : ∀ mark ∈ t.marks, ∀ level ∈ t.todo.map Prod.fst, mark.level < level) : Inv t where
  ordered := h.ordered.sublist (htodo.sublist.map Prod.fst)
  ahead := hahead
  below := fun _ _ _ _ _ _ hphase => by simp [hidle] at hphase
  next := fun _ _ _ hphase => by simp [hidle] at hphase

omit [DecidableEq ν] in
theorem Inv.of_unmarked (h : Inv s) (hidle : t.phase = .idle)
    (htodo : t.todo <:+ s.todo) (hmarks : t.marks = s.marks) : Inv t := by
  refine h.of_idle hidle htodo fun mark hmark level hlevel => ?_
  rw [hmarks] at hmark
  exact h.ahead mark hmark level ((htodo.sublist.map Prod.fst).mem hlevel)

theorem inv_step (h : Inv s) (hstep : s.step a = some t) :
    Inv t := by
  rcases step_cases hstep with ⟨outside, level, pass, rest, -, htodo, -, hmarks, hnext⟩ |
    ⟨locked, written, reached, read, outside, companions, plans, unread, level, pass, rest, -,
      hphase, htodo, hmarks, -, hnext⟩ |
    ⟨locked, written, reached, read, changed, level, pass, rest, -, hphase, htodo, -, hmarks, hidle,
      hnext⟩ | ⟨file, -, rfl⟩
  · have hsuffix : rest <:+ s.todo := htodo ▸ List.suffix_cons _ _
    rcases hnext with ⟨hidle, hrest⟩ | ⟨hlower, hrest, companions, plans, unread, hplanned⟩
    · exact h.of_unmarked hidle (hrest ▸ hsuffix) hmarks
    · refine ⟨hrest ▸ h.ordered, hmarks ▸ hrest ▸ h.ahead, ?_, ?_⟩
      · intro reached' read' outside' companions' plans' unread' hphase' level' pass' rest' htodo'
        rw [hplanned] at hphase'
        rw [hrest, htodo] at htodo'
        simp only [MigrationPhase.planned.injEq] at hphase'
        simp only [List.cons.injEq, Prod.mk.injEq] at htodo'
        rw [← hphase'.1, ← htodo'.1.1]
        exact hlower
      · intro reached' read' changed' hphase'
        rw [hplanned] at hphase'
        simp at hphase'
  · have hsuffix : rest <:+ s.todo := htodo ▸ List.suffix_cons _ _
    rcases hnext with ⟨hidle, hrest⟩ | ⟨changed, hle, hpassed, hrest⟩
    · exact h.of_unmarked hidle (hrest ▸ hsuffix) hmarks
    · have hlower := h.below reached read outside companions plans unread hphase level pass rest
        htodo
      refine ⟨hrest ▸ h.ordered, hmarks ▸ hrest ▸ h.ahead, ?_, ?_⟩
      · intro reached' read' outside' companions' plans' unread' hphase'
        rw [hpassed] at hphase'
        simp at hphase'
      · intro reached' read' changed' hphase' level' pass' rest' htodo'
        rw [hpassed] at hphase'
        rw [hrest, htodo] at htodo'
        simp only [MigrationPhase.passed.injEq] at hphase'
        simp only [List.cons.injEq, Prod.mk.injEq] at htodo'
        rw [← hphase'.1, ← htodo'.1.1]
        omega
  · have hsuffix : rest <:+ s.todo := htodo ▸ List.suffix_cons _ _
    rcases hnext with hrest | ⟨hrest, hresult⟩
    · refine h.of_idle hidle (hrest ▸ hsuffix) fun mark hmark lvl hlvl => ?_
      rw [hrest] at hlvl
      rw [hmarks] at hmark
      rcases List.mem_append.1 hmark with hold | hnew
      · exact h.ahead mark hold lvl ((hsuffix.sublist.map Prod.fst).mem hlvl)
      · -- the level just marked is below those behind it
        have hlevel : mark.level = level := by
          rcases markMade_cases s.view level read changed locked written with ⟨hnone, -⟩ | hmade
          · rw [hnone] at hnew
            exact absurd hnew List.not_mem_nil
          · obtain ⟨models, stored, -, -, hmade⟩ := hmade
            rw [hmade, List.mem_singleton] at hnew
            rw [hnew]
        have hordered := h.ordered
        rw [htodo, List.map_cons, List.pairwise_cons] at hordered
        exact hlevel ▸ hordered.1 lvl hlvl
    · rw [markMade_of_retry hresult, List.append_nil] at hmarks
      exact h.of_unmarked hidle (hrest.trans htodo.symm ▸ List.suffix_rfl) hmarks
  · exact ⟨h.ordered, h.ahead, h.below, h.next⟩

/-! ## Marks -/

omit [DecidableEq ν] in
/-- One mark more, above the others, leaves the marks sound exactly when it is sound itself. -/
theorem marksSound_append {mark : Mark ν} (h : MarksSound s)
    (hmarks : t.marks = s.marks ++ [mark]) (habove : ∀ m ∈ s.marks, m.level < mark.level) :
    MarksSound t ↔ mark.Sound := by
  unfold MarksSound
  rw [hmarks]
  constructor
  · exact fun hsound => hsound.1 mark (List.mem_append_right _ (List.mem_singleton_self mark))
  · intro hsound
    refine ⟨fun m hm => ?_, ?_⟩
    · rcases List.mem_append.1 hm with hold | hnew
      · exact h.1 m hold
      · exact (List.mem_singleton.1 hnew) ▸ hsound
    · rw [List.map_append, List.pairwise_append]
      refine ⟨h.2, List.pairwise_singleton _ _, fun low hlow high hhigh => ?_⟩
      obtain ⟨m, hm, rfl⟩ := List.mem_map.1 hlow
      rw [List.map_singleton, List.mem_singleton] at hhigh
      exact hhigh ▸ habove m hm

/-- A step keeps the marks sound exactly when it is not a mark over a level that was taken back. -/
theorem marksSound_step_iff (hinv : Inv s)
    (hsound : MarksSound s) (hstep : s.step a = some t) : MarksSound t ↔ LevelKept s a := by
  have hsame (hmarks : t.marks = s.marks) : MarksSound t := by
    unfold MarksSound
    rw [hmarks]
    exact hsound
  rcases step_cases hstep with ⟨outside, level, pass, rest, rfl, -, -, hmarks, -⟩ |
    ⟨locked, written, reached, read, outside, companions, plans, unread, level, pass, rest, rfl,
      -, -, hmarks, -, -⟩ |
    ⟨locked, written, reached, read, changed, level, pass, rest, rfl, hphase, htodo, -, hmarks, -,
      -⟩ | ⟨file, rfl, rfl⟩
  · exact iff_of_true (hsame hmarks) trivial
  · exact iff_of_true (hsame hmarks) trivial
  · have hnext := hinv.next reached read changed hphase level pass rest htodo
    rcases markMade_cases s.view level read changed locked written with ⟨hnone, hnot⟩ | hmade
    · rw [hnone, List.append_nil] at hmarks
      refine iff_of_true (hsame hmarks) ?_
      intro hlocked hwritten reached' read' changed' hphase' models stored hload hsome hmodels
      rw [hphase] at hphase'
      obtain ⟨rfl, rfl, rfl⟩ := MigrationPhase.passed.inj hphase'
      -- nothing was marked, so the level must have been there already
      have hthere : ¬ stored < level := fun hlower =>
        hnot models stored hload ⟨hlocked, hwritten, hlower, hsome, hmodels⟩
      omega
    · obtain ⟨models, stored, hload, ⟨hlocked, hwritten, hlower, hsome, hmodels⟩, hmade⟩ := hmade
      rw [hmade] at hmarks
      rw [marksSound_append hsound hmarks fun m hm =>
        hinv.ahead m hm level (by rw [htodo]; exact (.head _))]
      constructor
      · intro hmark _ _ reached' read' changed' hphase' models' stored' hload' _ _
        rw [hphase] at hphase'
        obtain ⟨rfl, rfl, rfl⟩ := MigrationPhase.passed.inj hphase'
        obtain ⟨rfl, rfl⟩ := Prod.mk.inj (Except.ok.inj (hload.symm.trans hload'))
        have hover : stored + 1 = level := hmark.2
        omega
      · intro hkept
        have hle := hkept hlocked hwritten reached read changed hphase models stored hload hsome
          hmodels
        refine ⟨hmodels, ?_⟩
        show stored + 1 = level
        omega
  · exact iff_of_true (hsame rfl) trivial

/-! ## Records -/

theorem losesNothing (s : Migration ν) (a : MigrationAct ν) : LosesNothing s a := by
  intro hown t hstep models level hload
  rcases step_cases hstep with ⟨outside, _, pass, rest, rfl, -, hview, hmarks, -⟩ |
    ⟨locked, written, reached, read, outside, companions, plans, unread, _, pass, rest, rfl,
      hphase, -, hmarks, hview, -⟩ |
    ⟨locked, written, reached, read, changed, target, pass, rest, rfl, hphase, -, hview, hmarks, -,
      -⟩ | ⟨file, rfl, rfl⟩
  · exact ⟨models, level, hview ▸ hload, .refl models, .inl ⟨rfl, hmarks⟩⟩
  · rcases hview with hview | hview
    · exact ⟨models, level, hview ▸ hload, .refl models, .inl ⟨rfl, hmarks⟩⟩
    · have htransform : s.transform = planTransform outside companions plans := by
        funext record
        rw [transform, hphase]
      obtain ⟨models', hload', hcarries⟩ := load_mutate_update hload
        (Std.ExtTreeMap.nodup_keys (t := plans))
        (fun record next h => planTransform_id h) locked written
      rw [← hview] at hload'
      exact ⟨models', level, hload', htransform ▸ hcarries, .inl ⟨rfl, hmarks⟩⟩
  · have hload' := load_mutate_mark hload target (migrated read changed) locked written
    rw [← hview] at hload'
    refine ⟨models, _, hload', .refl models, ?_⟩
    rcases markMade_cases s.view target read changed locked written with ⟨hnone, hnot⟩ | hmade
    · rw [hnone, List.append_nil] at hmarks
      exact .inl ⟨if_neg (hnot models level hload), hmarks⟩
    · obtain ⟨found, stored, hfound, hall, hmade⟩ := hmade
      obtain ⟨rfl, rfl⟩ := Prod.mk.inj (Except.ok.inj (hload.symm.trans hfound))
      rw [hmade] at hmarks
      exact .inr ⟨_, hmarks, rfl, rfl, (if_pos hall).symm, rfl⟩
  · simp [MigrationAct.own] at hown

end Migration

/-! ## Runs -/

/-- In a run of a process that migrates its shelf while others write the store, every level is
marked over the records the attempt read with the changes of its pass, over the level right below,
and no section loses a record, exactly when no mark is made over a store whose level was taken
back behind the attempt. -/
theorem migration_sound_iff (view : View (ServedDetails ν)) (as : List (MigrationAct ν)) :
    (StatesMeet Migration.step MarksSound (Migration.begin view) as ∧
        StepsMeet Migration.step LosesNothing (Migration.begin view) as) ↔
      StepsMeet Migration.step LevelKept (Migration.begin view) as := by
  have hmarks : StatesMeet Migration.step MarksSound (Migration.begin view) as ↔
      StepsMeet Migration.step LevelKept (Migration.begin view) as :=
    statesMeet_iff_stepsMeet (I := Migration.Inv)
      (fun s a t hinv _ hstep _ => Migration.inv_step hinv hstep)
      (fun s a t hinv hsound hstep => Migration.marksSound_step_iff hinv hsound hstep)
      (Migration.inv_begin view) ⟨fun _ h => absurd h List.not_mem_nil, List.Pairwise.nil⟩ as
  have hrecords : StepsMeet Migration.step LosesNothing (Migration.begin view) as :=
    StepsMeet.of_invariant (I := fun _ => True) (fun _ _ _ _ _ => trivial)
      (fun s a _ => Migration.losesNothing s a) trivial as
  exact ⟨fun h => hmarks.1 h.1, fun h => ⟨hmarks.2 h, hrecords⟩⟩

/-! ## A level that is skipped -/

/-- No adapters and nothing on disk. -/
def bareOutside : Outside ℚ where
  engine := .new rationals [] fun _ => unidentified
  fileExists := fun _ => false
  snapshot := fun record => record.details.source.path
  toLowercase := id

/-- A shelf of one model that the first migration has been over. -/
def migratedOnce : View (ServedDetails ℚ) where
  registry := ⟨byId [parkedRecord], 1, 0⟩
  file := .envelope schemaVersion 1 [parkedRecord]

/-- While the second migration is between its pass and its mark, a build that does not know the
level registers a model and takes it back. -/
def olderBuildBetween : List (MigrationAct ℚ) :=
  [.plan bareOutside, .plan bareOutside, .update true true,
    .external (.envelope schemaVersion 0 [parkedRecord, { parkedRecord with id := "n" }]),
    .external (.envelope schemaVersion 0 [parkedRecord]), .mark true true]

/-- The second level is then marked over none, and the first migration never comes back. -/
theorem second_level_over_none :
    ∃ t, run Migration.step (Migration.begin migratedOnce) olderBuildBetween = some t ∧
      t.marks.map (fun mark => (mark.level, mark.storedLevel)) = [(2, 0)] ∧ ¬ MarksSound t := by
  have hmarks : (run Migration.step (Migration.begin migratedOnce) olderBuildBetween).map
      (fun t => t.marks.map fun mark => (mark.level, mark.storedLevel)) = some [(2, 0)] := by
    decide +kernel
  obtain ⟨t, hrun, htaken⟩ := Option.map_eq_some_iff.1 hmarks
  refine ⟨t, hrun, htaken, fun hsound => ?_⟩
  obtain ⟨mark, hmark, heq⟩ := List.mem_map.1 (htaken ▸ List.mem_singleton_self (2, 0))
  have hover := (hsound.1 mark hmark).2
  simp only [Prod.mk.injEq] at heq
  omega

end Hedos.Auction
