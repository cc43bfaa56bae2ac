import Hedos.Kernel.Registry

/-!
# What the mutators do to a map of records

The code's mutators leave early when nothing changes. `Mutation.spec` states each of them
as a plain change of a map, and `Registry.apply_models` says that the code computes it,
early exits included. `load_write` says that what a view writes is what the next reader
loads, as long as every record is kept under its own id (`KeyedById`), which every loaded
map is and every mutator preserves.
-/

namespace Hedos.Kernel

variable {δ : Type}

/-! ## Maps keyed by the id of their records -/

/-- Every key is the id of the record it holds. -/
def KeyedById (models : Models δ) : Prop :=
  ∀ (id : String) (record : ModelRecord δ), models[id]? = some record → record.id = id

/-- No record carries the mebibyte figure that is never written back. -/
def Adopted (models : Models δ) : Prop :=
  ∀ (id : String) (record : ModelRecord δ), models[id]? = some record →
    record.legacyFootprintMb = none

/-- What is left of a map once it has been written and read again. -/
def persisted (models : Models δ) : Models δ := models.map fun _ record => record.persisted

/-- A record with an id and nothing else. -/
def bareRecord (id : String) : ModelRecord Unit := ⟨id, .ready, none, none, ()⟩

theorem keyedById_empty : KeyedById (∅ : Models δ) := by
  intro id record h
  simp at h

variable {models : Models δ} {id : String} {record : ModelRecord δ}

theorem KeyedById.insert (h : KeyedById models) (record : ModelRecord δ) :
    KeyedById (models.insert record.id record) := by
  intro id found hfound
  rw [Std.ExtTreeMap.getElem?_insert] at hfound
  split at hfound
  · rename_i heq
    cases hfound
    exact Std.LawfulEqCmp.eq_of_compare heq
  · exact h id found hfound

theorem KeyedById.erase (h : KeyedById models) (key : String) : KeyedById (models.erase key) := by
  intro id found hfound
  rw [Std.ExtTreeMap.getElem?_erase] at hfound
  split at hfound
  · simp at hfound
  · exact h id found hfound

/-- What a list of records is read into: each entry is one of the records, under its id. -/
theorem getElem?_byId {records : List (ModelRecord δ)}
    (h : (byId records)[id]? = some record) : record ∈ records ∧ record.id = id := by
  -- over the entries inserted so far, by induction on the records
  have hfold : ∀ (acc : Models δ),
      (acc.insertMany (records.map fun r => (r.id, r)))[id]? = some record →
        (record ∈ records ∧ record.id = id) ∨ acc[id]? = some record := by
    clear h
    induction records with
    | nil => intro acc hacc; exact .inr (by simpa using hacc)
    | cons r records ih =>
      intro acc hacc
      rw [List.map_cons, Std.ExtTreeMap.insertMany_cons] at hacc
      rcases ih _ hacc with ⟨hmem, hid⟩ | hacc
      · exact .inl ⟨.tail _ hmem, hid⟩
      · rw [Std.ExtTreeMap.getElem?_insert] at hacc
        split at hacc
        · rename_i heq
          cases hacc
          exact .inl ⟨.head _, Std.LawfulEqCmp.eq_of_compare heq⟩
        · exact .inr hacc
  rw [byId, Std.ExtTreeMap.ofList_eq_insertMany_empty] at h
  rcases hfold ∅ h with h | h
  · exact h
  · simp at h

/-! ## Reading and writing the store -/

@[simp] theorem ModelRecord.adoptLegacyFootprint_legacy (record : ModelRecord δ) :
    record.adoptLegacyFootprint.legacyFootprintMb = none := by
  unfold ModelRecord.adoptLegacyFootprint
  split <;> rfl

@[simp] theorem ModelRecord.adopt_persisted (record : ModelRecord δ) :
    record.persisted.adoptLegacyFootprint = record.persisted := rfl

theorem ModelRecord.persisted_of_adopted
    (h : record.legacyFootprintMb = none) : record.persisted = record := by
  unfold ModelRecord.persisted
  rw [← h]

/-- A loaded map is keyed by id and carries no leftover mebibyte figure. -/
theorem load_sound {file : StoreFile δ} {level : ℕ}
    (h : load file = .ok (models, level)) : KeyedById models ∧ Adopted models := by
  cases file with
  | missing =>
    simp only [load, Except.ok.injEq, Prod.mk.injEq] at h
    rw [← h.1]
    exact ⟨keyedById_empty, fun id record hr => by simp at hr⟩
  | corrupt => simp [load] at h
  | unreadable => simp [load] at h
  | envelope schema l records =>
    simp only [load] at h
    split at h
    · simp at h
    · simp only [Except.ok.injEq, Prod.mk.injEq] at h
      rw [← h.1]
      refine ⟨fun id record hr => (getElem?_byId hr).2, fun id record hr => ?_⟩
      obtain ⟨stored, -, rfl⟩ := List.mem_map.1 (getElem?_byId hr).1
      exact stored.adoptLegacyFootprint_legacy

theorem persisted_of_adopted (h : Adopted models) : persisted models = models := by
  apply Std.ExtTreeMap.ext_getElem?
  intro id
  rw [persisted, Std.ExtTreeMap.getElem?_map]
  cases hr : models[id]? with
  | none => rfl
  | some record => rw [Option.map_some, ModelRecord.persisted_of_adopted (h id record hr)]

/-- An ordered map is read back from the list of its entries. -/
theorem ofList_toList (models : Models δ) : Std.ExtTreeMap.ofList models.toList = models := by
  apply Std.ExtTreeMap.ext_getElem?
  intro id
  cases hr : models[id]? with
  | none =>
    apply Std.ExtTreeMap.getElem?_ofList_of_contains_eq_false
    have hnot : id ∉ models := by
      rw [Std.ExtTreeMap.mem_iff_isSome_getElem?, hr]
      exact Bool.false_ne_true
    rw [Std.ExtTreeMap.map_fst_toList_eq_keys, List.contains_eq_mem, decide_eq_false_iff_not,
      Std.ExtTreeMap.mem_keys]
    exact hnot
  | some record =>
    exact Std.ExtTreeMap.getElem?_ofList_of_mem Std.ReflCmp.compare_self
      Std.ExtTreeMap.distinct_keys_toList
      (Std.ExtTreeMap.mem_toList_iff_getElem?_eq_some.2 hr)

/-- The round trip through the file: what a view keyed by id writes is what the next
reader loads. -/
theorem load_write {r : Registry δ} (h : KeyedById r.models) :
    load r.write = .ok (persisted r.models, r.migrationLevel) := by
  -- every record is written under its own id, so the ids are the keys again
  have hentries : (r.models.toList.map fun entry => entry.2.persisted).map
        (fun record => (record.adoptLegacyFootprint.id, record.adoptLegacyFootprint))
      = (persisted r.models).toList := by
    rw [persisted, Std.ExtTreeMap.toList_map, List.map_map]
    apply List.map_congr_left
    rintro ⟨id, record⟩ hmem
    have hid := h id record (Std.ExtTreeMap.mem_toList_iff_getElem?_eq_some.1 hmem)
    simp only [Function.comp, ModelRecord.adopt_persisted]
    rw [show record.persisted.id = record.id from rfl, hid]
  have hmap : byId ((r.models.toList.map fun entry => entry.2.persisted).map
      ModelRecord.adoptLegacyFootprint) = persisted r.models := by
    rw [byId, List.map_map]
    exact (congrArg (fun l => (Std.ExtTreeMap.ofList l : Models δ)) hentries).trans
      (ofList_toList _)
  simp only [Registry.write, load, schemaVersion, gt_iff_lt, Nat.lt_irrefl, if_false, hmap]

/-! ## The mutators as changes of a map -/

/-- The change one round of `update` makes: the transformed record moves to its own id. -/
def moved (transform : ModelRecord δ → Option (ModelRecord δ)) (models : Models δ)
    (id : String) : Models δ :=
  match (models[id]?).bind transform with
  | none => models
  | some next => (models.erase id).insert next.id next

/-- What a mutation means for the map of records, with no reference to early exits. -/
def Mutation.spec : Mutation δ → Models δ → Models δ
  | .register record, models => models.insert record.id record
  | .registerAll records, models => records.foldl (fun m record => m.insert record.id record) models
  | .unregister id, models => models.erase id
  | .setStateIfPresent id state, models =>
    models.modify id fun record => { record with state := state }
  | .update ids transform, models => ids.foldl (moved transform) models
  | .markMigrated _ _, models => models

/-- Putting back what is already there changes nothing. -/
theorem insert_of_getElem? (h : models[id]? = some record) : models.insert id record = models := by
  apply Std.ExtTreeMap.ext_getElem?
  intro k
  rw [Std.ExtTreeMap.getElem?_insert]
  split
  · rename_i heq
    rw [← Std.LawfulEqCmp.eq_of_compare heq, h]
  · rfl

/-- Inserting over an erased key is inserting. -/
theorem insert_erase (models : Models δ) (id : String) (record : ModelRecord δ) :
    (models.erase id).insert id record = models.insert id record := by
  apply Std.ExtTreeMap.ext_getElem?
  intro k
  simp only [Std.ExtTreeMap.getElem?_insert, Std.ExtTreeMap.getElem?_erase]
  split <;> rfl

theorem KeyedById.moved (h : KeyedById models)
    (transform : ModelRecord δ → Option (ModelRecord δ)) (id : String) :
    KeyedById (moved transform models id) := by
  unfold Kernel.moved
  split
  · exact h
  · exact (h.erase id).insert _

/-- Every mutation, an id-changing `update` included, keeps the map keyed by id. -/
theorem KeyedById.spec (h : KeyedById models) (op : Mutation δ) : KeyedById (op.spec models) := by
  cases op with
  | register record => exact h.insert record
  | registerAll records =>
    simp only [Mutation.spec]
    induction records generalizing models with
    | nil => exact h
    | cons r records ih => exact ih (h.insert r)
  | unregister id => exact h.erase id
  | setStateIfPresent id state =>
    intro k record hr
    rw [Mutation.spec, Std.ExtTreeMap.getElem?_modify] at hr
    split at hr
    · rename_i heq
      obtain ⟨old, hold, rfl⟩ := Option.map_eq_some_iff.1 hr
      rw [← Std.LawfulEqCmp.eq_of_compare heq]
      exact h id old hold
    · exact h k record hr
  | update ids transform =>
    simp only [Mutation.spec]
    induction ids generalizing models with
    | nil => exact h
    | cons id ids ih => exact ih (h.moved transform id)
  | markMigrated level migrated => exact h

/-! ## The code computes the change -/

variable [DecidableEq δ]

theorem registerOne_models (acc : Models δ × ℕ) (record : ModelRecord δ) :
    (registerOne acc record).1 = acc.1.insert record.id record := by
  unfold registerOne
  split
  · rfl
  · rename_i h
    exact (insert_of_getElem? (not_not.1 h)).symm

theorem foldl_registerOne_models (records : List (ModelRecord δ)) (acc : Models δ × ℕ) :
    (records.foldl registerOne acc).1
      = records.foldl (fun m record => m.insert record.id record) acc.1 := by
  induction records generalizing acc with
  | nil => rfl
  | cons r records ih => rw [List.foldl_cons, ih, registerOne_models, List.foldl_cons]

variable (transform : ModelRecord δ → Option (ModelRecord δ)) (r : Registry δ)

theorem updateOne_models
    (acc : Models δ × List (ModelRecord δ)) (id : String) (h : KeyedById acc.1) :
    (updateOne transform acc id).1 = moved transform acc.1 id := by
  unfold updateOne moved
  cases hnext : (acc.1[id]?).bind transform with
  | none => rfl
  | some next =>
    simp only
    by_cases hsame : acc.1[id]? = some next
    · -- the transform returned the record it was given
      rw [if_pos hsame, h id next hsame, insert_erase, insert_of_getElem? hsame]
    · rw [if_neg hsame]
      by_cases hid : next.id ≠ id
      · simp only [if_pos hid]
      · simp only [if_neg hid]
        rw [not_not.1 hid, insert_erase]

theorem foldl_updateOne_models
    (ids : List String) (acc : Models δ × List (ModelRecord δ)) (h : KeyedById acc.1) :
    (ids.foldl (updateOne transform) acc).1 = ids.foldl (moved transform) acc.1 := by
  induction ids generalizing acc with
  | nil => rfl
  | cons id ids ih =>
    have hone := updateOne_models transform acc id h
    rw [List.foldl_cons, ih _ (hone ▸ h.moved transform id), hone, List.foldl_cons]

omit [DecidableEq δ] in
theorem setStateIfPresent_models (models : Models δ) (id : String) (state : ModelState) :
    (setStateIfPresent models id state).1
      = models.modify id fun record => { record with state := state } := by
  apply Std.ExtTreeMap.ext_getElem?
  intro k
  rw [Std.ExtTreeMap.getElem?_modify]
  unfold setStateIfPresent
  cases hr : models[id]? with
  | none =>
    simp only
    split
    · rename_i heq
      rw [← Std.LawfulEqCmp.eq_of_compare heq, hr]
      rfl
    · rfl
  | some record =>
    by_cases hstate : record.state = state
    · simp only [if_pos hstate]
      split
      · rename_i heq
        rw [← Std.LawfulEqCmp.eq_of_compare heq, hr, Option.map_some, ← hstate]
      · rfl
    · simp only [if_neg hstate]
      rw [Std.ExtTreeMap.getElem?_insert]
      rfl

/-- What a mutator makes of a map keyed by id is what the mutation means for it. -/
theorem Registry.apply_models (op : Mutation δ) (h : KeyedById r.models) :
    (r.apply op).1.models = op.spec r.models := by
  cases op with
  | register record =>
    simp only [Registry.apply, register, Mutation.spec]
    split
    · rename_i hsame
      exact (insert_of_getElem? hsame).symm
    · rfl
  | registerAll records => exact foldl_registerOne_models records (r.models, 0)
  | unregister id => rfl
  | setStateIfPresent id state => exact setStateIfPresent_models r.models id state
  | update ids transform => exact foldl_updateOne_models transform ids (r.models, []) h
  | markMigrated level migrated =>
    simp only [Registry.apply, Mutation.spec]
    split
    · rfl
    · split <;> rfl

theorem foldl_registerOne_count (records : List (ModelRecord δ)) (acc : Models δ × ℕ) :
    acc.2 ≤ (records.foldl registerOne acc).2 ∧
      ((records.foldl registerOne acc).2 = acc.2 → (records.foldl registerOne acc).1 = acc.1) := by
  induction records generalizing acc with
  | nil => exact ⟨le_refl _, fun _ => rfl⟩
  | cons r records ih =>
    obtain ⟨hle, hsame⟩ := ih (registerOne acc r)
    rw [List.foldl_cons]
    by_cases hr : acc.1[r.id]? ≠ some r
    · have hcount : (registerOne acc r).2 = acc.2 + 1 := by rw [registerOne, if_pos hr]
      exact ⟨by omega, fun h => by omega⟩
    · have hacc : registerOne acc r = acc := by rw [registerOne, if_neg hr]
      rw [hacc] at hle hsame ⊢
      exact ⟨hle, hsame⟩

theorem foldl_updateOne_changed (ids : List String) (acc : Models δ × List (ModelRecord δ)) :
    acc.2.length ≤ (ids.foldl (updateOne transform) acc).2.length ∧
      ((ids.foldl (updateOne transform) acc).2.length = acc.2.length →
        (ids.foldl (updateOne transform) acc).1 = acc.1) := by
  induction ids generalizing acc with
  | nil => exact ⟨le_refl _, fun _ => rfl⟩
  | cons id ids ih =>
    obtain ⟨hle, hsame⟩ := ih (updateOne transform acc id)
    rw [List.foldl_cons]
    -- a round leaves everything as it is, or changes one record more
    have hone : updateOne transform acc id = acc ∨
        (updateOne transform acc id).2.length = acc.2.length + 1 := by
      unfold updateOne
      split
      · exact .inl rfl
      · split
        · exact .inl rfl
        · exact .inr (by simp)
    rcases hone with hone | hone
    · rw [hone] at hle hsame ⊢
      exact ⟨hle, hsame⟩
    · exact ⟨by omega, fun h => by omega⟩

omit [DecidableEq δ] in
/-- Erasing what is not there changes nothing. -/
theorem erase_of_getElem?_none (h : models[id]? = none) : models.erase id = models := by
  apply Std.ExtTreeMap.ext_getElem?
  intro k
  rw [Std.ExtTreeMap.getElem?_erase]
  split
  · rename_i heq
    rw [← Std.LawfulEqCmp.eq_of_compare heq, h]
  · rfl

/-- A mutator that does not call `save` leaves the records as it read them. -/
theorem Registry.apply_models_of_not_save (op : Mutation δ)
    (h : (r.apply op).2 ≠ .save) : (r.apply op).1.models = r.models := by
  cases op with
  | register record =>
    simp only [Registry.apply, register] at h ⊢
    split at h
    · rename_i hsame
      rw [if_pos hsame]
    · exact absurd rfl h
  | registerAll records =>
    simp only [Registry.apply, registerAll] at h ⊢
    split at h
    · exact absurd rfl h
    · rename_i hcount
      exact (foldl_registerOne_count records (r.models, 0)).2 (by omega)
  | unregister id =>
    simp only [Registry.apply, unregister] at h ⊢
    split at h
    · exact absurd rfl h
    · rename_i hsome
      exact erase_of_getElem?_none (Option.not_isSome_iff_eq_none.1 hsome)
  | setStateIfPresent id state =>
    simp only [Registry.apply, setStateIfPresent] at h ⊢
    cases hr : r.models[id]? with
    | none => simp only
    | some record =>
      simp only [hr] at h ⊢
      split at h
      · rename_i hstate
        rw [if_pos hstate]
      · exact absurd rfl h
  | update ids transform =>
    simp only [Registry.apply, update] at h ⊢
    split at h
    · rename_i hempty
      refine (foldl_updateOne_changed transform ids (r.models, [])).2 ?_
      rw [List.isEmpty_iff.1 hempty]
    · exact absurd rfl h
  | markMigrated level migrated =>
    simp only [Registry.apply]
    split
    · rfl
    · split <;> rfl

@[simp] theorem Registry.apply_generation (op : Mutation δ) :
    (r.apply op).1.generation = r.generation := by
  cases op with
  | markMigrated level migrated =>
    simp only [Registry.apply]
    split
    · rfl
    · split <;> rfl
  | _ => rfl

end Hedos.Kernel
