import Mathlib.Tactic.Linarith

/-!
# The registry of owned models

`kernel/src/registry.rs`: the records held in `models.json`. The `BTreeMap` of the code is
an ordered map that is equal to another exactly when both hold the same records, which is
what the code compares. A record is what the registry looks into (`id`, `state`, the two
size fields its loader folds together) and `details`, every other field, which it carries
and compares and never reads.

* `load`, `Registry.reload`, `Registry.refresh` and `Registry.write` are the code's own;
* `Mutation` is a call of one of the six mutators, `Registry.apply` what the call does to
  the view it has just read, and `Commit` how it ends: returned early, saved, or written
  without moving the generation.
-/

namespace Hedos.Kernel

/-! ## Records and the store file -/

/-- The lifecycle state of a model record. -/
inductive ModelState
  | ready
  | unresolved
  | missing
deriving DecidableEq

structure ModelRecord (δ : Type) where
  id : String
  state : ModelState
  footprintBytes : Option ℤ
  legacyFootprintMb : Option ℤ
  details : δ
deriving DecidableEq

abbrev Models (δ : Type) := Std.ExtTreeMap String (ModelRecord δ)

def bytesPerMib : ℤ := 2 ^ 20

/-- `i64::saturating_mul`. -/
def saturatingMul (a b : ℤ) : ℤ := max (-(2 ^ 63)) (min (2 ^ 63 - 1) (a * b))

variable {δ : Type}

/-- Fold a size carried in whole mebibytes into the byte figure; the mebibyte figure is
dropped either way. -/
def ModelRecord.adoptLegacyFootprint (record : ModelRecord δ) : ModelRecord δ :=
  match record.legacyFootprintMb, record.footprintBytes with
  | some mebibytes, none =>
    { record with
      footprintBytes := some (saturatingMul mebibytes bytesPerMib)
      legacyFootprintMb := none }
  | _, _ => { record with legacyFootprintMb := none }

/-- What serialization keeps of a record: `footprint_mb` is never written back. -/
def ModelRecord.persisted (record : ModelRecord δ) : ModelRecord δ :=
  { record with legacyFootprintMb := none }

def schemaVersion : ℕ := 1

inductive RegistryError
  | corruptStore
  | futureSchema (found : ℕ)
  | store
  | lock
deriving DecidableEq

/-- What a reader of `models.json` meets: no file, a file that cannot be decoded, one that
cannot be read, or an envelope. -/
inductive StoreFile (δ : Type)
  | missing
  | corrupt
  | unreadable
  | envelope (schema level : ℕ) (models : List (ModelRecord δ))

/-- The map a list of records denotes: keyed by id, the last one of an id wins. -/
def byId (records : List (ModelRecord δ)) : Models δ :=
  .ofList (records.map fun record => (record.id, record))

/-- `Registry::load`. -/
def load : StoreFile δ → Except RegistryError (Models δ × ℕ)
  | .missing => .ok (∅, 0)
  | .corrupt => .error .corruptStore
  | .unreadable => .error .store
  | .envelope schema level models =>
    if schema > schemaVersion then .error (.futureSchema schema)
    else .ok (byId (models.map ModelRecord.adoptLegacyFootprint), level)

/-- What reading leaves behind: a file that cannot be decoded is moved aside. -/
def StoreFile.afterRead : StoreFile δ → StoreFile δ
  | .corrupt => .missing
  | file => file

/-! ## One instance -/

structure Registry (δ : Type) where
  models : Models δ
  migrationLevel : ℕ
  generation : ℕ

/-- Re-read the store into memory, discarding the view. -/
def Registry.reload (r : Registry δ) (file : StoreFile δ) : Except RegistryError (Registry δ) :=
  match load file with
  | .error e => .error e
  | .ok (models, level) => .ok { r with models := models, migrationLevel := level }

variable [DecidableEq δ]

/-- Re-read the store, moving the generation when the records differ. -/
def Registry.refresh (r : Registry δ) (file : StoreFile δ) :
    Except RegistryError (Registry δ × Bool) :=
  match load file with
  | .error e => .error e
  | .ok (models, level) =>
    if models = r.models then .ok ({ r with migrationLevel := level }, false)
    else .ok (⟨models, level, r.generation + 1⟩, true)

omit [DecidableEq δ] in
/-- The store file this view writes: its records in the order of their keys. -/
def Registry.write (r : Registry δ) : StoreFile δ :=
  .envelope schemaVersion r.migrationLevel (r.models.toList.map fun entry => entry.2.persisted)

/-! ## The mutators -/

/-- A call of a mutator. -/
inductive Mutation (δ : Type)
  | register (record : ModelRecord δ)
  | registerAll (records : List (ModelRecord δ))
  | unregister (id : String)
  | setStateIfPresent (id : String) (state : ModelState)
  | update (ids : List String) (transform : ModelRecord δ → Option (ModelRecord δ))
  | markMigrated (level : ℕ) (migrated : Models δ)

/-- How a mutator ends: it returns early, it calls `save`, or it calls `write`. -/
inductive Commit
  | none
  | save
  | write
deriving DecidableEq

def register (models : Models δ) (record : ModelRecord δ) : Models δ × Commit :=
  if models[record.id]? = some record then (models, .none)
  else (models.insert record.id record, .save)

/-- One round of the loop of `register_all`, with the number of changes so far. -/
def registerOne (acc : Models δ × ℕ) (record : ModelRecord δ) : Models δ × ℕ :=
  if acc.1[record.id]? ≠ some record then (acc.1.insert record.id record, acc.2 + 1) else acc

def registerAll (models : Models δ) (records : List (ModelRecord δ)) : Models δ × Commit :=
  let result := records.foldl registerOne (models, 0)
  (result.1, if result.2 > 0 then .save else .none)

omit [DecidableEq δ] in
def unregister (models : Models δ) (id : String) : Models δ × Commit :=
  (models.erase id, if (models[id]?).isSome then .save else .none)

omit [DecidableEq δ] in
def setStateIfPresent (models : Models δ) (id : String) (state : ModelState) : Models δ × Commit :=
  match models[id]? with
  | none => (models, .none)
  | some record =>
    if record.state = state then (models, .none)
    else (models.insert id { record with state := state }, .save)

/-- One round of the loop of `update`, with the records changed so far. -/
def updateOne (transform : ModelRecord δ → Option (ModelRecord δ))
    (acc : Models δ × List (ModelRecord δ)) (id : String) : Models δ × List (ModelRecord δ) :=
  match (acc.1[id]?).bind transform with
  | none => acc
  | some next =>
    if acc.1[id]? = some next then acc
    -- a transform that changes the id moves the record
    else ((if next.id ≠ id then acc.1.erase id else acc.1).insert next.id next, acc.2 ++ [next])

def update (models : Models δ) (ids : List String)
    (transform : ModelRecord δ → Option (ModelRecord δ)) : Models δ × Commit :=
  let result := ids.foldl (updateOne transform) (models, [])
  (result.1, if result.2.isEmpty then .none else .save)

/-- What a mutator does to the view it has just read under the lock. -/
def Registry.apply (r : Registry δ) : Mutation δ → Registry δ × Commit
  | .register record =>
    let result := register r.models record
    ({ r with models := result.1 }, result.2)
  | .registerAll records =>
    let result := registerAll r.models records
    ({ r with models := result.1 }, result.2)
  | .unregister id =>
    let result := unregister r.models id
    ({ r with models := result.1 }, result.2)
  | .setStateIfPresent id state =>
    let result := setStateIfPresent r.models id state
    ({ r with models := result.1 }, result.2)
  | .update ids transform =>
    let result := update r.models ids transform
    ({ r with models := result.1 }, result.2)
  | .markMigrated level migrated =>
    -- an empty store is not stamped, nor one that has changed since it was migrated
    if r.migrationLevel ≥ level ∨ r.models = ∅ then (r, .none)
    else if r.models ≠ migrated then (r, .none)
    else ({ r with migrationLevel := level }, .write)

/-- How a mutator re-reads the store under the lock: `mark_migrated` refreshes, every
other one reloads. -/
def Registry.read (r : Registry δ) (op : Mutation δ) (file : StoreFile δ) :
    Except RegistryError (Registry δ) :=
  match op with
  | .markMigrated _ _ => (r.refresh file).map Prod.fst
  | _ => r.reload file

omit [DecidableEq δ] in
/-- The view after a successful write: `save` moves the generation, `write` does not. -/
def Registry.committed (r : Registry δ) : Commit → Registry δ
  | .save => { r with generation := r.generation + 1 }
  | _ => r

end Hedos.Kernel
