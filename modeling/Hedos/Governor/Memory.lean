import Hedos.Governor.Policy
import Mathlib.Algebra.BigOperators.Group.List.Basic
import Mathlib.Algebra.Order.Ring.Int
import Mathlib.Data.List.Nodup

/-!
# The resident set and the eviction decision

What `MemoryGovernor` keeps behind its state mutex (`runtime/src/governor/memory.rs`), and
the functions that read and write it in one lock section. `Residents` is the `HashMap` from
model id to resident. The map is iterated in no particular order, so `conflicts` lists
every resident that `eviction_conflict` may return; the code returns one of them, and
`None` exactly when there is none. The budget a governor falls back to is a product of a
float, computed once (`defaultBudgetMb`).
-/

namespace Hedos.Governor

/-! ## The map of residents -/

/-- The residents, no two of them with one model id. -/
structure Residents where
  entries : List ResidentModel
  distinct : (entries.map ResidentModel.modelId).Nodup
deriving DecidableEq

namespace Residents

def empty : Residents := ⟨[], List.nodup_nil⟩

/-- `contains_key`. -/
def contains (m : Residents) (id : String) : Bool := m.entries.any fun r => r.modelId == id

/-- The residents other than `id`. -/
def others (m : Residents) (id : String) : List ResidentModel :=
  m.entries.filter fun r => r.modelId ≠ id

variable {m : Residents} {id : String} {r : ResidentModel}

theorem mem_others : r ∈ m.others id ↔ r ∈ m.entries ∧ r.modelId ≠ id := by
  simp [others]

theorem contains_iff : m.contains id = true ↔ ∃ r ∈ m.entries, r.modelId = id := by
  simp [contains]

theorem nodup_others (m : Residents) (id : String) :
    ((m.others id).map ResidentModel.modelId).Nodup :=
  m.distinct.sublist (List.Sublist.map _ List.filter_sublist)

def remove (m : Residents) (id : String) : Residents := ⟨m.others id, m.nodup_others id⟩

/-- `HashMap::insert`, under the id the resident carries. -/
def insert (m : Residents) (r : ResidentModel) : Residents where
  entries := r :: m.others r.modelId
  distinct := by
    refine List.nodup_cons.2 ⟨fun hmem => ?_, m.nodup_others r.modelId⟩
    obtain ⟨r', hr', hid⟩ := List.mem_map.1 hmem
    exact (mem_others.1 hr').2 hid

/-- `get_mut`, to record another footprint. -/
def observe (m : Residents) (id : String) (footprintMb : ℤ) : Residents where
  entries := m.entries.map fun r =>
    if r.modelId = id then { r with footprintMb := footprintMb } else r
  distinct := by
    rw [List.map_map]
    have hid : ResidentModel.modelId ∘ (fun r : ResidentModel =>
        if r.modelId = id then { r with footprintMb := footprintMb } else r)
        = ResidentModel.modelId := by
      funext r
      simp only [Function.comp]
      split <;> rfl
    rw [hid]
    exact m.distinct

@[simp] theorem mem_remove :
    r ∈ (m.remove id).entries ↔ r ∈ m.entries ∧ r.modelId ≠ id := mem_others

@[simp] theorem mem_insert {r' : ResidentModel} :
    r' ∈ (m.insert r).entries ↔ r' = r ∨ (r' ∈ m.entries ∧ r'.modelId ≠ r.modelId) := by
  simp [insert, mem_others]

@[simp] theorem contains_remove (m : Residents) (id id' : String) :
    (m.remove id).contains id' = (m.contains id' && id' != id) := by
  rw [Bool.eq_iff_iff]
  simp only [contains_iff, mem_remove, Bool.and_eq_true, bne_iff_ne]
  constructor
  · rintro ⟨r, ⟨hr, hne⟩, rfl⟩
    exact ⟨⟨r, hr, rfl⟩, hne⟩
  · rintro ⟨⟨r, hr, rfl⟩, hne⟩
    exact ⟨r, ⟨hr, hne⟩, rfl⟩

@[simp] theorem contains_insert (m : Residents) (r : ResidentModel) (id : String) :
    (m.insert r).contains id = (m.contains id || id == r.modelId) := by
  rw [Bool.eq_iff_iff]
  simp only [contains_iff, mem_insert, Bool.or_eq_true, beq_iff_eq]
  constructor
  · rintro ⟨r', rfl | ⟨hr', -⟩, rfl⟩
    · exact .inr rfl
    · exact .inl ⟨r', hr', rfl⟩
  · rintro (⟨r', hr', rfl⟩ | rfl)
    · by_cases hid : r'.modelId = r.modelId
      · exact ⟨r, .inl rfl, hid.symm⟩
      · exact ⟨r', .inr ⟨hr', hid⟩, rfl⟩
    · exact ⟨r, .inl rfl, rfl⟩

@[simp] theorem contains_observe (m : Residents) (id id' : String) (footprintMb : ℤ) :
    (m.observe id footprintMb).contains id' = m.contains id' := by
  simp only [contains, observe, List.any_map]
  congr 1
  funext r
  simp only [Function.comp]
  split <;> rfl

end Residents

/-! ## The state behind the mutex -/

/-- The governor's tunables and `GovernorState`. -/
structure Memory where
  heavyThresholdMb : ℤ
  defaultBudgetMb : ℤ
  residents : Residents
  evictionPolicy : EvictionPolicy
  ramBudgetMb : Option ℤ
  loadOrder : ℕ
deriving DecidableEq

namespace Memory

/-- `MemoryGovernor::new`. -/
def new (heavyThresholdMb defaultBudgetMb : ℤ) : Memory :=
  ⟨heavyThresholdMb, defaultBudgetMb, .empty, .strictSingle, none, 0⟩

/-- A model of unknown size is not heavy. -/
def isHeavy (g : Memory) (footprintMb : Option ℤ) : Bool :=
  footprintMb.any fun footprint => footprint ≥ g.heavyThresholdMb

/-- A model of unknown size is recorded at the heavy threshold. -/
def recorded (g : Memory) (footprintMb : Option ℤ) : ℤ := footprintMb.getD g.heavyThresholdMb

/-- Whether `admit` goes ahead without the admission mutex. -/
def stacksFreely (g : Memory) (footprintMb : Option ℤ) : Bool :=
  !g.isHeavy footprintMb && g.evictionPolicy == .strictSingle

/-- What the residents other than `id` take up. -/
def occupied (g : Memory) (id : String) : ℤ :=
  ((g.residents.others id).map ResidentModel.footprintMb).sum

/-- The order in which the budgeted policy evicts: by load order, then by id. -/
def evictsBefore (r r' : ResidentModel) : Bool :=
  r.loadedAt < r'.loadedAt || (r.loadedAt == r'.loadedAt && r.modelId ≤ r'.modelId)

/-- What `eviction_conflict` may return. -/
def conflicts (g : Memory) (id : String) (footprintMb : Option ℤ) : List ResidentModel :=
  match g.evictionPolicy with
  | .strictSingle => (g.residents.others id).filter fun r => r.footprintMb ≥ g.heavyThresholdMb
  | .budgeted =>
    if g.occupied id + g.recorded footprintMb ≤ g.ramBudgetMb.getD g.defaultBudgetMb then []
    else (g.residents.others id).filter fun r => (g.residents.others id).all (evictsBefore r)

/-- The insertion that `reserve` and `mark_loaded` share. -/
def insert (g : Memory) (id name : String) (footprintMb : Option ℤ) : Memory :=
  { g with
    residents := g.residents.insert ⟨id, name, g.recorded footprintMb, g.loadOrder⟩
    loadOrder := g.loadOrder + 1 }

/-- `reserve` under the lock: a model that is resident already is left as it is. -/
def reserve (g : Memory) (id name : String) (footprintMb : Option ℤ) : Memory :=
  if g.residents.contains id then g else g.insert id name footprintMb

/-- `mark_unloaded` under the lock. -/
def remove (g : Memory) (id : String) : Memory := { g with residents := g.residents.remove id }

/-- `observe_footprint` under the lock. -/
def observe (g : Memory) (id : String) (footprintMb : ℤ) : Memory :=
  { g with residents := g.residents.observe id footprintMb }

end Memory

end Hedos.Governor
