import Hedos.Governor.Memory
import Hedos.Lib.Transition
import Mathlib.Tactic.Linarith

/-!
# One heavy model at a time

The strict-single policy promises at most one heavy resident. `admit` takes the admission
path for a footprint that is known to be heavy and lets every other model stack, while
`reserve` records a model of unknown size at the threshold, that is, as heavy. `mark_loaded`
records a footprint and evicts nobody.

The calls are run one after another here, with no lease in the way and every unloader
succeeding, so `unload_now` of a conflict ends in its `mark_unloaded`.
-/

namespace Hedos.Governor

open Transition

namespace Memory

/-! ## The calls -/

/-- The loop of `settle_conflicts`; the list says which conflict each round finds. -/
def settleConflicts (g : Memory) (id : String) (footprintMb : Option ℤ) :
    List ResidentModel → Option Memory
  | [] => if g.conflicts id footprintMb = [] then some g else none
  | conflict :: rest =>
    if conflict ∈ g.conflicts id footprintMb then
      (g.remove conflict.modelId).settleConflicts id footprintMb rest
    else none

/-- `admit`, its verdict apart. -/
def admitModel (g : Memory) (id name : String) (footprintMb : Option ℤ)
    (found : List ResidentModel) : Option Memory :=
  if g.stacksFreely footprintMb then some (g.reserve id name footprintMb)
  else (g.settleConflicts id footprintMb found).map fun g' => g'.reserve id name footprintMb

end Memory

inductive MemoryAction
  | admitModel (id name : String) (footprintMb : Option ℤ) (found : List ResidentModel)
  | markLoaded (id name : String) (footprintMb : Option ℤ)
  | markUnloaded (id : String)

def Memory.step (g : Memory) : MemoryAction → Option Memory
  | .admitModel id name footprintMb found => g.admitModel id name footprintMb found
  | .markLoaded id name footprintMb => some (g.insert id name footprintMb)
  | .markUnloaded id => some (g.remove id)

namespace Memory

/-! ## Exclusivity -/

/-- A resident whose recorded footprint is at or above the threshold. -/
def HeavyResident (g : Memory) (r : ResidentModel) : Prop :=
  r ∈ g.residents.entries ∧ r.footprintMb ≥ g.heavyThresholdMb

/-- At most one resident is heavy. -/
def Exclusive (g : Memory) : Prop :=
  ∀ r r', g.HeavyResident r → g.HeavyResident r' → r = r'

/-- Nobody but `id` is heavy. -/
def NoOtherHeavy (g : Memory) (id : String) : Prop :=
  ∀ r, g.HeavyResident r → r.modelId = id

/-- What a call has to meet: a model of unknown size is admitted, and a model is marked
loaded at a heavy footprint, only when no other resident is heavy. -/
def Admissible (g : Memory) : MemoryAction → Prop
  | .admitModel id _ none _ => g.residents.contains id = false → g.NoOtherHeavy id
  | .admitModel _ _ (some _) _ => True
  | .markLoaded id _ footprintMb =>
    g.recorded footprintMb ≥ g.heavyThresholdMb → g.NoOtherHeavy id
  | .markUnloaded _ => True

variable {g t : Memory} {id name : String} {footprintMb : Option ℤ}

theorem Exclusive.mono (h : g.Exclusive)
    (hsub : ∀ r, t.HeavyResident r → g.HeavyResident r) : t.Exclusive :=
  fun r r' hr hr' => h r r' (hsub r hr) (hsub r' hr')

theorem heavyResident_remove {r : ResidentModel} :
    (g.remove id).HeavyResident r ↔ g.HeavyResident r ∧ r.modelId ≠ id := by
  simp only [HeavyResident, remove, Residents.mem_remove]
  tauto

theorem heavyResident_insert {r : ResidentModel} :
    (g.insert id name footprintMb).HeavyResident r ↔
      (r = ⟨id, name, g.recorded footprintMb, g.loadOrder⟩ ∧
        g.recorded footprintMb ≥ g.heavyThresholdMb) ∨
      (g.HeavyResident r ∧ r.modelId ≠ id) := by
  simp only [HeavyResident, insert, Residents.mem_insert]
  constructor
  · rintro ⟨rfl | ⟨hmem, hne⟩, hheavy⟩
    · exact .inl ⟨rfl, hheavy⟩
    · exact .inr ⟨⟨hmem, hheavy⟩, hne⟩
  · rintro (⟨rfl, hheavy⟩ | ⟨⟨hmem, hheavy⟩, hne⟩)
    · exact ⟨.inl rfl, hheavy⟩
    · exact ⟨.inr ⟨hmem, hne⟩, hheavy⟩

/-- Recording a footprint keeps exclusivity exactly when it is light or nobody else is
heavy. -/
theorem exclusive_insert_iff (h : g.Exclusive) :
    (g.insert id name footprintMb).Exclusive ↔
      (g.recorded footprintMb ≥ g.heavyThresholdMb → g.NoOtherHeavy id) := by
  constructor
  · intro hex hheavy r hr
    by_contra hne
    -- two heavy entries with different ids, the new one and `r`
    have hnew := heavyResident_insert.2 (.inl ⟨rfl, hheavy⟩ :
      _ ∨ (g.HeavyResident ⟨id, name, g.recorded footprintMb, g.loadOrder⟩ ∧ _))
    have hsame := hex r _ (heavyResident_insert.2 (.inr ⟨hr, hne⟩)) hnew
    exact hne (congrArg ResidentModel.modelId hsame)
  · intro hok r r' hr hr'
    rw [heavyResident_insert] at hr hr'
    rcases hr with ⟨rfl, hheavy⟩ | ⟨hr, hne⟩ <;> rcases hr' with ⟨rfl, hheavy'⟩ | ⟨hr', hne'⟩
    · rfl
    · exact absurd (hok hheavy r' hr') hne'
    · exact absurd (hok hheavy' r hr) hne
    · exact h r r' hr hr'

/-! ## Settling -/

variable {found : List ResidentModel}

theorem settleConflicts_frame (h : g.settleConflicts id footprintMb found = some t) :
    t.heavyThresholdMb = g.heavyThresholdMb ∧ t.evictionPolicy = g.evictionPolicy ∧
      t.conflicts id footprintMb = [] ∧
      ∀ r, t.HeavyResident r → g.HeavyResident r := by
  induction found generalizing g with
  | nil =>
    simp only [settleConflicts, Option.ite_some_none_eq_some] at h
    obtain ⟨hnone, rfl⟩ := h
    exact ⟨rfl, rfl, hnone, fun _ hr => hr⟩
  | cons conflict rest ih =>
    simp only [settleConflicts, Option.ite_none_right_eq_some] at h
    obtain ⟨hthr, hpol, hnone, hsub⟩ := ih h.2
    exact ⟨hthr, hpol, hnone, fun r hr => (heavyResident_remove.1 (hsub r hr)).1⟩

/-- Under strict-single, what is left after settling has no heavy model but `id`. -/
theorem settleConflicts_noOtherHeavy (hpol : g.evictionPolicy = .strictSingle)
    (h : g.settleConflicts id footprintMb found = some t) : t.NoOtherHeavy id := by
  obtain ⟨hthr, hpol', hnone, -⟩ := settleConflicts_frame h
  intro r hr
  by_contra hne
  -- a heavy resident other than `id` would still be a conflict
  have hmem : r ∈ t.conflicts id footprintMb := by
    rw [conflicts, hpol', hpol]
    exact List.mem_filter.2 ⟨Residents.mem_others.2 ⟨hr.1, hne⟩, by simpa using hr.2⟩
  rw [hnone] at hmem
  exact absurd hmem List.not_mem_nil

/-! ## One call -/

theorem exclusive_reserve_iff (h : g.Exclusive) :
    (g.reserve id name footprintMb).Exclusive ↔
      (g.residents.contains id = false → g.recorded footprintMb ≥ g.heavyThresholdMb →
        g.NoOtherHeavy id) := by
  unfold reserve
  cases hres : g.residents.contains id with
  | true => simpa using h
  | false => simpa using exclusive_insert_iff h

/-- An admission keeps exclusivity exactly when it is admissible. -/
theorem exclusive_admit_iff (hpol : g.evictionPolicy = .strictSingle)
    (h : g.Exclusive) (hcall : g.admitModel id name footprintMb found = some t) :
    t.Exclusive ↔ g.Admissible (.admitModel id name footprintMb found) := by
  unfold admitModel at hcall
  split at hcall
  · rename_i hfree
    rw [← Option.some.inj hcall, exclusive_reserve_iff h]
    cases footprintMb with
    | none => simp [Admissible, recorded]
    | some footprint =>
      -- the light path is only taken by a footprint below the threshold
      have hlight : ¬ g.recorded (some footprint) ≥ g.heavyThresholdMb := by
        simpa [stacksFreely, isHeavy, hpol, recorded] using hfree
      simp [Admissible, hlight]
  · rename_i hfree
    obtain ⟨g', hsettle, rfl⟩ := Option.map_eq_some_iff.1 hcall
    have hno := settleConflicts_noOtherHeavy hpol hsettle
    have hex : g'.Exclusive := h.mono (settleConflicts_frame hsettle).2.2.2
    rw [exclusive_reserve_iff hex]
    cases footprintMb with
    | none => simp [stacksFreely, isHeavy, hpol] at hfree
    | some footprint => exact ⟨fun _ => trivial, fun _ _ _ => hno⟩

theorem admit_evictionPolicy (hcall : g.admitModel id name footprintMb found = some t) :
    t.evictionPolicy = g.evictionPolicy := by
  have hreserve : ∀ g' : Memory,
      (g'.reserve id name footprintMb).evictionPolicy = g'.evictionPolicy := by
    intro g'
    unfold reserve
    split <;> rfl
  unfold admitModel at hcall
  split at hcall
  · rw [← Option.some.inj hcall, hreserve]
  · obtain ⟨g', hsettle, rfl⟩ := Option.map_eq_some_iff.1 hcall
    rw [hreserve, (settleConflicts_frame hsettle).2.1]

end Memory

/-! ## Every sequence of calls -/

/-- Under strict-single, at most one resident is heavy after every call of a sequence exactly
when every call of it is admissible. -/
theorem strict_single_exclusive_iff {g : Memory} (hempty : g.residents = .empty)
    (hpol : g.evictionPolicy = .strictSingle) (calls : List MemoryAction) :
    StatesMeet Memory.step Memory.Exclusive g calls ↔
      StepsMeet Memory.step Memory.Admissible g calls := by
  refine statesMeet_iff_stepsMeet (I := fun g => g.evictionPolicy = .strictSingle)
    (fun g a t hg _ hstep _ => ?_) (fun g a t hg hex hstep => ?_) hpol (fun r _ hr _ => ?_) calls
  · cases a with
    | admitModel id name footprintMb found => exact (Memory.admit_evictionPolicy hstep).trans hg
    | markLoaded id name footprintMb =>
      cases hstep
      exact hg
    | markUnloaded id =>
      cases hstep
      exact hg
  · cases a with
    | admitModel id name footprintMb found => exact Memory.exclusive_admit_iff hg hex hstep
    | markLoaded id name footprintMb =>
      cases hstep
      exact Memory.exclusive_insert_iff hex
    | markUnloaded id =>
      cases hstep
      refine ⟨fun _ => trivial, fun _ => hex.mono fun r hr => ?_⟩
      exact (Memory.heavyResident_remove.1 hr).1
  · have hmem := hr.1
    rw [hempty] at hmem
    exact absurd hmem List.not_mem_nil

/-- A heavy model, and a second one that evicts it. -/
def twoHeavy : List MemoryAction :=
  [.admitModel "a" "A" (some 2048) [], .admitModel "b" "B" (some 4096) [⟨"a", "A", 2048, 0⟩]]

/-- Models of known size stay exclusive. -/
theorem strict_single_exclusive_known_sizes :
    (run Memory.step (.new 1024 6553) twoHeavy).isSome = true ∧
      StatesMeet Memory.step Memory.Exclusive (.new 1024 6553) twoHeavy :=
  ⟨by decide, (strict_single_exclusive_iff rfl rfl twoHeavy).2
    fun _ _ => ⟨trivial, fun _ _ => ⟨trivial, trivial⟩⟩⟩

/-- Two models of unknown size. -/
def twoUnknown : List MemoryAction := [.admitModel "a" "A" none [], .admitModel "b" "B" none []]

/-- Both are recorded at the threshold, and neither makes room. -/
theorem strict_single_not_exclusive :
    ¬ ∀ (g : Memory) (calls : List MemoryAction), g.residents = .empty →
      g.evictionPolicy = .strictSingle → StatesMeet Memory.step Memory.Exclusive g calls := by
  intro hall
  have hlast := ((hall (.new 1024 6553) twoUnknown rfl rfl).2 _ rfl).2 _ rfl
  have hsame := hlast ⟨"a", "A", 1024, 0⟩ ⟨"b", "B", 1024, 1⟩
    ⟨by decide, by decide⟩ ⟨by decide, by decide⟩
  revert hsame
  decide

end Hedos.Governor
