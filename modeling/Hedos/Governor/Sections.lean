import Hedos.Governor.GateInvariant
import Hedos.Governor.Memory

/-!
# What the governor's calls share

The calls of the governor meet in four places: the residents behind the state mutex, the
lease counts, the unloaders and unload locks of the residency manager, and the GPU gate.
Each of them is reached in short lock sections with no await inside. `Section` lists these
sections, and `Section.run` says what each does; a section that reads carries the answer it
got and is enabled only where that is the answer.

The gate is kept as the list of its holders: whoever enters finds it free, or held by its
own producer when that producer shares. This is what every step of the gate does to the
guards in hand (`GateInv.step_section`); the order of arrival is not used here.

Two marks are kept for the statements and read by no section: `loaded`, the models for which
`mark_loaded` has run and whose raw unloader has not run since, and `evicted`, the models
that a governed unloader was the last to remove.
-/

namespace Hedos.Governor

open Function

/-- The raw callback behind a governed unloader: the no-op of a reservation, or the one
that frees the weights. -/
inductive RawUnloader
  | noop
  | real
deriving DecidableEq

/-- Gate holders that may hold it together. -/
def Compatible (holders : List (ℕ × GpuProducer)) (producer : GpuProducer) : Bool :=
  holders.all fun holder => holder.2 == producer && producer.shares

structure Shared where
  memory : Memory
  leases : String → ℕ
  admission : Option ℕ
  unloaders : String → Option RawUnloader
  unloadLocks : String → Option ℕ
  gate : List (ℕ × GpuProducer)
  loaded : String → Bool
  evicted : String → Bool

/-- A governor nobody has used. -/
def Shared.new (memory : Memory) : Shared :=
  ⟨memory, fun _ => 0, none, fun _ => none, fun _ => none, [], fun _ => false, fun _ => false⟩

inductive Section
  /-- Nothing shared: a probe, an await on something else, a return. -/
  | pause
  /-- `ModelLease::acquire`. -/
  | acquireLease (id : String)
  /-- `ModelLease::release`. -/
  | releaseLease (id : String)
  /-- `leases.count(id) > 0`, with its answer. -/
  | leased (id : String) (answer : Bool)
  /-- The test of `admit` for its way without the mutex. -/
  | stacks (footprintMb : Option ℤ) (answer : Bool)
  | lockAdmission
  | unlockAdmission
  /-- `eviction_conflict`, with what it finds. -/
  | conflict (id : String) (footprintMb : Option ℤ) (found : Option ResidentModel)
  /-- `is_resident`, with its answer. -/
  | isResident (id : String) (answer : Bool)
  /-- The insertion of `reserve`, for a model that is not resident. -/
  | reserve (id name : String) (footprintMb : Option ℤ)
  /-- The insertion of `mark_loaded`. -/
  | insertLoaded (id name : String) (footprintMb : Option ℤ)
  /-- The update of `observe_footprint`. -/
  | observe (id : String) (footprintMb : ℤ)
  /-- `residents.remove` of `mark_unloaded`, called by the governed unloader or not. -/
  | remove (id : String) (governed : Bool)
  /-- `ResidencyManager::register`. -/
  | register (id : String) (raw : RawUnloader)
  /-- `ResidencyManager::deregister`. -/
  | deregister (id : String)
  /-- The per-model lock of `unload_now`. -/
  | lockUnload (id : String)
  | unlockUnload (id : String)
  /-- `unloaders.remove`, with what it takes. -/
  | takeUnloader (id : String) (found : Option RawUnloader)
  /-- `unloaders.entry(id).or_insert`. -/
  | restoreUnloader (id : String) (raw : RawUnloader)
  | enterGate (producer : GpuProducer)
  | leaveGate (producer : GpuProducer)
  /-- The raw callback of an unloader has run to its end. -/
  | ranRaw (id : String) (raw : RawUnloader)
deriving DecidableEq

/-- Go on if the condition holds. -/
def Shared.check (s : Shared) (condition : Bool) : Option Shared :=
  if condition then some s else none

@[simp] theorem Shared.check_eq_some {s s' : Shared} {condition : Bool} :
    s.check condition = some s' ↔ condition = true ∧ s' = s := by
  rw [Shared.check, Option.ite_some_none_eq_some, eq_comm (a := s)]

/-- What a section of call `i` does. -/
def Section.run (i : ℕ) (s : Shared) : Section → Option Shared
  | .pause => some s
  | .acquireLease id =>
    some { s with leases := update s.leases id (s.leases id + 1) }
  | .releaseLease id =>
    some { s with leases := update s.leases id (s.leases id - 1) }
  | .leased id answer => s.check (decide (s.leases id > 0) == answer)
  | .stacks footprintMb answer => s.check (s.memory.stacksFreely footprintMb == answer)
  | .lockAdmission => if s.admission = none then some { s with admission := some i } else none
  | .unlockAdmission => some { s with admission := none }
  | .conflict id footprintMb none => s.check (s.memory.conflicts id footprintMb).isEmpty
  | .conflict id footprintMb (some found) =>
    s.check ((s.memory.conflicts id footprintMb).contains found)
  | .isResident id answer => s.check (s.memory.residents.contains id == answer)
  | .reserve id name footprintMb =>
    if s.memory.residents.contains id then none
    else some { s with memory := s.memory.insert id name footprintMb }
  | .insertLoaded id name footprintMb =>
    some { s with memory := s.memory.insert id name footprintMb }
  | .observe id footprintMb => some { s with memory := s.memory.observe id footprintMb }
  | .remove id governed =>
    some { s with
      memory := s.memory.remove id
      evicted := update s.evicted id governed }
  | .register id .noop =>
    some { s with unloaders := update s.unloaders id (some .noop) }
  | .register id .real =>
    some { s with
      unloaders := update s.unloaders id (some .real)
      loaded := update s.loaded id true }
  | .deregister id => some { s with unloaders := update s.unloaders id none }
  | .lockUnload id =>
    if s.unloadLocks id = none then
      some { s with unloadLocks := update s.unloadLocks id (some i) }
    else none
  | .unlockUnload id =>
    some { s with unloadLocks := update s.unloadLocks id none }
  | .takeUnloader id found =>
    if s.unloaders id = found then
      some { s with unloaders := update s.unloaders id none }
    else none
  | .restoreUnloader id raw =>
    some { s with
      unloaders := update s.unloaders id (some ((s.unloaders id).getD raw)) }
  | .enterGate producer =>
    if Compatible s.gate producer then some { s with gate := (i, producer) :: s.gate } else none
  | .leaveGate producer => some { s with gate := s.gate.erase (i, producer) }
  | .ranRaw _ .noop => some s
  | .ranRaw id .real => some { s with loaded := update s.loaded id false }

/-! ## What a section leaves alone -/

namespace Section

/-- The sections of a generation lease. -/
def ofLease : Section → Bool
  | .acquireLease _ | .releaseLease _ => true
  | _ => false

/-- The sections that touch the residents. -/
def ofResidents : Section → Bool
  | .reserve _ _ _ | .insertLoaded _ _ _ | .observe _ _ | .remove _ _ => true
  | _ => false

/-- The sections that touch the registered unloaders. -/
def ofUnloaders : Section → Bool
  | .register _ _ | .deregister _ | .takeUnloader _ _ | .restoreUnloader _ _ => true
  | _ => false

/-- The sections of the unload locks. -/
def ofLock : Section → Bool
  | .lockUnload _ | .unlockUnload _ => true
  | _ => false

/-- The sections of the gate. -/
def ofGate : Section → Bool
  | .enterGate _ | .leaveGate _ => true
  | _ => false

/-- The end of `mark_loaded`. -/
def ofMark : Section → Bool
  | .register _ .real => true
  | _ => false

/-- The sections that put weights on the books or take them off. -/
def ofWeights : Section → Bool
  | .register _ .real | .ranRaw _ .real => true
  | _ => false

/-- Each part of the shared state changes in its own sections only. -/
structure Frame (sec : Section) (s s' : Shared) : Prop where
  leases : sec.ofLease = false → s'.leases = s.leases
  residents : sec.ofResidents = false → s'.memory = s.memory ∧ s'.evicted = s.evicted
  unloaders : sec.ofUnloaders = false → s'.unloaders = s.unloaders
  unloadLocks : sec.ofLock = false → s'.unloadLocks = s.unloadLocks
  gate : sec.ofGate = false → s'.gate = s.gate
  loaded : sec.ofWeights = false → s'.loaded = s.loaded

theorem run_frame {sec : Section} {i : ℕ} {s s' : Shared} (h : sec.run i s = some s') :
    sec.Frame s s' := by
  revert h
  fun_cases Section.run i s sec <;> intro h <;>
    simp only [Shared.check_eq_some, Option.some.injEq, reduceCtorEq] at h
  all_goals
    first | obtain rfl := h | obtain ⟨-, rfl⟩ := h
    constructor <;> intro hfree <;>
      first | rfl | exact ⟨rfl, rfl⟩ | (obtain ⟨⟩ := hfree)

end Section

/-! ## The gate behind the holders -/

/-- The holders on the list are those with a guard of the gate in hand. -/
def Shared.Holds (s : Shared) (gate : Gate) : Prop :=
  (s.gate.map Prod.snd).Perm (gate.guards.map GateGuard.producer)

/-- Each step of the gate is a section on the list of its holders. -/
theorem GateInv.step_section {gate gate' : Gate} {a : GateAction} (h : GateInv gate)
    (hst : gate.step a = some gate') {s : Shared} (hs : s.Holds gate) :
    ∃ i sec s', Section.run i s sec = some s' ∧ s'.Holds gate' := by
  rcases Gate.step_guards hst with hsame | ⟨guard, htaken⟩ | ⟨guard, hguard, hdropped⟩
  · exact ⟨0, .pause, s, rfl, by rwa [Shared.Holds, hsame]⟩
  · have hfree : Compatible s.gate guard.producer = true := by
      rw [Compatible, List.all_eq_true]
      intro holder hholder
      obtain ⟨other, hother, hproducer⟩ :=
        List.mem_map.1 (hs.mem_iff.1 (List.mem_map_of_mem hholder))
      obtain ⟨hcopy, hshares⟩ := (h.step hst).guards_shared htaken other hother
      simp [← hproducer, hcopy, hshares]
    refine ⟨0, .enterGate guard.producer, _, by rw [Section.run, if_pos hfree], ?_⟩
    rw [Shared.Holds, htaken]
    exact hs.cons _
  · have hheld : guard.producer ∈ s.gate.map Prod.snd :=
      hs.mem_iff.2 (List.mem_map.2 ⟨guard, hguard, rfl⟩)
    obtain ⟨⟨i, -⟩, hholder, rfl⟩ := List.mem_map.1 hheld
    refine ⟨i, .leaveGate guard.producer, _, rfl, ?_⟩
    rw [Shared.Holds, hdropped]
    -- both lists lose the same producer
    have hleft := (List.perm_cons_erase hholder).map Prod.snd
    have hright := (List.perm_cons_erase hguard).map GateGuard.producer
    exact (hleft.symm.trans (hs.trans hright)).cons_inv

/-- The calls' shared state at its own steps. -/
def Shared.Reached (memory : Memory) : Shared → Prop :=
  Transition.Reachable (fun s (call : ℕ × Section) => call.2.run call.1 s) (· = .new memory)

/-- Whatever the gate reaches, calls that enter and leave reach its holders. -/
theorem Gate.Reached.holders {gate : Gate} (h : gate.Reached) (memory : Memory) :
    ∃ s, Shared.Reached memory s ∧ s.Holds gate := by
  refine (Transition.Reachable.invariant
    (P := fun gate => GateInv gate ∧ ∃ s, Shared.Reached memory s ∧ s.Holds gate) ?_ ?_ h).2
  · rintro _ rfl
    exact ⟨gateInv_new, _, .init rfl, .refl _⟩
  · rintro gate a gate' ⟨hinv, s, hreached, hs⟩ hst
    obtain ⟨i, sec, s', hrun, hs'⟩ := hinv.step_section hst hs
    exact ⟨hinv.step hst, s', hreached.step (a := (i, sec)) hrun, hs'⟩

end Hedos.Governor
