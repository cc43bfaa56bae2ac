import Hedos.Governor.Sections

/-!
# The governor's calls

`governed_one_shot`, `warm_load_acquire` and `ensure_loaded` (`runtime/src/governed.rs`),
with `admit`, `settle_conflicts`, `reserve`, the governed unloader and `unload_now` that
they go through, the `readmit` that an observed footprint may start, and calls of
`unload_now` from outside (a user's, or an idle timer's). Each function is a type of
program counters with an `edge` function, its program text: one line for each way out of
each counter, with the lock section on the way. A counter of a caller holds the counter of
the callee it waits for.

Any number of calls run, in any order, and each may be dropped at every await (`drop`). A
dropped call unwinds through the guards it holds, innermost first: the gate of the
unloader, `RestoreUnloader`, the unload lock, the admission mutex, the generation lease.
The load gate goes before the `ReservationGuard`.

`warm_load_acquire` is the load that finds no previous model. Idle timers are calls of
`unload_now` that may start at any time, so arming and cancelling them leaves no trace here.
-/

namespace Hedos.Governor

open Transition

/-- The model a call is about, as far as the governor looks at it. -/
structure Target where
  id : String
  name : String
  footprintMb : Option ℤ
deriving DecidableEq

/-- A model of known size, named by its id. -/
def Target.sized (id : String) (mb : ℤ) : Target := ⟨id, id, some mb⟩

/-- How a section that has a choice falls out. -/
inductive Choice
  | go
  | yes
  | no
  | drop
  | unloader (raw : RawUnloader)
  | conflict (found : ResidentModel)
  | model (id : String)
  | footprint (mb : ℤ)
deriving DecidableEq

/-! ## `unload_now` and the governed unloader -/

inductive UnloadPc
  | waitLock
  | take
  | waitGate (raw : RawUnloader)
  | check (raw : RawUnloader)
  | running (raw : RawUnloader)
  | remove (raw : RawUnloader)
  | forget (raw : RawUnloader)
  | leave
  | refuse (raw : RawUnloader)
  | restore (raw : RawUnloader)
  | unlock
deriving DecidableEq

/-- The steps of `unload_now(c)`; no counter is left when it returns. -/
def UnloadPc.edge (c : String) : UnloadPc → Choice → Option (Section × Option UnloadPc)
  | .waitLock, .go => some (.lockUnload c, some .take)
  | .waitLock, .drop => some (.pause, none)
  | .take, .unloader raw => some (.takeUnloader c (some raw), some (.waitGate raw))
  | .take, .no => some (.takeUnloader c none, some .unlock)
  -- the governed unloader, inside its gate section
  | .waitGate raw, .go => some (.enterGate (.unload c), some (.check raw))
  | .waitGate raw, .drop => some (.pause, some (.restore raw))
  | .check raw, .yes => some (.leased c true, some (.refuse raw))
  | .check raw, .no => some (.leased c false, some (.running raw))
  | .running raw, .go => some (.ranRaw c raw, some (.remove raw))
  | .running raw, .drop => some (.pause, some (.refuse raw))
  -- `mark_unloaded` is two sections
  | .remove raw, .go => some (.remove c true, some (.forget raw))
  | .forget _, .go => some (.deregister c, some .leave)
  | .leave, .go => some (.leaveGate (.unload c), some .unlock)
  -- refused or dropped: out of the gate, and the unloader is put back
  | .refuse raw, .go => some (.leaveGate (.unload c), some (.restore raw))
  | .restore raw, .go => some (.restoreUnloader c raw, some .unlock)
  | .unlock, .go => some (.unlockUnload c, none)
  | _, _ => none

/-! ## `admit` and `settle_conflicts` -/

inductive AdmitPc
  | policy
  | waitAdmission
  | settle
  | count (c : String)
  | drain (c : String)
  | unload (c : String) (pc : UnloadPc)
  | stillResident (c : String)
  | stillLeased (c : String)
  | reserve (locked : Bool)
  | registerNoop (locked : Bool)
  | unlock
deriving DecidableEq

/-- Where `unload_now` returns to; a dropped call goes on to the admission mutex. -/
def AdmitPc.afterUnload (dropped : Bool) (c : String) : Option UnloadPc → AdmitPc
  | some pc => .unload c pc
  | none => if dropped then .unlock else .stillResident c

/-- Where `settle_conflicts` returns to: `admit` reserves, `readmit` does not. -/
def AdmitPc.afterSettle (reserves : Bool) : AdmitPc := if reserves then .reserve true else .unlock

/-- Where `reserve` returns to: out of `admit`, by way of the mutex if it was taken. -/
def AdmitPc.afterReserve (locked : Bool) : Option AdmitPc := if locked then some .unlock else none

/-- The steps of `admit`, and of `readmit` when it does not reserve. -/
def AdmitPc.edge (t : Target) (dropped reserves : Bool) :
    AdmitPc → Choice → Option (Section × Option AdmitPc)
  | .policy, .yes => some (.stacks t.footprintMb true, some (.reserve false))
  | .policy, .no => some (.stacks t.footprintMb false, some .waitAdmission)
  | .waitAdmission, .go => some (.lockAdmission, some .settle)
  | .waitAdmission, .drop => some (.pause, none)
  -- the loop of `settle_conflicts`
  | .settle, .no => some (.conflict t.id t.footprintMb none, some (afterSettle reserves))
  | .settle, .conflict found =>
    some (.conflict t.id t.footprintMb (some found), some (.count found.modelId))
  | .count c, .yes => some (.leased c true, some (.drain c))
  | .count c, .no => some (.leased c false, some (.unload c .waitLock))
  | .drain c, .go => some (.leased c false, some (.unload c .waitLock))
  | .drain _, .drop => some (.pause, some .unlock)
  | .unload c pc, choice =>
    (pc.edge c choice).map fun next => (next.1, some (afterUnload dropped c next.2))
  | .stillResident c, .yes => some (.isResident c true, some (.stillLeased c))
  | .stillResident c, .no => some (.isResident c false, some .settle)
  -- still resident with no lease: the unload made no progress, and the loop stops
  | .stillLeased c, .yes => some (.leased c true, some .settle)
  | .stillLeased c, .no => some (.leased c false, some (afterSettle reserves))
  -- `reserve` finds the model resident, or inserts it and then registers the no-op
  | .reserve locked, .yes => some (.isResident t.id true, afterReserve locked)
  | .reserve locked, .no =>
    some (.reserve t.id t.name t.footprintMb, some (.registerNoop locked))
  | .registerNoop locked, .go => some (.register t.id .noop, afterReserve locked)
  | .unlock, .go => some (.unlockAdmission, none)
  | _, _ => none

/-! ## `governed_one_shot` -/

inductive OneShotPc
  | beginGeneration
  | admitting (pc : AdmitPc)
  | acquireGate
  | body
  | dropGate
  | endGeneration (admitted : Bool)
  | done
deriving DecidableEq

/-- Where `admit` returns to; a dropped call goes on to the generation lease. -/
def OneShotPc.afterAdmit (dropped : Bool) : Option AdmitPc → OneShotPc
  | some pc => .admitting pc
  | none => if dropped then .endGeneration false else .acquireGate

/-- The steps of `governed_one_shot`. The end of the body and its drop go the same way. -/
def OneShotPc.edge (t : Target) (producer : GpuProducer) (dropped : Bool) :
    OneShotPc → Choice → Option (Section × OneShotPc)
  -- the lease comes before the admission
  | .beginGeneration, .go => some (.acquireLease t.id, .admitting .policy)
  | .admitting pc, choice =>
    (pc.edge t dropped true choice).map fun next => (next.1, afterAdmit dropped next.2)
  | .acquireGate, .go => some (.enterGate producer, .body)
  | .acquireGate, .drop => some (.pause, .endGeneration true)
  | .body, .go => some (.pause, .dropGate)
  | .dropGate, .go => some (.leaveGate producer, .endGeneration true)
  | .endGeneration _, .go => some (.releaseLease t.id, .done)
  | _, _ => none

/-! ## `warm_load_acquire` and `ensure_loaded` -/

inductive LoadPc
  | probe
  | admitting (pc : AdmitPc)
  | waitLoad
  | previous
  | removePrevious (p : String)
  | forgetPrevious (p : String)
  | loading
  | insertLoaded
  | registerReal
  | dropLoad
  | observe
  | failed
  | unreserve
  | forgetReservation
  | waitProducer
  | recheck
  | again
  | generating
  | release
  | done
deriving DecidableEq

/-- Where `admit` returns to; there is no reservation to drop before it returns. -/
def LoadPc.afterAdmit (dropped : Bool) : Option AdmitPc → LoadPc
  | some pc => .admitting pc
  | none => if dropped then .done else .waitLoad

/-- The steps of a governed load. A load that fails and a load that is dropped unwind the
same way. -/
def LoadPc.edge (t : Target) (producer : GpuProducer) (dropped : Bool) :
    LoadPc → Choice → Option (Section × LoadPc)
  | .probe, .yes => some (.pause, .waitProducer)
  | .probe, .no => some (.pause, .admitting .policy)
  | .probe, .drop => some (.pause, .done)
  | .admitting pc, choice =>
    (pc.edge t dropped true choice).map fun next => (next.1, afterAdmit dropped next.2)
  | .waitLoad, .go => some (.enterGate (.load t.id), .previous)
  | .waitLoad, .drop => some (.pause, .unreserve)
  -- under the load gate: a previous model of the engine is unloaded and forgotten first
  | .previous, .no => some (.pause, .loading)
  | .previous, .model p => some (.pause, .removePrevious p)
  | .previous, .drop => some (.pause, .failed)
  | .removePrevious p, .go => some (.remove p false, .forgetPrevious p)
  | .forgetPrevious p, .go => some (.deregister p, .loading)
  | .loading, .yes => some (.pause, .insertLoaded)
  | .loading, .no => some (.pause, .failed)
  | .loading, .drop => some (.pause, .failed)
  -- `mark_loaded` is two sections; only then is the `ReservationGuard` disarmed
  | .insertLoaded, .go => some (.insertLoaded t.id t.name t.footprintMb, .registerReal)
  | .registerReal, .go => some (.register t.id .real, .dropLoad)
  | .dropLoad, .go => some (.leaveGate (.load t.id), .observe)
  | .observe, .footprint mb => some (.observe t.id mb, .waitProducer)
  | .observe, .no => some (.pause, .waitProducer)
  -- the armed `ReservationGuard` runs `mark_unloaded`, whoever made the reservation
  | .failed, .go => some (.leaveGate (.load t.id), .unreserve)
  | .unreserve, .go => some (.remove t.id false, .forgetReservation)
  | .forgetReservation, .go => some (.deregister t.id, .done)
  -- `acquire_loaded`: evicted between the load and the gate, it loads again
  | .waitProducer, .go => some (.enterGate producer, .recheck)
  | .waitProducer, .drop => some (.pause, .done)
  | .recheck, .yes => some (.pause, .generating)
  | .recheck, .no => some (.pause, .again)
  | .recheck, .drop => some (.pause, .release)
  | .again, .go => some (.leaveGate producer, .probe)
  | .generating, .go => some (.pause, .release)
  | .release, .go => some (.leaveGate producer, .done)
  | _, _ => none

/-! ## A call -/

/-- What a call is running; no counter is left when it is over. -/
inductive Program
  | oneShot (pc : OneShotPc)
  | load (pc : LoadPc)
  | readmitting (pc : Option AdmitPc)
  | unload (pc : Option UnloadPc)
deriving DecidableEq

def Program.edge (t : Target) (producer : GpuProducer) (dropped : Bool) :
    Program → Choice → Option (Section × Program)
  | .oneShot pc, choice =>
    (pc.edge t producer dropped choice).map fun next => (next.1, .oneShot next.2)
  | .load pc, choice =>
    (pc.edge t producer dropped choice).map fun next => (next.1, .load next.2)
  | .readmitting (some pc), choice =>
    (pc.edge t dropped false choice).map fun next => (next.1, .readmitting next.2)
  | .unload (some pc), choice => (pc.edge t.id choice).map fun next => (next.1, .unload next.2)
  | .readmitting none, _ => none
  | .unload none, _ => none

/-- A call; `dropped` says that its future has been dropped and it is unwinding. -/
structure Call where
  target : Target
  producer : GpuProducer
  dropped : Bool
  program : Program
deriving DecidableEq

def Call.edge (call : Call) (choice : Choice) : Option (Section × Call) :=
  (call.program.edge call.target call.producer (call.dropped || choice == .drop) choice).map
    fun next =>
      (next.1, { call with dropped := call.dropped || choice == .drop, program := next.2 })

/-- The calls that can be made. -/
inductive Kind
  | oneShot
  | load
  | readmitting
  | unload
deriving DecidableEq

/-- The first counter of a call. -/
def Kind.start : Kind → Program
  | .oneShot => .oneShot .beginGeneration
  | .load => .load .probe
  | .readmitting => .readmitting (some .waitAdmission)
  | .unload => .unload (some .waitLock)

/-! ## All calls together -/

structure System where
  shared : Shared
  calls : List Call

inductive SystemAction
  /-- A call begins. -/
  | spawn (kind : Kind) (target : Target) (producer : GpuProducer)
  /-- Call `i` takes its next step. -/
  | move (i : ℕ) (choice : Choice)
  /-- `MemoryGovernor::apply`. -/
  | apply (policy : EvictionPolicy) (ramBudgetMb : Option ℤ)
deriving DecidableEq

def System.step (s : System) : SystemAction → Option System
  | .spawn kind target producer =>
    some { s with calls := s.calls ++ [⟨target, producer, false, kind.start⟩] }
  | .move i choice =>
    s.calls[i]?.bind fun call =>
      (call.edge choice).bind fun next =>
        (next.1.run i s.shared).map fun shared => ⟨shared, s.calls.set i next.2⟩
  | .apply policy ramBudgetMb =>
    some { s with shared.memory.evictionPolicy := policy, shared.memory.ramBudgetMb := ramBudgetMb }

/-- A governor with no residents and no calls, under any policy. -/
def System.Fresh (s : System) : Prop :=
  ∃ memory : Memory, memory.residents = .empty ∧ s = ⟨.new memory, []⟩

/-- A governor as it starts, under the strict-single policy. -/
def System.new (heavyThresholdMb defaultBudgetMb : ℤ) : System :=
  ⟨.new (.new heavyThresholdMb defaultBudgetMb), []⟩

theorem System.new_fresh (heavyThresholdMb defaultBudgetMb : ℤ) :
    (System.new heavyThresholdMb defaultBudgetMb).Fresh := ⟨_, rfl, rfl⟩

/-- What a step can do: one call runs one section, a call begins, or the policy changes. -/
theorem System.step_cases {s t : System} {a : SystemAction} (h : s.step a = some t) :
    (∃ i choice call sec call' shared, a = .move i choice ∧ s.calls[i]? = some call ∧
      call.edge choice = some (sec, call') ∧ sec.run i s.shared = some shared ∧
      t = ⟨shared, s.calls.set i call'⟩) ∨
    (∃ kind target producer, a = .spawn kind target producer ∧
      t = { s with calls := s.calls ++ [⟨target, producer, false, kind.start⟩] }) ∨
    (∃ policy ramBudgetMb, a = .apply policy ramBudgetMb ∧ t.calls = s.calls ∧
      t.shared = { s.shared with
        memory.evictionPolicy := policy, memory.ramBudgetMb := ramBudgetMb }) := by
  cases a with
  | spawn kind target producer =>
    exact .inr (.inl ⟨kind, target, producer, rfl, (Option.some.inj h).symm⟩)
  | move i choice =>
    refine .inl ?_
    simp only [System.step, Option.bind_eq_some_iff, Option.map_eq_some_iff] at h
    obtain ⟨call, hcall, ⟨sec, call'⟩, hedge, shared, hrun, rfl⟩ := h
    exact ⟨i, choice, call, sec, call', shared, rfl, hcall, hedge, hrun, rfl⟩
  | apply policy ramBudgetMb =>
    refine .inr (.inr ⟨policy, ramBudgetMb, rfl, ?_⟩)
    cases h
    exact ⟨rfl, rfl⟩

end Hedos.Governor
