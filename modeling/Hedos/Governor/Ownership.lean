import Hedos.Governor.CallViews

/-!
# Who holds what around a load and an unload

The unload lock of a model, the unload gate and the load gate, as the calls hold them. A call
that stands where the code holds one of them is on record in the shared state
(`System.Owners`), so two calls never hold the load gate and the unload gate of models at
once, and no two calls hold the unload lock of one model.
-/

namespace Hedos.Governor

open Transition

/-! ## Views -/

/-- Holding the per-model unload lock. -/
def UnloadPc.locked : UnloadPc → Bool
  | .waitLock => false
  | _ => true

/-- Holding the gate as an unloader. -/
def UnloadPc.inGate : UnloadPc → Bool
  | .check _ | .running _ | .remove _ | .forget _ | .leave | .refuse _ => true
  | _ => false

/-- Holding the gate to load. -/
def LoadPc.inGate : LoadPc → Bool
  | .previous | .removePrevious _ | .forgetPrevious _ | .loading | .insertLoaded | .registerReal
  | .dropLoad | .failed => true
  | _ => false

def Call.locks (call : Call) (id : String) : Bool :=
  call.unloading.any fun un => un.1 == id && un.2.locked

def Call.unloadGate (call : Call) (id : String) : Bool :=
  call.unloading.any fun un => un.1 == id && un.2.inGate

def Call.loadGate (call : Call) : Bool :=
  match call.program with
  | .load pc => pc.inGate
  | _ => false

/-! ## Edges -/

section Edges

variable {call call' : Call} {choice : Choice} {sec : Section} {id : String}

/-- A property of the counter of `unload_now` that is not there when it begins comes with an
edge of `unload_now`. -/
theorem Call.edge_any {p : String × UnloadPc → Bool} (h : call.edge choice = some (sec, call'))
    (hwait : ∀ c, p (c, .waitLock) = false) (hnext : call'.unloading.any p = true) :
    ∃ c u u', call.unloading = some (c, u) ∧ u.edge c choice = some (sec, some u') ∧
      call'.unloading = some (c, u') ∧ p (c, u') = true := by
  rcases Call.edge_unloading h with ⟨c, u, u', hun, hedge, hun'⟩ | ⟨-, -, hun' | ⟨c, hun'⟩⟩
  · cases u' with
    | none => simp [hun'] at hnext
    | some u' =>
      rw [hun'] at hnext
      exact ⟨c, u, u', hun, hedge, hun', hnext⟩
  · simp [hun'] at hnext
  · simp [hun', hwait] at hnext

theorem Call.edge_locks (h : call.edge choice = some (sec, call')) (hnext : call'.locks id = true) :
    sec = .lockUnload id ∨ (call.locks id = true ∧ sec ≠ .unlockUnload id) := by
  obtain ⟨c, u, u', hun, hedge, -, hp⟩ := Call.edge_any h (fun c => by simp [UnloadPc.locked]) hnext
  simp only [Bool.and_eq_true, beq_iff_eq] at hp
  obtain ⟨rfl, hlocked⟩ := hp
  rw [Call.locks, hun]
  revert hedge
  fun_cases UnloadPc.edge c u choice <;> (rintro ⟨⟩ <;> simp [UnloadPc.locked])

theorem Call.edge_unlockUnload (h : call.edge choice = some (.unlockUnload id, call')) :
    call.locks id = true := by
  rcases Call.edge_unloading h with ⟨c, u, u', hun, hedge, -⟩ | ⟨-, hfree, -⟩
  · rw [Call.locks, hun]
    revert hedge
    fun_cases UnloadPc.edge c u choice <;> (rintro ⟨⟩ <;> simp [UnloadPc.locked])
  · simp [Section.ofUnload] at hfree

theorem Call.edge_unloadGate (h : call.edge choice = some (sec, call'))
    (hnext : call'.unloadGate id = true) :
    sec = .enterGate (.unload id) ∨ (call.unloadGate id = true ∧ ∀ p, sec ≠ .leaveGate p) := by
  obtain ⟨c, u, u', hun, hedge, -, hp⟩ := Call.edge_any h (fun c => by simp [UnloadPc.inGate]) hnext
  simp only [Bool.and_eq_true, beq_iff_eq] at hp
  obtain ⟨rfl, hgate⟩ := hp
  rw [Call.unloadGate, hun]
  revert hedge
  fun_cases UnloadPc.edge c u choice <;> (rintro ⟨⟩ <;> simp_all [UnloadPc.inGate])

theorem LoadPc.edge_inGate {t : Target} {producer : GpuProducer} {dropped : Bool} {pc next : LoadPc}
    (h : pc.edge t producer dropped choice = some (sec, next)) (hnext : next.inGate = true) :
    sec = .enterGate (.load t.id) ∨ (pc.inGate = true ∧ ∀ p, sec ≠ .leaveGate p) := by
  revert h
  fun_cases LoadPc.edge t producer dropped pc choice
  case case4 a =>
    intro h
    obtain ⟨⟨sec', a'⟩, -, heq⟩ := Option.map_eq_some_iff.1 h
    cases heq
    cases a' <;> cases dropped <;> simp [afterAdmit, inGate] at hnext
  all_goals
    rintro ⟨⟩ <;> simp_all [inGate]

theorem Call.edge_loadGate (h : call.edge choice = some (sec, call'))
    (hnext : call'.loadGate = true) :
    sec = .enterGate (.load call.target.id) ∨ (call.loadGate = true ∧ ∀ p, sec ≠ .leaveGate p) := by
  obtain ⟨-, -, ⟨pc, pc', hp, hp', he⟩ | ⟨pc, pc', hp, hp', he⟩ | ⟨pc, pc', hp, hp', he⟩ |
    ⟨pc, pc', hp, hp', he⟩⟩ := Call.edge_cases h
  · simp [Call.loadGate, hp'] at hnext
  · simp only [Call.loadGate, hp, hp'] at hnext ⊢
    exact LoadPc.edge_inGate he hnext
  · simp [Call.loadGate, hp'] at hnext
  · simp [Call.loadGate, hp'] at hnext

end Edges

/-! ## Sections -/

section Sections

variable {sec : Section} {i j : ℕ} {s s' : Shared} {id : String}

/-- A lock that is held stays held until it is given back. -/
theorem Section.run_unloadLocks (h : sec.run i s = some s') (hlock : s.unloadLocks id = some j)
    (hne : sec ≠ .unlockUnload id) : s'.unloadLocks id = some j := by
  cases sec with
  | lockUnload id' =>
    simp only [Section.run, Option.ite_some_none_eq_some] at h
    obtain ⟨hfree, rfl⟩ := h
    -- the lock that is taken was free, so it is another model's
    have hid : id ≠ id' := by
      rintro rfl
      rw [hlock] at hfree
      simp at hfree
    simpa only [Function.update_of_ne hid] using hlock
  | unlockUnload id' =>
    cases h
    have hid : id ≠ id' := by
      rintro rfl
      exact hne rfl
    simpa only [Function.update_of_ne hid] using hlock
  | _ =>
    rw [(Section.run_frame h).unloadLocks rfl]
    exact hlock

/-- Holders of the gate stay on record until they leave. -/
theorem Section.run_gate {entry : ℕ × GpuProducer} (h : sec.run i s = some s')
    (hmem : entry ∈ s.gate) (hne : entry.1 = i → ∀ p, sec ≠ .leaveGate p) : entry ∈ s'.gate := by
  cases sec with
  | enterGate p =>
    simp only [Section.run, Option.ite_some_none_eq_some] at h
    obtain ⟨-, rfl⟩ := h
    exact .tail _ hmem
  | leaveGate p =>
    cases h
    refine (List.mem_erase_of_ne fun heq => ?_).2 hmem
    exact hne (congrArg Prod.fst heq) p rfl
  | _ =>
    rw [(Section.run_frame h).gate rfl]
    exact hmem

/-- Different calls hold the gate for one producer only. -/
def Shared.GateShared (s : Shared) : Prop :=
  ∀ e ∈ s.gate, ∀ e' ∈ s.gate, e.1 ≠ e'.1 → e.2 = e'.2

theorem Shared.GateShared.run (hs : s.GateShared) (h : sec.run i s = some s') :
    s'.GateShared := by
  cases sec with
  | enterGate p =>
    simp only [Section.run, Option.ite_some_none_eq_some] at h
    obtain ⟨hcompat, rfl⟩ := h
    -- whoever enters a held gate is a further copy of its holder
    have hall : ∀ e ∈ s.gate, e.2 = p := by
      intro e he
      have hone := List.all_eq_true.1 hcompat e he
      simp only [Bool.and_eq_true, beq_iff_eq] at hone
      exact hone.1
    intro e he e' he' hne
    rcases List.mem_cons.1 he with rfl | he <;> rcases List.mem_cons.1 he' with rfl | he'
    · exact absurd rfl hne
    · exact (hall e' he').symm
    · exact hall e he
    · exact hs e he e' he' hne
  | leaveGate p =>
    cases h
    exact fun e he e' he' => hs e (List.mem_of_mem_erase he) e' (List.mem_of_mem_erase he')
  | _ =>
    unfold Shared.GateShared
    rw [(Section.run_frame h).gate rfl]
    exact hs

end Sections

/-! ## The invariant -/

/-- What a call holds is on record under its number. -/
structure System.Owners (s : System) : Prop where
  locks : ∀ i call id, s.calls[i]? = some call → call.locks id = true →
    s.shared.unloadLocks id = some i
  unloadGate : ∀ i call id, s.calls[i]? = some call → call.unloadGate id = true →
    (i, .unload id) ∈ s.shared.gate
  loadGate : ∀ i call, s.calls[i]? = some call → call.loadGate = true →
    (i, .load call.target.id) ∈ s.shared.gate
  shares : s.shared.GateShared

theorem Kind.start_owns (kind : Kind) (target : Target) (producer : GpuProducer) (id : String) :
    Call.locks ⟨target, producer, false, kind.start⟩ id = false ∧
      Call.unloadGate ⟨target, producer, false, kind.start⟩ id = false ∧
      Call.loadGate ⟨target, producer, false, kind.start⟩ = false := by
  cases kind <;> simp [Call.locks, Call.unloadGate, Call.loadGate, Call.unloading, Kind.start,
    Call.admitPc, OneShotPc.admitPc, LoadPc.admitPc, AdmitPc.unloading, UnloadPc.locked,
    UnloadPc.inGate, LoadPc.inGate]

variable {s : System} {i : ℕ} {call : Call}

theorem System.Owners.move {choice : Choice} {call' : Call}
    {sec : Section} {shared : Shared} (h : s.Owners) (hcall : s.calls[i]? = some call)
    (hedge : call.edge choice = some (sec, call')) (hrun : sec.run i s.shared = some shared) :
    System.Owners ⟨shared, s.calls.set i call'⟩ := by
  refine ⟨fun j other id hj hlocks => ?_, fun j other id hj hgate => ?_, fun j other hj hgate => ?_,
    h.shares.run hrun⟩
  · rcases Lists.getElem?_set_cases hj with ⟨rfl, rfl⟩ | ⟨hne, hj⟩
    · rcases Call.edge_locks hedge hlocks with rfl | ⟨hold, hsec⟩
      · simp only [Section.run, Option.ite_some_none_eq_some] at hrun
        rw [← hrun.2]
        exact Function.update_self ..
      · exact Section.run_unloadLocks hrun (h.locks i call id hcall hold) hsec
    · refine Section.run_unloadLocks hrun (h.locks j other id hj hlocks) fun hsec => hne ?_
      -- a lock that the moved call gives back is its own
      have hown := h.locks i call id hcall (Call.edge_unlockUnload (hsec ▸ hedge))
      rw [h.locks j other id hj hlocks] at hown
      exact (Option.some.inj hown).symm
  · rcases Lists.getElem?_set_cases hj with ⟨rfl, rfl⟩ | ⟨hne, hj⟩
    · rcases Call.edge_unloadGate hedge hgate with rfl | ⟨hold, hsec⟩
      · simp only [Section.run, Option.ite_some_none_eq_some] at hrun
        rw [← hrun.2]
        exact .head _
      · exact Section.run_gate hrun (h.unloadGate i call id hcall hold) fun _ => hsec
    · exact Section.run_gate hrun (h.unloadGate j other id hj hgate) fun hji => absurd hji.symm hne
  · rcases Lists.getElem?_set_cases hj with ⟨rfl, rfl⟩ | ⟨hne, hj⟩
    · rw [(Call.edge_cases hedge).1]
      rcases Call.edge_loadGate hedge hgate with rfl | ⟨hold, hsec⟩
      · simp only [Section.run, Option.ite_some_none_eq_some] at hrun
        rw [← hrun.2]
        exact .head _
      · exact Section.run_gate hrun (h.loadGate i call hcall hold) fun _ => hsec
    · exact Section.run_gate hrun (h.loadGate j other hj hgate) fun hji => absurd hji.symm hne

theorem System.Owners.step {t : System} {a : SystemAction} (h : s.Owners)
    (hstep : s.step a = some t) : t.Owners := by
  rcases System.step_cases hstep with
    ⟨i, choice, call, sec, call', shared, rfl, hcall, hedge, hrun, rfl⟩ |
    ⟨kind, target, producer, rfl, rfl⟩ | ⟨policy, budget, rfl, hcalls, hshared⟩
  · exact h.move hcall hedge hrun
  · refine ⟨fun j other id hj hlocks => ?_, fun j other id hj hgate => ?_,
      fun j other hj hgate => ?_, h.shares⟩
    · rcases Lists.getElem?_concat_cases hj with hj | ⟨-, rfl⟩
      · exact h.locks j other id hj hlocks
      · rw [(Kind.start_owns kind target producer id).1] at hlocks
        simp at hlocks
    · rcases Lists.getElem?_concat_cases hj with hj | ⟨-, rfl⟩
      · exact h.unloadGate j other id hj hgate
      · rw [(Kind.start_owns kind target producer id).2.1] at hgate
        simp at hgate
    · rcases Lists.getElem?_concat_cases hj with hj | ⟨-, rfl⟩
      · exact h.loadGate j other hj hgate
      · rw [(Kind.start_owns kind target producer target.id).2.2] at hgate
        simp at hgate
  · refine ⟨fun j other id hj => ?_, fun j other id hj => ?_, fun j other hj => ?_, ?_⟩
    · rw [hshared]
      exact h.locks j other id (hcalls ▸ hj)
    · rw [hshared]
      exact h.unloadGate j other id (hcalls ▸ hj)
    · rw [hshared]
      exact h.loadGate j other (hcalls ▸ hj)
    · rw [hshared]
      exact h.shares

/-- The load gate and an unload gate are never held by two calls at once. -/
theorem System.Owners.not_both {j : ℕ} {other : Call} {id : String}
    (h : s.Owners) (hcall : s.calls[i]? = some call) (hother : s.calls[j]? = some other)
    (hload : call.loadGate = true) (hunload : other.unloadGate id = true) : i = j := by
  by_contra hne
  have hsame := h.shares _ (h.loadGate i call hcall hload) _
    (h.unloadGate j other id hother hunload) hne
  simp at hsame

/-- The unload lock of a model is held by one call. -/
theorem System.Owners.locks_unique {j : ℕ} {other : Call} {id : String}
    (h : s.Owners) (hcall : s.calls[i]? = some call) (hother : s.calls[j]? = some other)
    (hlock : call.locks id = true) (hlock' : other.locks id = true) : i = j := by
  have hi := h.locks i call id hcall hlock
  rw [h.locks j other id hother hlock'] at hi
  exact (Option.some.inj hi).symm

end Hedos.Governor
