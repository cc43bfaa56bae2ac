import Hedos.Governor.Calls

/-!
# What a call holds, and what a step changes of it

Views of a call that the invariants speak about: the admission and the unload it is in, the
generation lease it holds. For each view there is one lemma that says how an edge of the
program text changes it, so that no invariant has to look at program counters it is not
about. The last section ties the leases to the shared state: every lease that is counted is
held by a call.
-/

namespace Hedos.Governor

open Transition Function

/-! ## Views -/

/-- The `admit` a one-shot call is in. -/
def OneShotPc.admitPc : OneShotPc → Option AdmitPc
  | .admitting pc => some pc
  | _ => none

/-- The `admit` a load is in. -/
def LoadPc.admitPc : LoadPc → Option AdmitPc
  | .admitting pc => some pc
  | _ => none

/-- The `admit` or `readmit` a call is in. -/
def Call.admitPc (call : Call) : Option AdmitPc :=
  match call.program with
  | .oneShot pc => pc.admitPc
  | .load pc => pc.admitPc
  | .readmitting pc => pc
  | .unload _ => none

/-- The `unload_now` an admission is in, with its model. -/
def AdmitPc.unloading : AdmitPc → Option (String × UnloadPc)
  | .unload c pc => some (c, pc)
  | _ => none

/-- The `unload_now` a call is in, with its model. -/
def Call.unloading (call : Call) : Option (String × UnloadPc) :=
  match call.program with
  | .unload pc => pc.map fun pc => (call.target.id, pc)
  | _ => call.admitPc.bind AdmitPc.unloading

/-- Whether a one-shot call holds its generation lease. -/
def OneShotPc.leasing : OneShotPc → Bool
  | .beginGeneration | .done => false
  | _ => true

/-- Whether a call holds a generation lease. -/
def Call.leasing (call : Call) : Bool :=
  match call.program with
  | .oneShot pc => pc.leasing
  | _ => false

/-- Whether a call holds a generation lease on `id`. -/
def Call.leases (call : Call) (id : String) : Bool := call.leasing && call.target.id == id

/-- The sections of `unload_now` that no other function has. -/
def Section.ofUnload : Section → Bool
  | .lockUnload _ | .unlockUnload _ | .takeUnloader _ _ | .restoreUnloader _ _ | .ranRaw _ _
  | .remove _ true => true
  | _ => false

/-! ## Where a callee returns to -/

variable (dropped : Bool)

@[simp] theorem AdmitPc.unloading_afterUnload (c : String)
    (pc : Option UnloadPc) : (afterUnload dropped c pc).unloading = pc.map (c, ·) := by
  cases pc <;> cases dropped <;> rfl

@[simp] theorem AdmitPc.unloading_afterSettle (reserves : Bool) :
    (afterSettle reserves).unloading = none := by
  cases reserves <;> rfl

@[simp] theorem AdmitPc.bind_unloading_afterReserve (locked : Bool) :
    (afterReserve locked).bind unloading = none := by
  cases locked <;> rfl

@[simp] theorem OneShotPc.admitPc_afterAdmit (pc : Option AdmitPc) :
    (afterAdmit dropped pc).admitPc = pc := by
  cases pc <;> cases dropped <;> rfl

@[simp] theorem OneShotPc.leasing_afterAdmit (pc : Option AdmitPc) :
    (afterAdmit dropped pc).leasing = true := by
  cases pc <;> cases dropped <;> rfl

@[simp] theorem LoadPc.admitPc_afterAdmit (pc : Option AdmitPc) :
    (afterAdmit dropped pc).admitPc = pc := by
  cases pc <;> cases dropped <;> rfl

/-! ## The edges of the functions -/

section Edges

variable {c : String} {t : Target} {producer : GpuProducer} {dropped reserves : Bool}
  {choice : Choice} {sec : Section} {call call' : Call}

/-- `unload_now` takes no lease and marks nothing loaded. -/
theorem UnloadPc.edge_foreign {pc : UnloadPc} {next : Option UnloadPc}
    (h : pc.edge c choice = some (sec, next)) : sec.ofLease = false ∧ sec.ofMark = false := by
  revert h
  fun_cases UnloadPc.edge c pc choice <;> (rintro ⟨⟩ <;> exact ⟨rfl, rfl⟩)

/-- An edge of `admit` is one of the `unload_now` it is in, or one of its own. -/
theorem AdmitPc.edge_unloading {pc : AdmitPc} {next : Option AdmitPc}
    (h : pc.edge t dropped reserves choice = some (sec, next)) :
    (∃ c u u', pc.unloading = some (c, u) ∧ u.edge c choice = some (sec, u') ∧
      next.bind unloading = u'.map (c, ·)) ∨
    (pc.unloading = none ∧ sec.ofUnload = false ∧ (sec.ofLease = false ∧ sec.ofMark = false) ∧
      (next.bind unloading = none ∨ ∃ c, next.bind unloading = some (c, .waitLock))) := by
  revert h
  fun_cases AdmitPc.edge t dropped reserves pc choice
  -- inside `unload_now`
  case case11 c u =>
    intro h
    obtain ⟨⟨sec', u'⟩, hedge, heq⟩ := Option.map_eq_some_iff.1 h
    cases heq
    exact .inl ⟨c, u, u', rfl, hedge, unloading_afterUnload dropped c u'⟩
  all_goals
    rintro ⟨⟩ <;> refine .inr ⟨rfl, rfl, ⟨rfl, rfl⟩, ?_⟩ <;>
      first | exact .inr ⟨_, rfl⟩ | exact .inl rfl | exact .inl (by simp)

/-- `admit` takes no lease and marks nothing loaded. -/
theorem AdmitPc.edge_foreign {pc : AdmitPc} {next : Option AdmitPc}
    (h : pc.edge t dropped reserves choice = some (sec, next)) :
    sec.ofLease = false ∧ sec.ofMark = false := by
  rcases AdmitPc.edge_unloading h with ⟨c, u, u', -, hu, -⟩ | ⟨-, -, hfree, -⟩
  · exact UnloadPc.edge_foreign hu
  · exact hfree

/-- An edge of `governed_one_shot` is one of its admission, or one of its own. -/
theorem OneShotPc.edge_admit {pc next : OneShotPc}
    (h : pc.edge t producer dropped choice = some (sec, next)) :
    (∃ a, pc.admitPc = some a ∧ a.edge t dropped true choice = some (sec, next.admitPc)) ∨
    (pc.admitPc = none ∧ sec.ofUnload = false ∧
      (next.admitPc = none ∨ next.admitPc = some .policy)) := by
  revert h
  fun_cases OneShotPc.edge t producer dropped pc choice
  case case2 a =>
    intro h
    obtain ⟨⟨sec', a'⟩, hedge, heq⟩ := Option.map_eq_some_iff.1 h
    cases heq
    exact .inl ⟨a, rfl, by rw [admitPc_afterAdmit]; exact hedge⟩
  all_goals
    rintro ⟨⟩ <;> refine .inr ⟨rfl, rfl, ?_⟩ <;> first | exact .inl rfl | exact .inr rfl

/-- The lease of a one-shot call is taken and given back in two sections of its own. -/
theorem OneShotPc.edge_leasing {pc next : OneShotPc}
    (h : pc.edge t producer dropped choice = some (sec, next)) :
    (sec = .acquireLease t.id ∧ pc.leasing = false ∧ next.leasing = true) ∨
    (sec = .releaseLease t.id ∧ pc.leasing = true ∧ next.leasing = false) ∨
    (sec.ofLease = false ∧ next.leasing = pc.leasing) := by
  revert h
  fun_cases OneShotPc.edge t producer dropped pc choice
  -- `begin_generation`, the admission, and the end of the lease
  case case1 => exact fun h => .inl (by obtain ⟨⟩ := h; exact ⟨rfl, rfl, rfl⟩)
  case case2 a =>
    intro h
    obtain ⟨⟨sec', a'⟩, hedge, heq⟩ := Option.map_eq_some_iff.1 h
    cases heq
    exact .inr (.inr ⟨(AdmitPc.edge_foreign hedge).1, leasing_afterAdmit dropped a'⟩)
  case case7 => exact fun h => .inr (.inl (by obtain ⟨⟩ := h; exact ⟨rfl, rfl, rfl⟩))
  all_goals
    rintro ⟨⟩ <;> exact .inr (.inr ⟨rfl, rfl⟩)

/-- An edge of a governed load is one of its admission, or one of its own. -/
theorem LoadPc.edge_admit {pc next : LoadPc}
    (h : pc.edge t producer dropped choice = some (sec, next)) :
    (∃ a, pc.admitPc = some a ∧ a.edge t dropped true choice = some (sec, next.admitPc)) ∨
    (pc.admitPc = none ∧ sec.ofUnload = false ∧ sec.ofLease = false ∧
      (next.admitPc = none ∨ next.admitPc = some .policy)) := by
  revert h
  fun_cases LoadPc.edge t producer dropped pc choice
  case case4 a =>
    intro h
    obtain ⟨⟨sec', a'⟩, hedge, heq⟩ := Option.map_eq_some_iff.1 h
    cases heq
    exact .inl ⟨a, rfl, by rw [admitPc_afterAdmit]; exact hedge⟩
  all_goals
    rintro ⟨⟩ <;> refine .inr ⟨rfl, rfl, rfl, ?_⟩ <;> first | exact .inl rfl | exact .inr rfl

/-! ## The edges of a call -/

/-- An edge of a call is an edge of what it is running. -/
theorem Call.edge_cases (h : call.edge choice = some (sec, call')) :
    call'.target = call.target ∧ call'.producer = call.producer ∧
    ((∃ pc pc', call.program = .oneShot pc ∧ call'.program = .oneShot pc' ∧
      pc.edge call.target call.producer call'.dropped choice = some (sec, pc')) ∨
    (∃ pc pc', call.program = .load pc ∧ call'.program = .load pc' ∧
      pc.edge call.target call.producer call'.dropped choice = some (sec, pc')) ∨
    (∃ pc pc', call.program = .readmitting (some pc) ∧ call'.program = .readmitting pc' ∧
      pc.edge call.target call'.dropped false choice = some (sec, pc')) ∨
    (∃ pc pc', call.program = .unload (some pc) ∧ call'.program = .unload pc' ∧
      pc.edge call.target.id choice = some (sec, pc'))) := by
  obtain ⟨⟨sec', program⟩, hedge, heq⟩ := Option.map_eq_some_iff.1 h
  cases heq
  refine ⟨rfl, rfl, ?_⟩
  -- each kind of program maps the edge of its own counter
  cases hp : call.program with
  | oneShot pc =>
    rw [hp] at hedge
    obtain ⟨⟨sec'', pc'⟩, hpc, heq⟩ := Option.map_eq_some_iff.1 hedge
    cases heq
    exact .inl ⟨pc, pc', rfl, rfl, hpc⟩
  | load pc =>
    rw [hp] at hedge
    obtain ⟨⟨sec'', pc'⟩, hpc, heq⟩ := Option.map_eq_some_iff.1 hedge
    cases heq
    exact .inr (.inl ⟨pc, pc', rfl, rfl, hpc⟩)
  | readmitting pc =>
    rw [hp] at hedge
    cases pc with
    | none => simp [Program.edge] at hedge
    | some pc =>
      obtain ⟨⟨sec'', pc'⟩, hpc, heq⟩ := Option.map_eq_some_iff.1 hedge
      cases heq
      exact .inr (.inr (.inl ⟨pc, pc', rfl, rfl, hpc⟩))
  | unload pc =>
    rw [hp] at hedge
    cases pc with
    | none => simp [Program.edge] at hedge
    | some pc =>
      obtain ⟨⟨sec'', pc'⟩, hpc, heq⟩ := Option.map_eq_some_iff.1 hedge
      cases heq
      exact .inr (.inr (.inr ⟨pc, pc', rfl, rfl, hpc⟩))

/-- Inside `admit`, an edge is one of `admit`; outside, it enters `admit` at its beginning or
not at all. -/
theorem Call.edge_admit (h : call.edge choice = some (sec, call')) :
    (∃ a reserves, call.admitPc = some a ∧
      a.edge call.target call'.dropped reserves choice = some (sec, call'.admitPc)) ∨
    (call.admitPc = none ∧ (call'.admitPc = none ∨ call'.admitPc = some .policy)) := by
  obtain ⟨-, -, ⟨pc, pc', hp, hp', he⟩ | ⟨pc, pc', hp, hp', he⟩ | ⟨pc, pc', hp, hp', he⟩ |
    ⟨pc, pc', hp, hp', he⟩⟩ := Call.edge_cases h
  · simp only [Call.admitPc, hp, hp']
    rcases OneShotPc.edge_admit he with ⟨a, ha, hedge⟩ | ⟨hnone, -, hnext⟩
    · exact .inl ⟨a, true, ha, hedge⟩
    · exact .inr ⟨hnone, hnext⟩
  · simp only [Call.admitPc, hp, hp']
    rcases LoadPc.edge_admit he with ⟨a, ha, hedge⟩ | ⟨hnone, -, -, hnext⟩
    · exact .inl ⟨a, true, ha, hedge⟩
    · exact .inr ⟨hnone, hnext⟩
  · simp only [Call.admitPc, hp, hp']
    exact .inl ⟨pc, false, rfl, he⟩
  · simp only [Call.admitPc, hp, hp']
    exact .inr ⟨trivial, .inl trivial⟩

/-- Inside `unload_now`, an edge is one of `unload_now`; outside, it runs none of its
sections, and enters it at its beginning or not at all. -/
theorem Call.edge_unloading (h : call.edge choice = some (sec, call')) :
    (∃ c u u', call.unloading = some (c, u) ∧ u.edge c choice = some (sec, u') ∧
      call'.unloading = u'.map (c, ·)) ∨
    (call.unloading = none ∧ sec.ofUnload = false ∧
      (call'.unloading = none ∨ ∃ c, call'.unloading = some (c, .waitLock))) := by
  obtain ⟨ht, -, ⟨pc, pc', hp, hp', he⟩ | ⟨pc, pc', hp, hp', he⟩ | ⟨pc, pc', hp, hp', he⟩ |
    ⟨pc, pc', hp, hp', he⟩⟩ := Call.edge_cases h
  · simp only [Call.unloading, Call.admitPc, hp, hp']
    rcases OneShotPc.edge_admit he with ⟨a, ha, hedge⟩ | ⟨hnone, hfree, hnext⟩
    · rw [ha]
      rcases AdmitPc.edge_unloading hedge with hun | ⟨hnone, hfree, -, hnext⟩
      · exact .inl hun
      · exact .inr ⟨hnone, hfree, hnext⟩
    · rw [hnone]
      refine .inr ⟨rfl, hfree, .inl ?_⟩
      rcases hnext with hnext | hnext <;> rw [hnext] <;> rfl
  · simp only [Call.unloading, Call.admitPc, hp, hp']
    rcases LoadPc.edge_admit he with ⟨a, ha, hedge⟩ | ⟨hnone, hfree, -, hnext⟩
    · rw [ha]
      rcases AdmitPc.edge_unloading hedge with hun | ⟨hnone, hfree, -, hnext⟩
      · exact .inl hun
      · exact .inr ⟨hnone, hfree, hnext⟩
    · rw [hnone]
      refine .inr ⟨rfl, hfree, .inl ?_⟩
      rcases hnext with hnext | hnext <;> rw [hnext] <;> rfl
  · simp only [Call.unloading, Call.admitPc, hp, hp']
    rcases AdmitPc.edge_unloading he with hun | ⟨hnone, hfree, -, hnext⟩
    · exact .inl hun
    · exact .inr ⟨hnone, hfree, hnext⟩
  · simp only [Call.unloading, hp, hp', ht]
    exact .inl ⟨call.target.id, pc, pc', rfl, he, rfl⟩

/-- A call's lease is taken and given back in two sections of its own. -/
theorem Call.edge_leasing (h : call.edge choice = some (sec, call')) :
    (sec = .acquireLease call.target.id ∧ call.leasing = false ∧ call'.leasing = true) ∨
    (sec = .releaseLease call.target.id ∧ call.leasing = true ∧ call'.leasing = false) ∨
    (sec.ofLease = false ∧ call'.leasing = call.leasing) := by
  obtain ⟨-, -, ⟨pc, pc', hp, hp', he⟩ | ⟨pc, pc', hp, hp', he⟩ | ⟨pc, pc', hp, hp', he⟩ |
    ⟨pc, pc', hp, hp', he⟩⟩ := Call.edge_cases h
  · simp only [Call.leasing, hp, hp']
    exact OneShotPc.edge_leasing he
  · simp only [Call.leasing, hp, hp']
    rcases LoadPc.edge_admit he with ⟨a, -, hedge⟩ | ⟨-, -, hfree, -⟩
    · exact .inr (.inr ⟨(AdmitPc.edge_foreign hedge).1, trivial⟩)
    · exact .inr (.inr ⟨hfree, trivial⟩)
  · simp only [Call.leasing, hp, hp']
    exact .inr (.inr ⟨(AdmitPc.edge_foreign he).1, trivial⟩)
  · simp only [Call.leasing, hp, hp']
    exact .inr (.inr ⟨(UnloadPc.edge_foreign he).1, trivial⟩)

end Edges

/-! ## Every lease is held by a call -/

/-- The lease counts are the numbers of calls that hold a lease. -/
def System.LeasesHeld (s : System) : Prop :=
  ∀ id, s.shared.leases id = s.calls.countP (·.leases id)

theorem Kind.start_leases (kind : Kind) (target : Target) (producer : GpuProducer) (id : String) :
    Call.leases ⟨target, producer, false, kind.start⟩ id = false := by
  cases kind <;> rfl

theorem System.LeasesHeld.step {s t : System} {a : SystemAction} (h : s.LeasesHeld)
    (hstep : s.step a = some t) : t.LeasesHeld := by
  intro id
  rcases System.step_cases hstep with
    ⟨i, choice, call, sec, call', shared, rfl, hcall, hedge, hrun, rfl⟩ |
    ⟨kind, target, producer, rfl, rfl⟩ | ⟨policy, budget, rfl, hcalls, hshared⟩
  · have hcount := Lists.countP_set_add hcall (·.leases id) call'
    have hid := h id
    have htarget := (Call.edge_cases hedge).1
    rcases Call.edge_leasing hedge with ⟨rfl, hl, hl'⟩ | ⟨rfl, hl, hl'⟩ | ⟨hfree, hl⟩
    · -- the call takes its lease
      cases hrun
      have hold : call.leases id = false := by rw [Call.leases, hl, Bool.false_and]
      have hnew : call'.leases id = (call.target.id == id) := by
        rw [Call.leases, hl', htarget, Bool.true_and]
      rw [hold, hnew] at hcount
      by_cases heq : call.target.id = id
      · simp only [heq, beq_self_eq_true, Bool.false_eq_true, if_true, if_false] at hcount
        simp only [heq, update_self]
        omega
      · simp only [heq, beq_iff_eq, Bool.false_eq_true, if_false] at hcount
        simp only [update_of_ne (Ne.symm heq)]
        omega
    · -- the call gives its lease back, so the count it lowers is positive
      cases hrun
      have hold : call.leases id = (call.target.id == id) := by
        rw [Call.leases, hl, Bool.true_and]
      have hnew : call'.leases id = false := by rw [Call.leases, hl', Bool.false_and]
      rw [hold, hnew] at hcount
      by_cases heq : call.target.id = id
      · simp only [heq, beq_self_eq_true, Bool.false_eq_true, if_true, if_false] at hcount
        simp only [heq, update_self]
        omega
      · simp only [heq, beq_iff_eq, Bool.false_eq_true, if_false] at hcount
        simp only [update_of_ne (Ne.symm heq)]
        omega
    · have hsame : call'.leases id = call.leases id := by rw [Call.leases, hl, htarget, Call.leases]
      rw [hsame] at hcount
      simp only [(Section.run_frame hrun).leases hfree]
      omega
  · rw [List.countP_append, List.countP_singleton, Kind.start_leases, h id]
    rfl
  · rw [hshared, hcalls]
    exact h id

end Hedos.Governor
