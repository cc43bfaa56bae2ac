import Hedos.Governor.CallViews

/-!
# Evicting a leased model

The governed unloader looks at the leases once, then frees the weights, which takes an await,
and then takes the model off the residents. A call that begins in between finds the model
still resident, so `reserve` has nothing to do and the call passes admission with a lease on
a model that the unloader is about to remove.

`reservesClear` rules the window out: a leased call finishes its admission only when no
unloader of its model stands between the lease check and the removal. In runs without that
overlap no leased call past its admission loses its model to an unloader.
-/

namespace Hedos.Governor

open Transition

/-! ## Views -/

/-- Past the lease check of the governed unloader, and before its removal. -/
def UnloadPc.evicting : UnloadPc → Bool
  | .running _ | .remove _ => true
  | _ => false

/-- The call is an unloader of `id` between its lease check and its removal. -/
def Call.evicts (call : Call) (id : String) : Bool :=
  call.unloading.any fun un => un.1 == id && un.2.evicting

/-- A one-shot call past its admission that has not given back its lease. -/
def OneShotPc.pastAdmission : OneShotPc → Bool
  | .acquireGate | .body | .dropGate | .endGeneration true => true
  | _ => false

def Call.pastAdmission (call : Call) : Bool :=
  match call.program with
  | .oneShot pc => pc.pastAdmission
  | _ => false

/-- The model is resident, or was removed by something else than an unloader. -/
def Shared.kept (s : Shared) (id : String) : Bool :=
  s.memory.residents.contains id || !s.evicted id

/-- A leased call past its admission whose model a governed unloader has removed. -/
def System.EvictedUnderLease (s : System) : Prop :=
  ∃ call ∈ s.calls, call.leasing = true ∧ call.pastAdmission = true ∧
    s.shared.memory.residents.contains call.target.id = false ∧
    s.shared.evicted call.target.id = true

/-- The condition on a step: a leased call runs its `reserve`, the end of its admission, only
when no unloader of its model is between lease check and removal. -/
def System.reservesClear (s : System) : SystemAction → Bool
  | .move i _ =>
    match s.calls[i]? with
    | none => true
    | some call =>
      match call.admitPc with
      | some (.reserve _) =>
        !call.leasing || s.calls.all fun other => !other.evicts call.target.id
      | _ => true
  | _ => true

/-! ## Calls that have reserved -/

/-- The reservation is made. A call that drops the mutex while unwinding has none. -/
def AdmitPc.reserved (dropped : Bool) : AdmitPc → Bool
  | .registerNoop _ => true
  | .unlock => !dropped
  | _ => false

def OneShotPc.reserved (dropped : Bool) : OneShotPc → Bool
  | .admitting pc => pc.reserved dropped
  | pc => pc.pastAdmission

def Call.reserved (call : Call) : Bool :=
  match call.program with
  | .oneShot pc => pc.reserved call.dropped
  | _ => false

theorem Call.reserved_of_pastAdmission {call : Call} (h : call.pastAdmission = true) :
    call.reserved = true := by
  cases hp : call.program with
  | oneShot pc =>
    simp only [Call.pastAdmission, Call.reserved, hp] at h ⊢
    cases pc <;> first | exact h | simp [OneShotPc.pastAdmission] at h
  | _ => simp [Call.pastAdmission, hp] at h

/-- A call that has reserved holds its lease and is in no unload. -/
theorem Call.of_reserved {call : Call} (h : call.reserved = true) :
    call.leases call.target.id = true ∧ call.unloading = none := by
  unfold Call.reserved at h
  split at h
  · rename_i pc hp
    simp only [Call.leases, Call.leasing, Call.unloading, Call.admitPc, hp, beq_self_eq_true,
      Bool.and_true]
    cases pc with
    | admitting a =>
      cases a <;> first
        | exact ⟨rfl, rfl⟩
        | simp [OneShotPc.reserved, AdmitPc.reserved] at h
    | _ => first | exact ⟨rfl, rfl⟩ | simp [OneShotPc.reserved, OneShotPc.pastAdmission] at h
  · simp at h

section Edges

variable {t : Target} {producer : GpuProducer} {dropped dropped' : Bool} {choice : Choice}
  {sec : Section}

/-- The two ways through `reserve`: the model is resident, or is made so. -/
def Section.Reserves (sec : Section) (t : Target) : Prop :=
  sec = .isResident t.id true ∨ sec = .reserve t.id t.name t.footprintMb

/-- The reservation of a one-shot call is made at its `reserve`. -/
theorem AdmitPc.edge_reserved {pc : AdmitPc} {next : Option AdmitPc}
    (h : pc.edge t dropped' true choice = some (sec, next))
    (hd : dropped' = (dropped || choice == .drop))
    (hnext : (OneShotPc.afterAdmit dropped' next).reserved dropped' = true) :
    pc.reserved dropped = true ∨ ((∃ locked, pc = .reserve locked) ∧ sec.Reserves t) := by
  revert h
  fun_cases AdmitPc.edge t dropped' true pc choice
  -- inside `unload_now`, nothing is reserved yet
  case case11 c u =>
    intro h
    obtain ⟨⟨sec', u'⟩, -, heq⟩ := Option.map_eq_some_iff.1 h
    cases heq
    cases u' <;> cases dropped' <;>
      simp [afterUnload, OneShotPc.afterAdmit, OneShotPc.reserved, AdmitPc.reserved] at hnext
  -- the two ways through `reserve`
  case case16 locked =>
    rintro ⟨⟩
    exact .inr ⟨⟨locked, rfl⟩, .inl rfl⟩
  case case17 locked =>
    rintro ⟨⟩
    exact .inr ⟨⟨locked, rfl⟩, .inr rfl⟩
  -- after it: the no-op is registered, the mutex given back
  case case18 locked => exact fun _ => .inl rfl
  case case19 =>
    rintro ⟨⟩
    cases dropped' with
    | true => simp [OneShotPc.afterAdmit, OneShotPc.reserved, OneShotPc.pastAdmission] at hnext
    | false =>
      have hnot : dropped = false := by simpa using hd.symm
      exact .inl (by simp [AdmitPc.reserved, hnot])
  all_goals
    rintro ⟨⟩ <;> simp_all [OneShotPc.afterAdmit, OneShotPc.reserved, AdmitPc.reserved,
      OneShotPc.pastAdmission, afterSettle]

/-- A one-shot call is past `reserve` if it was before, or runs it now. -/
theorem OneShotPc.edge_reserved {pc next : OneShotPc}
    (h : pc.edge t producer dropped' choice = some (sec, next))
    (hd : dropped' = (dropped || choice == .drop)) (hnext : next.reserved dropped' = true) :
    pc.reserved dropped = true ∨
      ((∃ locked, pc.admitPc = some (.reserve locked)) ∧ sec.Reserves t) := by
  revert h
  fun_cases OneShotPc.edge t producer dropped' pc choice
  case case2 a =>
    intro h
    obtain ⟨⟨sec', a'⟩, hedge, heq⟩ := Option.map_eq_some_iff.1 h
    cases heq
    rcases AdmitPc.edge_reserved hedge hd hnext with hres | ⟨⟨locked, rfl⟩, hsec⟩
    · exact .inl hres
    · exact .inr ⟨⟨locked, rfl⟩, hsec⟩
  all_goals
    rintro ⟨⟩ <;> first | exact .inl rfl | simp [reserved, pastAdmission, AdmitPc.reserved] at hnext

variable {call call' : Call} {id : String}

/-- A call is past `reserve` if it was before, or runs it now. -/
theorem Call.edge_reserved (h : call.edge choice = some (sec, call'))
    (hnext : call'.reserved = true) :
    call.reserved = true ∨
      ((∃ locked, call.admitPc = some (.reserve locked)) ∧ call.leasing = true ∧
        sec.Reserves call.target) := by
  have hd : call'.dropped = (call.dropped || choice == .drop) := by
    obtain ⟨⟨sec', program⟩, -, heq⟩ := Option.map_eq_some_iff.1 h
    rw [← (Prod.mk.inj heq).2]
  obtain ⟨-, -, ⟨pc, pc', hp, hp', he⟩ | ⟨pc, pc', hp, hp', he⟩ | ⟨pc, pc', hp, hp', he⟩ |
    ⟨pc, pc', hp, hp', he⟩⟩ := Call.edge_cases h
  · simp only [Call.reserved, Call.admitPc, Call.leasing, hp, hp'] at hnext ⊢
    rcases OneShotPc.edge_reserved he hd hnext with hres | ⟨⟨locked, hpc⟩, hsec⟩
    · exact .inl hres
    · refine .inr ⟨⟨locked, hpc⟩, ?_, hsec⟩
      cases pc <;> first | rfl | simp [OneShotPc.admitPc] at hpc
  all_goals simp [Call.reserved, hp'] at hnext

/-- Whoever removes a model as its unloader stood between lease check and removal. -/
theorem Call.edge_remove (h : call.edge choice = some (.remove id true, call')) :
    call.evicts id = true := by
  rcases Call.edge_unloading h with ⟨c, u, u', hun, hedge, -⟩ | ⟨-, hfree, -⟩
  · rw [Call.evicts, hun]
    revert hedge
    fun_cases UnloadPc.edge c u choice <;> (rintro ⟨⟩ <;> simp [UnloadPc.evicting])
  · simp [Section.ofUnload] at hfree

/-- An unloader passes its lease check when the model has no lease. -/
theorem Call.edge_evicts (h : call.edge choice = some (sec, call'))
    (hnext : call'.evicts id = true) : call.evicts id = true ∨ sec = .leased id false := by
  rcases Call.edge_unloading h with ⟨c, u, u', hun, hedge, hun'⟩ | ⟨-, -, hun' | ⟨c, hun'⟩⟩
  · rw [Call.evicts, hun'] at hnext
    rw [Call.evicts, hun]
    revert hedge
    fun_cases UnloadPc.edge c u choice <;> (rintro ⟨⟩ <;> simp_all [UnloadPc.evicting])
  · simp [Call.evicts, hun'] at hnext
  · simp [Call.evicts, hun', UnloadPc.evicting] at hnext

end Edges

/-! ## What keeps a model on the books -/

section Sections

variable {sec : Section} {i : ℕ} {s s' : Shared} {id : String}

/-- Only a governed unloader takes a model off the books as its unloader. -/
theorem Section.run_kept (h : sec.run i s = some s') (hkept : s.kept id = true)
    (hne : sec ≠ .remove id true) : s'.kept id = true := by
  simp only [Shared.kept, Bool.or_eq_true] at hkept ⊢
  cases sec with
  | reserve id' name footprintMb =>
    simp only [Section.run, Option.ite_none_left_eq_some, Option.some.injEq] at h
    rw [← h.2]
    simp only [Memory.insert, Residents.contains_insert, Bool.or_eq_true]
    exact hkept.imp_left .inl
  | insertLoaded id' name footprintMb =>
    cases h
    simp only [Memory.insert, Residents.contains_insert, Bool.or_eq_true]
    exact hkept.imp_left .inl
  | observe id' footprintMb =>
    cases h
    simpa [Memory.observe] using hkept
  | remove id' governed =>
    cases h
    by_cases hid : id' = id
    · -- removed by a reservation that is dropped: the mark says so
      subst hid
      cases governed with
      | true => exact absurd rfl hne
      | false => exact .inr (by simp)
    · simpa [Memory.remove, Function.update_of_ne (Ne.symm hid), Ne.symm hid] using hkept
  | _ =>
    obtain ⟨hmemory, hevicted⟩ := (Section.run_frame h).residents rfl
    rw [hmemory, hevicted]
    exact hkept

/-- `reserve` leaves its model resident. -/
theorem Section.Reserves.run_kept {t : Target} (hsec : sec.Reserves t)
    (h : sec.run i s = some s') : s'.kept t.id = true := by
  rcases hsec with rfl | rfl
  · obtain ⟨hres, rfl⟩ := Shared.check_eq_some.1 h
    simp_all [Shared.kept]
  · simp only [Section.run, Option.ite_none_left_eq_some, Option.some.injEq] at h
    rw [← h.2]
    simp [Shared.kept, Memory.insert]

end Sections

/-! ## The invariant -/

/-- The model of a call that has reserved is kept, and no unloader of it is past its lease
check. -/
def System.ReservationsHold (s : System) : Prop :=
  ∀ call ∈ s.calls, call.reserved = true → s.shared.kept call.target.id = true ∧
    ∀ other ∈ s.calls, other.evicts call.target.id = false

theorem Kind.start_reserved (kind : Kind) (target : Target) (producer : GpuProducer) :
    Call.reserved ⟨target, producer, false, kind.start⟩ = false := by
  cases kind <;> rfl

theorem Kind.start_evicts (kind : Kind) (target : Target) (producer : GpuProducer) (id : String) :
    Call.evicts ⟨target, producer, false, kind.start⟩ id = false := by
  cases kind <;> simp [Call.evicts, Call.unloading, Kind.start, Call.admitPc, OneShotPc.admitPc,
    LoadPc.admitPc, AdmitPc.unloading, UnloadPc.evicting]

/-- No step of another call takes the model from a call that has reserved it, and no unloader
of the model passes its lease check. -/
theorem System.ReservationsHold.move {s : System} {i : ℕ} {choice : Choice} {call call' held : Call}
    {sec : Section} {shared : Shared} (h : s.ReservationsHold) (hleases : s.LeasesHeld)
    (hcall : s.calls[i]? = some call) (hedge : call.edge choice = some (sec, call'))
    (hrun : sec.run i s.shared = some shared) (hheld : held ∈ s.calls)
    (hres : held.reserved = true) :
    shared.kept held.target.id = true ∧
      ∀ other ∈ s.calls.set i call', other.evicts held.target.id = false := by
  obtain ⟨hkept, hclear⟩ := h held hheld hres
  have hmem := List.mem_of_getElem? hcall
  constructor
  · refine Section.run_kept hrun hkept fun hsec => ?_
    have hevicts := Call.edge_remove (hsec ▸ hedge)
    rw [hclear call hmem] at hevicts
    simp at hevicts
  · intro other hother
    rcases List.mem_or_eq_of_mem_set hother with hother | rfl
    · exact hclear other hother
    · by_contra hev
      rw [Bool.not_eq_false] at hev
      rcases Call.edge_evicts hedge hev with hev | rfl
      · rw [hclear call hmem] at hev
        simp at hev
      · -- the lease check found no lease, but the held call has one
        have hzero : s.shared.leases held.target.id = 0 := by
          simpa [Section.run] using (Shared.check_eq_some.1 hrun).1
        rw [hleases, List.countP_eq_zero] at hzero
        exact hzero held hheld (Call.of_reserved hres).1

/-- A step that meets the condition keeps every reservation. -/
theorem System.ReservationsHold.step {s t : System} {a : SystemAction} (h : s.ReservationsHold)
    (hleases : s.LeasesHeld) (hok : s.reservesClear a = true) (hstep : s.step a = some t) :
    t.ReservationsHold := by
  rcases System.step_cases hstep with
    ⟨i, choice, call, sec, call', shared, rfl, hcall, hedge, hrun, rfl⟩ |
    ⟨kind, target, producer, rfl, rfl⟩ | ⟨policy, budget, rfl, hcalls, hshared⟩
  · intro held hheld hres
    rcases List.mem_or_eq_of_mem_set hheld with hold | rfl
    · exact h.move hleases hcall hedge hrun hold hres
    · have hmem := List.mem_of_getElem? hcall
      rw [(Call.edge_cases hedge).1]
      rcases Call.edge_reserved hedge hres with hres' | ⟨⟨locked, hpc⟩, hleasing, hsec⟩
      · exact h.move hleases hcall hedge hrun hmem hres'
      · -- the call reserves in this step, outside of every window
        refine ⟨hsec.run_kept hrun, fun other hother => ?_⟩
        rcases List.mem_or_eq_of_mem_set hother with hother | rfl
        · simp only [System.reservesClear, hcall, hpc, hleasing, Bool.not_true, Bool.false_or,
            List.all_eq_true, Bool.not_eq_true'] at hok
          exact hok other hother
        · rw [Call.evicts, (Call.of_reserved hres).2]
          rfl
  · intro held hheld hres
    rcases List.mem_append.1 hheld with hold | hnew
    · obtain ⟨hkept, hclear⟩ := h held hold hres
      refine ⟨hkept, fun other hother => ?_⟩
      rcases List.mem_append.1 hother with hother | hother
      · exact hclear other hother
      · rw [List.mem_singleton.1 hother, Kind.start_evicts]
    · rw [List.mem_singleton.1 hnew, Kind.start_reserved] at hres
      simp at hres
  · intro held hheld hres
    rw [hcalls] at hheld ⊢
    rw [hshared]
    exact h held hheld hres

/-- In a run whose steps all meet the condition, no leased call past its admission has lost
its model to a governed unloader. -/
theorem leased_model_not_evicted {s : System}
    (hs : ReachableWhen System.step (fun s a => s.reservesClear a = true) System.Fresh s) :
    ¬ s.EvictedUnderLease := by
  have hinv : s.LeasesHeld ∧ s.ReservationsHold := by
    refine ReachableWhen.invariant (P := fun s => s.LeasesHeld ∧ s.ReservationsHold)
      (fun s hfresh => ?_) (fun s a t hs hok hstep => ?_) hs
    · obtain ⟨memory, -, rfl⟩ := hfresh
      exact ⟨fun _ => rfl, fun _ hmem => absurd hmem List.not_mem_nil⟩
    · exact ⟨hs.1.step hstep, hs.2.step hs.1 hok hstep⟩
  rintro ⟨call, hcall, -, hpast, hgone, hevicted⟩
  have hkept := (hinv.2 call hcall (Call.reserved_of_pastAdmission hpast)).1
  rw [Shared.kept, hgone, hevicted] at hkept
  simp at hkept

/-! ## A call that begins during an unload -/

/-- Call 0 loads `a`, generates once and returns. -/
def loadOnce : List SystemAction :=
  [.spawn .load (.sized "a" 2048) (.generation "a"), .move 0 .no, .move 0 .no, .move 0 .go,
    .move 0 .no, .move 0 .no, .move 0 .go, .move 0 .go, .move 0 .go, .move 0 .no, .move 0 .yes,
    .move 0 .go, .move 0 .go, .move 0 .go, .move 0 .no, .move 0 .go, .move 0 .yes, .move 0 .go,
    .move 0 .go]

/-- Call 1, an `unload_now` from outside, takes the unloader of `a` and passes its lease
check. -/
def unloadBegins : List SystemAction :=
  [.spawn .unload (.sized "a" 2048) (.unload "a"), .move 1 .go, .move 1 (.unloader .real),
    .move 1 .go, .move 1 .no]

/-- Call 1 finishes: the weights are freed and the model removed. -/
def unloadEnds : List SystemAction := [.move 1 .go, .move 1 .go]

/-- Call 2, a one-shot call on `a`, takes its lease and goes to its admission. -/
def oneShotBegins : List SystemAction :=
  [.spawn .oneShot (.sized "a" 2048) (.generation "a"), .move 2 .go, .move 2 .no, .move 2 .go,
    .move 2 .no]

/-- A call that asks for admission during the unload and gets it after the removal. -/
def reserveAfterRemoval : List SystemAction :=
  (loadOnce ++ unloadBegins ++ oneShotBegins ++ unloadEnds).append
    [.move 2 .no, .move 2 .go, .move 2 .go]

/-- It makes the model resident again. -/
theorem leased_model_not_evicted_after_removal :
    ∃ s, runWhen System.step System.reservesClear (System.new 1024 6553) reserveAfterRemoval =
        some s ∧
      s.calls[2]?.any (Call.pastAdmission ·) = true ∧ ¬ s.EvictedUnderLease := by
  have hrun : (runWhen System.step System.reservesClear (System.new 1024 6553)
      reserveAfterRemoval).map (fun s => s.calls[2]?.any (Call.pastAdmission ·)) = some true := by
    decide
  obtain ⟨s, hs, hpast⟩ := Option.map_eq_some_iff.1 hrun
  exact ⟨s, hs, hpast,
    leased_model_not_evicted (ReachableWhen.runWhen (.init (System.new_fresh _ _)) hs)⟩

/-- A call that passes its admission between the lease check and the removal. -/
def reserveBeforeRemoval : List SystemAction :=
  (loadOnce ++ unloadBegins ++ oneShotBegins).append (.move 2 .yes :: .move 2 .go :: unloadEnds)

/-- It holds a lease on a model that is gone. -/
theorem evicted_under_lease_reachable :
    ¬ ∀ s, Reachable System.step System.Fresh s → ¬ s.EvictedUnderLease := by
  intro hall
  have hrun : (run System.step (System.new 1024 6553) reserveBeforeRemoval).map (fun s =>
      (s.calls[2]?.map fun call : Call => (call.leasing, call.pastAdmission, call.target.id),
        s.shared.memory.residents.contains "a", s.shared.evicted "a"))
      = some (some (true, true, "a"), false, true) := by decide
  obtain ⟨s, hs, hend⟩ := Option.map_eq_some_iff.1 hrun
  obtain ⟨hcall, hshared⟩ := Prod.mk.inj hend
  obtain ⟨hgone, hevicted⟩ := Prod.mk.inj hshared
  obtain ⟨call, hget, hview⟩ := Option.map_eq_some_iff.1 hcall
  obtain ⟨hleasing, hrest⟩ := Prod.mk.inj hview
  obtain ⟨hpast, htarget⟩ := Prod.mk.inj hrest
  refine hall s (Reachable.run (.init (System.new_fresh _ _)) hs)
    ⟨call, List.mem_of_getElem? hget, hleasing, hpast, ?_, ?_⟩
  · rw [htarget]
    exact hgone
  · rw [htarget]
    exact hevicted

end Hedos.Governor
