import Hedos.Governor.Ownership

/-!
# A loaded model stays accounted

Once `mark_loaded` has run for a model, the model should stay among the residents with its
real unloader registered, or in the hands of a running `unload_now`, until that unloader's raw
callback has run: `Booked`. Reservations and unloaders are keyed by the model id alone, so
what other calls do can hit a model that one call has loaded:

* the `ReservationGuard` of a call that loads nothing, and the clean-up after a previous model,
  take it off the residents and forget its unloader;
* an unload that took the no-op of the reservation before the load takes it off the residents;
* the second section of another call's `reserve` registers the no-op over the real unloader;
* an unload that is refused or dropped finds that no-op in the place of the unloader it wants
  to put back.

`accountsClear` asks of every step that it does none of these to a model whose weights are on
the books. The books are kept in every state of a run exactly when all its steps meet it.
-/

namespace Hedos.Governor

open Transition Function

/-! ## Views -/

/-- The unloader that `unload_now` has taken and not yet run or put back. -/
def UnloadPc.hand : UnloadPc → Option RawUnloader
  | .waitGate raw | .check raw | .running raw | .refuse raw | .restore raw => some raw
  | _ => none

/-- The raw callback that frees the weights has run, or the model is removed, and the gate is
still held. -/
def UnloadPc.freed : UnloadPc → Bool
  | .remove .real | .forget _ => true
  | _ => false

/-- The call is an `unload_now` with the real unloader of `id` in hand. -/
def Call.holds (call : Call) (id : String) : Bool :=
  call.unloading.any fun un => un.1 == id && un.2.hand == some .real

/-- The call is a governed unloader of `id` that is through with it. -/
def Call.freed (call : Call) (id : String) : Bool :=
  call.unloading.any fun un => un.1 == id && un.2.freed

/-- Some `unload_now` has the real unloader of `id` in hand. -/
def System.inHand (s : System) (id : String) : Bool := s.calls.any (·.holds id)

/-- A model whose weights are on the books is resident, and its real unloader is registered or
in hand. -/
def System.Booked (s : System) (id : String) : Prop :=
  s.shared.loaded id = true → s.shared.memory.residents.contains id = true ∧
    (s.shared.unloaders id = some .real ∨ s.inHand id = true)

def System.Accounted (s : System) : Prop := ∀ id, s.Booked id

/-- The condition on a section of a call. Weights on the books are not removed but by an
unloader that has freed them; their unloader is not forgotten or replaced by the no-op unless
an `unload_now` has it, and is not put back where the no-op stands; and `mark_loaded` registers
it while the model is still resident. -/
def System.keepsAccounts (s : System) (call : Call) : Section → Bool
  | .remove id _ => call.freed id || !s.shared.loaded id
  | .deregister id => call.freed id || !s.shared.loaded id || s.inHand id
  | .register id .noop => !s.shared.loaded id || s.inHand id
  | .register id .real => s.shared.memory.residents.contains id
  | .restoreUnloader id .real => !s.shared.loaded id || s.shared.unloaders id != some .noop
  | _ => true

/-- The condition on a step. -/
def System.accountsClear (s : System) : SystemAction → Bool
  | .move i choice =>
    match s.calls[i]? with
    | none => true
    | some call =>
      match call.edge choice with
      | none => true
      | some (sec, _) => s.keepsAccounts call sec
  | _ => true

/-! ## Edges -/

section Edges

variable {call call' : Call} {choice : Choice} {sec : Section} {id : String}

/-- A real unloader comes into hand by being taken, and leaves it by being run or put back. -/
theorem Call.edge_holds (h : call.edge choice = some (sec, call')) (id : String) :
    (sec = .takeUnloader id (some .real) ∧ call'.holds id = true) ∨
    (sec = .ranRaw id .real ∧ call.holds id = true) ∨
    (sec = .restoreUnloader id .real ∧ call.holds id = true ∧ call'.holds id = false) ∨
    (call'.holds id = call.holds id ∧ sec ≠ .takeUnloader id (some .real) ∧
      sec ≠ .restoreUnloader id .real) := by
  rcases Call.edge_unloading h with ⟨c, u, u', hun, hedge, hun'⟩ | ⟨hun, hfree, hun' | ⟨c, hun'⟩⟩
  · rw [Call.holds, Call.holds, hun, hun']
    revert hedge
    fun_cases UnloadPc.edge c u choice <;> (rintro ⟨⟩ <;> grind [UnloadPc.hand])
  · refine .inr (.inr (.inr ⟨by rw [Call.holds, Call.holds, hun, hun'], ?_, ?_⟩)) <;>
    · rintro rfl
      simp [Section.ofUnload] at hfree
  · refine .inr (.inr (.inr ⟨by simp [Call.holds, hun, hun', UnloadPc.hand], ?_, ?_⟩)) <;>
    · rintro rfl
      simp [Section.ofUnload] at hfree

theorem OneShotPc.edge_ofMark {t : Target} {producer : GpuProducer} {dropped : Bool}
    {pc next : OneShotPc} (h : pc.edge t producer dropped choice = some (sec, next)) :
    sec.ofMark = false := by
  revert h
  fun_cases OneShotPc.edge t producer dropped pc choice
  case case2 a =>
    intro h
    obtain ⟨⟨sec', a'⟩, hedge, heq⟩ := Option.map_eq_some_iff.1 h
    cases heq
    exact (AdmitPc.edge_foreign hedge).2
  all_goals
    rintro ⟨⟩ <;> rfl

theorem LoadPc.edge_ofMark {t : Target} {producer : GpuProducer} {dropped : Bool}
    {pc next : LoadPc} (h : pc.edge t producer dropped choice = some (sec, next)) :
    sec.ofMark = false ∨ pc.inGate = true := by
  revert h
  fun_cases LoadPc.edge t producer dropped pc choice
  case case4 a =>
    intro h
    obtain ⟨⟨sec', a'⟩, hedge, heq⟩ := Option.map_eq_some_iff.1 h
    cases heq
    exact .inl (AdmitPc.edge_foreign hedge).2
  all_goals
    rintro ⟨⟩ <;> first | exact .inl rfl | exact .inr rfl

/-- `mark_loaded` ends while its load gate is held. -/
theorem Call.edge_registerReal (h : call.edge choice = some (.register id .real, call')) :
    call.loadGate = true := by
  obtain ⟨-, -, ⟨pc, pc', hp, hp', he⟩ | ⟨pc, pc', hp, hp', he⟩ | ⟨pc, pc', hp, hp', he⟩ |
    ⟨pc, pc', hp, hp', he⟩⟩ := Call.edge_cases h
  · exact absurd (OneShotPc.edge_ofMark he) nofun
  · simp only [Call.loadGate, hp]
    exact (LoadPc.edge_ofMark he).resolve_left nofun
  · exact absurd (AdmitPc.edge_foreign he).2 nofun
  · exact absurd (UnloadPc.edge_foreign he).2 nofun

/-- An unloader is through with its model once it has run the real callback or removed it. -/
theorem Call.edge_freed (h : call.edge choice = some (sec, call')) (hnext : call'.freed id = true) :
    call.freed id = true ∨ sec = .ranRaw id .real ∨ sec = .remove id true := by
  obtain ⟨c, u, u', hun, hedge, -, hp⟩ := Call.edge_any h (fun c => by simp [UnloadPc.freed]) hnext
  simp only [Bool.and_eq_true, beq_iff_eq] at hp
  obtain ⟨rfl, hfreed⟩ := hp
  rw [Call.freed, hun]
  revert hedge
  fun_cases UnloadPc.edge c u choice <;> (rintro ⟨⟩ <;> grind [UnloadPc.freed])

/-- An unloader that is through with its model still holds the gate. -/
theorem Call.unloadGate_of_freed (h : call.freed id = true) : call.unloadGate id = true := by
  simp only [Call.freed, Call.unloadGate, Option.any_eq_true, Bool.and_eq_true] at h ⊢
  obtain ⟨⟨c, u⟩, hun, hc, hfreed⟩ := h
  refine ⟨(c, u), hun, hc, ?_⟩
  cases u <;> first | rfl | simp [UnloadPc.freed] at hfreed

/-- A call with an unloader in hand holds the unload lock. -/
theorem Call.locks_of_holds (h : call.holds id = true) : call.locks id = true := by
  simp only [Call.holds, Call.locks, Option.any_eq_true, Bool.and_eq_true] at h ⊢
  obtain ⟨⟨c, u⟩, hun, hc, hhand⟩ := h
  refine ⟨(c, u), hun, hc, ?_⟩
  cases u <;> first | rfl | simp [UnloadPc.hand] at hhand

/-- A call that holds the load gate is in no unload. -/
theorem Call.unloading_of_loadGate (h : call.loadGate = true) : call.unloading = none := by
  cases hp : call.program with
  | load pc =>
    simp only [Call.loadGate, Call.unloading, Call.admitPc, hp] at h ⊢
    cases pc <;> first | rfl | simp [LoadPc.inGate] at h
  | _ => simp [Call.loadGate, hp] at h

end Edges

/-! ## Sections -/

section Sections

variable {sec : Section} {i : ℕ} {s s' : Shared} {id : String}

theorem Section.run_loaded (h : sec.run i s = some s') (hloaded : s'.loaded id = true) :
    sec = .register id .real ∨ (s.loaded id = true ∧ sec ≠ .ranRaw id .real) := by
  cases sec with
  | register id' raw =>
    cases raw with
    | noop =>
      cases h
      exact .inr ⟨hloaded, nofun⟩
    | real =>
      cases h
      by_cases hid : id = id'
      · exact .inl (by rw [hid])
      · simp only [update_of_ne hid] at hloaded
        exact .inr ⟨hloaded, nofun⟩
  | ranRaw id' raw =>
    cases raw with
    | noop =>
      cases h
      exact .inr ⟨hloaded, nofun⟩
    | real =>
      cases h
      by_cases hid : id = id'
      · subst hid
        simp at hloaded
      · simp only [update_of_ne hid] at hloaded
        exact .inr ⟨hloaded, fun heq => hid (Section.ranRaw.inj heq).1.symm⟩
  | _ =>
    rw [(Section.run_frame h).loaded rfl] at hloaded
    exact .inr ⟨hloaded, nofun⟩

theorem Section.run_contains (h : sec.run i s = some s')
    (hres : s.memory.residents.contains id = true) :
    s'.memory.residents.contains id = true ∨ ∃ governed, sec = .remove id governed := by
  cases sec with
  | reserve id' name footprintMb =>
    simp only [Section.run, Option.ite_none_left_eq_some, Option.some.injEq] at h
    rw [← h.2]
    exact .inl (by simp [Memory.insert, hres])
  | insertLoaded id' name footprintMb =>
    cases h
    exact .inl (by simp [Memory.insert, hres])
  | observe id' footprintMb =>
    cases h
    exact .inl (by simpa [Memory.observe] using hres)
  | remove id' governed =>
    cases h
    by_cases hid : id = id'
    · exact .inr ⟨governed, by rw [hid]⟩
    · exact .inl (by simp [Memory.remove, hres, hid])
  | _ =>
    rw [((Section.run_frame h).residents rfl).1]
    exact .inl hres

/-- What can happen to a real unloader that is registered. -/
theorem Section.run_unloaders (h : sec.run i s = some s') (hreal : s.unloaders id = some .real) :
    s'.unloaders id = some .real ∨ sec = .register id .noop ∨ sec = .deregister id ∨
      sec = .takeUnloader id (some .real) := by
  cases sec with
  | register id' raw =>
    by_cases hid : id = id'
    · subst hid
      cases raw with
      | noop => exact .inr (.inl rfl)
      | real =>
        cases h
        exact .inl (update_self ..)
    · cases raw <;>
      · cases h
        exact .inl (by simpa only [update_of_ne hid] using hreal)
  | deregister id' =>
    cases h
    by_cases hid : id = id'
    · exact .inr (.inr (.inl (by rw [hid])))
    · exact .inl (by simpa only [update_of_ne hid] using hreal)
  | takeUnloader id' found =>
    simp only [Section.run, Option.ite_some_none_eq_some] at h
    obtain ⟨hfound, rfl⟩ := h
    by_cases hid : id = id'
    · subst hid
      rw [hreal] at hfound
      exact .inr (.inr (.inr (by rw [hfound])))
    · exact .inl (by simpa only [update_of_ne hid] using hreal)
  | restoreUnloader id' raw =>
    cases h
    by_cases hid : id = id'
    · subst hid
      exact .inl (by simp [hreal])
    · exact .inl (by simpa only [update_of_ne hid] using hreal)
  | _ =>
    rw [(Section.run_frame h).unloaders rfl]
    exact .inl hreal

end Sections

/-! ## Unloaders that are through with their model -/

/-- The weights of a model that its unloader is through with are off the books. -/
def System.Freed (s : System) : Prop :=
  ∀ (i : ℕ) call id, s.calls[i]? = some call → call.freed id = true → s.shared.loaded id = false

section Move

variable {s : System} {i : ℕ} {choice : Choice} {call call' : Call} {sec : Section}
  {shared : Shared} {id : String}

/-- Nobody marks a model loaded while its unloader holds the gate. -/
theorem System.Freed.move (h : s.Freed) (howners : s.Owners) (hcall : s.calls[i]? = some call)
    (hedge : call.edge choice = some (sec, call')) (hrun : sec.run i s.shared = some shared)
    (hacc : System.Accounted ⟨shared, s.calls.set i call'⟩) :
    System.Freed ⟨shared, s.calls.set i call'⟩ := by
  -- an unloader that was through before the step stays so
  have hkeep : ∀ (j : ℕ) other id, s.calls[j]? = some other → other.freed id = true →
      shared.loaded id = false := by
    intro j other id hj hfreed
    by_contra hloaded
    rw [Bool.not_eq_false] at hloaded
    rcases Section.run_loaded hrun hloaded with rfl | ⟨hloaded, -⟩
    · -- whoever marks it loaded holds the load gate, and the unloader holds the unload gate
      have hload := Call.edge_registerReal hedge
      obtain rfl := howners.not_both hcall hj hload (Call.unloadGate_of_freed hfreed)
      obtain rfl := Option.some.inj (hcall.symm.trans hj)
      rw [Call.freed, Call.unloading_of_loadGate hload] at hfreed
      simp at hfreed
    · rw [h j other id hj hfreed] at hloaded
      simp at hloaded
  intro j other id hj hfreed
  rcases Lists.getElem?_set_cases hj with ⟨rfl, rfl⟩ | ⟨-, hj⟩
  · rcases Call.edge_freed hedge hfreed with hfreed | rfl | rfl
    · exact hkeep i call id hcall hfreed
    · cases hrun
      exact update_self ..
    · -- the books are in order after the removal, so nothing was loaded
      cases hrun
      by_contra hloaded
      rw [Bool.not_eq_false] at hloaded
      have hres := (hacc id hloaded).1
      simp [Memory.remove] at hres
  · exact hkeep j other id hj hfreed

/-! ## One section -/

/-- Outside of `unload_now`, no step takes an unloader or puts one back. -/
theorem System.inHand_move (hcall : s.calls[i]? = some call)
    (hedge : call.edge choice = some (sec, call')) (hsec : sec.ofUnload = false) :
    System.inHand ⟨shared, s.calls.set i call'⟩ id = s.inHand id := by
  rcases Call.edge_holds hedge id with ⟨rfl, -⟩ | ⟨rfl, -⟩ | ⟨rfl, -⟩ | ⟨hholds, -⟩
  · simp [Section.ofUnload] at hsec
  · simp [Section.ofUnload] at hsec
  · simp [Section.ofUnload] at hsec
  · exact Lists.any_set_of_eq hcall hholds

/-- A section that meets the condition keeps the books. -/
theorem System.Accounted.move (h : s.Accounted) (hfreed : s.Freed)
    (hcall : s.calls[i]? = some call) (hedge : call.edge choice = some (sec, call'))
    (hrun : sec.run i s.shared = some shared) (hok : s.keepsAccounts call sec = true) :
    System.Accounted ⟨shared, s.calls.set i call'⟩ := by
  intro id hloaded'
  rcases Section.run_loaded hrun hloaded' with rfl | ⟨hloaded, hraw⟩
  · -- `mark_loaded` ends
    cases hrun
    exact ⟨hok, .inl (update_self ..)⟩
  · -- the weights were on the books before, and the section does not free them
    obtain ⟨hres, hun⟩ := h id hloaded
    have hnot : call.freed id = false := by
      by_contra hfree
      rw [Bool.not_eq_false] at hfree
      rw [hfreed i call id hcall hfree] at hloaded
      simp at hloaded
    -- an unloader in hand stays in hand unless it is put back
    have hinHand : s.inHand id = true → shared.unloaders id = some .real ∨
        System.inHand ⟨shared, s.calls.set i call'⟩ id = true := by
      intro hh
      rcases Call.edge_holds hedge id with ⟨-, hholds⟩ | ⟨hsec, -⟩ | ⟨rfl, -, -⟩ | ⟨hholds, -⟩
      · exact .inr (Lists.any_set_self hcall hholds)
      · exact absurd hsec hraw
      · -- the unloader is put back, and the no-op does not stand in its place
        simp only [System.keepsAccounts, hloaded, Bool.not_true, Bool.false_or, bne_iff_ne] at hok
        cases hrun
        refine .inl ?_
        rcases hreg : s.shared.unloaders id with _ | _ | _ <;> simp_all
      · exact .inr ((Lists.any_set_of_eq hcall hholds).trans hh)
    constructor
    · rcases Section.run_contains hrun hres with hres' | ⟨governed, rfl⟩
      · exact hres'
      · simp [System.keepsAccounts, hnot, hloaded] at hok
    · rcases hun with hreal | hh
      · rcases Section.run_unloaders hrun hreal with hreal' | rfl | rfl | rfl
        · exact .inl hreal'
        · exact hinHand (by simpa [System.keepsAccounts, hloaded] using hok)
        · exact hinHand (by simpa [System.keepsAccounts, hloaded, hnot] using hok)
        · -- the real unloader is taken, by this call
          rcases Call.edge_holds hedge id with ⟨-, hholds⟩ | ⟨hsec, -⟩ | ⟨hsec, -⟩ | ⟨-, hne, -⟩
          · exact .inr (Lists.any_set_self hcall hholds)
          · simp at hsec
          · simp at hsec
          · exact absurd rfl hne
      · exact hinHand hh

/-- A section that keeps the books meets the condition. -/
theorem System.Accounted.keepsAccounts (hacc : System.Accounted ⟨shared, s.calls.set i call'⟩)
    (howners : s.Owners) (hcall : s.calls[i]? = some call)
    (hedge : call.edge choice = some (sec, call')) (hrun : sec.run i s.shared = some shared) :
    s.keepsAccounts call sec = true := by
  cases sec with
  | remove id governed =>
    cases hrun
    simp only [System.keepsAccounts, Bool.or_eq_true, Bool.not_eq_true']
    refine .inr (Bool.not_eq_true _ ▸ fun hloaded => ?_)
    have hres := (hacc id hloaded).1
    simp [Memory.remove] at hres
  | deregister id =>
    cases hrun
    simp only [System.keepsAccounts, Bool.or_eq_true, Bool.not_eq_true']
    by_cases hloaded : s.shared.loaded id = true
    · rcases (hacc id hloaded).2 with hreal | hh
      · simp at hreal
      · exact .inr (System.inHand_move hcall hedge rfl ▸ hh)
    · exact .inl (.inr (by simpa using hloaded))
  | register id raw =>
    cases raw with
    | noop =>
      cases hrun
      simp only [System.keepsAccounts, Bool.or_eq_true, Bool.not_eq_true']
      by_cases hloaded : s.shared.loaded id = true
      · rcases (hacc id hloaded).2 with hreal | hh
        · simp at hreal
        · exact .inr (System.inHand_move hcall hedge rfl ▸ hh)
      · exact .inl (by simpa using hloaded)
    | real =>
      cases hrun
      exact (hacc id (update_self ..)).1
  | restoreUnloader id raw =>
    cases raw with
    | noop => rfl
    | real =>
      cases hrun
      by_contra hnot
      simp only [System.keepsAccounts, Bool.not_eq_true, Bool.or_eq_false_iff, Bool.not_eq_false',
        bne_eq_false_iff_eq] at hnot
      obtain ⟨hloaded, hnoop⟩ := hnot
      rcases (hacc id hloaded).2 with hreal | hh
      · simp [hnoop] at hreal
      · -- whoever else has the unloader in hand holds the same unload lock
        rcases Call.edge_holds hedge id with
          ⟨hsec, -⟩ | ⟨hsec, -⟩ | ⟨-, hholds, hholds'⟩ | ⟨-, -, hne⟩
        · simp at hsec
        · simp at hsec
        · obtain ⟨other, hmem, hother⟩ := List.any_eq_true.1 hh
          obtain ⟨j, hj⟩ := List.getElem?_of_mem hmem
          rcases Lists.getElem?_set_cases hj with ⟨rfl, rfl⟩ | ⟨hne, hj⟩
          · rw [hholds'] at hother
            simp at hother
          · exact hne (howners.locks_unique hcall hj (Call.locks_of_holds hholds)
              (Call.locks_of_holds hother))
        · exact hne rfl
  | _ => rfl

end Move

/-! ## Every run -/

/-- What holds in every state of a run that keeps the books. -/
structure System.Orderly (s : System) : Prop where
  owners : s.Owners
  freed : s.Freed

theorem Kind.start_freed (kind : Kind) (target : Target) (producer : GpuProducer) (id : String) :
    Call.freed ⟨target, producer, false, kind.start⟩ id = false ∧
      Call.holds ⟨target, producer, false, kind.start⟩ id = false := by
  cases kind <;> simp [Call.freed, Call.holds, Call.unloading, Kind.start, Call.admitPc,
    OneShotPc.admitPc, LoadPc.admitPc, AdmitPc.unloading, UnloadPc.freed, UnloadPc.hand]

variable {s t : System}

/-- A call that begins and a change of policy leave the books alone. -/
theorem System.accounted_congr (hcontains : ∀ id,
      t.shared.memory.residents.contains id = s.shared.memory.residents.contains id)
    (hloaded : t.shared.loaded = s.shared.loaded)
    (hunloaders : t.shared.unloaders = s.shared.unloaders)
    (hinHand : ∀ id, t.inHand id = s.inHand id) : t.Accounted ↔ s.Accounted := by
  simp only [System.Accounted, System.Booked, hcontains, hloaded, hunloaders, hinHand]

theorem System.Fresh.orderly (h : s.Fresh) : s.Orderly := by
  obtain ⟨memory, -, rfl⟩ := h
  refine ⟨⟨fun i call id hcall => ?_, fun i call id hcall => ?_, fun i call hcall => ?_,
    fun e he => ?_⟩, fun i call id hcall => ?_⟩
  · simp at hcall
  · simp at hcall
  · simp at hcall
  · exact absurd he List.not_mem_nil
  · simp at hcall

theorem System.Orderly.step {a : SystemAction} (h : s.Orderly)
    (hstep : s.step a = some t) (hacc : t.Accounted) : t.Orderly := by
  refine ⟨h.owners.step hstep, ?_⟩
  rcases System.step_cases hstep with
    ⟨i, choice, call, sec, call', shared, rfl, hcall, hedge, hrun, rfl⟩ |
    ⟨kind, target, producer, rfl, rfl⟩ | ⟨policy, budget, rfl, hcalls, hshared⟩
  · exact h.freed.move h.owners hcall hedge hrun hacc
  · intro j other id hj hfreed
    rcases Lists.getElem?_concat_cases hj with hj | ⟨-, rfl⟩
    · exact h.freed j other id hj hfreed
    · rw [(Kind.start_freed kind target producer id).1] at hfreed
      simp at hfreed
  · intro j other id hj hfreed
    rw [hshared]
    exact h.freed j other id (hcalls ▸ hj) hfreed

/-- A step keeps the books exactly when it meets the condition. -/
theorem System.accounted_step_iff {a : SystemAction} (h : s.Orderly)
    (hacc : s.Accounted) (hstep : s.step a = some t) :
    t.Accounted ↔ s.accountsClear a = true := by
  rcases System.step_cases hstep with
    ⟨i, choice, call, sec, call', shared, rfl, hcall, hedge, hrun, rfl⟩ |
    ⟨kind, target, producer, rfl, rfl⟩ | ⟨policy, budget, rfl, hcalls, hshared⟩
  · simp only [System.accountsClear, hcall, hedge]
    exact ⟨fun hacc' => hacc'.keepsAccounts h.owners hcall hedge hrun,
      fun hok => hacc.move h.freed hcall hedge hrun hok⟩
  · refine ⟨fun _ => rfl, fun _ => (System.accounted_congr (s := s) ?_ ?_ ?_ ?_).2 hacc⟩
    · exact fun _ => rfl
    · rfl
    · rfl
    · intro id
      simp [System.inHand, (Kind.start_freed kind target producer id).2]
  · refine ⟨fun _ => rfl, fun _ => (System.accounted_congr (s := s) ?_ ?_ ?_ ?_).2 hacc⟩
    · intro id
      rw [hshared]
    · rw [hshared]
    · rw [hshared]
    · intro id
      rw [System.inHand, System.inHand, hcalls]

/-- In a run of any calls, every model whose weights are on the books stays accounted in every
state exactly when every step meets the condition. -/
theorem loaded_model_accounted_iff {s : System} (hs : s.Fresh) (actions : List SystemAction) :
    StatesMeet System.step System.Accounted s actions ↔
      StepsMeet System.step (fun s a => s.accountsClear a = true) s actions := by
  refine statesMeet_iff_stepsMeet (I := System.Orderly)
    (fun s a t hinv _ hstep hacc => hinv.step hstep hacc)
    (fun s a t hinv hacc hstep => System.accounted_step_iff hinv hacc hstep) hs.orderly
    (fun id hloaded => ?_) actions
  obtain ⟨memory, -, rfl⟩ := hs
  simp [Shared.new] at hloaded

/-! ## Two loads of one model -/

/-- Call 0 reserves `a`, enters the load gate and begins to load. -/
def beginsLoad : List SystemAction :=
  [.spawn .load (.sized "a" 2048) (.generation "a"), .move 0 .no, .move 0 .no, .move 0 .go,
    .move 0 .no, .move 0 .no, .move 0 .go, .move 0 .go, .move 0 .go, .move 0 .no]

/-- Call 0 has loaded `a` and runs `mark_loaded`. -/
def marksLoaded : List SystemAction := [.move 0 .yes, .move 0 .go, .move 0 .go]

/-- Call 1 evicts `a` with its real unloader to admit `b`. -/
def evictsLoaded : List SystemAction :=
  [.spawn .oneShot (.sized "b" 2048) (.generation "b"), .move 1 .go, .move 1 .no, .move 1 .go,
    .move 1 (.conflict ⟨"a", "a", 2048, 1⟩), .move 1 .no, .move 1 .go, .move 1 (.unloader .real),
    .move 1 .go, .move 1 .no, .move 1 .go, .move 1 .go, .move 1 .go]

/-- A load that is evicted after it has left the gate. -/
def loadsThenEvicted : List SystemAction :=
  (beginsLoad ++ marksLoaded).append (.move 0 .go :: evictsLoaded)

/-- An eviction by the real unloader keeps the books. -/
theorem loaded_model_accounted_until_evicted :
    (run System.step (System.new 1024 6553) loadsThenEvicted).isSome = true ∧
      StatesMeet System.step System.Accounted (System.new 1024 6553) loadsThenEvicted := by
  have hrun : (runWhen System.step System.accountsClear (System.new 1024 6553)
      loadsThenEvicted).map (fun _ => ()) = some () := by
    decide
  obtain ⟨s, hs, -⟩ := Option.map_eq_some_iff.1 hrun
  exact ⟨by decide, (loaded_model_accounted_iff (System.new_fresh _ _) _).2
    (StepsMeet.of_runWhen hs)⟩

/-- Call 1 finds `a` reserved and waits for the load gate behind call 0. -/
def waitsBehind : List SystemAction :=
  [.spawn .load (.sized "a" 2048) (.generation "a"), .move 1 .no, .move 1 .no, .move 1 .go,
    .move 1 .no, .move 1 .yes, .move 1 .go]

/-- Call 1 is dropped when call 0 has marked `a` loaded, and its `ReservationGuard` removes
`a`. -/
def dropsReservation : List SystemAction :=
  (beginsLoad ++ waitsBehind ++ marksLoaded).append [.move 1 .drop, .move 1 .go]

/-- The model that call 0 loaded is on no book any more. -/
theorem loaded_model_not_accounted : ¬ ∀ s, Reachable System.step System.Fresh s → s.Accounted := by
  intro hall
  have hrun : (run System.step (System.new 1024 6553) dropsReservation).map (fun s =>
      (s.shared.loaded "a", s.shared.memory.residents.contains "a")) = some (true, false) := by
    decide
  obtain ⟨s, hs, hend⟩ := Option.map_eq_some_iff.1 hrun
  obtain ⟨hloaded, hgone⟩ := Prod.mk.inj hend
  have hres := (hall s (Reachable.run (.init (System.new_fresh _ _)) hs) "a" hloaded).1
  rw [hgone] at hres
  simp at hres

end Hedos.Governor
