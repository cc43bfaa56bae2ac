import Hedos.Governor.CallViews

/-!
# Waiting in a circle

`governed_one_shot` takes its generation lease before it asks for admission. A call on a
resident heavy model thus holds a lease while it waits for the admission mutex, and whoever
holds the mutex to evict that model drains the very lease: `CyclicWait`. Neither moves again
unless one of them is dropped.

The circle closes in one of two steps, the holder starting to drain a model that a waiting
call leases, or a leased call starting to wait while its model is drained. `drainsClear` rules
these two out, and without them no run closes it.
-/

namespace Hedos.Governor

open Transition

/-! ## The circle -/

/-- The call is blocked on the admission mutex. -/
def Call.waitsForMutex (call : Call) : Bool := call.admitPc == some .waitAdmission

/-- The call is in the lease drain of `c`. -/
def Call.drains (call : Call) (c : String) : Bool := call.admitPc == some (.drain c)

/-- Call `i` holds the admission mutex and drains `c`, which is leased, and whoever leases `c`
waits for the mutex. -/
def System.waitsInCircle (s : System) (i : ℕ) (c : String) : Bool :=
  s.shared.admission == some i && s.calls[i]?.any (·.drains c) && decide (0 < s.shared.leases c)
    && s.calls.all fun call => !call.leases c || call.waitsForMutex

def System.CyclicWait (s : System) : Prop := ∃ i c, s.waitsInCircle i c = true

/-- The condition on a step: `settle_conflicts` begins to drain a model only when no call that
leases it waits for the mutex, and a call begins to wait for the mutex only when nobody
drains the model it leases. -/
def System.drainsClear (s : System) : SystemAction → Bool
  | .move i _ =>
    match s.calls[i]? with
    | none => true
    | some call =>
      match call.admitPc with
      | some (.count c) => s.shared.leases c == 0 ||
          s.calls.all fun other => !(other.leases c && other.waitsForMutex)
      | some .policy => !call.leasing || s.shared.memory.stacksFreely call.target.footprintMb ||
          s.calls.all fun other => !other.drains call.target.id
      | _ => true
  | _ => true

/-! ## The two edges -/

section Edges

variable {t : Target} {dropped reserves : Bool} {choice : Choice} {sec : Section}

/-- The drain is entered from the test of the lease count, the wait for the mutex from the
test of the policy. -/
theorem AdmitPc.edge_to_wait {pc next : AdmitPc}
    (h : pc.edge t dropped reserves choice = some (sec, some next)) :
    (∀ c, next = .drain c → pc = .count c ∧ sec = .leased c true) ∧
      (next = .waitAdmission → pc = .policy ∧ sec = .stacks t.footprintMb false) := by
  revert h
  fun_cases AdmitPc.edge t dropped reserves pc choice
  -- the policy asks for the mutex
  case case2 =>
    rintro ⟨⟩
    exact ⟨fun _ hnext => by simp at hnext, fun _ => ⟨rfl, rfl⟩⟩
  -- the conflict is leased
  case case7 c =>
    rintro ⟨⟩
    refine ⟨fun c' hnext => ?_, fun hnext => by simp at hnext⟩
    obtain rfl := AdmitPc.drain.inj hnext
    exact ⟨rfl, rfl⟩
  -- inside `unload_now`, which returns to neither of them
  case case11 c u =>
    intro h
    obtain ⟨⟨sec', u'⟩, -, heq⟩ := Option.map_eq_some_iff.1 h
    obtain ⟨rfl, hnext⟩ := Prod.mk.inj heq
    cases hnext
    cases u' <;> cases dropped <;> simp [afterUnload]
  all_goals
    intro h
    first
    | (obtain ⟨⟩ := h <;> cases reserves <;> simp [afterSettle])
    | (simp only [afterReserve] at h; split at h <;> obtain ⟨⟩ := h; simp)

variable {call call' : Call}

theorem Call.edge_to_wait {next : AdmitPc} (h : call.edge choice = some (sec, call'))
    (hnext : call'.admitPc = some next) :
    (∀ c, next = .drain c → call.admitPc = some (.count c) ∧ sec = .leased c true) ∧
      (next = .waitAdmission →
        call.admitPc = some .policy ∧ sec = .stacks call.target.footprintMb false) := by
  rcases Call.edge_admit h with ⟨a, reserves, ha, hedge⟩ | ⟨-, hstart⟩
  · rw [hnext] at hedge
    simpa only [ha, Option.some.injEq] using AdmitPc.edge_to_wait hedge
  · rw [hnext] at hstart
    simp_all

end Edges

/-! ## The invariant -/

/-- Nobody who leases a model that is drained waits for the mutex. -/
def System.DrainsClear (s : System) : Prop :=
  ∀ call ∈ s.calls, ∀ other ∈ s.calls, ∀ c, call.admitPc = some (.drain c) →
    other.leases c = true → other.admitPc ≠ some .waitAdmission

theorem Kind.start_admitPc (kind : Kind) (target : Target) (producer : GpuProducer) (c : String) :
    Call.admitPc ⟨target, producer, false, kind.start⟩ ≠ some (.drain c) := by
  cases kind <;> simp [Kind.start, Call.admitPc, OneShotPc.admitPc, LoadPc.admitPc]

/-- A step that meets the condition closes no circle. -/
theorem System.DrainsClear.step {s t : System} {a : SystemAction} (h : s.DrainsClear)
    (hok : s.drainsClear a = true) (hstep : s.step a = some t) : t.DrainsClear := by
  rcases System.step_cases hstep with
    ⟨i, choice, call, sec, call', shared, rfl, hcall, hedge, hrun, rfl⟩ |
    ⟨kind, target, producer, rfl, rfl⟩ | ⟨policy, budget, rfl, hcalls, -⟩
  · have hmem := List.mem_of_getElem? hcall
    simp only [System.drainsClear, hcall] at hok
    intro drainer hdrainer waiter hwaiter c hdrain hlease hwait
    rcases List.mem_or_eq_of_mem_set hdrainer with hold | rfl <;>
      rcases List.mem_or_eq_of_mem_set hwaiter with hold' | rfl
    · exact h drainer hold waiter hold' c hdrain hlease hwait
    · -- the moved call begins to wait
      obtain ⟨hpolicy, rfl⟩ := (Call.edge_to_wait hedge hwait).2 rfl
      rcases Call.edge_leasing hedge with ⟨hsec, -⟩ | ⟨hsec, -⟩ | ⟨-, hleasing⟩
      · simp at hsec
      · simp at hsec
      · simp only [Call.leases, hleasing, (Call.edge_cases hedge).1, Bool.and_eq_true,
          beq_iff_eq] at hlease
        have hstacks : s.shared.memory.stacksFreely call.target.footprintMb = false := by
          simpa [Section.run] using (Shared.check_eq_some.1 hrun).1
        simp only [hpolicy, hlease.1, hstacks, Bool.not_true, Bool.false_or,
          List.all_eq_true, Bool.not_eq_true', Call.drains] at hok
        have hnot := hok drainer hold
        rw [hlease.2, hdrain] at hnot
        simp at hnot
    · -- the moved call begins to drain
      obtain ⟨hcount, rfl⟩ := (Call.edge_to_wait hedge hdrain).1 c rfl
      have hpos : 0 < s.shared.leases c := by
        simpa [Section.run] using (Shared.check_eq_some.1 hrun).1
      simp only [hcount, List.all_eq_true, Bool.or_eq_true, beq_iff_eq, Call.waitsForMutex] at hok
      have hnot := (hok.resolve_left (by omega)) waiter hold'
      rw [hlease, hwait] at hnot
      simp at hnot
    · rw [hdrain] at hwait
      simp at hwait
  · intro drainer hdrainer waiter hwaiter c hdrain hlease
    rcases List.mem_append.1 hdrainer with hdrainer | hdrainer
    · rcases List.mem_append.1 hwaiter with hwaiter | hwaiter
      · exact h drainer hdrainer waiter hwaiter c hdrain hlease
      · rw [List.mem_singleton.1 hwaiter, Kind.start_leases] at hlease
        simp at hlease
    · rw [List.mem_singleton.1 hdrainer] at hdrain
      exact absurd hdrain (Kind.start_admitPc kind target producer c)
  · intro drainer hdrainer waiter hwaiter
    rw [hcalls] at hdrainer hwaiter
    exact h drainer hdrainer waiter hwaiter

/-- In a run whose steps all meet the condition, no state has the holder of the admission
mutex drain a model that only calls waiting for the mutex lease. -/
theorem no_cyclic_wait {s : System}
    (hs : ReachableWhen System.step (fun s a => s.drainsClear a = true) System.Fresh s) :
    ¬ s.CyclicWait := by
  have hinv : s.LeasesHeld ∧ s.DrainsClear := by
    refine ReachableWhen.invariant (P := fun s => s.LeasesHeld ∧ s.DrainsClear)
      (fun s hfresh => ?_) (fun s a t hs hok hstep => ?_) hs
    · obtain ⟨memory, -, rfl⟩ := hfresh
      exact ⟨fun _ => rfl, fun _ hmem => absurd hmem List.not_mem_nil⟩
    · exact ⟨hs.1.step hstep, hs.2.step hok hstep⟩
  rintro ⟨i, c, hcircle⟩
  simp only [System.waitsInCircle, Bool.and_eq_true, decide_eq_true_eq, List.all_eq_true,
    Option.any_eq_true, Call.drains, beq_iff_eq, Bool.or_eq_true, Bool.not_eq_true'] at hcircle
  obtain ⟨⟨⟨-, drainer, hdrainer, hdrain⟩, hpos⟩, hall⟩ := hcircle
  -- the lease that is drained is held by a call, which is not waiting
  rw [hinv.1 c, List.countP_pos_iff] at hpos
  obtain ⟨other, hother, hlease⟩ := hpos
  have hwait : other.admitPc = some .waitAdmission := by
    rcases hall other hother with hno | hwait
    · rw [hlease] at hno
      simp at hno
    · simpa [Call.waitsForMutex] using hwait
  exact hinv.2 drainer (List.mem_of_getElem? hdrainer) other hother c hdrain hlease hwait

/-! ## Two models are enough -/

/-- Admit call `i` when nothing is in its way, up to its body. -/
def admitAlone (i : ℕ) : List SystemAction :=
  [.move i .go, .move i .no, .move i .go, .move i .no, .move i .no, .move i .go, .move i .go,
    .move i .go]

/-- A call on `a` is in its body when a call on `b` drains it. -/
def drainRunningCall : List SystemAction :=
  .spawn .oneShot (.sized "a" 2048) (.generation "a") :: (admitAlone 0).append
    [.spawn .oneShot (.sized "b" 2048) (.generation "b"),
      .move 1 .go, .move 1 .no, .move 1 .go, .move 1 (.conflict ⟨"a", "a", 2048, 0⟩), .move 1 .yes]

/-- Draining a running call is no circle. -/
theorem no_cyclic_wait_on_running_call :
    ∃ s, runWhen System.step System.drainsClear (System.new 1024 6553) drainRunningCall = some s ∧
      s.calls[1]?.any (Call.drains · "a") = true ∧ 0 < s.shared.leases "a" ∧ ¬ s.CyclicWait := by
  have hrun : (runWhen System.step System.drainsClear (System.new 1024 6553) drainRunningCall).map
      (fun s => (s.calls[1]?.any (Call.drains · "a"), s.shared.leases "a")) = some (true, 1) := by
    decide
  obtain ⟨s, hs, hend⟩ := Option.map_eq_some_iff.1 hrun
  obtain ⟨hdrains, hleases⟩ := Prod.mk.inj hend
  exact ⟨s, hs, hdrains, hleases ▸ Nat.one_pos,
    no_cyclic_wait (ReachableWhen.runWhen (.init (System.new_fresh _ _)) hs)⟩

/-- A run of one-shot calls only. -/
def SystemAction.callsOneShot : SystemAction → Bool
  | .spawn kind _ _ => kind == .oneShot
  | _ => true

/-- While the call on `b` drains `a`, a second call on `a` leases it and waits for the mutex;
then the running call ends. -/
def drainWaitingCall : List SystemAction :=
  drainRunningCall.append
    [.spawn .oneShot (.sized "a" 2048) (.generation "a"), .move 2 .go, .move 2 .no,
      .move 0 .go, .move 0 .go, .move 0 .go]

/-- Each of the two waits for the other, and one-shot calls are enough for that. -/
theorem cyclic_wait_reachable :
    ¬ ∀ s, ReachableWhen System.step (fun _ a => a.callsOneShot = true) System.Fresh s →
      ¬ s.CyclicWait := by
  intro hall
  have hrun : (runWhen System.step (fun _ a => a.callsOneShot) (System.new 1024 6553)
      drainWaitingCall).map (·.waitsInCircle 1 "a") = some true := by decide
  obtain ⟨s, hs, hcircle⟩ := Option.map_eq_some_iff.1 hrun
  exact hall s (ReachableWhen.runWhen (.init (System.new_fresh _ _)) hs) ⟨1, "a", hcircle⟩

end Hedos.Governor
