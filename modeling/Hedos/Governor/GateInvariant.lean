import Hedos.Governor.Gate
import Hedos.Lib.Lists
import Mathlib.Algebra.BigOperators.Group.Multiset.Basic
import Mathlib.Tactic.Abel

/-!
# The gate over whole runs

Every producer that is counted in `holders` is somewhere: in a caller's guard, in a
channel, in a collected grant or on the stack of a release loop. `Gate.outstanding` is
the multiset of these, and `Balanced` is what the state behind the mutex owes to it. Each
lock section keeps `Balanced`, with the producers it adds and removes; the steps outside
the mutex only move producers from one place to another.
-/

namespace Hedos.Governor

open Transition

/-! ## What one lock section does -/

/-- The state behind the mutex accounts for exactly the producers `out`. -/
structure Balanced (state : GateState) (out : Multiset GpuProducer) : Prop where
  count : state.holders = out.card
  same : ∀ p ∈ out, state.holder = some p
  held : out = 0 → state.holder = none
  share : 1 < out.card → ∃ p, state.holder = some p ∧ p.shares = true
  idle : state.holder = none → state.waiters = []

variable {state : GateState} {out : Multiset GpuProducer} {p : GpuProducer} {s : Gate}

theorem Balanced.congr {out' : Multiset GpuProducer}
    (h : Balanced state out) (hout : out' = out) : Balanced state out' := hout ▸ h

/-- The producers of collected grants. -/
def producers (grants : List (ℕ × GateGuard)) : List GpuProducer :=
  grants.map fun grant => grant.2.producer

/-- Once a holder is set, the loop admits only further copies of that producer, and only
when it shares. -/
theorem collectFrom_some (p : GpuProducer) (n : ℕ) (ws : List Waiter) :
    (collectFrom (some p) n ws).1.holder = some p ∧
      (collectFrom (some p) n ws).1.holders = n + (collectFrom (some p) n ws).2.length ∧
      (∀ q ∈ producers (collectFrom (some p) n ws).2, q = p) ∧
      ((collectFrom (some p) n ws).2 ≠ [] → p.shares = true) := by
  induction ws generalizing n with
  | nil => simp [collectFrom, producers]
  | cons w ws ih =>
    unfold collectFrom
    by_cases h : admits ⟨some p, n, w :: ws⟩ w.producer = true
    · have hadm : p = w.producer ∧ w.producer.shares = true := by
        simpa [admits] using h
      obtain ⟨h1, h2, h3, -⟩ := ih (n + 1)
      rw [if_pos h, ← hadm.1]
      refine ⟨h1, ?_, ?_, fun _ => hadm.1 ▸ hadm.2⟩
      · simp only [List.length_cons, h2]
        omega
      · intro q hq
        simp only [producers, List.map_cons, List.mem_cons] at hq
        rcases hq with rfl | hq
        · rfl
        · exact h3 q hq
    · rw [if_neg h]
      simp [producers]

/-- The loop takes a front part of the queue, in order. -/
theorem collectFrom_fifo (holder : Option GpuProducer) (n : ℕ) (ws : List Waiter) :
    (collectFrom holder n ws).2.map Prod.fst
      ++ (collectFrom holder n ws).1.waiters.map Waiter.sender = ws.map Waiter.sender := by
  induction ws generalizing holder n with
  | nil => simp [collectFrom]
  | cons w ws ih =>
    unfold collectFrom
    split
    · simp [ih]
    · simp

theorem releaseSection_fifo (state : GateState) (p : GpuProducer) :
    (releaseSection state p).2.map Prod.fst
      ++ (releaseSection state p).1.waiters.map Waiter.sender
        = state.waiters.map Waiter.sender := by
  unfold releaseSection collectAdmissions
  split
  · split
    · simp
    · exact collectFrom_fifo _ _ _
  · simp

/-- Entering a free or shared gate. -/
theorem Balanced.enter (h : Balanced state out) (hadm : admits state p = true) :
    Balanced { state with holder := some p, holders := state.holders + 1 } (p ::ₘ out) := by
  -- whoever is counted is the holder, and the holder lets in only its own copies
  have hsame : ∀ q ∈ out, q = p ∧ p.shares = true := by
    intro q hq
    have hholder := h.same q hq
    simp only [admits, hholder, Bool.and_eq_true, decide_eq_true_eq] at hadm
    exact hadm
  refine ⟨by simp [h.count], ?_, by simp, ?_, by simp⟩
  · intro q hq
    rcases Multiset.mem_cons.1 hq with rfl | hq
    · rfl
    · rw [(hsame q hq).1]
  · intro hcard
    rw [Multiset.card_cons] at hcard
    obtain ⟨q, hq⟩ := Multiset.card_pos_iff_exists_mem.1 (by omega : 0 < out.card)
    exact ⟨p, rfl, (hsame q hq).2⟩

/-- Queueing a waiter behind a holder. -/
theorem Balanced.enqueue (h : Balanced state out)
    (hadm : ¬(state.waiters = [] ∧ admits state p = true)) (call : ℕ) :
    Balanced { state with waiters := state.waiters ++ [⟨p, call⟩] } out := by
  refine ⟨h.count, h.same, h.held, h.share, ?_⟩
  intro hnone
  -- a free gate has no queue and admits everyone, so the call would have entered
  exact absurd ⟨h.idle hnone, by simp [admits, show state.holder = none from hnone]⟩ hadm

/-- One iteration of `release` gives one producer back and counts the admitted ones. -/
theorem Balanced.release (h : Balanced state (p ::ₘ out)) :
    Balanced (releaseSection state p).1 (↑(producers (releaseSection state p).2) + out) := by
  have hholder : state.holder = some p := h.same p (Multiset.mem_cons_self p out)
  have hcount : state.holders = out.card + 1 := by rw [h.count, Multiset.card_cons]
  unfold releaseSection
  rw [if_pos ⟨hholder, by omega⟩]
  by_cases hlast : state.holders - 1 > 0
  · -- other copies of the producer remain
    rw [if_pos hlast]
    have hpos : 0 < out.card := by omega
    simp only [producers, List.map_nil, Multiset.coe_nil, zero_add]
    refine ⟨by simp only []; omega, ?_, ?_, ?_, ?_⟩
    · exact fun q hq => h.same q (Multiset.mem_cons_of_mem hq)
    · intro hzero
      rw [hzero] at hpos
      simp at hpos
    · intro hmany
      exact h.share (by rw [Multiset.card_cons]; omega)
    · simp [hholder]
  · -- the last copy is gone: the queue is served from its front
    have hout : out = 0 := Multiset.card_eq_zero.1 (by omega)
    have hzero : state.holders - 1 = 0 := by omega
    rw [if_neg hlast, hout, hzero, collectAdmissions, add_zero]
    cases hw : state.waiters with
    | nil => constructor <;> simp [collectFrom, producers]
    | cons w ws =>
      -- the first waiter finds the gate free and becomes the holder
      have hadm : admits ⟨none, 0, w :: ws⟩ w.producer = true := rfl
      obtain ⟨h1, h2, h3, h4⟩ := collectFrom_some w.producer (0 + 1) ws
      simp only [collectFrom, hadm, if_true]
      refine ⟨?_, ?_, ?_, ?_, ?_⟩
      · simp only [h2, producers, List.map_cons, Multiset.coe_card, List.length_cons,
          List.length_map]
        omega
      · intro q hq
        simp only [producers, List.map_cons, Multiset.mem_coe, List.mem_cons] at hq
        rcases hq with rfl | hq
        · exact h1
        · rw [h3 q hq]
          exact h1
      · intro hnil
        simp [producers] at hnil
      · intro hmany
        refine ⟨w.producer, h1, h4 ?_⟩
        intro hnil
        simp [producers, hnil] at hmany
      · intro hnone
        rw [h1] at hnone
        simp at hnone

/-- A section that collects anything found nobody else counted. -/
theorem Balanced.alone
    (h : Balanced state (p ::ₘ out)) (hgrants : (releaseSection state p).2 ≠ []) : out = 0 := by
  have hcount : state.holders = out.card + 1 := by rw [h.count, Multiset.card_cons]
  by_contra hne
  have hpos : 0 < out.card := Multiset.card_pos.2 hne
  apply hgrants
  unfold releaseSection
  split
  · rw [if_pos (by omega)]
  · rfl

/-! ## The invariant of the gate with its callers -/

/-- The producers one release loop still has to settle. -/
def Release.owed (r : Release) : List GpuProducer := r.pending ++ producers r.grants

/-- Every producer counted in `holders`, wherever its grant is. -/
def Gate.outstanding (s : Gate) : Multiset GpuProducer :=
  ↑(s.guards.map GateGuard.producer) + (↑(producers s.sent) + ↑(s.releases.flatMap Release.owed))

theorem Gate.card_outstanding (s : Gate) : s.outstanding.card = s.guards.length + s.inFlight := by
  simp [Gate.outstanding, Gate.inFlight, producers, Release.owed, List.length_flatMap]

/-- The order of service. The calls admitted so far followed by the queue are all calls
in their order of arrival; grants are handed over in that order, and at most one release
loop has grants left to hand over. -/
structure Ordered (s : Gate) : Prop where
  fifo : s.admitted ++ s.state.waiters.map Waiter.sender = List.range s.calls
  sorted : s.handed.Pairwise (· < ·)
  unsent : ∀ r ∈ s.releases, (s.handed ++ r.grants.map Prod.fst).Pairwise (· < ·)
  single : ∀ (i j : ℕ) (r q : Release), s.releases[i]? = some r → s.releases[j]? = some q →
    r.grants ≠ [] → q.grants ≠ [] → i = j
  handed_admitted : ∀ c ∈ s.handed, c ∈ s.admitted
  unsent_admitted : ∀ r ∈ s.releases, ∀ c ∈ r.grants.map Prod.fst, c ∈ s.admitted

/-- The order of service reads no guard, no channel and no waiting call. -/
theorem Ordered.frame (h : Ordered s) (guards : List GateGuard)
    (sent : List (ℕ × GateGuard)) (waiting : List ℕ) :
    Ordered { s with guards := guards, sent := sent, waiting := waiting } :=
  ⟨h.fifo, h.sorted, h.unsent, h.single, h.handed_admitted, h.unsent_admitted⟩

/-- The invariant of the gate with its callers. -/
structure GateInv (s : Gate) : Prop where
  balanced : Balanced s.state s.outstanding
  ordered : Ordered s

theorem gateInv_new : GateInv Gate.new := by
  constructor
  · constructor <;> simp [Gate.new, Gate.outstanding, producers]
  · constructor <;> simp [Gate.new]

/-- Nothing outstanding means that no release loop holds a grant. -/
theorem Gate.grants_nil (h : s.outstanding = 0) {r : Release}
    (hr : r ∈ s.releases) : r.grants = [] := by
  by_contra hne
  obtain ⟨grant, hgrant⟩ := List.exists_mem_of_ne_nil _ hne
  have howed : grant.2.producer ∈ r.owed :=
    List.mem_append_right _ (List.mem_map.2 ⟨grant, hgrant, rfl⟩)
  have hmem : grant.2.producer ∈ s.outstanding := by
    simp only [Gate.outstanding, Multiset.mem_add, Multiset.mem_coe, List.mem_flatMap]
    exact .inr (.inr ⟨r, hr, howed⟩)
  rw [h] at hmem
  simp at hmem

theorem Ordered.section_fifo (h : Ordered s) (p : GpuProducer) :
    (s.admitted ++ (releaseSection s.state p).2.map Prod.fst)
      ++ (releaseSection s.state p).1.waiters.map Waiter.sender = List.range s.calls := by
  rw [List.append_assoc, releaseSection_fifo, h.fifo]

/-- What a section collects arrived after everything handed over before. -/
theorem Ordered.collected_sorted (h : Ordered s) (p : GpuProducer) :
    (s.handed ++ (releaseSection s.state p).2.map Prod.fst).Pairwise (· < ·) := by
  have hsorted : (List.range s.calls).Pairwise (· < ·) := List.pairwise_lt_range
  rw [← h.section_fifo p, List.pairwise_append, List.pairwise_append] at hsorted
  obtain ⟨⟨-, hgrants, hlt⟩, -, -⟩ := hsorted
  rw [List.pairwise_append]
  exact ⟨h.sorted, hgrants, fun a ha b hb => hlt a (h.handed_admitted a ha) b hb⟩

/-! ## One step -/

/-- `acquire`, whether it enters or queues. -/
theorem GateInv.acquire (h : GateInv s) (p : GpuProducer) : GateInv (s.acquire p) := by
  have ho := h.ordered
  have hrange : List.range (s.calls + 1) = List.range s.calls ++ [s.calls] := List.range_succ
  unfold Gate.acquire
  split
  · rename_i henter
    have hfifo := ho.fifo
    rw [henter.1, List.map_nil, List.append_nil] at hfifo
    refine ⟨?_, ?_, ho.sorted, ho.unsent, ho.single, ?_, ?_⟩
    · have hout : ∀ m : Multiset GpuProducer,
          ((p :: s.guards.map GateGuard.producer : List GpuProducer) : Multiset GpuProducer) + m
            = p ::ₘ (↑(s.guards.map GateGuard.producer) + m) := by
        intro m
        rw [← Multiset.cons_coe, Multiset.cons_add]
      simpa [Gate.outstanding, hout] using h.balanced.enter henter.2
    · simp [henter.1, hfifo, hrange]
    · exact fun c hc => List.mem_append_left _ (ho.handed_admitted c hc)
    · exact fun r hr c hc => List.mem_append_left _ (ho.unsent_admitted r hr c hc)
  · rename_i hqueue
    refine ⟨h.balanced.enqueue hqueue s.calls, ?_, ho.sorted, ho.unsent, ho.single,
      ho.handed_admitted, ho.unsent_admitted⟩
    simp only [List.map_append, List.map_cons, List.map_nil]
    rw [← List.append_assoc, ho.fifo, hrange]

/-- Dropping a guard: the producer taken out of the callers' hands is given back. -/
theorem GateInv.dropGuard {g : GateGuard} (ho : Ordered s)
    (hb : Balanced s.state (g.producer ::ₘ s.outstanding)) : GateInv (s.dropGuard g) := by
  constructor
  · have hout : (s.dropGuard g).outstanding
        = ↑(producers (releaseSection s.state g.producer).2) + s.outstanding := by
      simp only [Gate.dropGuard, Gate.outstanding, List.flatMap_append, List.flatMap_cons,
        List.flatMap_nil, Release.owed, List.nil_append, List.append_nil, ← Multiset.coe_add]
      abel
    rw [hout]
    exact hb.release
  · -- a section that collects grants finds no other loop with grants left
    have halone : (releaseSection s.state g.producer).2 ≠ [] → ∀ r ∈ s.releases, r.grants = [] :=
      fun hne r hr => Gate.grants_nil (hb.alone hne) hr
    refine ⟨ho.section_fifo g.producer, ho.sorted, ?_, ?_, ?_, ?_⟩
    · intro r hr
      simp only [Gate.dropGuard, List.mem_append, List.mem_singleton] at hr
      rcases hr with hr | rfl
      · exact ho.unsent r hr
      · exact ho.collected_sorted g.producer
    · intro i j r q hi hj hr hq
      rcases Lists.getElem?_concat_cases hi with hi | ⟨hlast, rfl⟩ <;>
        rcases Lists.getElem?_concat_cases hj with hj | ⟨hlast', rfl⟩
      · exact ho.single i j r q hi hj hr hq
      · exact absurd (halone hq r (List.mem_of_getElem? hi)) hr
      · exact absurd (halone hr q (List.mem_of_getElem? hj)) hq
      · rw [hlast, hlast']
    · exact fun c hc => List.mem_append_left _ (ho.handed_admitted c hc)
    · intro r hr c hc
      simp only [Gate.dropGuard, List.mem_append, List.mem_singleton] at hr
      rcases hr with hr | rfl
      · exact List.mem_append_left _ (ho.unsent_admitted r hr c hc)
      · exact List.mem_append_right _ hc

/-- A further iteration of a release loop, which by then has sent all its grants. -/
theorem GateInv.pop (h : GateInv s) {i : ℕ}
    {pending : List GpuProducer} (hi : s.releases[i]? = some ⟨p :: pending, []⟩) :
    GateInv (s.pop i p pending) := by
  have ho := h.ordered
  obtain ⟨A, B, hold, hnew⟩ := Lists.flatMap_set hi Release.owed
  -- the gate with the producer popped off the stack and not yet given back
  let popped : Gate := { s with releases := s.releases.set i ⟨pending, []⟩ }
  have hb : Balanced s.state (p ::ₘ popped.outstanding) := by
    have hout : s.outstanding = p ::ₘ popped.outstanding := by
      simp only [Gate.outstanding, popped, hold, hnew, Release.owed, producers, List.map_nil,
        List.append_nil, ← Multiset.coe_add, ← Multiset.cons_coe, ← Multiset.singleton_add]
      abel
    exact h.balanced.congr hout.symm
  -- as in `dropGuard`, but this loop stays in the table
  have halone : (releaseSection s.state p).2 ≠ [] →
      ∀ (j : ℕ) (q : Release), i ≠ j → s.releases[j]? = some q → q.grants = [] := by
    intro hne j q hij hj
    have hmem : q ∈ popped.releases := by
      refine List.mem_of_getElem? (i := j) ?_
      simpa [popped, List.getElem?_set_ne hij] using hj
    exact Gate.grants_nil (hb.alone hne) hmem
  constructor
  · have hout : (s.pop i p pending).outstanding
        = ↑(producers (releaseSection s.state p).2) + popped.outstanding := by
      simp only [Gate.pop, Gate.outstanding, popped, hnew, Release.owed, producers,
        List.map_nil, List.append_nil, ← Multiset.coe_add]
      abel
    rw [hout]
    exact hb.release
  · refine ⟨ho.section_fifo p, ho.sorted, ?_, ?_, ?_, ?_⟩
    · intro r hr
      rcases List.mem_or_eq_of_mem_set hr with hr | rfl
      · exact ho.unsent r hr
      · exact ho.collected_sorted p
    · intro j k r q hj hk hr hq
      rcases Lists.getElem?_set_cases hj with ⟨hij, rfl⟩ | ⟨hij, hj⟩ <;>
        rcases Lists.getElem?_set_cases hk with ⟨hik, rfl⟩ | ⟨hik, hk⟩
      · exact hij ▸ hik
      · exact absurd (halone hr k q hik hk) hq
      · exact absurd (halone hq j r hij hj) hr
      · exact ho.single j k r q hj hk hr hq
    · exact fun c hc => List.mem_append_left _ (ho.handed_admitted c hc)
    · intro r hr c hc
      rcases List.mem_or_eq_of_mem_set hr with hr | rfl
      · exact List.mem_append_left _ (ho.unsent_admitted r hr c hc)
      · exact List.mem_append_right _ hc

/-- Handing over a grant moves its producer into the channel, or back onto the stack. -/
theorem GateInv.send (h : GateInv s) {i : ℕ} {pending : List GpuProducer} {grant : ℕ × GateGuard}
    {grants : List (ℕ × GateGuard)} (hi : s.releases[i]? = some ⟨pending, grant :: grants⟩) :
    GateInv (s.send i ⟨pending, grant :: grants⟩ grant grants) := by
  have ho := h.ordered
  obtain ⟨A, B, hold, hnew⟩ := Lists.flatMap_set hi Release.owed
  have hmem : (⟨pending, grant :: grants⟩ : Release) ∈ s.releases := List.mem_of_getElem? hi
  have hsorted : (s.handed ++ ([grant.1] ++ grants.map Prod.fst)).Pairwise (· < ·) := by
    simpa using ho.unsent _ hmem
  have hadm : grant.1 ∈ s.admitted := ho.unsent_admitted _ hmem grant.1 (by simp)
  -- the order of service does not depend on where the producer goes
  have hord : ∀ (pending' : List GpuProducer) (sent' : List (ℕ × GateGuard)),
      Ordered { s with sent := sent', releases := s.releases.set i ⟨pending', grants⟩,
                       handed := s.handed ++ [grant.1] } := by
    intro pending' sent'
    refine ⟨ho.fifo, ?_, ?_, ?_, ?_, ?_⟩
    · rw [← List.append_assoc] at hsorted
      exact (List.pairwise_append.1 hsorted).1
    · intro r hr
      obtain ⟨j, hj⟩ := List.getElem?_of_mem hr
      rcases Lists.getElem?_set_cases hj with ⟨-, rfl⟩ | ⟨hij, hj⟩
      · rw [List.append_assoc]
        exact hsorted
      · -- another loop has no grants left, since this one does
        have hnil : r.grants = [] := by
          by_contra hr'
          exact hij (ho.single i j _ r hi hj (by simp) hr')
        rw [hnil, List.map_nil, List.append_nil]
        rw [← List.append_assoc] at hsorted
        exact (List.pairwise_append.1 hsorted).1
    · intro j k r q hj hk hr hq
      rcases Lists.getElem?_set_cases hj with ⟨hij, rfl⟩ | ⟨hij, hj⟩ <;>
        rcases Lists.getElem?_set_cases hk with ⟨hik, rfl⟩ | ⟨hik, hk⟩
      · exact hij ▸ hik
      · exact ho.single j k _ q (hij ▸ hi) hk (by simp) hq
      · exact ho.single j k r _ hj (hik ▸ hi) hr (by simp)
      · exact ho.single j k r q hj hk hr hq
    · intro c hc
      rcases List.mem_append.1 hc with hc | hc
      · exact ho.handed_admitted c hc
      · rw [List.mem_singleton.1 hc]
        exact hadm
    · intro r hr c hc
      rcases List.mem_or_eq_of_mem_set hr with hr | rfl
      · exact ho.unsent_admitted r hr c hc
      · exact ho.unsent_admitted _ hmem c (by simp [hc])
  unfold Gate.send
  split
  · refine ⟨h.balanced.congr ?_, hord pending (grant :: s.sent)⟩
    simp only [Gate.outstanding, hold, hnew, Release.owed, producers, List.map_cons,
      ← Multiset.coe_add, ← Multiset.cons_coe, ← Multiset.singleton_add]
    abel
  · refine ⟨h.balanced.congr ?_, hord (grant.2.producer :: pending) s.sent⟩
    simp only [Gate.outstanding, hold, hnew, Release.owed, producers, List.map_cons,
      ← Multiset.coe_add, ← Multiset.cons_coe, ← Multiset.singleton_add]
    abel

/-- Taking one sent grant out of its channel takes out its producer. -/
theorem producers_erase {sent : List (ℕ × GateGuard)} {grant : ℕ × GateGuard} (h : grant ∈ sent) :
    (↑(producers sent) : Multiset GpuProducer)
      = grant.2.producer ::ₘ ↑(producers (sent.erase grant)) := by
  rw [Multiset.cons_coe, Multiset.coe_eq_coe]
  exact (List.perm_cons_erase h).map _

/-- Every step keeps the invariant. -/
theorem GateInv.step {t : Gate} {a : GateAction} (h : GateInv s) (hst : s.step a = some t) :
    GateInv t := by
  have ho := h.ordered
  cases a with
  | acquire p =>
    cases hst
    exact h.acquire p
  | receive call guard =>
    simp only [Gate.step, Option.ite_some_none_eq_some] at hst
    obtain ⟨⟨-, hmem⟩, rfl⟩ := hst
    refine ⟨?_, ho.frame _ _ _⟩
    -- the producer goes from the channel to the caller's guard
    have hb := h.balanced
    simp only [Gate.outstanding, producers_erase hmem, List.map_cons, ← Multiset.cons_coe,
      Multiset.cons_add, Multiset.add_cons] at hb ⊢
    exact hb
  | cancel call =>
    simp only [Gate.step, Option.ite_none_right_eq_some] at hst
    obtain ⟨-, hst⟩ := hst
    split at hst
    · -- nothing sent yet: the grant will bounce when it is
      cases hst
      exact ⟨h.balanced, ho.frame _ _ _⟩
    · rename_i guard hlookup
      cases hst
      obtain ⟨l, m, hsent, -⟩ := List.lookup_eq_some_iff.1 hlookup
      have hmem : (call, guard) ∈ s.sent := by rw [hsent]; simp
      -- the receiver takes the sent guard with it, which is dropped like any other
      apply GateInv.dropGuard
      · exact ho.frame _ _ _
      · have hb := h.balanced
        simp only [Gate.outstanding, producers_erase hmem, Multiset.cons_add,
          Multiset.add_cons] at hb ⊢
        exact hb
  | drop guard =>
    simp only [Gate.step, Option.ite_some_none_eq_some] at hst
    obtain ⟨hmem, rfl⟩ := hst
    apply GateInv.dropGuard
    · exact ho.frame _ _ _
    · have hperm : (↑(s.guards.map GateGuard.producer) : Multiset GpuProducer)
          = guard.producer ::ₘ ↑((s.guards.erase guard).map GateGuard.producer) := by
        rw [Multiset.cons_coe, Multiset.coe_eq_coe]
        exact (List.perm_cons_erase hmem).map _
      have hb := h.balanced
      simp only [Gate.outstanding, hperm, Multiset.cons_add] at hb ⊢
      exact hb
  | send i =>
    simp only [Gate.step] at hst
    split at hst
    · rename_i hi
      cases hst
      exact h.send hi
    · simp at hst
  | pop i =>
    simp only [Gate.step] at hst
    split at hst
    · rename_i hi
      cases hst
      exact h.pop hi
    · simp at hst

/-- Every state that any interleaving of callers and release loops reaches. -/
def Gate.Reached : Gate → Prop := Reachable Gate.step (· = Gate.new)

theorem gateInv_reached (h : s.Reached) : GateInv s :=
  Reachable.invariant (fun _ hs => hs ▸ gateInv_new) (fun _ _ _ hs hst => hs.step hst) h

/-- What a step does to the guards in hand: one is taken, one is dropped, or none. -/
theorem Gate.step_guards {t : Gate} {a : GateAction} (hst : s.step a = some t) :
    t.guards = s.guards ∨ (∃ guard, t.guards = guard :: s.guards) ∨
      ∃ guard ∈ s.guards, t.guards = s.guards.erase guard := by
  cases a with
  | acquire p =>
    cases hst
    unfold Gate.acquire
    split
    · exact .inr (.inl ⟨_, rfl⟩)
    · exact .inl rfl
  | receive call guard =>
    simp only [Gate.step, Option.ite_some_none_eq_some] at hst
    obtain ⟨-, rfl⟩ := hst
    exact .inr (.inl ⟨guard, rfl⟩)
  | cancel call =>
    simp only [Gate.step, Option.ite_none_right_eq_some] at hst
    obtain ⟨-, hst⟩ := hst
    -- a grant that was sent is in the channel, not in the caller's hands
    split at hst <;> cases hst <;> exact .inl rfl
  | drop guard =>
    simp only [Gate.step, Option.ite_some_none_eq_some] at hst
    obtain ⟨hguard, rfl⟩ := hst
    exact .inr (.inr ⟨guard, hguard, rfl⟩)
  | send i =>
    simp only [Gate.step] at hst
    split at hst
    · cases hst
      unfold Gate.send
      split <;> exact .inl rfl
    · cases hst
  | pop i =>
    simp only [Gate.step] at hst
    split at hst
    · cases hst
      exact .inl rfl
    · cases hst

/-- Guards in hand together are copies of one that shares. -/
theorem GateInv.guards_shared (h : GateInv s) {guard : GateGuard}
    {guards : List GateGuard} (hguards : s.guards = guard :: guards) :
    ∀ other ∈ guards, other.producer = guard.producer ∧ guard.producer.shares = true := by
  intro other hother
  have hout : ∀ g ∈ s.guards, s.state.holder = some g.producer := by
    intro g hg
    refine h.balanced.same _ (Multiset.mem_add.2 (.inl ?_))
    exact Multiset.mem_coe.2 (List.mem_map_of_mem hg)
  have hguard := hout guard (hguards ▸ List.mem_cons_self)
  have hcopy := hout other (hguards ▸ .tail _ hother)
  have hmany : 1 < s.outstanding.card := by
    rw [s.card_outstanding, hguards, List.length_cons]
    have := List.length_pos_of_mem hother
    omega
  obtain ⟨p, hp, hshares⟩ := h.balanced.share hmany
  rw [hguard] at hcopy hp
  exact ⟨(Option.some.inj hcopy).symm, Option.some.inj hp ▸ hshares⟩

/-- The gate over every interleaving of `acquire`, guard drop, waiter cancellation and
the release loop. The count is the live guards plus the grants in flight; all of them are
the holder's, several only for a generation; a free gate has no count and no queue; and
calls are admitted and handed their grants in the order of arrival, so that while anyone
is queued a newcomer is not admitted. -/
theorem gate_accounts_for_every_grant {s : Gate} (h : s.Reached) :
    s.state.holders = s.guards.length + s.inFlight ∧
      (∀ p ∈ s.outstanding, s.state.holder = some p) ∧
      (∀ g ∈ s.guards, s.state.holder = some g.producer) ∧
      (1 < s.state.holders → ∃ m, s.state.holder = some (.generation m)) ∧
      (s.state.holder = none → s.state.holders = 0 ∧ s.state.waiters = []) ∧
      s.admitted ++ s.state.waiters.map Waiter.sender = List.range s.calls ∧
      s.handed.Pairwise (· < ·) ∧
      ∀ p, s.state.waiters ≠ [] →
        (s.acquire p).guards = s.guards ∧ (s.acquire p).admitted = s.admitted := by
  have hinv := gateInv_reached h
  have hb := hinv.balanced
  refine ⟨?_, hb.same, ?_, ?_, ?_, hinv.ordered.fifo, hinv.ordered.sorted, ?_⟩
  · rw [hb.count, s.card_outstanding]
  · intro g hg
    apply hb.same
    simp only [Gate.outstanding, Multiset.mem_add, Multiset.mem_coe, List.mem_map]
    exact .inl ⟨g, hg, rfl⟩
  · intro hmany
    rw [hb.count] at hmany
    obtain ⟨p, hp, hshares⟩ := hb.share hmany
    cases p with
    | generation m => exact ⟨m, hp⟩
    | load m | unload m | job m => simp [GpuProducer.shares] at hshares
  · intro hnone
    refine ⟨?_, hb.idle hnone⟩
    rw [hb.count, Multiset.card_eq_zero, Multiset.eq_zero_iff_forall_notMem]
    intro p hp
    rw [hb.same p hp] at hnone
    simp at hnone
  · intro p hqueued
    unfold Gate.acquire
    rw [if_neg fun hc => hqueued hc.1]
    exact ⟨rfl, rfl⟩

/-- A run in which a queued load is cancelled, its grant bounces, and the two generations
queued behind it share the gate. -/
def bouncedGrant : List GateAction :=
  [.acquire (.load "a"), .acquire (.load "b"), .acquire (.generation "c"),
    .acquire (.generation "c"), .cancel 1, .drop ⟨.load "a"⟩, .send 0, .pop 0, .send 0,
    .receive 2 ⟨.generation "c"⟩]

theorem gate_accounts_for_bounced_grant :
    ∃ s : Gate, run Gate.step Gate.new bouncedGrant = some s ∧
      s.state.holders = s.guards.length + s.inFlight ∧ s.guards.length = 1 ∧ s.inFlight = 1 := by
  have hrun : (run Gate.step Gate.new bouncedGrant).map
      (fun s => (s.guards.length, s.inFlight)) = some (1, 1) := by decide
  obtain ⟨s, hs, hcount⟩ := Option.map_eq_some_iff.1 hrun
  have hreached : s.Reached := Reachable.run (.init rfl) hs
  exact ⟨s, hs, (gate_accounts_for_every_grant hreached).1, congrArg Prod.fst hcount,
    congrArg Prod.snd hcount⟩

end Hedos.Governor
