import Hedos.Lib.Lists
import Mathlib.Data.List.Nodup

/-!
# A queue in front of one slot

Entries of an arbitrary type are submitted to a queue; the first of the queue takes the slot
when it is free, with a worker that owns the slot until it is gone. An entry that still waits
can be withdrawn, with a worker that does not own the slot and only brings the entry to its
end. Two workers may bring one withdrawn entry to its end.

* `Ledger` is the state, with what has happened so far (`submitted`, `started`, `withdrawn`,
  `begun`, `stamped`);
* `Ledger.Step` is one step of any worker or of an outside call;
* `Ledger.Disciplined` is kept by every step (`Disciplined.step`).
-/

namespace SlotQueue

open Function

variable {ι : Type*} [DecidableEq ι]

/-- How far a worker is: it has taken the slot, has begun the work, is about to stamp the
entry, has stamped it, or is gone. -/
inductive Stage
  | taken
  | running
  | ending
  | ended
  | gone
deriving DecidableEq

structure Worker (ι : Type*) where
  entry : ι
  owner : Bool
  stage : Stage
deriving DecidableEq

/-- The worker keeps the slot. -/
def Worker.Holds (w : Worker ι) : Prop := w.owner = true ∧ w.stage ≠ .gone

/-- The state, and what has happened. `terminal` knows the entries in memory and whether they
are stamped. -/
structure Ledger (ι : Type*) where
  terminal : ι → Option Bool
  queue : List ι
  slot : Option ι
  workers : List (Worker ι)
  submitted : List ι
  started : List ι
  withdrawn : List ι
  begun : List ι
  stamped : List ι

namespace Ledger

/-- Nothing has happened. -/
def empty : Ledger ι := ⟨fun _ => none, [], none, [], [], [], [], [], []⟩

/-- The first of the queue takes the slot if it is free. -/
def advance (l : Ledger ι) : Ledger ι :=
  match l.slot, l.queue with
  | none, e :: rest =>
    { l with
      slot := some e
      queue := rest
      started := l.started ++ [e]
      workers := l.workers ++ [⟨e, true, .taken⟩] }
  | _, _ => l

def enqueue (l : Ledger ι) (e : ι) : Ledger ι :=
  { l with
    terminal := update l.terminal e (some false)
    queue := l.queue ++ [e]
    submitted := l.submitted ++ [e] }

def withdraw (l : Ledger ι) (e : ι) : Ledger ι :=
  { l with
    queue := l.queue.filter fun q => q ≠ e
    withdrawn := l.withdrawn ++ [e]
    workers := l.workers ++ [⟨e, false, .ending⟩] }

def goto (l : Ledger ι) (i : ℕ) (w : Worker ι) (stage : Stage) : Ledger ι :=
  { l with workers := l.workers.set i { w with stage := stage } }

def stamp (l : Ledger ι) (e : ι) : Ledger ι :=
  { l with
    terminal := update l.terminal e (some true)
    stamped := l.stamped ++ [e] }

/-- Forget an entry and free its slot. -/
def evict (l : Ledger ι) (e : ι) : Ledger ι :=
  { l with
    terminal := update l.terminal e none
    slot := if l.slot = some e then none else l.slot }

omit [DecidableEq ι] in
/-- A worker that stays at its stage changes nothing. -/
theorem goto_same {l : Ledger ι} {i : ℕ} {w : Worker ι} (hi : l.workers[i]? = some w) :
    l.goto i w w.stage = l := by
  obtain ⟨hlt, hget⟩ := List.getElem?_eq_some_iff.1 hi
  have hset : l.workers.set i w = l.workers := by rw [← hget, List.set_getElem_self]
  show { l with workers := l.workers.set i w } = l
  rw [hset]

/-- One step of a worker or of an outside call. -/
inductive Step : Ledger ι → Ledger ι → Prop
  | submit {l : Ledger ι} {e : ι} : e ∉ l.submitted → Step l (l.enqueue e).advance
  | withdraw {l : Ledger ι} {e : ι} :
      l.terminal e = some false → l.slot ≠ some e → Step l (l.withdraw e)
  /-- A call that ends at once leaves a worker that is gone. -/
  | idle {l : Ledger ι} {e : ι} : Step l { l with workers := l.workers ++ [⟨e, false, .gone⟩] }
  | begin {l : Ledger ι} {i : ℕ} {w : Worker ι} : l.workers[i]? = some w → w.stage = .taken →
      Step l { l.goto i w .running with begun := l.begun ++ [w.entry] }
  | leave {l : Ledger ι} {i : ℕ} {w : Worker ι} : l.workers[i]? = some w →
      w.stage = .taken ∨ w.stage = .running → Step l (l.goto i w .ending)
  | stamp {l : Ledger ι} {i : ℕ} {w : Worker ι} : l.workers[i]? = some w → w.stage = .ending →
      l.terminal w.entry = some false → Step l ((l.goto i w .ended).stamp w.entry)
  | evict {l : Ledger ι} {i : ℕ} {w : Worker ι} : l.workers[i]? = some w →
      w.stage = .ended ∨ (w.stage = .ending ∧ l.terminal w.entry ≠ some false) →
      Step l ((l.goto i w .gone).evict w.entry).advance

/-! ## The invariant -/

/-- The slot is held by the one worker that owns it, if by any. -/
structure Held (workers : List (Worker ι)) (slot : Option ι) : Prop where
  holds : ∀ w ∈ workers, w.Holds → slot = some w.entry
  unique : ∀ (i j : ℕ) w w', workers[i]? = some w → workers[j]? = some w' →
    w.Holds → w'.Holds → i = j
  held : ∀ e, slot = some e → ∃ w ∈ workers, w.Holds ∧ w.entry = e

/-- Somebody is about to bring the entry to its end. -/
def Owed (workers : List (Worker ι)) (e : ι) : Prop :=
  ∃ w ∈ workers, w.entry = e ∧ w.stage ≠ .gone

/-- What holds of a worker at each stage. -/
def WorkerOk (l : Ledger ι) (w : Worker ι) : Prop :=
  match w.stage with
  | .taken =>
    w.owner = true ∧ w.entry ∈ l.started ∧ l.terminal w.entry = some false ∧ w.entry ∉ l.begun
  | .running => w.owner = true ∧ w.entry ∈ l.started ∧ l.terminal w.entry = some false
  | .ending =>
    if w.owner then w.entry ∈ l.started ∧ l.terminal w.entry = some false
    else w.entry ∈ l.withdrawn
  | .ended =>
    w.entry ∈ l.stamped ∧ if w.owner then w.entry ∈ l.started else w.entry ∈ l.withdrawn
  | .gone => True

/-- All of the discipline but that the slot does not stay free in front of a queue. -/
structure Sound (l : Ledger ι) : Prop where
  distinct : l.submitted.Nodup
  /-- Whoever has started, then whoever waits, are the submitted ones that nobody withdrew. -/
  order : l.started ++ l.queue = l.submitted.filter fun e => e ∉ l.withdrawn
  withdrawn : ∀ e ∈ l.withdrawn, e ∈ l.submitted
  queued : ∀ e ∈ l.queue, l.terminal e = some false
  workers : ∀ w ∈ l.workers, l.WorkerOk w
  held : Held l.workers l.slot
  memory : ∀ e, l.terminal e ≠ none → e ∈ l.submitted ∧ (e ∈ l.queue ∨ Owed l.workers e)
  stamps : ∀ e, e ∈ l.stamped ↔ e ∈ l.submitted ∧ l.terminal e ≠ some false
  stampedOnce : l.stamped.Nodup
  begunOnce : l.begun.Nodup
  begunStarted : ∀ e ∈ l.begun, e ∈ l.started

/-- The discipline of the queue. -/
structure Disciplined (l : Ledger ι) : Prop extends l.Sound where
  idle : l.slot = none → l.queue = []

/-! ## The table of workers -/

section Workers

omit [DecidableEq ι]

variable {workers : List (Worker ι)} {new w : Worker ι} {slot : Option ι} {e : ι} {i : ℕ}
variable {stage : Stage} {l l' : Ledger ι}

theorem Held.unique_concat (h : Held workers slot) (hnew : new.Holds → slot = none) :
    ∀ (i j : ℕ) w w', (workers ++ [new])[i]? = some w → (workers ++ [new])[j]? = some w' →
      w.Holds → w'.Holds → i = j := by
  -- a new holder finds the slot free, so no old worker holds it
  have hfree : ∀ (k : ℕ) x, workers[k]? = some x → x.Holds → ¬ new.Holds := by
    intro k x hk hx hholds
    simpa [hnew hholds] using h.holds x (List.mem_of_getElem? hk) hx
  intro i j w w' hi hj hw hw'
  rcases Lists.getElem?_concat_cases hi with hold | ⟨hlast, rfl⟩
  · rcases Lists.getElem?_concat_cases hj with hold' | ⟨-, rfl⟩
    · exact h.unique i j w w' hold hold' hw hw'
    · exact absurd hw' (hfree i w hold hw)
  · rcases Lists.getElem?_concat_cases hj with hold' | ⟨hlast', -⟩
    · exact absurd hw (hfree j w' hold' hw')
    · rw [hlast, hlast']

/-- A new worker that does not hold the slot. -/
theorem Held.concat (h : Held workers slot) (hnew : ¬ new.Holds) :
    Held (workers ++ [new]) slot := by
  refine ⟨fun w hw hholds => ?_, h.unique_concat fun hholds => absurd hholds hnew, fun e he => ?_⟩
  · rcases List.mem_append.1 hw with hw | hw
    · exact h.holds w hw hholds
    · exact absurd (List.mem_singleton.1 hw ▸ hholds) hnew
  · obtain ⟨w, hw, hwe⟩ := h.held e he
    exact ⟨w, List.mem_append_left _ hw, hwe⟩

/-- A new worker that takes the free slot. -/
theorem Held.take (h : Held workers none) (hnew : new.Holds) :
    Held (workers ++ [new]) (some new.entry) := by
  refine ⟨fun w hw hholds => ?_, h.unique_concat fun _ => rfl, fun e he => ?_⟩
  · rcases List.mem_append.1 hw with hw | hw
    · simpa using h.holds w hw hholds
    · rw [List.mem_singleton.1 hw]
  · exact ⟨new, List.mem_append_right _ (List.mem_singleton_self _), hnew, Option.some.inj he⟩

/-- A worker that goes on keeps the slot, or stays without it. -/
theorem Held.goto (h : Held workers slot) (hi : workers[i]? = some w) (hold : w.stage ≠ .gone)
    (hnew : stage ≠ .gone) : Held (workers.set i { w with stage := stage }) slot := by
  have hlt := (List.getElem?_eq_some_iff.1 hi).1
  have hholds : (Worker.mk w.entry w.owner stage).Holds ↔ w.Holds :=
    ⟨fun hw => ⟨hw.1, hold⟩, fun hw => ⟨hw.1, hnew⟩⟩
  -- every holder of the new table was in the old one, at the same index
  have hback : ∀ (j : ℕ) x, (workers.set i { w with stage := stage })[j]? = some x → x.Holds →
      ∃ y, workers[j]? = some y ∧ y.Holds ∧ y.entry = x.entry := by
    intro j x hj hx
    rcases Lists.getElem?_set_cases hj with ⟨rfl, rfl⟩ | ⟨-, hj⟩
    · exact ⟨w, hi, hholds.1 hx, rfl⟩
    · exact ⟨x, hj, hx, rfl⟩
  refine ⟨fun x hx hxholds => ?_, fun j k x x' hj hk hx hx' => ?_, fun e he => ?_⟩
  · obtain ⟨j, hj⟩ := List.mem_iff_getElem?.1 hx
    obtain ⟨y, hy, hyholds, hentry⟩ := hback j x hj hxholds
    rw [← hentry]
    exact h.holds y (List.mem_of_getElem? hy) hyholds
  · obtain ⟨y, hy, hyholds, -⟩ := hback j x hj hx
    obtain ⟨y', hy', hyholds', -⟩ := hback k x' hk hx'
    exact h.unique j k y y' hy hy' hyholds hyholds'
  · obtain ⟨x, hx, hxholds, hxe⟩ := h.held e he
    obtain ⟨j, hj⟩ := List.mem_iff_getElem?.1 hx
    by_cases hij : i = j
    · obtain rfl : w = x := Option.some.inj (hi.symm.trans (hij ▸ hj))
      exact ⟨_, List.mem_set hlt _, hholds.2 hxholds, hxe⟩
    · exact ⟨x, Lists.mem_set_of_ne hj hij, hxholds, hxe⟩

/-- A worker that goes frees the slot of its entry, which no other worker holds. -/
theorem Held.release [DecidableEq ι] (h : Held workers slot) (hi : workers[i]? = some w)
    (halone : ∀ (j : ℕ) x, workers[j]? = some x → i ≠ j → x.Holds → x.entry ≠ w.entry) :
    Held (workers.set i { w with stage := .gone })
      (if slot = some w.entry then none else slot) := by
  -- the holders of the new table are holders of the old one, at other indices
  have hback : ∀ (j : ℕ) x, (workers.set i { w with stage := .gone })[j]? = some x → x.Holds →
      i ≠ j ∧ workers[j]? = some x := by
    intro j x hj hx
    rcases Lists.getElem?_set_cases hj with ⟨-, rfl⟩ | hold
    · exact absurd rfl hx.2
    · exact hold
  refine ⟨fun x hx hxholds => ?_, fun j k x x' hj hk hx hx' => ?_, fun e he => ?_⟩
  · obtain ⟨j, hj⟩ := List.mem_iff_getElem?.1 hx
    obtain ⟨hij, hold⟩ := hback j x hj hxholds
    have hslot := h.holds x (List.mem_of_getElem? hold) hxholds
    rw [if_neg, hslot]
    rw [hslot, Option.some.injEq]
    exact halone j x hold hij hxholds
  · exact h.unique j k x x' (hback j x hj hx).2 (hback k x' hk hx').2 hx hx'
  · split at he
    · simp at he
    · rename_i hne
      obtain ⟨x, hx, hxholds, hxe⟩ := h.held e he
      obtain ⟨j, hj⟩ := List.mem_iff_getElem?.1 hx
      refine ⟨x, Lists.mem_set_of_ne hj ?_, hxholds, hxe⟩
      rintro rfl
      obtain rfl : w = x := Option.some.inj (hi.symm.trans hj)
      exact hne (hxe ▸ he)

theorem Owed.concat (h : Owed workers e) : Owed (workers ++ [new]) e := by
  obtain ⟨w, hw, hwe⟩ := h
  exact ⟨w, List.mem_append_left _ hw, hwe⟩

theorem Owed.last (hentry : new.entry = e) (hstage : new.stage ≠ .gone) :
    Owed (workers ++ [new]) e :=
  ⟨new, List.mem_append_right _ (List.mem_singleton_self _), hentry, hstage⟩

/-- An entry stays owed while the worker that changes is not gone, or was another's. -/
theorem Owed.goto (h : Owed workers e) (hi : workers[i]? = some w)
    (hnew : w.entry = e → stage ≠ .gone) : Owed (workers.set i { w with stage := stage }) e := by
  obtain ⟨x, hx, hxe, hgone⟩ := h
  obtain ⟨j, hj⟩ := List.mem_iff_getElem?.1 hx
  by_cases hij : i = j
  · obtain rfl : w = x := Option.some.inj (hi.symm.trans (hij ▸ hj))
    exact ⟨_, List.mem_set (List.getElem?_eq_some_iff.1 hi).1 _, hxe, hnew hxe⟩
  · exact ⟨x, Lists.mem_set_of_ne hj hij, hxe, hgone⟩

/-- A worker stays in order while what it relies on stays. -/
theorem WorkerOk.mono (h : l.WorkerOk w) (hstarted : w.entry ∈ l.started → w.entry ∈ l'.started)
    (hwithdrawn : w.entry ∈ l.withdrawn → w.entry ∈ l'.withdrawn)
    (hstamped : w.entry ∈ l.stamped → w.entry ∈ l'.stamped)
    (hbegun : w.stage = .taken → w.entry ∉ l.begun → w.entry ∉ l'.begun)
    (hterminal : w.Holds → l'.terminal w.entry = l.terminal w.entry) : l'.WorkerOk w := by
  unfold WorkerOk at h ⊢
  cases hstage : w.stage with
  | taken =>
    simp only [hstage] at h ⊢
    obtain ⟨howner, hs, ht, hb⟩ := h
    have hholds : w.Holds := ⟨howner, by simp [hstage]⟩
    exact ⟨howner, hstarted hs, (hterminal hholds).trans ht, hbegun hstage hb⟩
  | running =>
    simp only [hstage] at h ⊢
    obtain ⟨howner, hs, ht⟩ := h
    exact ⟨howner, hstarted hs, (hterminal ⟨howner, by simp [hstage]⟩).trans ht⟩
  | ending =>
    simp only [hstage] at h ⊢
    cases howner : w.owner with
    | true =>
      rw [howner, if_pos rfl] at h
      exact ⟨hstarted h.1, (hterminal ⟨howner, by simp [hstage]⟩).trans h.2⟩
    | false =>
      rw [howner] at h
      exact hwithdrawn h
  | ended =>
    simp only [hstage] at h ⊢
    refine ⟨hstamped h.1, ?_⟩
    cases howner : w.owner with
    | true =>
      rw [howner] at h
      exact hstarted h.2
    | false =>
      rw [howner] at h
      exact hwithdrawn h.2
  | gone => trivial

end Workers

/-! ## What the invariant says at once -/

section Facts

variable {l : Ledger ι} {e : ι} {w w' : Worker ι} {i j : ℕ}

theorem Sound.mem_submitted (h : l.Sound) (he : e ∈ l.started ∨ e ∈ l.queue) :
    e ∈ l.submitted ∧ e ∉ l.withdrawn := by
  have hmem : e ∈ l.started ++ l.queue := List.mem_append.2 he
  rw [h.order] at hmem
  simpa using hmem

/-- Nobody starts twice, and nobody waits who has started. -/
theorem Sound.nodup (h : l.Sound) : (l.started ++ l.queue).Nodup := by
  rw [h.order]
  exact h.distinct.filter _

theorem Sound.not_queued (h : l.Sound) (hs : e ∈ l.started) : e ∉ l.queue :=
  fun hq => (List.nodup_append.1 h.nodup).2.2 e hs e hq rfl

theorem Sound.not_started (h : l.Sound) (hw : e ∈ l.withdrawn) : e ∉ l.started :=
  fun hs => (h.mem_submitted (.inl hs)).2 hw

/-- The entry of a worker that is not gone has started or is withdrawn. -/
theorem Sound.worker_entry (h : l.Sound) (hw : w ∈ l.workers) (hgone : w.stage ≠ .gone) :
    (w.owner = true ∧ w.entry ∈ l.started) ∨ (w.owner = false ∧ w.entry ∈ l.withdrawn) := by
  have hok := h.workers w hw
  unfold WorkerOk at hok
  cases howner : w.owner <;> split at hok <;> simp_all

theorem Sound.entry_submitted (h : l.Sound) (hw : w ∈ l.workers) (hgone : w.stage ≠ .gone) :
    w.entry ∈ l.submitted ∧ w.entry ∉ l.queue := by
  rcases h.worker_entry hw hgone with ⟨-, hs⟩ | ⟨-, hs⟩
  · exact ⟨(h.mem_submitted (.inl hs)).1, h.not_queued hs⟩
  · exact ⟨h.withdrawn _ hs, fun hq => (h.mem_submitted (.inr hq)).2 hs⟩

/-- An owner shares its entry with no other worker. -/
theorem Sound.owner_alone (h : l.Sound) (hi : l.workers[i]? = some w)
    (hj : l.workers[j]? = some w') (hw : w.Holds) (hgone : w'.stage ≠ .gone) (hij : i ≠ j) :
    w.entry ≠ w'.entry := by
  intro heq
  have hstarted : w.entry ∈ l.started := by
    rcases h.worker_entry (List.mem_of_getElem? hi) hw.2 with ⟨-, hs⟩ | ⟨hno, -⟩
    · exact hs
    · simp [hw.1] at hno
  rcases h.worker_entry (List.mem_of_getElem? hj) hgone with ⟨howner, -⟩ | ⟨-, hwith⟩
  · exact hij (h.held.unique i j w w' hi hj hw ⟨howner, hgone⟩)
  · exact h.not_started hwith (heq ▸ hstarted)

end Facts

/-! ## Each operation keeps it -/

section Operations

variable {l : Ledger ι} {e : ι} {w : Worker ι} {i : ℕ} {stage : Stage}

theorem Sound.advance (h : l.Sound) : l.advance.Disciplined := by
  unfold Ledger.advance
  split
  · rename_i e rest hslot hqueue
    have hmem : e ∈ l.queue := by simp [hqueue]
    have hpending := h.queued e hmem
    have hnot : e ∉ l.started := fun hs => h.not_queued hs hmem
    refine { h with
      order := ?_, queued := fun x hx => h.queued x (by simp [hqueue, hx]), workers := ?_
      held := (hslot ▸ h.held).take ⟨rfl, by simp⟩, memory := ?_
      begunStarted := fun x hx => List.mem_append_left _ (h.begunStarted x hx)
      idle := by simp }
    · -- the first of the queue becomes the last that has started: the order is the same list
      rw [List.append_assoc, List.singleton_append, ← hqueue]
      exact h.order
    · intro w hw
      rcases List.mem_append.1 hw with hw | hw
      · exact (h.workers w hw).mono (List.mem_append_left _) id id (fun _ hb => hb) fun _ => rfl
      · rw [List.mem_singleton.1 hw]
        exact ⟨rfl, List.mem_append_right _ (List.mem_singleton_self e), hpending,
          fun hb => hnot (h.begunStarted e hb)⟩
    · -- the entry that leaves the queue is owed by its new worker
      intro x hx
      obtain ⟨hsub, hwho⟩ := h.memory x hx
      refine ⟨hsub, ?_⟩
      rcases hwho with hq | howed
      · rw [hqueue] at hq
        rcases List.mem_cons.1 hq with rfl | hq
        · exact .inr (.last rfl (by simp))
        · exact .inl hq
      · exact .inr howed.concat
  · rename_i hbusy
    refine { h with idle := fun hnone => ?_ }
    cases hqueue : l.queue with
    | nil => rfl
    | cons e rest => exact absurd hqueue (hbusy e rest hnone)

theorem Sound.enqueue (h : l.Sound) (he : e ∉ l.submitted) : (l.enqueue e).Sound := by
  have hwithdrawn : e ∉ l.withdrawn := fun hw => he (h.withdrawn e hw)
  -- the entry is new, so nothing known about an earlier one changes
  have hterminal : ∀ x, x ∈ l.submitted → (l.enqueue e).terminal x = l.terminal x := by
    intro x hx
    exact update_of_ne (by rintro rfl; exact he hx) _ _
  refine { h with
    distinct := ?_, order := ?_, withdrawn := ?_, queued := ?_, workers := ?_, memory := ?_
    stamps := ?_ }
  · show (l.submitted ++ [e]).Nodup
    rw [← List.concat_eq_append]
    exact h.distinct.concat he
  · show l.started ++ (l.queue ++ [e]) = (l.submitted ++ [e]).filter fun x => x ∉ l.withdrawn
    rw [← List.append_assoc, h.order, List.filter_append]
    simp [hwithdrawn]
  · exact fun x hx => List.mem_append_left _ (h.withdrawn x hx)
  · intro x hx
    rcases List.mem_append.1 hx with hx | hx
    · rw [hterminal x (h.mem_submitted (.inr hx)).1]
      exact h.queued x hx
    · rw [List.mem_singleton.1 hx]
      exact update_self _ _ _
  · intro w hw
    refine (h.workers w hw).mono id id id (fun _ hb => hb) fun hholds => ?_
    exact hterminal _ (h.entry_submitted hw hholds.2).1
  · intro x hx
    by_cases hxe : x = e
    · rw [hxe]
      exact ⟨List.mem_append_right _ (List.mem_singleton_self e),
        .inl (List.mem_append_right _ (List.mem_singleton_self e))⟩
    · simp only [Ledger.enqueue, update_of_ne hxe] at hx
      obtain ⟨hsub, hwho⟩ := h.memory x hx
      exact ⟨List.mem_append_left _ hsub, hwho.imp_left (List.mem_append_left _)⟩
  · intro x
    by_cases hxe : x = e
    · have hnot : e ∉ l.stamped := fun hst => he ((h.stamps e).1 hst).1
      simp [Ledger.enqueue, hxe, hnot]
    · simp only [Ledger.enqueue, update_of_ne hxe]
      rw [h.stamps x]
      simp [hxe]

theorem Disciplined.withdraw (h : l.Disciplined) (he : l.terminal e = some false)
    (hslot : l.slot ≠ some e) : (l.withdraw e).Disciplined := by
  obtain ⟨hsub, hwho⟩ := h.memory e (by simp [he])
  -- an entry that has started and is still pending has its owner in the slot
  have hnot : e ∉ l.started := by
    rcases hwho with hq | ⟨w, hw, rfl, hgone⟩
    · exact fun hs => h.not_queued hs hq
    · rcases h.worker_entry hw hgone with ⟨howner, -⟩ | ⟨-, hwith⟩
      · exact absurd (h.held.holds w hw ⟨howner, hgone⟩) hslot
      · exact h.not_started hwith
  refine { h with
    order := ?_, withdrawn := ?_, queued := ?_, workers := ?_
    held := h.held.concat (by simp [Worker.Holds]), memory := ?_, idle := ?_ }
  · -- filtering both sides of the old order leaves what has started alone
    have hfilter : l.started.filter (fun q => q ≠ e) = l.started :=
      List.filter_eq_self.2 fun x hx => by
        simp only [ne_eq, decide_not, Bool.not_eq_true', decide_eq_false_iff_not]
        rintro rfl
        exact hnot hx
    have horder := congrArg (List.filter fun q => q ≠ e) h.order
    rw [List.filter_append, hfilter, List.filter_filter] at horder
    simp only [Ledger.withdraw]
    rw [horder]
    refine List.filter_congr fun x _ => ?_
    simp [not_or, and_comm]
  · intro x hx
    rcases List.mem_append.1 hx with hx | hx
    · exact h.withdrawn x hx
    · rw [List.mem_singleton.1 hx]
      exact hsub
  · exact fun x hx => h.queued x (List.mem_filter.1 hx).1
  · intro w hw
    rcases List.mem_append.1 hw with hw | hw
    · exact (h.workers w hw).mono id (List.mem_append_left _) id (fun _ hb => hb) fun _ => rfl
    · rw [List.mem_singleton.1 hw]
      exact List.mem_append_right _ (List.mem_singleton_self e)
  · intro x hx
    obtain ⟨hsub, hwho⟩ := h.memory x hx
    refine ⟨hsub, ?_⟩
    by_cases hxe : x = e
    · exact .inr (.last hxe.symm (by simp))
    · rcases hwho with hq | howed
      · exact .inl (List.mem_filter.2 ⟨hq, by simpa using hxe⟩)
      · exact .inr howed.concat
  · intro hfree
    simp [Ledger.withdraw, h.idle hfree]

/-- A worker that is gone from the start changes nothing. -/
theorem Disciplined.idle_worker (h : l.Disciplined) :
    Disciplined { l with workers := l.workers ++ [⟨e, false, .gone⟩] } := by
  refine { h with
    workers := ?_, held := h.held.concat (by simp [Worker.Holds])
    memory := fun x hx => (h.memory x hx).imp_right (Or.imp_right Owed.concat) }
  intro w hw
  rcases List.mem_append.1 hw with hw | hw
  · exact (h.workers w hw).mono id id id (fun _ hb => hb) fun _ => rfl
  · rw [List.mem_singleton.1 hw]
    trivial

/-- A worker goes on to another stage, and is not gone by that. -/
theorem Disciplined.goto (h : l.Disciplined) (hi : l.workers[i]? = some w)
    (hold : w.stage ≠ .gone) (hnew : stage ≠ .gone)
    (hok : l.WorkerOk { w with stage := stage }) : (l.goto i w stage).Disciplined := by
  refine { h with
    workers := ?_, held := h.held.goto hi hold hnew
    memory := fun x hx =>
      (h.memory x hx).imp_right (Or.imp_right fun howed => howed.goto hi fun _ => hnew) }
  intro x hx
  rcases Lists.mem_set_cases hx with rfl | ⟨j, -, hj⟩
  · exact hok
  · exact h.workers x (List.mem_of_getElem? hj)

/-- Beginning the work of an entry that has started and not begun. -/
theorem Disciplined.begin (h : l.Disciplined) (hi : l.workers[i]? = some w)
    (hstage : w.stage = .taken) :
    Disciplined { l.goto i w .running with begun := l.begun ++ [w.entry] } := by
  have hok := h.workers w (List.mem_of_getElem? hi)
  simp only [WorkerOk, hstage] at hok
  obtain ⟨howner, hstarted, hterminal, hbegun⟩ := hok
  have hgo : (l.goto i w .running).Disciplined :=
    h.goto hi (by simp [hstage]) (by simp) ⟨howner, hstarted, hterminal⟩
  refine { hgo with workers := ?_, begunOnce := ?_, begunStarted := ?_ }
  · intro x hx
    refine (hgo.workers x hx).mono id id id (fun htaken hb => ?_) fun _ => rfl
    -- whoever has taken the slot and not begun is another worker than this one
    rcases Lists.mem_set_cases hx with rfl | ⟨j, hij, hj⟩
    · simp at htaken
    · have hne := h.owner_alone hi hj ⟨howner, by simp [hstage]⟩ (by simp [htaken]) hij
      have hbegun' : x.entry ∉ l.begun := hb
      simpa [hbegun'] using hne.symm
  · rw [← List.concat_eq_append]
    exact h.begunOnce.concat hbegun
  · intro x hx
    rcases List.mem_append.1 hx with hx | hx
    · exact h.begunStarted x hx
    · rw [List.mem_singleton.1 hx]
      exact hstarted

theorem Disciplined.leave (h : l.Disciplined) (hi : l.workers[i]? = some w)
    (hstage : w.stage = .taken ∨ w.stage = .running) : (l.goto i w .ending).Disciplined := by
  have hok := h.workers w (List.mem_of_getElem? hi)
  have hgoes : w.owner = true ∧ w.entry ∈ l.started ∧ l.terminal w.entry = some false := by
    rcases hstage with hstage | hstage
    · simp only [WorkerOk, hstage] at hok
      exact ⟨hok.1, hok.2.1, hok.2.2.1⟩
    · simp only [WorkerOk, hstage] at hok
      exact hok
  refine h.goto hi ?_ (by simp) ?_
  · rcases hstage with hstage | hstage <;> simp [hstage]
  · simp only [WorkerOk, hgoes.1, if_pos]
    exact hgoes.2

/-- Whatever a worker does to its entry, the other holders have other entries. -/
theorem Sound.other_terminal (h : l.Sound) (hi : l.workers[i]? = some w) (hgone : w.stage ≠ .gone)
    {x : Worker ι} {j : ℕ} (hj : l.workers[j]? = some x) (hij : i ≠ j) (hholds : x.Holds)
    (value : Option Bool) : update l.terminal w.entry value x.entry = l.terminal x.entry :=
  update_of_ne (h.owner_alone hj hi hholds hgone hij.symm) _ _

theorem Disciplined.stamp (h : l.Disciplined) (hi : l.workers[i]? = some w)
    (hstage : w.stage = .ending) (hterminal : l.terminal w.entry = some false) :
    ((l.goto i w .ended).stamp w.entry).Disciplined := by
  have hgone : w.stage ≠ .gone := by simp [hstage]
  have hmem := List.mem_of_getElem? hi
  obtain ⟨hsub, hqueue⟩ := h.entry_submitted hmem hgone
  have hnot : w.entry ∉ l.stamped := fun hst => ((h.stamps _).1 hst).2 hterminal
  refine { h with
    queued := ?_, workers := ?_, held := h.held.goto hi hgone (by simp), memory := ?_
    stamps := ?_, stampedOnce := ?_ }
  · intro x hx
    have hne : x ≠ w.entry := by
      rintro rfl
      exact hqueue hx
    simp only [Ledger.stamp, Ledger.goto, update_of_ne hne]
    exact h.queued x hx
  · -- the worker has stamped its entry; no other holder relies on that entry
    intro x hx
    rcases Lists.mem_set_cases hx with rfl | ⟨j, hij, hj⟩
    · refine ⟨List.mem_append_right _ (List.mem_singleton_self _), ?_⟩
      rcases h.worker_entry hmem hgone with ⟨howner, hs⟩ | ⟨howner, hs⟩
      · simpa [howner, Ledger.stamp, Ledger.goto] using hs
      · simpa [howner, Ledger.stamp, Ledger.goto] using hs
    · exact (h.workers x (List.mem_of_getElem? hj)).mono id id (List.mem_append_left _)
        (fun _ hb => hb) fun hholds => h.other_terminal hi hgone hj hij hholds _
  · intro x hx
    have hold : l.terminal x ≠ none := by
      by_cases hxe : x = w.entry
      · simp [hxe, hterminal]
      · simpa only [Ledger.stamp, Ledger.goto, update_of_ne hxe] using hx
    exact (h.memory x hold).imp_right (Or.imp_right fun howed => howed.goto hi fun _ => by simp)
  · intro x
    by_cases hxe : x = w.entry
    · simp [Ledger.stamp, Ledger.goto, hxe, hsub]
    · simp only [Ledger.stamp, Ledger.goto, update_of_ne hxe]
      rw [← h.stamps x]
      simp [hxe]
  · -- nobody stamps twice: an entry that is stamped is not pending
    show (l.stamped ++ [w.entry]).Nodup
    rw [← List.concat_eq_append]
    exact h.stampedOnce.concat hnot

theorem Sound.evict (h : l.Sound) (hi : l.workers[i]? = some w)
    (hstage : w.stage = .ended ∨ (w.stage = .ending ∧ l.terminal w.entry ≠ some false)) :
    ((l.goto i w .gone).evict w.entry).Sound := by
  have hgone : w.stage ≠ .gone := by rcases hstage with hstage | ⟨hstage, -⟩ <;> simp [hstage]
  have hmem := List.mem_of_getElem? hi
  obtain ⟨hsub, hqueue⟩ := h.entry_submitted hmem hgone
  -- stamped by this worker, or by another one that brought the entry to its end
  have hstamped : w.entry ∈ l.stamped := by
    rcases hstage with hstage | ⟨-, hterminal⟩
    · have hok := h.workers w hmem
      simp only [WorkerOk, hstage] at hok
      exact hok.1
    · exact (h.stamps _).2 ⟨hsub, hterminal⟩
  refine { h with
    queued := ?_, workers := ?_
    held := h.held.release hi fun j x hj hij hholds =>
      h.owner_alone hj hi hholds hgone hij.symm
    memory := ?_, stamps := ?_ }
  · intro x hx
    have hne : x ≠ w.entry := by
      rintro rfl
      exact hqueue hx
    simp only [Ledger.evict, Ledger.goto, update_of_ne hne]
    exact h.queued x hx
  · intro x hx
    rcases Lists.mem_set_cases hx with rfl | ⟨j, hij, hj⟩
    · trivial
    · exact (h.workers x (List.mem_of_getElem? hj)).mono id id id (fun _ hb => hb)
        fun hholds => h.other_terminal hi hgone hj hij hholds _
  · -- only the evicted entry loses a worker, and it is no longer in memory
    intro x hx
    have hne : x ≠ w.entry := by
      rintro rfl
      simp [Ledger.evict] at hx
    simp only [Ledger.evict, Ledger.goto, update_of_ne hne] at hx
    exact (h.memory x hx).imp_right
      (Or.imp_right fun howed => howed.goto hi fun heq => absurd heq.symm hne)
  · intro x
    by_cases hxe : x = w.entry
    · simp [Ledger.evict, Ledger.goto, hxe, hsub, hstamped]
    · simp only [Ledger.evict, Ledger.goto, update_of_ne hxe]
      exact h.stamps x

theorem disciplined_empty : (empty : Ledger ι).Disciplined where
  distinct := List.nodup_nil
  order := rfl
  withdrawn := by simp [empty]
  queued := by simp [empty]
  workers := by simp [empty]
  held := ⟨by simp [empty], by simp [empty], by simp [empty]⟩
  memory := by simp [empty]
  stamps := by simp [empty]
  stampedOnce := List.nodup_nil
  begunOnce := List.nodup_nil
  begunStarted := by simp [empty]
  idle := fun _ => rfl

/-- Every step keeps the discipline. -/
theorem Disciplined.step {l' : Ledger ι} (h : l.Disciplined) (hst : Step l l') :
    l'.Disciplined := by
  cases hst with
  | submit he => exact (h.toSound.enqueue he).advance
  | withdraw he hslot => exact h.withdraw he hslot
  | idle => exact h.idle_worker
  | begin hi hstage => exact h.begin hi hstage
  | leave hi hstage => exact h.leave hi hstage
  | stamp hi hstage hterminal => exact h.stamp hi hstage hterminal
  | evict hi hstage => exact (h.toSound.evict hi hstage).advance

end Operations

end Ledger

end SlotQueue
