import Mathlib.Data.List.Basic
import Mathlib.Order.Basic

/-!
# Runs of a guarded transition function

A component is a function `step : σ → α → Option σ`: the action `α` says which
task moves and how its choices fall, `none` says the action is not enabled. A run
is a list of actions; everything below is stated for an arbitrary `step`.

* `run` performs a list of actions, `Reachable` is what some run reaches;
* `ReachableWhen ok` restricts to runs whose steps all meet `ok` in the state
  before the step, with the invariant rule `ReachableWhen.invariant`;
* `StepsMeet` and `StatesMeet` speak about one given run, with the exact rule
  `statesMeet_iff_stepsMeet`; `run_measure` bounds the steps of one task;
* `visited` lists the states of a run and `Coherent` compares any two of them, with the
  exact rule `coherent_iff_stepsMeet` for a key that only grows.
-/

namespace Transition

variable {σ α : Type*}

/-- Perform the actions in order; `none` when one of them is not enabled. -/
def run (step : σ → α → Option σ) : σ → List α → Option σ
  | s, [] => some s
  | s, a :: as => (step s a).bind fun t => run step t as

@[simp] theorem run_nil (step : σ → α → Option σ) (s : σ) : run step s [] = some s := rfl

@[simp] theorem run_cons (step : σ → α → Option σ) (s : σ) (a : α) (as : List α) :
    run step s (a :: as) = (step s a).bind fun t => run step t as := rfl

theorem run_append (step : σ → α → Option σ) (s : σ) (as bs : List α) :
    run step s (as ++ bs) = (run step s as).bind fun t => run step t bs := by
  induction as generalizing s with
  | nil => rfl
  | cons a as ih =>
    rw [List.cons_append, run_cons, run_cons, Option.bind_assoc]
    exact congrArg _ (funext ih)

/-! ## Reachable states -/

/-- The states reached from `init` by steps that all meet `ok`. -/
inductive ReachableWhen (step : σ → α → Option σ) (ok : σ → α → Prop) (init : σ → Prop) :
    σ → Prop
  | init {s : σ} : init s → ReachableWhen step ok init s
  | step {s t : σ} {a : α} :
      ReachableWhen step ok init s → ok s a → step s a = some t → ReachableWhen step ok init t

/-- The states reached from `init` by any run. -/
def Reachable (step : σ → α → Option σ) (init : σ → Prop) : σ → Prop :=
  ReachableWhen step (fun _ _ => True) init

variable {next : σ → α → Option σ} {ok : σ → α → Prop} {init : σ → Prop} {P : σ → Prop}

/-- The invariant rule: what holds initially and is kept by every step that meets
`ok` holds in every state reached by such steps. -/
theorem ReachableWhen.invariant (hinit : ∀ s, init s → P s)
    (hstep : ∀ s a t, P s → ok s a → next s a = some t → P t) {s : σ}
    (h : ReachableWhen next ok init s) : P s := by
  induction h with
  | init hs => exact hinit _ hs
  | step _ hok hst ih => exact hstep _ _ _ ih hok hst

/-- The invariant rule over all runs. -/
theorem Reachable.invariant (hinit : ∀ s, init s → P s)
    (hstep : ∀ s a t, P s → next s a = some t → P t) {s : σ} (h : Reachable next init s) : P s :=
  ReachableWhen.invariant hinit (fun s a t hs _ => hstep s a t hs) h

theorem Reachable.step {s t : σ} {a : α} (h : Reachable next init s) (hst : next s a = some t) :
    Reachable next init t :=
  ReachableWhen.step h trivial hst

/-- A run from a reachable state ends in a reachable state. -/
theorem Reachable.run {s t : σ} (h : Reachable next init s) :
    ∀ {as : List α}, run next s as = some t → Reachable next init t := by
  intro as
  induction as generalizing s with
  | nil =>
    intro hrun
    rw [run_nil, Option.some.injEq] at hrun
    exact hrun ▸ h
  | cons a as ih =>
    intro hrun
    rw [run_cons, Option.bind_eq_some_iff] at hrun
    obtain ⟨u, hu, hrun⟩ := hrun
    exact ih (h.step hu) hrun

/-- Perform the actions in order, as long as each meets `ok`. -/
def runWhen (step : σ → α → Option σ) (ok : σ → α → Bool) : σ → List α → Option σ
  | s, [] => some s
  | s, a :: as => if ok s a then (step s a).bind fun t => runWhen step ok t as else none

/-- A run of steps that meet `ok` ends in a state reached by such steps. -/
theorem ReachableWhen.runWhen {ok : σ → α → Bool} {s t : σ}
    (h : ReachableWhen next (fun s a => ok s a = true) init s) :
    ∀ {as : List α}, runWhen next ok s as = some t →
      ReachableWhen next (fun s a => ok s a = true) init t := by
  intro as
  induction as generalizing s with
  | nil =>
    rintro ⟨⟩
    exact h
  | cons a as ih =>
    intro hrun
    rw [Transition.runWhen, Option.ite_none_right_eq_some, Option.bind_eq_some_iff] at hrun
    obtain ⟨hok, u, hu, hrun⟩ := hrun
    exact ih (h.step hok hu) hrun

/-- A run of steps that meet `ok`, seen from its first state. -/
theorem ReachableWhen.of_runWhen {ok : σ → α → Bool} {s t : σ} {as : List α}
    (h : Transition.runWhen next ok s as = some t) :
    ReachableWhen next (fun s a => ok s a = true) (· = s) t :=
  ReachableWhen.runWhen (.init rfl) h

/-! ## One given run -/

/-- Every step of the run meets `ok` in the state before it. -/
def StepsMeet (step : σ → α → Option σ) (ok : σ → α → Prop) : σ → List α → Prop
  | _, [] => True
  | s, a :: as => ∀ t, step s a = some t → ok s a ∧ StepsMeet step ok t as

/-- Every state of the run, the first and the last included, meets `P`. -/
def StatesMeet (step : σ → α → Option σ) (P : σ → Prop) : σ → List α → Prop
  | s, [] => P s
  | s, a :: as => P s ∧ ∀ t, step s a = some t → StatesMeet step P t as

/-- A run of steps that meet `ok` is a run whose steps meet `ok`. -/
theorem StepsMeet.of_runWhen {ok : σ → α → Bool} {s t : σ} {as : List α}
    (h : runWhen next ok s as = some t) : StepsMeet next (fun s a => ok s a = true) s as := by
  induction as generalizing s with
  | nil => trivial
  | cons a as ih =>
    rw [runWhen, Option.ite_none_right_eq_some, Option.bind_eq_some_iff] at h
    obtain ⟨hok, u, hu, hrest⟩ := h
    intro v hv
    obtain rfl := Option.some.inj (hu.symm.trans hv)
    exact ⟨hok, ih hrest⟩

/-- The last step of a run whose steps meet `ok` meets it. -/
theorem StepsMeet.last {s t u : σ} {as : List α} {a : α} (h : StepsMeet next ok s (as ++ [a]))
    (hrun : run next s as = some t) (hlast : next t a = some u) : ok t a := by
  induction as generalizing s with
  | nil =>
    rw [run_nil, Option.some.injEq] at hrun
    subst hrun
    exact (h u hlast).1
  | cons b as ih =>
    rw [run_cons, Option.bind_eq_some_iff] at hrun
    obtain ⟨v, hv, hrun⟩ := hrun
    exact ih (h v hv).2 hrun

theorem StatesMeet.head {s : σ} {as : List α} (h : StatesMeet next P s as) : P s := by
  cases as with
  | nil => exact h
  | cons a as => exact h.1

/-- What an invariant gives holds in every state of a run. -/
theorem StatesMeet.of_invariant {I : σ → Prop} (hinv : ∀ s a t, I s → next s a = some t → I t)
    (hP : ∀ s, I s → P s) {s : σ} (hs : I s) (as : List α) : StatesMeet next P s as := by
  induction as generalizing s with
  | nil => exact hP s hs
  | cons a as ih => exact ⟨hP s hs, fun t ht => ih (hinv s a t hs ht)⟩

/-- And of every step of it. -/
theorem StepsMeet.of_invariant {I : σ → Prop} (hinv : ∀ s a t, I s → next s a = some t → I t)
    (hok : ∀ s a, I s → ok s a) {s : σ} (hs : I s) (as : List α) : StepsMeet next ok s as := by
  induction as generalizing s with
  | nil => trivial
  | cons a as ih => exact fun t ht => ⟨hok s a hs, ih (hinv s a t hs ht)⟩

/-- The exact rule: when, from an `I` state that has `P`, a step keeps `P` exactly if
it meets `ok`, then a run from such a state has `P` throughout exactly if all its steps
meet `ok`. The steps that keep `P` have to keep `I`. -/
theorem statesMeet_iff_stepsMeet {I : σ → Prop}
    (hinv : ∀ s a t, I s → P s → next s a = some t → P t → I t)
    (hexact : ∀ s a t, I s → P s → next s a = some t → (P t ↔ ok s a))
    {s : σ} (hs : I s) (hp : P s) (as : List α) :
    StatesMeet next P s as ↔ StepsMeet next ok s as := by
  induction as generalizing s with
  | nil => exact ⟨fun _ => trivial, fun _ => hp⟩
  | cons a as ih =>
    constructor
    · intro h t ht
      have hpt : P t := (h.2 t ht).head
      exact ⟨(hexact s a t hs hp ht).1 hpt, (ih (hinv s a t hs hp ht hpt) hpt).1 (h.2 t ht)⟩
    · intro h
      refine ⟨hp, fun t ht => ?_⟩
      have hpt : P t := (hexact s a t hs hp ht).2 (h t ht).1
      exact (ih (hinv s a t hs hp ht hpt) hpt).2 (h t ht).2

/-- Two conditions that agree on the enabled steps of `I` states agree on every run from such a
state. -/
theorem stepsMeet_congr {I : σ → Prop} {ok ok' : σ → α → Prop}
    (hinv : ∀ s a t, I s → next s a = some t → I t)
    (hexact : ∀ s a t, I s → next s a = some t → (ok s a ↔ ok' s a)) {s : σ} (hs : I s)
    (as : List α) : StepsMeet next ok s as ↔ StepsMeet next ok' s as := by
  induction as generalizing s with
  | nil => exact Iff.rfl
  | cons a as ih =>
    refine forall_congr' fun t => forall_congr' fun ht => ?_
    rw [hexact s a t hs ht, ih (hinv s a t hs ht)]

/-- A measure that the steps in `own` lower, and that no step raises, runs down: behind a run it is
lower by at least the number of those steps. -/
theorem run_measure {I : σ → Prop} {measure : σ → Option ℕ} {own : α → Bool}
    (hinv : ∀ s a t, I s → next s a = some t → I t)
    (hlower : ∀ s a t n, I s → next s a = some t → measure s = some n →
      ∃ m, measure t = some m ∧ m + (if own a then 1 else 0) ≤ n)
    {s t : σ} {n : ℕ} (hs : I s) {as : List α} (hrun : run next s as = some t)
    (hn : measure s = some n) : I t ∧ ∃ m, measure t = some m ∧ m + as.countP own ≤ n := by
  induction as generalizing s n with
  | nil =>
    cases hrun
    exact ⟨hs, n, hn, by simp⟩
  | cons a as ih =>
    rw [run_cons, Option.bind_eq_some_iff] at hrun
    obtain ⟨u, hu, hrun⟩ := hrun
    obtain ⟨k, hk, hle⟩ := hlower s a u n hs hu hn
    obtain ⟨ht, m, hm, hle'⟩ := ih (hinv s a u hs hu) hrun hk
    refine ⟨ht, m, hm, ?_⟩
    rw [List.countP_cons]
    omega

/-! ## Two moments of one run -/

/-- The states of a run, the first and the last included. -/
def visited (step : σ → α → Option σ) : σ → List α → List σ
  | s, [] => [s]
  | s, a :: as => s :: (step s a).elim [] fun t => visited step t as

/-- Any two of the states that agree on `key` agree on `val`. -/
def Coherent {κ ν : Type*} (key : σ → κ) (val : σ → ν) (states : List σ) : Prop :=
  ∀ s ∈ states, ∀ t ∈ states, key s = key t → val s = val t

theorem mem_visited_self (step : σ → α → Option σ) (s : σ) (as : List α) :
    s ∈ visited step s as := by
  cases as with
  | nil => exact List.mem_singleton_self s
  | cons a as => exact .head _

section Coherence

variable {κ ν : Type*} [PartialOrder κ] {key : σ → κ} {val : σ → ν}

theorem key_le_of_mem_visited (hmono : ∀ s a t, next s a = some t → key s ≤ key t)
    {as : List α} {s u : σ} (hu : u ∈ visited next s as) : key s ≤ key u := by
  induction as generalizing s with
  | nil =>
    rw [List.mem_singleton.1 hu]
  | cons a as ih =>
    rcases List.mem_cons.1 hu with rfl | hu
    · exact le_refl _
    · cases ht : next s a with
      | none =>
        rw [ht] at hu
        exact absurd hu List.not_mem_nil
      | some t =>
        rw [ht] at hu
        exact (hmono s a t ht).trans (ih hu)

/-- The exact rule for two moments: when no step lowers `key`, the states of a run are
coherent exactly if every step that keeps `key` keeps `val`, which `ok` says of a step. -/
theorem coherent_iff_stepsMeet (hmono : ∀ s a t, next s a = some t → key s ≤ key t)
    (hexact : ∀ s a t, next s a = some t → ((key s = key t → val s = val t) ↔ ok s a))
    (s : σ) (as : List α) :
    Coherent key val (visited next s as) ↔ StepsMeet next ok s as := by
  induction as generalizing s with
  | nil =>
    refine ⟨fun _ => trivial, fun _ u hu v hv _ => ?_⟩
    rw [List.mem_singleton.1 hu, List.mem_singleton.1 hv]
  | cons a as ih =>
    cases ht : next s a with
    | none =>
      simp only [visited, StepsMeet, ht, Option.elim_none]
      refine ⟨fun _ t h => by simp at h, fun _ u hu v hv _ => ?_⟩
      rw [List.mem_singleton.1 hu, List.mem_singleton.1 hv]
    | some t =>
      simp only [visited, StepsMeet, ht, Option.elim_some]
      constructor
      · intro h u hu
        cases hu
        refine ⟨(hexact s a t ht).1 ?_, (ih t).1 ?_⟩
        · exact h s (.head _) t (.tail _ (mem_visited_self _ t as))
        · exact fun u hu v hv => h u (.tail _ hu) v (.tail _ hv)
      · intro h
        obtain ⟨hok, hrest⟩ := h t rfl
        have htail := (ih t).2 hrest
        -- the first state against a later one: the key cannot come back once it has moved
        have hfirst : ∀ u ∈ visited next t as, key s = key u → val s = val u := by
          intro u hu hkey
          have hst : key s = key t := le_antisymm (hmono s a t ht)
            ((key_le_of_mem_visited hmono hu).trans hkey.ge)
          exact ((hexact s a t ht).2 hok hst).trans
            (htail t (mem_visited_self _ t as) u hu (hst.symm.trans hkey))
        intro u hu v hv hkey
        rcases List.mem_cons.1 hu with hus | hus <;> rcases List.mem_cons.1 hv with hvs | hvs
        · rw [hus, hvs]
        · rw [hus] at hkey ⊢
          exact hfirst v hvs hkey
        · rw [hvs] at hkey ⊢
          exact (hfirst u hus hkey.symm).symm
        · exact htail u hus v hvs hkey

end Coherence

end Transition
