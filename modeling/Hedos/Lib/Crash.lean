import Mathlib.Data.List.Basic

/-!
# Programs that may stop at any call

A program runs over a state and a list of verdicts, one for each system call it makes: the
verdict decides whether the call works, fails, or is where the program is cut off. A program
cut off leaves the state as the calls before it made it.

`wp` is what holds of the result and the state however the verdicts fall, with another
condition for the state a cut leaves; `wp_bind`, `wp_mono` and `wp_call` are its rules.
-/

namespace Crash

/-- How a run ends: with a result, the state and the verdicts left over, or cut off. -/
inductive Outcome (σ ν α : Type)
  | done (a : α) (s : σ) (verdicts : List ν)
  | crashed (s : σ)

/-- A program over the state `σ` with calls decided by `ν`. -/
def Prog (σ ν α : Type) := σ → List ν → Outcome σ ν α

variable {σ ν α β : Type}

def Outcome.state : Outcome σ ν α → σ
  | done _ s _ => s
  | crashed s => s

namespace Prog

def pure (a : α) : Prog σ ν α := fun s verdicts => .done a s verdicts

def bind (m : Prog σ ν α) (f : α → Prog σ ν β) : Prog σ ν β := fun s verdicts =>
  match m s verdicts with
  | .done a s' rest => f a s' rest
  | .crashed s' => .crashed s'

instance : Monad (Prog σ ν) where
  pure := pure
  bind := bind

/-- Looks at the state, which takes no call. -/
def read (f : σ → α) : Prog σ ν α := fun s verdicts => .done (f s) s verdicts

/-- A call: the next verdict, `usual` when none is left, decides its answer and what it does
to the state; without an answer the program ends there. -/
def call (usual : ν) (f : ν → σ → Option α × σ) : Prog σ ν α := fun s verdicts =>
  match f (verdicts.headD usual) s with
  | (some a, s') => .done a s' verdicts.tail
  | (none, s') => .crashed s'

end Prog

/-- However the verdicts fall, a run from `s` ends with `post`, or is cut off with `cut`. -/
def wp (m : Prog σ ν α) (post : α → σ → Prop) (cut : σ → Prop) (s : σ) : Prop :=
  ∀ verdicts,
    (∀ a s' rest, m s verdicts = .done a s' rest → post a s') ∧
    (∀ s', m s verdicts = .crashed s' → cut s')

variable {m : Prog σ ν α} {post : α → σ → Prop} {cut : σ → Prop} {s : σ}

theorem wp_pure {a : α} (h : post a s) : wp (Pure.pure a : Prog σ ν α) post cut s := by
  intro verdicts
  refine ⟨fun a' s' rest hdone => ?_, fun s' hcut => ?_⟩
  · cases hdone
    exact h
  · cases hcut

theorem wp_bind {f : α → Prog σ ν β} {post' : β → σ → Prop}
    (h : wp m (fun a => wp (f a) post' cut) cut s) : wp (m >>= f) post' cut s := by
  intro verdicts
  have hm := h verdicts
  have hbind : (m >>= f) s verdicts = Prog.bind m f s verdicts := rfl
  rw [hbind, Prog.bind]
  cases hrun : m s verdicts with
  | done a s' rest => exact hm.1 a s' rest hrun rest
  | crashed s' =>
    refine ⟨fun b s'' rest hdone => ?_, fun s'' hcut => ?_⟩
    · cases hdone
    · cases hcut
      exact hm.2 s' hrun

theorem wp_mono {post' : α → σ → Prop} {cut' : σ → Prop} (h : wp m post cut s)
    (hpost : ∀ a s', post a s' → post' a s') (hcut : ∀ s', cut s' → cut' s') :
    wp m post' cut' s := by
  intro verdicts
  exact ⟨fun a s' rest hdone => hpost a s' ((h verdicts).1 a s' rest hdone),
    fun s' hdone => hcut s' ((h verdicts).2 s' hdone)⟩

theorem wp_read {f : σ → α} (h : post (f s) s) : wp (Prog.read f : Prog σ ν α) post cut s := by
  intro verdicts
  refine ⟨fun a s' rest hdone => ?_, fun s' hcut => ?_⟩
  · cases hdone
    exact h
  · cases hcut

theorem wp_call {usual : ν} {f : ν → σ → Option α × σ}
    (hpost : ∀ v a s', f v s = (some a, s') → post a s')
    (hcut : ∀ v s', f v s = (none, s') → cut s') : wp (Prog.call usual f) post cut s := by
  intro verdicts
  rw [Prog.call]
  cases hf : f (verdicts.headD usual) s with
  | mk answer s₁ =>
    cases answer with
    | some a =>
      refine ⟨fun a' s' rest hdone => ?_, fun s' hdone => ?_⟩
      · cases hdone
        exact hpost _ a s₁ hf
      · cases hdone
    | none =>
      refine ⟨fun a' s' rest hdone => ?_, fun s' hdone => ?_⟩
      · cases hdone
      · cases hdone
        exact hcut _ s₁ hf

/-- What a run does, from what every run does. -/
theorem wp.done {verdicts rest : List ν} {a : α} {s' : σ} (h : wp m post cut s)
    (hrun : m s verdicts = .done a s' rest) : post a s' :=
  (h verdicts).1 a s' rest hrun

/-- What holds of every end holds of the state a run leaves. -/
theorem wp.state {P : σ → Prop} (h : wp m (fun _ => P) P s) (verdicts : List ν) :
    P (m s verdicts).state := by
  cases hrun : m s verdicts with
  | done a s' rest => exact (h verdicts).1 a s' rest hrun
  | crashed s' => exact (h verdicts).2 s' hrun

end Crash
