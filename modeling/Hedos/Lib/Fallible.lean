import Mathlib.Data.Option.Basic

/-!
# Computations that can fail and can give nothing

`Safe x post` is the weakest precondition of a computation `x` that may fail with an error or give
nothing: it does not fail, and what it gives, if anything, satisfies `post`.

* the rules take a computation apart along its steps (`safe_bind`, `safe_lift`, `safe_ofOption`);
* `Agrees` compares a computation with one that has no errors (`agrees_bind`, `agrees_lift_bind`).
-/

namespace Fallible

variable {ε α β : Type}

def Safe (x : OptionT (Except ε) α) (post : α → Prop) : Prop :=
  ∃ result, x.run = .ok result ∧ ∀ a, result = some a → post a

/-- A value that may be missing. -/
def ofOption (value : Option α) : OptionT (Except ε) α := OptionT.mk (.ok value)

variable {a : α} {x : OptionT (Except ε) α} {f : α → OptionT (Except ε) β} {post : β → Prop}

theorem safe_pure {post : α → Prop} : Safe (pure a : OptionT (Except ε) α) post ↔ post a := by
  constructor
  · intro h
    obtain ⟨result, hrun, hpost⟩ := h
    exact hpost a (Except.ok.inj hrun).symm
  · intro h
    exact ⟨some a, rfl, fun b hb => Option.some.inj hb ▸ h⟩

theorem safe_ofOption {value : Option α} {post : α → Prop} :
    Safe (ofOption value : OptionT (Except ε) α) post ↔ ∀ a, value = some a → post a := by
  constructor
  · intro h
    obtain ⟨result, hrun, hpost⟩ := h
    obtain rfl : value = result := Except.ok.inj hrun
    exact hpost
  · intro h
    exact ⟨value, rfl, h⟩

theorem safe_lift {x : Except ε α} {post : α → Prop} :
    Safe (OptionT.lift x) post ↔ ∃ a, x = .ok a ∧ post a := by
  cases x with
  | error e =>
    constructor
    · intro h
      obtain ⟨result, hrun, -⟩ := h
      cases hrun
    · intro h
      obtain ⟨a, ha, -⟩ := h
      cases ha
  | ok a =>
    constructor
    · intro h
      obtain ⟨result, hrun, hpost⟩ := h
      exact ⟨a, rfl, hpost a (Except.ok.inj hrun).symm⟩
    · intro h
      obtain ⟨b, hb, hpost⟩ := h
      cases hb
      exact ⟨some a, rfl, fun c hc => Option.some.inj hc ▸ hpost⟩

theorem safe_bind : Safe (x >>= f) post ↔ Safe x fun a => Safe (f a) post := by
  unfold Safe
  rw [OptionT.run_bind]
  cases x.run with
  | error e =>
    constructor <;>
    · intro h
      obtain ⟨result, hrun, -⟩ := h
      cases hrun
  | ok value =>
    cases value with
    | none =>
      constructor <;> exact fun _ => ⟨none, rfl, fun _ h => by cases h⟩
    | some a =>
      constructor
      · intro h
        exact ⟨some a, rfl, fun b hb => Option.some.inj hb ▸ h⟩
      · intro h
        obtain ⟨result, hrun, hpost⟩ := h
        exact hpost a (Except.ok.inj hrun).symm

theorem safe_none_bind : Safe (ofOption none >>= f) post := by
  rw [safe_bind, safe_ofOption]
  exact fun a h => by cases h

theorem safe_some_bind : Safe (ofOption (some a) >>= f) post ↔ Safe (f a) post := by
  rw [safe_bind, safe_ofOption]
  simp only [Option.some.injEq, forall_eq']

theorem safe_map {f : α → β} : Safe (f <$> x) post ↔ Safe x fun a => post (f a) := by
  rw [map_eq_pure_bind, safe_bind]
  simp only [safe_pure]

/-! ## The computation without errors -/

/-- What the computation gives when it does not fail. -/
def Agrees (x : OptionT (Except ε) α) (value : Option α) : Prop :=
  ∀ result, x.run = .ok result → result = value

theorem agrees_pure (a : α) : Agrees (pure a : OptionT (Except ε) α) (some a) :=
  fun _ h => (Except.ok.inj h).symm

theorem agrees_ofOption (value : Option α) : Agrees (ofOption value : OptionT (Except ε) α) value :=
  fun _ h => (Except.ok.inj h).symm

theorem agrees_bind {value : Option α} {g : α → Option β} (hx : Agrees x value)
    (hf : ∀ a, Agrees (f a) (g a)) : Agrees (x >>= f) (value.bind g) := by
  intro result hrun
  rw [OptionT.run_bind] at hrun
  cases hstep : x.run with
  | error e =>
    rw [hstep] at hrun
    cases hrun
  | ok read =>
    rw [hstep] at hrun
    obtain rfl : read = value := hx read hstep
    cases read with
    | none => exact (Except.ok.inj hrun).symm
    | some a => exact hf a result hrun

/-- A step that gives what it is expected to, if it does not fail. -/
theorem agrees_lift_bind {x : Except ε α}
    {value : Option β} (hx : ∀ b, x = .ok b → b = a) (hf : Agrees (f a) value) :
    Agrees (OptionT.lift x >>= f) value := by
  intro result hrun
  rw [OptionT.run_bind] at hrun
  cases x with
  | error e => cases hrun
  | ok b =>
    obtain rfl : b = a := hx b rfl
    exact hf result hrun

end Fallible
