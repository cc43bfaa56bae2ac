import Mathlib.Data.List.Induction

/-!
# Answers kept under a key and a stamp

A table keeps the answer for an input under the input's key, with a stamp; it is used again for an
input with the same key and stamp. Some inputs are not kept at all.

* `Kept` is what a table holds behind some inputs while every answer was right;
* `step_eq_iff` says of one input when the answer is right, `run_eq_map_iff` of a whole run.
-/

namespace Memo

open Function

variable {α β κ σ : Type*} [DecidableEq κ]

abbrev Table (κ σ β : Type*) := κ → Option (σ × β)

/-- Answers for an input: `place` is where the answer is kept and under which stamp, if it is. -/
def step [DecidableEq σ] (place : α → Option (κ × σ)) (f : α → β) (table : Table κ σ β) (a : α) :
    Table κ σ β × β :=
  match place a with
  | none => (table, f a)
  | some (key, stamp) =>
    match (table key).filter fun entry => entry.1 = stamp with
    | some entry => (table, entry.2)
    | none => (update table key (some (stamp, f a)), f a)

def run [DecidableEq σ] (place : α → Option (κ × σ)) (f : α → β) : Table κ σ β → List α → List β
  | _, [] => []
  | table, a :: as => (step place f table a).2 :: run place f (step place f table a).1 as

section

variable (place : α → Option (κ × σ)) (f : α → β)

/-- The last of some inputs that is kept under a key. -/
def latest (key : κ) (before : List α) : Option α :=
  before.foldl (fun found b => if (place b).map Prod.fst = some key then some b else found) none

/-- The table holds the right answer for the last input with each key. -/
def Kept (before : List α) (table : Table κ σ β) : Prop :=
  ∀ key, table key = (latest place key before).bind fun b => (place b).map fun p => (p.2, f b)

/-- An input whose answer is taken from the table has the answer of the one before. -/
def AgreesAt (before : List α) (a : α) : Prop :=
  ∀ key stamp, place a = some (key, stamp) → ∀ b, latest place key before = some b →
    place b = some (key, stamp) → f b = f a

end

variable {place : α → Option (κ × σ)} {f : α → β}

theorem latest_concat (key : κ) (before : List α) (a : α) :
    latest place key (before ++ [a]) =
      if (place a).map Prod.fst = some key then some a else latest place key before := by
  rw [latest, List.foldl_append]
  rfl

variable {key : κ} {before : List α} {table : Table κ σ β}

/-- The last input with a key has that key. -/
theorem key_of_latest {b : α} (h : latest place key before = some b) :
    ∃ stamp, place b = some (key, stamp) := by
  induction before using List.reverseRecOn with
  | nil => cases h
  | append_singleton before a ih =>
    rw [latest_concat] at h
    split at h
    · rename_i hkey
      cases h
      obtain ⟨p, hp, rfl⟩ := Option.map_eq_some_iff.1 hkey
      exact ⟨p.2, hp⟩
    · exact ih h

theorem mem_of_latest {b : α} (h : latest place key before = some b) : b ∈ before := by
  induction before using List.reverseRecOn with
  | nil => cases h
  | append_singleton before a ih =>
    rw [latest_concat] at h
    split at h
    · cases h
      exact List.mem_append_right _ (List.mem_singleton.2 rfl)
    · exact List.mem_append_left _ (ih h)

theorem kept_nil : Kept place f [] fun _ => none := fun _ => rfl

/-- An answer that is made now is kept. -/
theorem Kept.update (h : Kept place f before table) {a : α} {stamp : σ}
    (ha : place a = some (key, stamp)) :
    Kept place f (before ++ [a]) (update table key (some (stamp, f a))) := by
  intro other
  rw [latest_concat, ha, Option.map_some]
  by_cases hkey : other = key
  · subst hkey
    rw [update_self, if_pos rfl, Option.bind_some, ha]
    rfl
  · have hne : ¬ some key = some other := fun heq => hkey (Option.some.inj heq).symm
    rw [update_of_ne hkey, if_neg hne]
    exact h other

theorem Kept.of_not_placed (h : Kept place f before table)
    {a : α} (ha : place a = none) : Kept place f (before ++ [a]) table := by
  intro key
  rw [latest_concat, ha, Option.map_none, if_neg (Option.some_ne_none key).symm]
  exact h key

variable [DecidableEq σ]

/-- The answer for an input is right exactly when it agrees with the one it may be taken from, and
the table goes on to hold right answers then. -/
theorem step_eq_iff (h : Kept place f before table) (a : α) :
    ((step place f table a).2 = f a ↔ AgreesAt place f before a) ∧
      (AgreesAt place f before a → Kept place f (before ++ [a]) (step place f table a).1) := by
  rw [step]
  cases ha : place a with
  | none =>
    have hagrees : AgreesAt place f before a := by
      intro key stamp hplace
      rw [ha] at hplace
      cases hplace
    exact ⟨⟨fun _ => hagrees, fun _ => rfl⟩, fun _ => h.of_not_placed ha⟩
  | some p =>
    obtain ⟨key, stamp⟩ := p
    dsimp only
    cases hentry : (table key).filter fun entry => entry.1 = stamp with
    | none =>
      have hagrees : AgreesAt place f before a := by
        intro key' stamp' hplace b hb hplaceb
        rw [ha] at hplace
        cases hplace
        rw [h key, hb, Option.bind_some, hplaceb] at hentry
        simp at hentry
      exact ⟨⟨fun _ => hagrees, fun _ => rfl⟩, fun _ => h.update ha⟩
    | some entry =>
      dsimp only
      obtain ⟨htable, hstamp⟩ := Option.filter_eq_some_iff.1 hentry
      have hseen : entry.1 = stamp := of_decide_eq_true hstamp
      rw [h key] at htable
      obtain ⟨b, hb, hkept⟩ := Option.bind_eq_some_iff.1 htable
      obtain ⟨p, hp, rfl⟩ := Option.map_eq_some_iff.1 hkept
      obtain ⟨stamp', hplaceb⟩ := key_of_latest hb
      have hsame : place b = some (key, stamp) := by
        rw [hp] at hplaceb
        cases hplaceb
        rw [hp, ← hseen]
      have hiff : f b = f a ↔ AgreesAt place f before a := by
        constructor
        · intro heq key' stamp' hplace b' hb' _
          rw [ha] at hplace
          cases hplace
          rw [hb] at hb'
          cases hb'
          exact heq
        · intro hagrees
          exact hagrees key stamp ha b hb hsame
      refine ⟨hiff, fun hagrees key' => ?_⟩
      have heq := hiff.2 hagrees
      rw [latest_concat, ha, Option.map_some]
      by_cases hkey : key = key'
      · subst hkey
        rw [if_pos rfl, Option.bind_some, ha, h key, hb, Option.bind_some, hsame, heq]
      · rw [if_neg fun heq => hkey (Option.some.inj heq)]
        exact h key'

theorem run_eq_map_iff (h : Kept place f before table) (as : List α) :
    run place f table as = as.map f ↔
      ∀ more a behind, as = more ++ a :: behind → AgreesAt place f (before ++ more) a := by
  induction as generalizing before table with
  | nil =>
    refine ⟨fun _ more a behind heq => ?_, fun _ => rfl⟩
    cases more <;> cases heq
  | cons a as ih =>
    obtain ⟨hiff, hkept⟩ := step_eq_iff h a
    rw [run, List.map_cons, List.cons.injEq]
    constructor
    · rintro ⟨hfirst, hrest⟩ more b behind heq
      have hagrees := hiff.1 hfirst
      cases more with
      | nil =>
        cases heq
        rwa [List.append_nil]
      | cons c more =>
        cases heq
        have hmore := (ih (hkept hagrees)).1 hrest more b behind rfl
        rwa [List.append_assoc, List.singleton_append] at hmore
    · intro hall
      have hagrees : AgreesAt place f before a := by
        have hfirst := hall [] a as rfl
        rwa [List.append_nil] at hfirst
      refine ⟨hiff.2 hagrees, (ih (hkept hagrees)).2 fun more b behind heq => ?_⟩
      rw [List.append_assoc, List.singleton_append]
      exact hall (a :: more) b behind (by rw [heq, List.cons_append])

end Memo
