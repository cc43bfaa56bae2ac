import Mathlib.Data.List.Forall2

/-!
# Lists of results

`collect` gathers a list of results into one, stopping at the first error. A gathered list is the
list of its values (`collect_eq_ok_iff`), and a `filterMap` that answers every entry as a `map` does
has dropped none and changed none (`filterMap_eq_map_iff`).
-/

namespace Results

variable {α β ε : Type*}

def collect : List (Except ε α) → Except ε (List α)
  | [] => .ok []
  | .error e :: _ => .error e
  | .ok a :: rest =>
    match collect rest with
    | .error e => .error e
    | .ok as => .ok (a :: as)

theorem collect_map_ok (as : List α) : collect (as.map (.ok : α → Except ε α)) = .ok as := by
  induction as with
  | nil => rfl
  | cons a as ih => rw [List.map_cons, collect, ih]

variable {as : List α} {bs : List β}

theorem collect_eq_ok_iff {results : List (Except ε α)} :
    collect results = .ok as ↔ results = as.map .ok := by
  constructor
  · intro h
    induction results generalizing as with
    | nil =>
      cases h
      rfl
    | cons result results ih =>
      cases result with
      | error e => cases h
      | ok a =>
        cases hrest : collect results with
        | error e =>
          rw [collect, hrest] at h
          cases h
        | ok rest =>
          rw [collect, hrest] at h
          cases h
          rw [ih hrest, List.map_cons]
  · rintro rfl
    exact collect_map_ok as

/-- Each value is the result of the entry at its place. -/
theorem forall₂_of_collect {f : β → Except ε α}
    (h : collect (bs.map f) = .ok as) : List.Forall₂ (fun b a => f b = .ok a) bs as := by
  rw [collect_eq_ok_iff] at h
  induction bs generalizing as with
  | nil =>
    rw [List.map_nil, eq_comm, List.map_eq_nil_iff] at h
    exact h ▸ .nil
  | cons b bs ih =>
    cases as with
    | nil => simp at h
    | cons a as =>
      rw [List.map_cons, List.map_cons, List.cons.injEq] at h
      exact .cons h.1 (ih h.2)

theorem exists_of_mem_collect {f : β → Except ε α}
    (h : collect (bs.map f) = .ok as) {a : α} (ha : a ∈ as) : ∃ b ∈ bs, f b = .ok a := by
  rw [collect_eq_ok_iff] at h
  have hmem : (.ok a : Except ε α) ∈ bs.map f := h ▸ List.mem_map_of_mem ha
  exact List.mem_map.1 hmem

/-- What related entries agree on, all entries of the two lists agree on. -/
theorem forall_iff_of_forall₂ {R : β → α → Prop} {P : α → Prop} {Q : β → Prop}
    (hR : ∀ b a, R b a → (P a ↔ Q b)) (h : List.Forall₂ R bs as) :
    (∀ a ∈ as, P a) ↔ ∀ b ∈ bs, Q b := by
  induction h with
  | nil => simp
  | cons hba _ ih => rw [List.forall_mem_cons, List.forall_mem_cons, hR _ _ hba, ih]

theorem forall_mem_zipIdx_fst {Q : β → Prop} :
    (∀ entry ∈ bs.zipIdx, Q entry.1) ↔ ∀ b ∈ bs, Q b := by
  conv_rhs => rw [← List.zipIdx_map_fst 0 bs]
  exact (List.forall_mem_map (f := Prod.fst) (l := bs.zipIdx) (P := Q)).symm

theorem filterMap_eq_map_iff (f : β → Option α) (g : β → α) (bs : List β) :
    bs.filterMap f = bs.map g ↔ ∀ b ∈ bs, f b = some (g b) := by
  induction bs with
  | nil => simp
  | cons b bs ih =>
    rw [List.map_cons, List.forall_mem_cons, ← ih]
    cases hb : f b with
    | none =>
      rw [List.filterMap_cons_none hb]
      refine iff_of_false (fun h => ?_) (by simp)
      -- an entry is missing, and no other can make up for it
      have hlength := congrArg List.length h
      have hle := List.length_filterMap_le f bs
      simp only [List.length_cons, List.length_map] at hlength
      omega
    | some a =>
      rw [List.filterMap_cons_some hb, List.cons.injEq, Option.some.injEq]

theorem bind_eq_ok {x : Except ε α} {f : α → Except ε β} {b : β} (h : x.bind f = .ok b) :
    ∃ a, x = .ok a ∧ f a = .ok b := by
  cases x with
  | error e => cases h
  | ok a => exact ⟨a, rfl, h⟩

theorem map_eq_ok {x : Except ε α} {f : α → β} {b : β} (h : x.map f = .ok b) :
    ∃ a, x = .ok a ∧ f a = b := by
  cases x with
  | error e => cases h
  | ok a => exact ⟨a, rfl, Except.ok.inj h⟩

end Results
