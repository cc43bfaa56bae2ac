import Mathlib

/-!
# Things that go with the last of their names

A thing has some names and goes when all of them are removed (`released`). What goes grows with
the names removed, and removing two disjoint sets of names together releases at least what each
of them does (`freed_union`), more when a thing has names in both. Nothing is released twice, so a
sum over disjoint sets never exceeds what goes with all of them (`sum_freed_le`).
-/

namespace LastName

variable {κ ι : Type*} [DecidableEq κ] [DecidableEq ι]

section

variable (names : ι → Finset κ) (things : Finset ι) (weight : ι → ℕ)

/-- The things with names, all of them removed. -/
def released (removed : Finset κ) : Finset ι :=
  things.filter fun thing => (names thing).Nonempty ∧ names thing ⊆ removed

/-- The weight of what is released. -/
def freed (removed : Finset κ) : ℕ := ∑ thing ∈ released names things removed, weight thing

end

variable {names : ι → Finset κ} {things : Finset ι} {weight : ι → ℕ} {a b : Finset κ} {thing : ι}

omit [DecidableEq ι] in
theorem mem_released : thing ∈ released names things a ↔
    thing ∈ things ∧ (names thing).Nonempty ∧ names thing ⊆ a := Finset.mem_filter

omit [DecidableEq ι] in
theorem released_mono (h : a ⊆ b) : released names things a ⊆ released names things b := by
  intro thing hthing
  obtain ⟨hmem, hne, hsub⟩ := mem_released.1 hthing
  exact mem_released.2 ⟨hmem, hne, hsub.trans h⟩

omit [DecidableEq ι] in
theorem freed_mono (h : a ⊆ b) : freed names things weight a ≤ freed names things weight b :=
  Finset.sum_le_sum_of_subset (released_mono h)

omit [DecidableEq ι] in
/-- A thing whose names are in both sets would have none. -/
theorem disjoint_released (h : Disjoint a b) :
    Disjoint (released names things a) (released names things b) := by
  rw [Finset.disjoint_left]
  intro thing ha hb
  obtain ⟨-, ⟨name, hname⟩, hsubA⟩ := mem_released.1 ha
  obtain ⟨-, -, hsubB⟩ := mem_released.1 hb
  exact Finset.disjoint_left.1 h (hsubA hname) (hsubB hname)

theorem freed_union (h : Disjoint a b) :
    freed names things weight a + freed names things weight b ≤
      freed names things weight (a ∪ b) := by
  rw [freed, freed, ← Finset.sum_union (disjoint_released h)]
  refine Finset.sum_le_sum_of_subset ?_
  exact Finset.union_subset (released_mono Finset.subset_union_left)
    (released_mono Finset.subset_union_right)

theorem sum_freed_le {sets : List (Finset κ)} (h : sets.Pairwise Disjoint) {whole : Finset κ}
    (hwhole : ∀ s ∈ sets, s ⊆ whole) :
    (sets.map (freed names things weight)).sum ≤ freed names things weight whole := by
  have hunion : (sets.map (freed names things weight)).sum ≤
      freed names things weight (sets.foldr (· ∪ ·) ∅) := by
    clear hwhole
    induction sets with
    | nil => simp
    | cons first sets ih =>
      obtain ⟨hfirst, hsets⟩ := List.pairwise_cons.1 h
      have hdisjoint : Disjoint first (sets.foldr (· ∪ ·) ∅) := by
        clear ih hsets h
        induction sets with
        | nil => simp
        | cons second sets ih =>
          obtain ⟨hsecond, hrest⟩ := List.forall_mem_cons.1 hfirst
          exact Finset.disjoint_union_right.2 ⟨hsecond, ih hrest⟩
      calc ((first :: sets).map (freed names things weight)).sum
          = freed names things weight first + (sets.map (freed names things weight)).sum := by
            rw [List.map_cons, List.sum_cons]
        _ ≤ freed names things weight first +
            freed names things weight (sets.foldr (· ∪ ·) ∅) := Nat.add_le_add_left (ih hsets) _
        _ ≤ freed names things weight ((first :: sets).foldr (· ∪ ·) ∅) := freed_union hdisjoint
  refine hunion.trans (freed_mono ?_)
  clear hunion h
  induction sets with
  | nil => simp
  | cons first sets ih =>
    obtain ⟨hfirst, hrest⟩ := List.forall_mem_cons.1 hwhole
    exact Finset.union_subset hfirst (ih hrest)

end LastName
