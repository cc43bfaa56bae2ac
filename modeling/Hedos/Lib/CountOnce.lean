import Mathlib.Algebra.BigOperators.Group.Finset.Piecewise
import Mathlib.Algebra.Order.BigOperators.Group.Finset
import Mathlib.Algebra.Order.Ring.Int
import Mathlib.Tactic.Ring

/-!
# Counting each thing once

Items with a key each list some things, and a walk charges a thing to the key of the first item
that lists it, and what an item has besides to its own key (`charge`).

* what a key is charged is the weights of the things it lists first (`charge_eq`), and all keys
  together are charged each thing once (`sum_charge`);
* when the items come in the order of their keys, the first to list a thing has the least key
  among those that do (`first_eq_some_iff`), so another order of the items is charged the same
  (`charge_perm`).
-/

namespace CountOnce

variable {κ ι : Type*} [DecidableEq κ] [DecidableEq ι]

structure Item (κ ι : Type*) where
  key : κ
  things : Finset ι
  besides : ℤ

/-- Whatever some item lists. -/
def listed : List (Item κ ι) → Finset ι
  | [] => ∅
  | item :: items => item.things ∪ listed items

/-- The key of the first item that lists a thing. -/
def first (items : List (Item κ ι)) (thing : ι) : Option κ :=
  (items.find? fun item => thing ∈ item.things).map Item.key

/-- What the items of a key have besides. -/
def besides (items : List (Item κ ι)) (key : κ) : ℤ :=
  ((items.filter fun item => item.key = key).map Item.besides).sum

/-- What a walk over the items charges to a key, past the things that are counted. -/
def charge (weight : ι → ℤ) : List (Item κ ι) → Finset ι → κ → ℤ
  | [], _, _ => 0
  | item :: items, counted, key =>
    (if item.key = key then ∑ thing ∈ item.things \ counted, weight thing + item.besides else 0) +
      charge weight items (counted ∪ item.things) key

section

variable {weight : ι → ℤ} {items : List (Item κ ι)} {counted : Finset ι} {key : κ} {thing : ι}

omit [DecidableEq κ] in
theorem mem_listed : thing ∈ listed items ↔ ∃ item ∈ items, thing ∈ item.things := by
  induction items with
  | nil => simp [listed]
  | cons item items ih => simp [listed, ih]

omit [DecidableEq κ] in
theorem first_cons (item : Item κ ι) (items : List (Item κ ι)) (thing : ι) :
    first (item :: items) thing =
      if thing ∈ item.things then some item.key else first items thing := by
  unfold first
  rw [List.find?_cons]
  split <;> rename_i h <;> simp only [decide_eq_true_eq, decide_eq_false_iff_not] at h
  · rw [if_pos h, Option.map_some]
  · rw [if_neg h]

omit [DecidableEq κ] in
theorem first_isSome : (first items thing).isSome ↔ thing ∈ listed items := by
  rw [first, Option.isSome_map, List.find?_isSome, mem_listed]
  simp only [decide_eq_true_eq]

omit [DecidableEq ι] in
theorem besides_cons (item : Item κ ι) (items : List (Item κ ι)) (key : κ) :
    besides (item :: items) key =
      (if item.key = key then item.besides else 0) + besides items key := by
  unfold besides
  rw [List.filter_cons]
  split <;> rename_i h <;> simp only [decide_eq_true_eq] at h
  · rw [if_pos h, List.map_cons, List.sum_cons]
  · rw [if_neg h, zero_add]

/-- A key is charged what it lists first, and what its items have besides. -/
theorem charge_eq (weight : ι → ℤ) (items : List (Item κ ι)) (counted : Finset ι) (key : κ) :
    charge weight items counted key =
      ∑ thing ∈ (listed items \ counted).filter (fun thing => first items thing = some key),
        weight thing + besides items key := by
  induction items generalizing counted with
  | nil => simp [charge, listed, besides]
  | cons item items ih =>
    -- what the item lists is its own, and the rest is charged as if the item were not there
    have hsplit : (listed (item :: items) \ counted).filter
        (fun thing => first (item :: items) thing = some key) =
        (if item.key = key then item.things \ counted else ∅) ∪
          (listed items \ (counted ∪ item.things)).filter
            (fun thing => first items thing = some key) := by
      ext thing
      by_cases hmem : thing ∈ item.things <;> by_cases hkey : item.key = key <;>
        simp [listed, first_cons, hmem, hkey]
    have hapart : Disjoint (if item.key = key then item.things \ counted else ∅)
        ((listed items \ (counted ∪ item.things)).filter
          (fun thing => first items thing = some key)) := by
      rw [Finset.disjoint_left]
      intro thing hthing hlater
      split at hthing
      · have hown := (Finset.mem_sdiff.1 hthing).1
        have hnot := (Finset.mem_sdiff.1 (Finset.mem_filter.1 hlater).1).2
        exact hnot (Finset.mem_union_right _ hown)
      · cases hthing
    rw [charge, ih, hsplit, Finset.sum_union hapart, besides_cons]
    split
    · ring
    · rw [Finset.sum_empty]
      ring

theorem charge_nonneg (hweight : ∀ thing, 0 ≤ weight thing)
    (hbesides : ∀ item ∈ items, 0 ≤ item.besides) : 0 ≤ charge weight items counted key := by
  induction items generalizing counted with
  | nil => exact le_rfl
  | cons item items ih =>
    have hrest : 0 ≤ charge weight items (counted ∪ item.things) key :=
      ih fun other hother => hbesides other (.tail _ hother)
    have hown := hbesides item (.head _)
    have hsum : 0 ≤ ∑ thing ∈ item.things \ counted, weight thing :=
      Finset.sum_nonneg fun thing _ => hweight thing
    rw [charge]
    split <;> omega

/-- All keys together are charged each thing once, and what every item has besides. -/
theorem sum_charge (weight : ι → ℤ) (items : List (Item κ ι)) (keys : Finset κ)
    (hkeys : ∀ item ∈ items, item.key ∈ keys) :
    ∑ key ∈ keys, charge weight items ∅ key =
      ∑ thing ∈ listed items, weight thing + (items.map Item.besides).sum := by
  have hbesides : ∑ key ∈ keys, besides items key = (items.map Item.besides).sum := by
    clear weight
    induction items with
    | nil => simp [besides]
    | cons item items ih =>
      have hrest := ih fun other hother => hkeys other (.tail _ hother)
      have hmem := hkeys item (.head _)
      simp only [besides_cons, Finset.sum_add_distrib, hrest, List.map_cons, List.sum_cons]
      rw [Finset.sum_ite_eq keys item.key, if_pos hmem]
  have hfirst : ∀ thing ∈ listed items, ∃ key ∈ keys, first items thing = some key := by
    intro thing hthing
    obtain ⟨key, hkey⟩ := Option.isSome_iff_exists.1 (first_isSome.2 hthing)
    obtain ⟨item, hitem, hown⟩ := Option.map_eq_some_iff.1 hkey
    exact ⟨key, hown ▸ hkeys item (List.mem_of_find?_eq_some hitem), hkey⟩
  simp only [charge_eq, Finset.sum_add_distrib, hbesides, Finset.sdiff_empty]
  congr 1
  -- each thing is in the part of the one key that lists it first
  have hparts : listed items = keys.biUnion fun key =>
      (listed items).filter fun thing => first items thing = some key := by
    ext thing
    rw [Finset.mem_biUnion]
    constructor
    · intro hthing
      obtain ⟨key, hkey, hown⟩ := hfirst thing hthing
      exact ⟨key, hkey, Finset.mem_filter.2 ⟨hthing, hown⟩⟩
    · rintro ⟨key, -, hthing⟩
      exact (Finset.mem_filter.1 hthing).1
  have happly := Finset.sum_biUnion (f := weight) (s := keys)
    (t := fun key => (listed items).filter fun thing => first items thing = some key) ?_
  · rw [← happly, ← hparts]
  · intro a _ b _ hne
    rw [Function.onFun, Finset.disjoint_left]
    intro thing ha hb
    have hsame := (Finset.mem_filter.1 ha).2.symm.trans (Finset.mem_filter.1 hb).2
    exact hne (Option.some.inj hsame)

end

/-! ## In the order of the keys -/

section

variable (le : κ → κ → Prop)

/-- The least key of an item that lists a thing. -/
def IsFirst (items : List (Item κ ι)) (thing : ι) (key : κ) : Prop :=
  (∃ item ∈ items, item.key = key ∧ thing ∈ item.things) ∧
    ∀ item ∈ items, thing ∈ item.things → le key item.key

variable {le} {weight : ι → ℤ} {items others : List (Item κ ι)} {key : κ} {thing : ι}

omit [DecidableEq κ] in
theorem first_eq_some_iff (le : κ → κ → Prop) (hrefl : ∀ key, le key key)
    (hanti : ∀ a b, le a b → le b a → a = b) (hsorted : items.Pairwise fun a b => le a.key b.key) :
    first items thing = some key ↔ IsFirst le items thing key := by
  induction items with
  | nil => simp [first, IsFirst]
  | cons item items ih =>
    obtain ⟨hhead, hrest⟩ := List.pairwise_cons.1 hsorted
    rw [first_cons]
    by_cases hmem : thing ∈ item.things
    · rw [if_pos hmem, Option.some.injEq]
      constructor
      · rintro rfl
        refine ⟨⟨item, .head _, rfl, hmem⟩, fun other hother _ => ?_⟩
        rcases List.mem_cons.1 hother with rfl | hother
        · exact hrefl _
        · exact hhead other hother
      · rintro ⟨⟨other, hother, rfl, _⟩, hleast⟩
        rcases List.mem_cons.1 hother with rfl | hother
        · rfl
        · exact hanti _ _ (hhead other hother) (hleast item (.head _) hmem)
    · rw [if_neg hmem, ih hrest]
      simp only [IsFirst, List.mem_cons, exists_eq_or_imp, forall_eq_or_imp, hmem, and_false,
        false_or, IsEmpty.forall_iff, true_and]

omit [DecidableEq κ] [DecidableEq ι] in
theorem IsFirst.perm (hperm : items.Perm others) (h : IsFirst le items thing key) :
    IsFirst le others thing key := by
  obtain ⟨⟨item, hitem, hown⟩, hleast⟩ := h
  exact ⟨⟨item, hperm.mem_iff.1 hitem, hown⟩,
    fun other hother => hleast other (hperm.mem_iff.2 hother)⟩

omit [DecidableEq κ] in
theorem listed_perm (hperm : items.Perm others) : listed items = listed others := by
  ext thing
  simp only [mem_listed, hperm.mem_iff]

omit [DecidableEq ι] in
theorem besides_perm (hperm : items.Perm others) (key : κ) :
    besides items key = besides others key :=
  ((hperm.filter _).map _).sum_eq

/-- Two orders of the same items, both by key, are charged the same. -/
theorem charge_perm (le : κ → κ → Prop) (hrefl : ∀ key, le key key)
    (hanti : ∀ a b, le a b → le b a → a = b)
    (hperm : items.Perm others) (hsorted : items.Pairwise fun a b => le a.key b.key)
    (hsorted' : others.Pairwise fun a b => le a.key b.key) (key : κ) :
    charge weight items ∅ key = charge weight others ∅ key := by
  have hfirst : ∀ thing, first items thing = some key ↔ first others thing = some key := by
    intro thing
    rw [first_eq_some_iff le hrefl hanti hsorted, first_eq_some_iff le hrefl hanti hsorted']
    exact ⟨IsFirst.perm hperm, IsFirst.perm hperm.symm⟩
  rw [charge_eq, charge_eq, listed_perm hperm, besides_perm hperm]
  simp only [hfirst]

end

end CountOnce
