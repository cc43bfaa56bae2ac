import Mathlib.Data.List.Infix

/-!
# Searching a text that arrives in pieces

Occurrences of a pattern in a list, and what a streaming matcher may let go of: when no
pattern stands in the part read so far, an occurrence in what follows can only begin in the
longest end of it that some pattern begins with.

* `firstAt` is the first place where a pattern stands;
* `held` is the length of the end to keep back;
* `held_le_of_occurs` is what makes keeping back that much enough, for every continuation;
* `cut` takes a text apart at the first occurrence.
-/

namespace Search

variable {α : Type*}

/-! ## Occurrences -/

variable {p t a b : List α} {i : ℕ} {ps : List (List α)}

theorem infix_iff_exists_drop : p <:+: t ↔ ∃ i, p <+: t.drop i := by
  constructor
  · rintro ⟨a, b, rfl⟩
    refine ⟨a.length, b, ?_⟩
    rw [List.append_assoc, List.drop_left]
  · rintro ⟨i, hi⟩
    exact hi.isInfix.trans (List.drop_suffix i t).isInfix

/-- An occurrence that begins after `a` stands in what comes after `a`. -/
theorem drop_append_of_le (h : a.length ≤ i) : (a ++ b).drop i = b.drop (i - a.length) := by
  rw [List.drop_append, List.drop_eq_nil_of_le h, List.nil_append]

/-- An occurrence of a non-empty pattern begins inside the text. -/
theorem lt_length_of_occurs (hp : p ≠ []) (h : p <+: t.drop i) : i < t.length := by
  by_contra hlt
  rw [List.drop_eq_nil_of_le (by omega)] at h
  exact hp (List.prefix_nil.1 h)

/-- No pattern is longer than the longest one. -/
theorem length_le_max (hp : p ∈ ps) : p.length ≤ (ps.map List.length).max?.getD 1 := by
  have hmem : p.length ∈ ps.map List.length := List.mem_map_of_mem hp
  cases hm : (ps.map List.length).max? with
  | none =>
    rw [List.max?_eq_none_iff] at hm
    simp [hm] at hmem
  | some m => exact (List.max?_eq_some_iff.1 hm).2 p.length hmem

variable [DecidableEq α]

/-- The position of the first occurrence of a pattern. -/
def firstAt (p : List α) : List α → Option ℕ
  | [] => if p.isPrefixOf [] then some 0 else none
  | c :: cs => if p.isPrefixOf (c :: cs) then some 0 else (firstAt p cs).map (· + 1)

theorem firstAt_eq_some (h : firstAt p t = some i) :
    p <+: t.drop i ∧ ∀ j < i, ¬ p <+: t.drop j := by
  induction t generalizing i with
  | nil =>
    simp only [firstAt, Option.ite_some_none_eq_some] at h
    obtain ⟨hp, rfl⟩ := h
    exact ⟨List.isPrefixOf_iff_prefix.1 hp, by simp⟩
  | cons c cs ih =>
    rw [firstAt] at h
    split at h
    · rename_i hp
      simp only [Option.some.injEq] at h
      subst h
      exact ⟨List.isPrefixOf_iff_prefix.1 hp, by simp⟩
    · rename_i hp
      simp only [Option.map_eq_some_iff] at h
      obtain ⟨k, hk, rfl⟩ := h
      have hrest := ih hk
      refine ⟨by simpa using hrest.1, fun j hj => ?_⟩
      cases j with
      | zero => simpa [List.isPrefixOf_iff_prefix] using hp
      | succ j => simpa using hrest.2 j (by omega)

theorem firstAt_le_length (h : firstAt p t = some i) : i ≤ t.length := by
  induction t generalizing i with
  | nil =>
    simp only [firstAt, Option.ite_some_none_eq_some] at h
    simp [h.2.symm]
  | cons c cs ih =>
    rw [firstAt] at h
    split at h
    · simp only [Option.some.injEq] at h
      omega
    · simp only [Option.map_eq_some_iff] at h
      obtain ⟨k, hk, rfl⟩ := h
      simpa using ih hk

theorem firstAt_eq_none : firstAt p t = none ↔ ¬ p <:+: t := by
  induction t with
  | nil => simp [firstAt, List.isPrefixOf_iff_prefix]
  | cons c cs ih =>
    rw [firstAt, List.infix_cons_iff, not_or, ← ih, ← List.isPrefixOf_iff_prefix]
    split <;> simp_all

theorem firstAt_isSome (h : p <:+: t) : ∃ i, firstAt p t = some i := by
  rw [← Option.isSome_iff_exists, Option.isSome_iff_ne_none]
  intro hnone
  exact firstAt_eq_none.1 hnone h

/-! ## Keeping back the end of a text -/

/-- The largest `k ≤ n` such that some pattern begins with the last `k` elements. -/
def heldUpTo (t : List α) (ps : List (List α)) : ℕ → ℕ
  | 0 => 0
  | n + 1 =>
    if ps.any fun p => (t.drop (t.length - (n + 1))).isPrefixOf p then n + 1
    else heldUpTo t ps n

/-- How much of the end of `t` may still turn into a pattern. -/
def held (t : List α) (ps : List (List α)) : ℕ :=
  heldUpTo t ps (min ((ps.map List.length).max?.getD 1 - 1) t.length)

theorem le_heldUpTo {n k : ℕ} (hk : k ≤ n)
    (hp : p ∈ ps) (hpre : t.drop (t.length - k) <+: p) : k ≤ heldUpTo t ps n := by
  induction n with
  | zero => omega
  | succ n ih =>
    rw [heldUpTo]
    split
    · exact hk
    · rename_i hnot
      rcases Nat.lt_or_ge n k with hlt | hge
      · have hkn : k = n + 1 := by omega
        subst hkn
        exfalso
        apply hnot
        exact List.any_eq_true.2 ⟨p, hp, List.isPrefixOf_iff_prefix.2 hpre⟩
      · exact ih hge

/-- Where no pattern stands in `t`, an occurrence in `t` and what follows begins in the end
that is kept back. -/
theorem held_le_of_occurs {u : List α}
    (hnone : ∀ q ∈ ps, ¬ q <:+: t) (hp : p ∈ ps) (h : p <+: (t ++ u).drop i) :
    t.length - held t ps ≤ i := by
  by_contra hlt
  have hi : i < t.length := by omega
  rw [List.drop_append_of_le_length (by omega)] at h
  rcases Nat.lt_or_ge (t.drop i).length p.length with hlong | hshort
  · -- the pattern runs past `t`: it begins with the end of `t` from `i` on
    have hpre : t.drop i <+: p :=
      List.prefix_of_prefix_length_le (List.prefix_append _ _) h (by omega)
    have hlen : (t.drop i).length = t.length - i := List.length_drop
    have hmax := length_le_max hp
    have hback : t.length - (t.length - i) = i := by omega
    have hk : t.length - i ≤ held t ps := by
      apply le_heldUpTo (p := p)
      · omega
      · exact hp
      · rwa [hback]
    omega
  · have hpre : p <+: t.drop i :=
      List.prefix_of_prefix_length_le h (List.prefix_append _ _) (by omega)
    exact hnone p hp (infix_iff_exists_drop.2 ⟨i, hpre⟩)

/-! ## Cutting at the first occurrence -/

/-- What stands before the first occurrence of a pattern, and what behind it. -/
def cut (p t : List α) : Option (List α × List α) :=
  (firstAt p t).map fun i => (t.take i, t.drop (i + p.length))

theorem cut_eq_none : cut p t = none ↔ ¬ p <:+: t := by
  rw [cut, Option.map_eq_none_iff, firstAt_eq_none]

theorem cut_eq_some_iff :
    cut p t = some (a, b) ↔ t = a ++ p ++ b ∧ ∀ j < a.length, ¬ p <+: t.drop j := by
  constructor
  · intro h
    obtain ⟨i, hi, hcut⟩ := Option.map_eq_some_iff.1 h
    cases hcut
    obtain ⟨⟨more, hmore⟩, hleast⟩ := firstAt_eq_some hi
    have hle := firstAt_le_length hi
    refine ⟨?_, fun j hj => hleast j (by rw [List.length_take] at hj; omega)⟩
    have hdrop : t.drop (i + p.length) = more := by
      rw [← List.drop_drop, ← hmore, List.drop_left]
    rw [hdrop, List.append_assoc, hmore, List.take_append_drop]
  · rintro ⟨rfl, hleast⟩
    have hat : p <+: (a ++ p ++ b).drop a.length := by
      rw [List.append_assoc, List.drop_left]
      exact List.prefix_append p b
    obtain ⟨i, hi⟩ := firstAt_isSome (infix_iff_exists_drop.2 ⟨_, hat⟩)
    obtain ⟨hthere, hfirst⟩ := firstAt_eq_some hi
    have hle : i ≤ a.length := not_lt.1 fun hlt => hfirst _ hlt hat
    have hge : a.length ≤ i := not_lt.1 fun hlt => hleast _ hlt hthere
    obtain rfl : i = a.length := by omega
    rw [cut, hi, Option.map_some, ← List.length_append, List.drop_left, List.append_assoc,
      List.take_left]

theorem cut_length (h : cut p t = some (a, b)) : a.length + p.length + b.length = t.length := by
  rw [(cut_eq_some_iff.1 h).1, List.length_append, List.length_append]

/-- The pattern at the very start. -/
theorem cut_self_append (p t : List α) : cut p (p ++ t) = some ([], t) :=
  cut_eq_some_iff.2 ⟨rfl, fun _ hj => absurd hj (Nat.not_lt_zero _)⟩

/-- What follows does not move the first occurrence. -/
theorem cut_append (h : cut p t = some (a, b)) (u : List α) :
    cut p (t ++ u) = some (a, b ++ u) := by
  obtain ⟨rfl, hleast⟩ := cut_eq_some_iff.1 h
  refine cut_eq_some_iff.2 ⟨by simp, fun j hj hat => hleast j hj ?_⟩
  have hpart : (a ++ p ++ b).drop j <+: (a ++ p ++ b ++ u).drop j :=
    (List.prefix_append _ u).drop j
  refine List.prefix_of_prefix_length_le hat hpart ?_
  simp only [List.length_drop, List.length_append]
  omega

/-- Nor does what comes before, when no occurrence begins there. -/
theorem cut_behind (h : ∀ i, p <+: (a ++ t).drop i → a.length ≤ i) :
    cut p (a ++ t) = (cut p t).map fun parts => (a ++ parts.1, parts.2) := by
  cases hcut : cut p t with
  | none =>
    rw [Option.map_none, cut_eq_none]
    intro hwithin
    obtain ⟨i, hi⟩ := infix_iff_exists_drop.1 hwithin
    rw [drop_append_of_le (h i hi)] at hi
    exact cut_eq_none.1 hcut (infix_iff_exists_drop.2 ⟨_, hi⟩)
  | some parts =>
    obtain ⟨b, c⟩ := parts
    obtain ⟨rfl, hleast⟩ := cut_eq_some_iff.1 hcut
    refine cut_eq_some_iff.2 ⟨by simp, fun j hj hat => ?_⟩
    have hle := h j hat
    rw [drop_append_of_le hle] at hat
    refine hleast (j - a.length) ?_ hat
    have hlt : j < a.length + b.length := by rwa [List.length_append] at hj
    omega

end Search
