import Mathlib.Data.Multiset.Basic

/-!
# Lists as tables of tasks

A list indexed by task number is changed one entry at a time (`List.set`). These lemmas
say what such a change does to what is read off the whole table.
-/

namespace Lists

variable {α β : Type*}

variable {l xs : List α} {i j : ℕ} {x y : α} {p : α → Bool} {R : α → β → Prop} {ys : List β}

/-- Replacing entry `x` by `y` replaces the stretch `f x` of the concatenation by `f y`. -/
theorem flatMap_set (h : l[i]? = some x) (f : α → List β) :
    ∃ A B, l.flatMap f = A ++ f x ++ B ∧ ∀ y, (l.set i y).flatMap f = A ++ f y ++ B := by
  induction l generalizing i with
  | nil => simp at h
  | cons a l ih =>
    cases i with
    | zero =>
      simp only [List.getElem?_cons_zero, Option.some.injEq] at h
      exact ⟨[], l.flatMap f, by simp [h], fun y => by simp⟩
    | succ i =>
      obtain ⟨A, B, h1, h2⟩ := ih (by simpa using h)
      refine ⟨f a ++ A, B, by simp [h1], fun y => ?_⟩
      simp [h2 y]

/-- Replacing an entry moves a count by what the two entries contribute. -/
theorem countP_set_add (h : l[i]? = some x) (p : α → Bool) (y : α) :
    (l.set i y).countP p + (if p x then 1 else 0) = l.countP p + (if p y then 1 else 0) := by
  induction l generalizing i with
  | nil => simp at h
  | cons a l ih =>
    cases i with
    | zero =>
      simp only [List.getElem?_cons_zero, Option.some.injEq] at h
      simp only [List.set_cons_zero, List.countP_cons, h]
      omega
    | succ i =>
      have htail := ih (by simpa using h)
      simp only [List.set_cons_succ, List.countP_cons]
      omega

/-- At most one entry has what no two entries have at once. -/
theorem countP_le_one
    (h : ∀ (i j : ℕ) x y, l[i]? = some x → l[j]? = some y → p x = true → p y = true → i = j) :
    l.countP p ≤ 1 := by
  induction l with
  | nil => simp
  | cons a l ih =>
    rw [List.countP_cons]
    by_cases ha : p a = true
    · have hnone : l.countP p = 0 := by
        rw [List.countP_eq_zero]
        intro x hx hpx
        obtain ⟨j, hj⟩ := List.getElem?_of_mem hx
        exact absurd (h 0 (j + 1) a x rfl hj ha hpx) (by omega)
      simp [hnone, ha]
    · have hrest : l.countP p ≤ 1 := by
        refine ih fun i j x y hx hy hpx hpy => ?_
        have := h (i + 1) (j + 1) x y hx hy hpx hpy
        omega
      simpa [ha] using hrest

/-- Replacing an entry by one that `p` does not tell apart changes no answer about `p`. -/
theorem any_set_of_eq (h : l[i]? = some x) (hp : p y = p x) : (l.set i y).any p = l.any p := by
  induction l generalizing i with
  | nil => simp at h
  | cons a l ih =>
    cases i with
    | zero =>
      simp only [List.getElem?_cons_zero, Option.some.injEq] at h
      simp [hp, h]
    | succ i => simp [ih (by simpa using h)]

/-- The new entry is in the changed table. -/
theorem any_set_self (h : l[i]? = some x) (hp : p y = true) : (l.set i y).any p = true := by
  obtain ⟨hi, -⟩ := List.getElem?_eq_some_iff.1 h
  exact List.any_eq_true.2 ⟨y, List.mem_set hi y, hp⟩

/-- What a changed table holds: the new entry at its index, the old ones elsewhere. -/
theorem getElem?_set_cases (h : (l.set i y)[j]? = some x) :
    (i = j ∧ x = y) ∨ (i ≠ j ∧ l[j]? = some x) := by
  rw [List.getElem?_set] at h
  split at h
  · rename_i hij
    split at h
    · exact .inl ⟨hij, by simpa using h.symm⟩
    · simp at h
  · rename_i hij
    exact .inr ⟨hij, h⟩

/-- The entries of a changed table: the new one, and the old ones at the other indices. -/
theorem mem_set_cases (h : x ∈ l.set i y) : x = y ∨ ∃ j, i ≠ j ∧ l[j]? = some x := by
  obtain ⟨j, hj⟩ := List.mem_iff_getElem?.1 h
  rcases getElem?_set_cases hj with ⟨-, hxy⟩ | ⟨hij, hold⟩
  · exact .inl hxy
  · exact .inr ⟨j, hij, hold⟩

/-- An entry at another index stays. -/
theorem mem_set_of_ne (h : l[j]? = some x) (hij : i ≠ j) : x ∈ l.set i y := by
  refine List.mem_iff_getElem?.2 ⟨j, ?_⟩
  rw [List.getElem?_set_ne hij, h]

/-- What a table with one entry edited holds. -/
theorem getElem?_modify_cases {f : α → α} (h : (l.modify i f)[j]? = some y) :
    (i = j ∧ ∃ x, l[j]? = some x ∧ y = f x) ∨ (i ≠ j ∧ l[j]? = some y) := by
  rw [List.getElem?_modify] at h
  obtain ⟨x, hx, hy⟩ := Option.map_eq_some_iff.1 h
  by_cases hij : i = j
  · rw [if_pos hij] at hy
    exact .inl ⟨hij, x, hx, hy.symm⟩
  · rw [if_neg hij] at hy
    exact .inr ⟨hij, hx.trans (congrArg some hy)⟩

/-- What a table with one entry more holds. -/
theorem getElem?_concat_cases (h : (l ++ [y])[j]? = some x) :
    l[j]? = some x ∨ (j = l.length ∧ x = y) := by
  rw [List.getElem?_append] at h
  split at h
  · exact .inl h
  · rename_i hlt
    rw [List.getElem?_singleton] at h
    split at h
    · exact .inr ⟨by omega, (Option.some.inj h).symm⟩
    · simp at h

/-- The entry a related table has in the same place. -/
theorem forall₂_getElem? (h : List.Forall₂ R xs ys) {y : β} (hi : ys[i]? = some y) :
    ∃ x, xs[i]? = some x ∧ R x y := by
  induction h generalizing i with
  | nil => simp at hi
  | @cons a b xs ys hab _ ih =>
    cases i with
    | zero =>
      simp only [List.getElem?_cons_zero, Option.some.injEq] at hi
      exact ⟨a, rfl, hi ▸ hab⟩
    | succ i => exact ih hi

/-- A relation of two tables weakened at the entries they hold. -/
theorem forall₂_imp_of_mem {S : α → β → Prop}
    (h : List.Forall₂ R xs ys) (himp : ∀ x ∈ xs, ∀ y, R x y → S x y) : List.Forall₂ S xs ys := by
  induction h with
  | nil => exact List.Forall₂.nil
  | cons hr _ ih =>
    exact List.Forall₂.cons (himp _ (.head _) _ hr) (ih fun x hx => himp x (.tail _ hx))

/-- Two relations of tables, one after the other. -/
theorem forall₂_comp {γ : Type*} {S : β → γ → Prop} {T : α → γ → Prop} {zs : List γ}
    (h : List.Forall₂ R xs ys)
    (h' : List.Forall₂ S ys zs) (hcomp : ∀ x y z, R x y → S y z → T x z) :
    List.Forall₂ T xs zs := by
  induction h generalizing zs with
  | nil =>
    cases h'
    exact List.Forall₂.nil
  | cons hr _ ih =>
    cases h' with
    | cons hs hrest => exact List.Forall₂.cons (hcomp _ _ _ hr hs) (ih hrest)

/-- Two tables related entry by entry, with one entry replaced. -/
theorem forall₂_set {S : α → β → Prop} (h : List.Forall₂ R xs ys) {y z : β} (hi : ys[i]? = some y)
    (hentry : ∀ x, xs[i]? = some x → R x y → S x z)
    (hothers : ∀ j x y, j ≠ i → xs[j]? = some x → ys[j]? = some y → R x y → S x y) :
    List.Forall₂ S xs (ys.set i z) := by
  induction h generalizing i with
  | nil => simp at hi
  | @cons a b xs ys hab htail ih =>
    cases i with
    | zero =>
      simp only [List.getElem?_cons_zero, Option.some.injEq] at hi
      refine List.Forall₂.cons (hentry a rfl (hi ▸ hab)) ?_
      have hrest : ∀ j x y, xs[j]? = some x → ys[j]? = some y → R x y → S x y :=
        fun j x y hx hy => hothers (j + 1) x y (by omega) hx hy
      clear ih hothers hentry
      induction htail with
      | nil => exact List.Forall₂.nil
      | cons hr _ ih =>
        exact List.Forall₂.cons (hrest 0 _ _ rfl rfl hr)
          (ih fun j x y hx hy => hrest (j + 1) x y hx hy)
    | succ i =>
      refine List.Forall₂.cons (hothers 0 a b (by omega) rfl rfl hab) ?_
      exact ih hi (fun x hx => hentry x hx)
        (fun j x y hj hx hy => hothers (j + 1) x y (by omega) hx hy)

/-! ## Cutting a concatenation -/

/-- What is left over of `xs` by a cut: nothing, or the start of the next block. -/
def Leftover (f : α → List β) (part : List β) : List α → Prop
  | [] => part = []
  | x :: _ => part <+: f x ∧ part.length < (f x).length

/-- A cut through a concatenation of nonempty blocks leaves whole blocks and the start of the
next one. -/
theorem cut_flatMap {f : α → List β} (hne : ∀ x ∈ xs, f x ≠ []) {l : List β}
    (h : l <+: xs.flatMap f) :
    ∃ done rest part, xs = done ++ rest ∧ l = done.flatMap f ++ part ∧ Leftover f part rest := by
  induction xs generalizing l with
  | nil =>
    have hl : l = [] := by simpa using h
    exact ⟨[], [], [], rfl, by simp [hl], rfl⟩
  | cons x xs ih =>
    rw [List.flatMap_cons] at h
    by_cases hlt : l.length < (f x).length
    · -- the cut falls inside the first block
      have hx : l <+: f x := List.prefix_of_prefix_length_le h (List.prefix_append _ _) hlt.le
      exact ⟨[], x :: xs, l, rfl, by simp, hx, hlt⟩
    · have hx : f x <+: l :=
        List.prefix_of_prefix_length_le (List.prefix_append _ _) h (by omega)
      obtain ⟨tail, rfl⟩ := hx
      have htail : tail <+: xs.flatMap f := (List.prefix_append_right_inj (f x)).1 h
      obtain ⟨done, rest, part, hxs, htl, hpart⟩ :=
        ih (fun y hy => hne y (List.mem_cons_of_mem x hy)) htail
      exact ⟨x :: done, rest, part, by simp [hxs], by simp [htl], hpart⟩

/-- What is left over is everything only when there is nothing. -/
theorem Leftover.eq_nil {f : α → List β} {part : List β} (h : Leftover f part xs)
    (hall : part = xs.flatMap f) : xs = [] := by
  cases xs with
  | nil => rfl
  | cons x xs =>
    have hlt : part.length < (f x).length := h.2
    have hlen : part.length = (f x).length + (xs.flatMap f).length := by simp [hall]
    omega

theorem nodup_eraseDups [BEq α] [LawfulBEq α] (l : List α) : l.eraseDups.Nodup := by
  match l with
  | [] => exact List.nodup_nil
  | a :: l =>
    rw [List.eraseDups_cons, List.nodup_cons, List.mem_eraseDups]
    exact ⟨by simp, nodup_eraseDups _⟩
termination_by l.length
decreasing_by exact Nat.lt_succ_of_le (List.length_filter_le _ _)

/-- Lists are compared as `List.Lex` has it, the shorter first. -/
theorem compareLex_lt_iff {α : Type*} {cmp : α → α → Ordering} [Std.LawfulEqCmp cmp]
    {r : α → α → Prop} {left right : List α} (h : ∀ a ∈ left, ∀ b ∈ right, cmp a b = .lt ↔ r a b) :
    List.compareLex cmp left right = .lt ↔ List.Lex r left right := by
  induction left generalizing right with
  | nil =>
    cases right with
    | nil => simp [List.compareLex_nil_nil]
    | cons b right => simp [List.compareLex_nil_cons]
  | cons a left ih =>
    cases right with
    | nil => simp [List.compareLex_cons_nil]
    | cons b right =>
      have hrest := ih fun a ha b hb => h a (.tail _ ha) b (.tail _ hb)
      rw [List.compareLex_cons_cons, Ordering.then_eq_lt, h a (by simp) b (by simp), hrest,
        Std.LawfulEqCmp.compare_eq_iff_eq]
      constructor
      · rintro (hlt | ⟨rfl, hlex⟩)
        · exact .rel hlt
        · exact .cons hlex
      · intro hlex
        cases hlex with
        | rel hlt => exact .inl hlt
        | cons hlex => exact .inr ⟨rfl, hlex⟩

end Lists
