import Mathlib.Data.List.Basic

/-!
# Directories as finite trees

What a directory holds, entry by entry in the order it is listed, for code that copies or deletes
whole directories: no paths that climb, and a symbolic link is what it leads to.

* `Tree.get?`, `Tree.erase`, `Tree.replace` and `Tree.put` are what one name of a directory is, and
  how it changes;
* `Tree.look` is what a reader finds at the end of a path;
* `Tree.removeAll` deletes a directory from the leaves up, each of its steps may fail, and
  `removeAll_eq_some_self` says when it leaves the directory as it was.
-/

namespace DirTree

/-- An entry that is no directory. -/
inductive Leaf (δ : Type)
  | file (content : δ)
  /-- A symbolic link to a file with the content, or to nothing. -/
  | link (leads : Option δ)
  /-- Neither a file nor a directory, or a symbolic link to such a thing. -/
  | other
deriving DecidableEq

/-- The entries of a directory. -/
inductive Tree (α δ : Type)
  | nil
  | leaf (name : α) (entry : Leaf δ) (rest : Tree α δ)
  | dir (name : α) (inside rest : Tree α δ)
  /-- A symbolic link to a directory, and what lies in that one. -/
  | linkDir (name : α) (inside rest : Tree α δ)
deriving DecidableEq

/-- What lies at one name. -/
inductive Node (α δ : Type)
  | leaf (entry : Leaf δ)
  | dir (inside : Tree α δ)
  | linkDir (inside : Tree α δ)
deriving DecidableEq

/-- What a reader finds at the end of a path. -/
inductive Seen (δ : Type)
  | directory
  | file (content : δ)
deriving DecidableEq

variable {α δ ε : Type}

/-- What reading the entry gives, when that leads to a file. -/
def Leaf.content : Leaf δ → Option δ
  | .file content => some content
  | .link leads => leads
  | .other => none

@[simp] theorem content_file (content : δ) : (Leaf.file content).content = some content := rfl

/-- The path leads to something. -/
def Node.leads : Node α δ → Bool
  | .leaf (.link none) => false
  | _ => true

/-- What lies in the directory that the path leads to. -/
def Node.inside : Node α δ → Option (Tree α δ)
  | .leaf _ => none
  | .dir inside | .linkDir inside => some inside

def Tree.cons (name : α) : Node α δ → Tree α δ → Tree α δ
  | .leaf entry, rest => .leaf name entry rest
  | .dir inside, rest => .dir name inside rest
  | .linkDir inside, rest => .linkDir name inside rest

/-! ## One name -/

section Names

variable [DecidableEq α]

def Tree.get? : Tree α δ → α → Option (Node α δ)
  | .nil, _ => none
  | .leaf n entry rest, name => if n = name then some (.leaf entry) else rest.get? name
  | .dir n inside rest, name => if n = name then some (.dir inside) else rest.get? name
  | .linkDir n inside rest, name => if n = name then some (.linkDir inside) else rest.get? name

def Tree.erase : Tree α δ → α → Tree α δ
  | .nil, _ => .nil
  | .leaf n entry rest, name =>
    if n = name then rest.erase name else .leaf n entry (rest.erase name)
  | .dir n inside rest, name =>
    if n = name then rest.erase name else .dir n inside (rest.erase name)
  | .linkDir n inside rest, name =>
    if n = name then rest.erase name else .linkDir n inside (rest.erase name)

/-- The entry of that name, in its place, becomes `node`. -/
def Tree.replace : Tree α δ → α → Node α δ → Tree α δ
  | .nil, _, _ => .nil
  | .leaf n entry rest, name, node =>
    if n = name then .cons n node rest else .leaf n entry (rest.replace name node)
  | .dir n inside rest, name, node =>
    if n = name then .cons n node rest else .dir n inside (rest.replace name node)
  | .linkDir n inside rest, name, node =>
    if n = name then .cons n node rest else .linkDir n inside (rest.replace name node)

def Tree.put (t : Tree α δ) (name : α) (node : Node α δ) : Tree α δ :=
  .cons name node (t.erase name)

attribute [local simp] Tree.get? Tree.erase Tree.replace

@[simp] theorem get?_cons (t : Tree α δ) (n name : α) (node : Node α δ) :
    (Tree.cons n node t).get? name = if n = name then some node else t.get? name := by
  cases node <;> rfl

theorem get?_erase (t : Tree α δ) (n name : α) :
    (t.erase n).get? name = if n = name then none else t.get? name := by
  induction t with
  | nil => simp [Tree.erase, Tree.get?]
  | leaf m entry rest ih => grind [Tree.erase, Tree.get?]
  | dir m inside rest _ ih => grind [Tree.erase, Tree.get?]
  | linkDir m inside rest _ ih => grind [Tree.erase, Tree.get?]

theorem get?_replace (t : Tree α δ) (n name : α) (node : Node α δ) :
    (t.replace n node).get? name =
      if n = name ∧ (t.get? n).isSome then some node else t.get? name := by
  induction t with
  | nil => simp [Tree.replace, Tree.get?]
  | leaf m entry rest ih => grind [Tree.replace, Tree.get?, get?_cons]
  | dir m inside rest _ ih => grind [Tree.replace, Tree.get?, get?_cons]
  | linkDir m inside rest _ ih => grind [Tree.replace, Tree.get?, get?_cons]

variable {t : Tree α δ} {name : α}

theorem replace_self {node : Node α δ} (h : t.get? name = some node) : t.replace name node = t := by
  induction t with
  | nil => rfl
  | leaf m entry rest ih => grind [Tree.replace, Tree.get?, Tree.cons]
  | dir m inside rest _ ih => grind [Tree.replace, Tree.get?, Tree.cons]
  | linkDir m inside rest _ ih => grind [Tree.replace, Tree.get?, Tree.cons]

/-! ## Reading -/

def Tree.look : Tree α δ → List α → Option (Seen δ)
  | _, [] => some .directory
  | .nil, _ :: _ => none
  | .leaf n entry rest, name :: path =>
    if n = name then if path = [] then entry.content.map .file else none
    else rest.look (name :: path)
  | .dir n inside rest, name :: path | .linkDir n inside rest, name :: path =>
    if n = name then inside.look path else rest.look (name :: path)

attribute [local simp] Tree.look

@[simp] theorem look_nil (t : Tree α δ) : t.look [] = some .directory := by
  cases t <;> rfl

theorem look_erase (t : Tree α δ) (n name : α) (path : List α) :
    (t.erase n).look (name :: path) = if n = name then none else t.look (name :: path) := by
  induction t with
  | nil => simp [Tree.erase, Tree.look]
  | leaf m entry rest ih => grind [Tree.erase, Tree.look]
  | dir m inside rest _ ih => grind [Tree.erase, Tree.look]
  | linkDir m inside rest _ ih => grind [Tree.erase, Tree.look]

theorem look_put_file (t : Tree α δ) (n name : α) (content : δ) (path : List α) :
    (t.put n (.leaf (.file content))).look (name :: path) =
      if n = name then if path = [] then some (.file content) else none
      else t.look (name :: path) := by
  simp only [Tree.put, Tree.cons, Tree.look, content_file, Option.map_some, look_erase]
  split <;> simp_all

/-- Nothing lies below what is no directory. -/
theorem look_below {path : List α}
    (h : t.look [name] ≠ some .directory) (hpath : path ≠ []) : t.look (name :: path) = none := by
  induction t with
  | nil => rfl
  | leaf m entry rest ih => grind [Tree.look]
  | dir m inside rest _ ih | linkDir m inside rest _ ih => grind [Tree.look, look_nil]

theorem look_eq_none (h : t.look [name] = none) (path : List α) : t.look (name :: path) = none := by
  by_cases hpath : path = []
  · rw [hpath, h]
  · exact look_below (by simp [h]) hpath

end Names

/-! ## Deleting a directory -/

inductive RemoveStep (α : Type)
  | list (path : List α)
  | unlink (path : List α)
  | rmdir (path : List α)
deriving DecidableEq

section Remove

variable (fails : RemoveStep α → Option ε)

/-- A directory at `path` is deleted: `loop` is what deleting its entries gives, and what is left of
them. -/
def removeDir (path : List α) (inside : Tree α δ) (loop : Except ε Unit × Tree α δ) :
    Except ε Unit × Option (Tree α δ) :=
  match fails (.list path) with
  | some error => (.error error, some inside)
  | none =>
    match loop with
    | (.error error, left) => (.error error, some left)
    | (.ok (), left) =>
      match fails (.rmdir path) with
      | some error => (.error error, some left)
      | none => (.ok (), none)

/-- The entries of the directory at `path`, one after the other, up to the first that stays. -/
def removeEntries : Tree α δ → List α → Except ε Unit × Tree α δ
  | .nil, _ => (.ok (), .nil)
  | .leaf name entry rest, path =>
    match fails (.unlink (path ++ [name])) with
    | some error => (.error error, .leaf name entry rest)
    | none => removeEntries rest path
  | .linkDir name inside rest, path =>
    match fails (.unlink (path ++ [name])) with
    | some error => (.error error, .linkDir name inside rest)
    | none => removeEntries rest path
  | .dir name inside rest, path =>
    match removeDir fails (path ++ [name]) inside (removeEntries inside (path ++ [name])) with
    | (.error error, some left) => (.error error, .dir name left rest)
    | (.error error, none) => (.error error, rest)
    | (.ok (), _) => removeEntries rest path

/-- A symbolic link in the place of the directory is not followed. -/
def Tree.removeAll (inside : Tree α δ) (path : List α) : Except ε Unit × Option (Tree α δ) :=
  removeDir fails path inside (removeEntries fails inside path)

/-- The first thing to be deleted stays. -/
def firstStays : Tree α δ → List α → Bool
  | .nil, path => (fails (.rmdir path)).isSome
  | .leaf name _ _, path | .linkDir name _ _, path => (fails (.unlink (path ++ [name]))).isSome
  | .dir name inside _, path =>
    (fails (.list (path ++ [name]))).isSome || firstStays inside (path ++ [name])

/-- Deleting the directory stops before anything is gone. -/
def Tree.stays (inside : Tree α δ) (path : List α) : Bool :=
  (fails (.list path)).isSome || firstStays fails inside path

def Tree.count : Tree α δ → ℕ
  | .nil => 0
  | .leaf _ _ rest => 1 + rest.count
  | .dir _ inside rest | .linkDir _ inside rest => 1 + inside.count + rest.count

theorem removeDir_cases (path : List α) (inside : Tree α δ) (loop : Except ε Unit × Tree α δ) :
    (∃ error, removeDir fails path inside loop = (.error error, some inside) ∧
      (fails (.list path)).isSome) ∨
    (∃ error, removeDir fails path inside loop = (.error error, some loop.2)) ∨
    removeDir fails path inside loop = (.ok (), none) := by
  obtain ⟨_ | ⟨⟨⟩⟩, left⟩ := loop <;> cases hlist : fails (.list path) <;>
    cases hrmdir : fails (.rmdir path) <;> simp [removeDir, hlist, hrmdir]

theorem count_removeEntries_le (t : Tree α δ) (path : List α) :
    (removeEntries fails t path).2.count ≤ t.count := by
  induction t generalizing path with
  | nil => simp [removeEntries]
  | leaf name entry rest ih | linkDir name inside rest _ ih =>
    simp only [removeEntries]
    split
    · exact Nat.le_refl _
    · have := ih path
      simp only [Tree.count]
      omega
  | dir name inside rest ihi ihr =>
    have hi := ihi (path ++ [name])
    have hr := ihr path
    rw [removeEntries]
    rcases removeDir_cases fails (path ++ [name]) inside
        (removeEntries fails inside (path ++ [name])) with
      ⟨error, h, _⟩ | ⟨error, h⟩ | h <;> simp only [h, Tree.count] <;> omega

variable {fails}

theorem removeEntries_of_firstStays {t : Tree α δ} {path : List α} (hne : t ≠ .nil)
    (h : firstStays fails t path = true) :
    ∃ error, removeEntries fails t path = (.error error, t) := by
  induction t generalizing path with
  | nil => exact absurd rfl hne
  | leaf name entry rest | linkDir name inside rest =>
    obtain ⟨error, herror⟩ := Option.isSome_iff_exists.1 h
    exact ⟨error, by simp [removeEntries, herror]⟩
  | dir name inside rest ihi =>
    simp only [firstStays, Bool.or_eq_true, Option.isSome_iff_exists] at h
    simp only [removeEntries, removeDir]
    cases hlist : fails (.list (path ++ [name])) with
    | some error => exact ⟨error, rfl⟩
    | none =>
      have hfirst : firstStays fails inside (path ++ [name]) = true := by simpa [hlist] using h
      by_cases hnil : inside = .nil
      · subst hnil
        obtain ⟨error, herror⟩ := Option.isSome_iff_exists.1 hfirst
        exact ⟨error, by simp [removeEntries, herror]⟩
      · obtain ⟨error, herror⟩ := ihi hnil hfirst
        exact ⟨error, by simp [herror]⟩

theorem count_removeEntries_lt {t : Tree α δ} {path : List α} (hne : t ≠ .nil)
    (h : firstStays fails t path = false) : (removeEntries fails t path).2.count < t.count := by
  induction t generalizing path with
  | nil => exact absurd rfl hne
  | leaf name entry rest | linkDir name inside rest =>
    have hrest := count_removeEntries_le fails rest path
    have hnone : fails (.unlink (path ++ [name])) = none := by simpa [firstStays] using h
    simp only [removeEntries, hnone, Tree.count]
    omega
  | dir name inside rest ihi =>
    have hrest := count_removeEntries_le fails rest path
    obtain ⟨hlist, hfirst⟩ : fails (.list (path ++ [name])) = none ∧
        firstStays fails inside (path ++ [name]) = false := by simpa [firstStays] using h
    by_cases hnil : inside = .nil
    · subst hnil
      have hrmdir : fails (.rmdir (path ++ [name])) = none := by simpa [firstStays] using hfirst
      simp only [removeEntries, removeDir, hlist, hrmdir, Tree.count]
      omega
    · have hinside := ihi hnil hfirst
      rw [removeEntries]
      rcases removeDir_cases fails (path ++ [name]) inside
          (removeEntries fails inside (path ++ [name])) with
        ⟨error, h, hsome⟩ | ⟨error, h⟩ | h
      · simp [hlist] at hsome
      all_goals
        simp only [h, Tree.count]
        omega

/-- A deletion that fails leaves the directory as it was only when nothing was deleted. -/
theorem removeAll_eq_some_self (inside : Tree α δ) (path : List α) :
    (inside.removeAll fails path).2 = some inside ↔ inside.stays fails path = true := by
  simp only [Tree.removeAll, Tree.stays, removeDir]
  cases hlist : fails (.list path) with
  | some error => simp
  | none =>
    by_cases hnil : inside = .nil
    · subst hnil
      cases hrmdir : fails (.rmdir path) <;> simp [removeEntries, firstStays, hrmdir]
    · cases hfirst : firstStays fails inside path with
      | true =>
        obtain ⟨error, herror⟩ := removeEntries_of_firstStays hnil hfirst
        simp [herror]
      | false =>
        have hlt := count_removeEntries_lt hnil hfirst
        simp only [Option.isSome_none, Bool.or_self, Bool.false_eq_true, iff_false]
        intro heq
        have hleft : (removeEntries fails inside path).2 = inside := by
          rcases removeDir_cases fails path inside (removeEntries fails inside path) with
            ⟨error, h, hsome⟩ | ⟨error, h⟩ | h
          · simp [hlist] at hsome
          · simp only [removeDir, hlist] at h
            rw [h] at heq
            simpa using heq
          · simp only [removeDir, hlist] at h
            rw [h] at heq
            cases heq
        rw [hleft] at hlt
        omega

end Remove

end DirTree
