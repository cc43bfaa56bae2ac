import Mathlib.Data.List.Infix

/-!
# File trees with links

A file tree maps the place of a node, its names from the root down, to what is there. Paths
are resolved name by name, a link being replaced by the path it holds, as often as a limit
allows.

* `walk` and `resolve` are path resolution, `mkdir`, `createDirAll`, `create`, `update` and
  `symlink` the system calls on top of it;
* a link is `Downward` when it holds neither the root nor a `..`; a path through such links
  stays below the directory it starts from (`walk_below`);
* `Stays root` says that a change keeps below `root`; every call on a path below a root whose
  links are downward does (`mkdir_stays` and the lemmas after it).
-/

namespace FileTree

/-- A segment of a path. -/
inductive Seg (α : Type)
  | root
  | cur
  | parent
  | name (a : α)
deriving DecidableEq

/-- What stands at a place; a link holds the path it stands for. -/
inductive Node (α δ : Type)
  | dir
  | file (content : δ)
  | link (target : List (Seg α))
deriving DecidableEq

/-- The nodes by their names from the root down. -/
abbrev Tree (α δ : Type) := List α → Option (Node α δ)

inductive Error
  | notFound
  | notADirectory
  | alreadyExists
  | isADirectory
  | tooManyLinks
deriving DecidableEq

variable {α δ : Type}

/-! ## Resolving paths -/

/-- Follows the segments from the directory `here`, handing over to `onLink` at a link. A link
in the last place counts as such only when it is followed. -/
def walkWith (t : Tree α δ) (follow : Bool)
    (onLink : List α → List (Seg α) → Except Error (List α)) :
    List α → List (Seg α) → Except Error (List α)
  | here, [] => .ok here
  | _, .root :: rest => walkWith t follow onLink [] rest
  | here, .cur :: rest => walkWith t follow onLink here rest
  | here, .parent :: rest => walkWith t follow onLink here.dropLast rest
  | here, .name a :: rest =>
    match t (here ++ [a]) with
    | none => if rest.isEmpty then .ok (here ++ [a]) else .error .notFound
    | some .dir => walkWith t follow onLink (here ++ [a]) rest
    | some (.file _) => if rest.isEmpty then .ok (here ++ [a]) else .error .notADirectory
    | some (.link target) =>
      if rest.isEmpty && !follow then .ok (here ++ [a]) else onLink here (target ++ rest)

/-- Follows the segments through at most `limit` links. -/
def walk (t : Tree α δ) (follow : Bool) : ℕ → List α → List (Seg α) → Except Error (List α)
  | 0 => walkWith t follow fun _ _ => .error .tooManyLinks
  | limit + 1 => walkWith t follow (walk t follow limit)

/-- The place a path of names leads to. -/
def resolve (t : Tree α δ) (follow : Bool) (limit : ℕ) (path : List α) : Except Error (List α) :=
  walk t follow limit [] (path.map .name)

/-! ## System calls -/

variable [DecidableEq α]

def set (t : Tree α δ) (place : List α) (node : Node α δ) : Tree α δ :=
  fun p => if p = place then some node else t p

variable (limit : ℕ)

def mkdir (t : Tree α δ) (path : List α) : Except Error (Tree α δ) := do
  let place ← resolve t false limit path
  match t place with
  | none => .ok (set t place .dir)
  | some _ => .error .alreadyExists

def isDir (t : Tree α δ) (path : List α) : Bool :=
  match resolve t true limit path with
  | .error _ => false
  | .ok place =>
    match t place with
    | some .dir => true
    | _ => place.isEmpty

/-- `mkdir`, for which a directory that is already there is no error. -/
def mkdirOrDir (t : Tree α δ) (path : List α) : Except Error (Tree α δ) :=
  match mkdir limit t path with
  | .ok t' => .ok t'
  | .error e => if isDir limit t path then .ok t else .error e

/-- Makes a directory and what is missing above it, given its names from the last one up. -/
def createDirAllUp (t : Tree α δ) : List α → Except Error Unit × Tree α δ
  | [] => (.ok (), t)
  | a :: above =>
    match mkdir limit t (a :: above).reverse with
    | .ok t' => (.ok (), t')
    | .error .notFound =>
      match createDirAllUp t above with
      | (.error e, t') => (.error e, t')
      | (.ok (), t') =>
        match mkdirOrDir limit t' (a :: above).reverse with
        | .ok t'' => (.ok (), t'')
        | .error e => (.error e, t')
    | .error e => if isDir limit t (a :: above).reverse then (.ok (), t) else (.error e, t)

def createDirAll (t : Tree α δ) (path : List α) : Except Error Unit × Tree α δ :=
  createDirAllUp limit t path.reverse

/-- Opens a file for writing, through a link if there is one, with `content` in it. -/
def create (t : Tree α δ) (path : List α) (content : δ) : Except Error (Tree α δ) := do
  let place ← resolve t true limit path
  match t place with
  | some .dir => .error .isADirectory
  | _ => if place.isEmpty then .error .isADirectory else .ok (set t place (.file content))

/-- Changes the content of a file, through a link if there is one. -/
def update (t : Tree α δ) (path : List α) (f : δ → δ) : Except Error (Tree α δ) := do
  let place ← resolve t true limit path
  match t place with
  | some (.file content) => .ok (set t place (.file (f content)))
  | some _ => .ok t
  | none => .error .notFound

def symlink (t : Tree α δ) (path : List α) (target : List (Seg α)) : Except Error (Tree α δ) := do
  let place ← resolve t false limit path
  match t place with
  | none => .ok (set t place (.link target))
  | some _ => .error .alreadyExists

/-! ## Staying below a directory -/

variable (t : Tree α δ)

theorem set_self (place : List α) (node : Node α δ) : set t place node place = some node := by
  simp [set]

variable {place p : List α}

theorem set_of_ne (node : Node α δ) (h : p ≠ place) : set t place node p = t p := by
  simp [set, h]

/-- A path that only leads down: no root and no `..` in it. -/
def Downward (segs : List (Seg α)) : Prop := ∀ seg ∈ segs, seg ≠ .root ∧ seg ≠ .parent

/-- The links below `root` only lead down. -/
def Confined (root : List α) (t : Tree α δ) : Prop :=
  ∀ p target, root <+: p → t p = some (.link target) → Downward target

/-- The directories from the root of the tree down to `root` are there. -/
def Rooted (root : List α) (t : Tree α δ) : Prop := ∀ p, p <+: root → p ≠ [] → t p = some .dir

/-- A change that keeps below `root`, leaves directories where they are and makes no link but
downward ones. -/
structure Stays (root : List α) (t t' : Tree α δ) : Prop where
  outside : ∀ p, ¬ root <+: p → t' p = t p
  dirs : ∀ p, t p = some .dir → t' p = some .dir
  links : ∀ p target, t' p = some (.link target) → t p = some (.link target) ∨ Downward target

section

variable {root here : List α} {t t' t'' : Tree α δ}

omit [DecidableEq α]

theorem Stays.refl (root : List α) (t : Tree α δ) : Stays root t t :=
  ⟨fun _ _ => rfl, fun _ h => h, fun _ _ h => .inl h⟩

theorem Stays.trans (h : Stays root t t') (h' : Stays root t' t'') : Stays root t t'' := by
  refine ⟨fun p hp => ?_, fun p hp => h'.dirs p (h.dirs p hp), fun p target hp => ?_⟩
  · rw [h'.outside p hp, h.outside p hp]
  · rcases h'.links p target hp with hold | hnew
    · exact h.links p target hold
    · exact .inr hnew

theorem Stays.confined (h : Stays root t t') (ht : Confined root t) : Confined root t' := by
  intro p target hp hlink
  rcases h.links p target hlink with hold | hnew
  · exact ht p target hp hold
  · exact hnew

theorem Stays.rooted (h : Stays root t t') (ht : Rooted root t) : Rooted root t' :=
  fun p hp hne => h.dirs p (ht p hp hne)

theorem Downward.append {a b : List (Seg α)} (ha : Downward a) (hb : Downward b) :
    Downward (a ++ b) := by
  intro seg hseg
  rcases List.mem_append.1 hseg with h | h
  · exact ha seg h
  · exact hb seg h

variable {segs : List (Seg α)} {follow : Bool} {place : List α}

theorem Downward.tail {seg : Seg α} (h : Downward (seg :: segs)) :
    Downward segs :=
  fun s hs => h s (.tail _ hs)

theorem downward_names (path : List α) : Downward (path.map .name) := by
  intro seg hseg
  obtain ⟨a, -, rfl⟩ := List.mem_map.1 hseg
  simp

theorem walkWith_below
    {onLink : List α → List (Seg α) → Except Error (List α)} (ht : Confined root t)
    (hlink : ∀ here segs place, root <+: here → Downward segs → onLink here segs = .ok place →
      root <+: place) (hsegs : Downward segs) (hhere : root <+: here)
    (h : walkWith t follow onLink here segs = .ok place) : root <+: place := by
  induction segs generalizing here with
  | nil =>
    simp only [walkWith, Except.ok.injEq] at h
    rwa [← h]
  | cons seg rest ih =>
    cases seg with
    | root => exact absurd rfl (hsegs .root (by simp)).1
    | parent => exact absurd rfl (hsegs .parent (by simp)).2
    | cur => exact ih hsegs.tail hhere h
    | name a =>
      have hnext : root <+: here ++ [a] := hhere.trans (List.prefix_append _ _)
      rw [walkWith] at h
      split at h
      · split at h
        · rwa [← Except.ok.inj h]
        · simp at h
      · exact ih hsegs.tail hnext h
      · split at h
        · rwa [← Except.ok.inj h]
        · simp at h
      · rename_i target hat
        split at h
        · rwa [← Except.ok.inj h]
        · exact hlink here _ place hhere ((ht _ target hnext hat).append hsegs.tail) h

/-- A path that leads down from below `root` stays there. -/
theorem walk_below {limit : ℕ} (ht : Confined root t) (hsegs : Downward segs)
    (hhere : root <+: here) (h : walk t follow limit here segs = .ok place) : root <+: place := by
  induction limit generalizing here segs place with
  | zero =>
    refine walkWith_below ht (fun _ _ _ _ _ hok => ?_) hsegs hhere h
    simp at hok
  | succ limit ih =>
    exact walkWith_below ht (fun here segs place hhere hsegs hok => ih hsegs hhere hok) hsegs
      hhere h

/-- The way down to `root` itself passes directories only. -/
theorem walk_names_dirs {limit : ℕ} {names : List α} {rest : List (Seg α)}
    (h : ∀ p, p <+: names → p ≠ [] → t (here ++ p) = some .dir) :
    walk t follow limit here (names.map .name ++ rest) =
      walk t follow limit (here ++ names) rest := by
  induction names generalizing here with
  | nil => simp
  | cons a names ih =>
    have hdir : t (here ++ [a]) = some .dir := h [a] (by simp) (by simp)
    have hbelow : ∀ p, p <+: names → p ≠ [] → t (here ++ [a] ++ p) = some .dir := by
      intro p hp hne
      have hlong := h (a :: p) (by simpa using hp) (by simp)
      simpa using hlong
    have hrest := ih hbelow
    have hstep : walk t follow limit here (Seg.name a :: (names.map .name ++ rest)) =
        walk t follow limit (here ++ [a]) (names.map .name ++ rest) := by
      cases limit <;> simp [walk, walkWith, hdir]
    rw [List.map_cons, List.cons_append, hstep, hrest]
    simp

theorem walk_root (hroot : Rooted root t) (follow : Bool) (limit : ℕ) (rest : List (Seg α)) :
    walk t follow limit [] (root.map .name ++ rest) = walk t follow limit root rest := by
  rw [walk_names_dirs (by simpa [Rooted] using hroot), List.nil_append]

/-- A path below `root` resolves to a place below `root`. -/
theorem resolve_below {limit : ℕ} (hroot : Rooted root t) (ht : Confined root t)
    {rel : List α} (h : resolve t follow limit (root ++ rel) = .ok place) :
    root <+: place := by
  rw [resolve, List.map_append, walk_root hroot] at h
  exact walk_below ht (downward_names rel) (List.prefix_refl root) h

end

/-! ## The calls stay below -/

section

variable {root : List α} {t t' : Tree α δ} {limit : ℕ} {rel : List α}

theorem Stays.set {place : List α} {node : Node α δ} (hplace : root <+: place)
    (hnew : t place ≠ some .dir) (hnode : ∀ target, node = .link target → Downward target) :
    Stays root t (set t place node) := by
  refine ⟨fun p hp => ?_, fun p hp => ?_, fun p target hp => ?_⟩
  · exact set_of_ne t node (fun heq => hp (heq ▸ hplace))
  · rw [set_of_ne t node, hp]
    rintro rfl
    exact hnew hp
  · by_cases heq : p = place
    · rw [heq, set_self, Option.some.injEq] at hp
      exact .inr (hnode target hp)
    · rw [set_of_ne t node heq] at hp
      exact .inl hp

theorem mkdir_stays (hroot : Rooted root t) (ht : Confined root t)
    (h : mkdir limit t (root ++ rel) = .ok t') : Stays root t t' := by
  rw [mkdir] at h
  cases hplace : resolve t false limit (root ++ rel) with
  | error e => simp [hplace, bind, Except.bind] at h
  | ok place =>
    simp only [hplace, bind, Except.bind] at h
    split at h
    · rename_i hnone
      cases h
      exact Stays.set (resolve_below hroot ht hplace) (by rw [hnone]; simp) (by simp)
    · simp at h

theorem mkdirOrDir_stays (hroot : Rooted root t) (ht : Confined root t)
    (h : mkdirOrDir limit t (root ++ rel) = .ok t') : Stays root t t' := by
  rw [mkdirOrDir] at h
  split at h
  · rename_i hok
    cases h
    exact mkdir_stays hroot ht hok
  · split at h
    · cases h
      exact Stays.refl root t
    · simp at h

omit [DecidableEq α] in
theorem resolve_root (hroot : Rooted root t) (follow : Bool) (limit : ℕ) :
    resolve t follow limit root = .ok root := by
  have hwalk := walk_root hroot follow limit []
  rw [List.append_nil] at hwalk
  rw [resolve, hwalk]
  cases limit <;> simp [walk, walkWith]

theorem mkdir_root (hroot : Rooted root t) (hne : root ≠ []) :
    mkdir limit t root = .error .alreadyExists := by
  simp [mkdir, resolve_root hroot, bind, Except.bind, hroot root (List.prefix_refl root) hne]

theorem createDirAllUp_stays (hroot : Rooted root t) (ht : Confined root t) (up : List α) :
    Stays root t (createDirAllUp limit t (up ++ root.reverse)).2 := by
  induction up with
  | nil =>
    rw [List.nil_append]
    cases hrev : root.reverse with
    | nil => exact Stays.refl root t
    | cons a above =>
      have hback : (a :: above).reverse = root := by rw [← hrev, List.reverse_reverse]
      have hne : root ≠ [] := by
        rintro rfl
        simp at hrev
      rw [createDirAllUp, hback, mkdir_root hroot hne]
      simp only
      split <;> exact Stays.refl root t
  | cons a up ih =>
    have hpath : (a :: up ++ root.reverse).reverse = root ++ (a :: up).reverse := by simp
    rw [List.cons_append, createDirAllUp, ← List.cons_append, hpath]
    split
    · rename_i hok
      exact mkdir_stays hroot ht hok
    · split
      · rename_i hmissing e t' habove
        rwa [habove] at ih
      · rename_i hmissing t' habove
        rw [habove] at ih
        split
        · rename_i hok
          exact ih.trans (mkdirOrDir_stays (ih.rooted hroot) (ih.confined ht) hok)
        · exact ih
    · split <;> exact Stays.refl root t

theorem createDirAll_stays (hroot : Rooted root t) (ht : Confined root t) (limit : ℕ)
    (rel : List α) : Stays root t (createDirAll limit t (root ++ rel)).2 := by
  rw [createDirAll, List.reverse_append]
  exact createDirAllUp_stays hroot ht rel.reverse

theorem create_stays (hroot : Rooted root t) (ht : Confined root t) {content : δ}
    (h : create limit t (root ++ rel) content = .ok t') : Stays root t t' := by
  rw [create] at h
  cases hplace : resolve t true limit (root ++ rel) with
  | error e => simp [hplace, bind, Except.bind] at h
  | ok place =>
    simp only [hplace, bind, Except.bind] at h
    split at h
    · simp at h
    · rename_i hdir
      split at h
      · simp at h
      · cases h
        exact Stays.set (resolve_below hroot ht hplace) hdir (by simp)

theorem update_stays (hroot : Rooted root t) (ht : Confined root t) {f : δ → δ}
    (h : update limit t (root ++ rel) f = .ok t') : Stays root t t' := by
  rw [update] at h
  cases hplace : resolve t true limit (root ++ rel) with
  | error e => simp [hplace, bind, Except.bind] at h
  | ok place =>
    simp only [hplace, bind, Except.bind] at h
    split at h
    · rename_i hfile
      cases h
      exact Stays.set (resolve_below hroot ht hplace) (by rw [hfile]; simp) (by simp)
    · cases h
      exact Stays.refl root t
    · simp at h

theorem symlink_stays (hroot : Rooted root t) (ht : Confined root t) {target : List (Seg α)}
    (htarget : Downward target) (h : symlink limit t (root ++ rel) target = .ok t') :
    Stays root t t' := by
  rw [symlink] at h
  cases hplace : resolve t false limit (root ++ rel) with
  | error e => simp [hplace, bind, Except.bind] at h
  | ok place =>
    simp only [hplace, bind, Except.bind] at h
    split at h
    · rename_i hnone
      cases h
      refine Stays.set (resolve_below hroot ht hplace) (by rw [hnone]; simp) ?_
      intro target' heq
      cases heq
      exact htarget
    · simp at h

/-! ## Making the directory itself -/

/-- Nothing but directories stands on the way down to `path`. -/
def Clear (path : List α) (t : Tree α δ) : Prop :=
  ∀ p, p <+: path → p ≠ [] → t p = none ∨ t p = some .dir

omit [DecidableEq α] in
/-- On a clear way a path is found, or something above it is missing. -/
theorem walk_clear {here names : List α} (follow : Bool) (limit : ℕ)
    (h : ∀ p, p <+: names → p ≠ [] → t (here ++ p) = none ∨ t (here ++ p) = some .dir) :
    (walk t follow limit here (names.map .name) = .ok (here ++ names) ∧
      ∀ p, p <+: names → p ≠ [] → p ≠ names → t (here ++ p) = some .dir) ∨
    walk t follow limit here (names.map .name) = .error .notFound := by
  induction names generalizing here with
  | nil =>
    refine .inl ⟨?_, ?_⟩
    · cases limit <;> simp [walk, walkWith]
    · intro p hp hne
      exact absurd (List.prefix_nil.1 hp) hne
  | cons a names ih =>
    rcases h [a] (by simp) (by simp) with hnone | hdir
    · cases names with
      | nil =>
        refine .inl ⟨?_, ?_⟩
        · cases limit <;> simp [walk, walkWith, hnone]
        · intro p hp hne hall
          cases p with
          | nil => exact absurd rfl hne
          | cons b p =>
            simp only [List.cons_prefix_cons, List.prefix_nil] at hp
            simp [hp.1, hp.2] at hall
      | cons b names =>
        refine .inr ?_
        cases limit <;> simp [walk, walkWith, hnone]
    · have hbelow : ∀ p, p <+: names → p ≠ [] →
          t (here ++ [a] ++ p) = none ∨ t (here ++ [a] ++ p) = some .dir := by
        intro p hp hne
        have hlong := h (a :: p) (by simpa using hp) (by simp)
        simpa using hlong
      have hstep : walk t follow limit here ((a :: names).map .name) =
          walk t follow limit (here ++ [a]) (names.map .name) := by
        cases limit <;> simp [walk, walkWith, hdir]
      rw [hstep]
      rcases ih hbelow with ⟨hok, hdirs⟩ | herr
      · refine .inl ⟨by simpa using hok, fun p hp hne hall => ?_⟩
        cases p with
        | nil => exact absurd rfl hne
        | cons b p =>
          rw [List.cons_prefix_cons] at hp
          rw [hp.1]
          by_cases hp' : p = []
          · rw [hp']
            exact hdir
          · have := hdirs p hp.2 hp' (fun heq => hall (by rw [hp.1, heq]))
            simpa using this
      · exact .inr herr

variable {path : List α}

omit [DecidableEq α] in
theorem resolve_clear (h : Clear path t) (follow : Bool) (limit : ℕ) :
    (resolve t follow limit path = .ok path ∧
      ∀ p, p <+: path → p ≠ [] → p ≠ path → t p = some .dir) ∨
    resolve t follow limit path = .error .notFound := by
  have hclear : ∀ p, p <+: path → p ≠ [] → t ([] ++ p) = none ∨ t ([] ++ p) = some .dir := h
  have hwalk := walk_clear follow limit hclear
  rwa [List.nil_append] at hwalk

omit [DecidableEq α] in
theorem resolve_child {a : α} (hroot : Rooted path t)
    (h : t (path ++ [a]) = none ∨ t (path ++ [a]) = some .dir) (follow : Bool) (limit : ℕ) :
    resolve t follow limit (path ++ [a]) = .ok (path ++ [a]) := by
  rw [resolve, List.map_append, walk_root hroot]
  rcases h with hnone | hdir
  · cases limit <;> simp [walk, walkWith, hnone]
  · cases limit <;> simp [walk, walkWith, hdir]

/-- What making `path` may change: missing directories on the way down to it. -/
structure Makes (path : List α) (t t' : Tree α δ) : Prop where
  rooted : Rooted path t'
  only : ∀ p, t' p = t p ∨ (p <+: path ∧ t p = none ∧ t' p = some .dir)

theorem Makes.set (hnone : t path = none)
    (hdirs : ∀ p, p <+: path → p ≠ [] → p ≠ path → t p = some .dir) :
    Makes path t (FileTree.set t path .dir) := by
  refine ⟨fun p hp hne => ?_, fun p => ?_⟩
  · by_cases heq : p = path
    · rw [heq, set_self]
    · rw [set_of_ne t _ heq]
      exact hdirs p hp hne heq
  · by_cases heq : p = path
    · subst heq
      exact .inr ⟨List.prefix_refl p, hnone, set_self t p .dir⟩
    · exact .inl (set_of_ne t _ heq)

/-- Making a directory where the ones above it are there. -/
theorem Makes.exists (h : Clear path t) (hne : path ≠ [])
    (hfound : resolve t false limit path = .ok path)
    (hdirs : ∀ p, p <+: path → p ≠ [] → p ≠ path → t p = some .dir) :
    ∃ t', Makes path t t' ∧ (mkdir limit t path = .ok t' ∨
      mkdir limit t path = .error .alreadyExists ∧ isDir limit t path = true ∧ t' = t) := by
  rcases h path (List.prefix_refl path) hne with hnone | hdir
  · refine ⟨FileTree.set t path .dir, Makes.set hnone hdirs, .inl ?_⟩
    simp [mkdir, hfound, bind, Except.bind, hnone]
  · have hroot : Rooted path t := by
      intro p hp hp'
      by_cases heq : p = path
      · rw [heq, hdir]
      · exact hdirs p hp hp' heq
    refine ⟨t, ⟨hroot, fun p => .inl rfl⟩, .inr ⟨mkdir_root hroot hne, ?_, rfl⟩⟩
    simp [isDir, resolve_root hroot, hdir]

theorem createDirAllUp_makes (limit : ℕ) (up : List α) (h : Clear up.reverse t) :
    ∃ t', createDirAllUp limit t up = (.ok (), t') ∧ Makes up.reverse t t' := by
  induction up with
  | nil =>
    refine ⟨t, rfl, fun p hp hne => ?_, fun p => .inl rfl⟩
    exact absurd (List.prefix_nil.1 hp) hne
  | cons a above ih =>
    have hne : (a :: above).reverse ≠ [] := by simp
    have habove : above.reverse <+: (a :: above).reverse := by simp
    rcases resolve_clear h false limit with ⟨hfound, hdirs⟩ | hmissing
    · obtain ⟨t', hmakes, hok | ⟨herr, hthere, rfl⟩⟩ := Makes.exists h hne hfound hdirs
      · exact ⟨t', by simp only [createDirAllUp, hok], hmakes⟩
      · exact ⟨t', by simp only [createDirAllUp, herr, hthere, if_true], hmakes⟩
    · have herr : mkdir limit t (a :: above).reverse = .error .notFound := by
        simp only [mkdir, hmissing, bind, Except.bind]
      obtain ⟨t', hrec, hmakes⟩ := ih fun p hp hp' => h p (hp.trans habove) hp'
      -- the directories above are there now, and the way down is still clear
      have hclear : Clear (a :: above).reverse t' := by
        intro p hp hp'
        rcases hmakes.only p with hsame | ⟨-, -, hdir⟩
        · rw [hsame]
          exact h p hp hp'
        · exact .inr hdir
      have hdirs : ∀ p, p <+: (a :: above).reverse → p ≠ [] → p ≠ (a :: above).reverse →
          t' p = some .dir := by
        intro p hp hp' hall
        rw [List.reverse_cons] at hp hall
        rcases List.prefix_concat_iff.1 hp with heq | hshort
        · exact absurd heq hall
        · exact hmakes.rooted p hshort hp'
      have hfound : resolve t' false limit (a :: above).reverse = .ok (a :: above).reverse := by
        have hlast := hclear _ (List.prefix_refl _) hne
        rw [List.reverse_cons] at hlast ⊢
        exact resolve_child hmakes.rooted hlast false limit
      obtain ⟨t'', hmakes', hlast⟩ := Makes.exists hclear hne hfound hdirs
      have hboth : Makes (a :: above).reverse t t'' := by
        refine ⟨hmakes'.rooted, fun p => ?_⟩
        rcases hmakes'.only p with hsame | ⟨hp, hnone, hdir⟩
        · rw [hsame]
          rcases hmakes.only p with hold | ⟨hp, hnone, hdir⟩
          · exact .inl hold
          · exact .inr ⟨hp.trans habove, hnone, hdir⟩
        · rcases hmakes.only p with hold | ⟨-, -, hdir'⟩
          · exact .inr ⟨hp, hold ▸ hnone, hdir⟩
          · rw [hdir'] at hnone
            cases hnone
      refine ⟨t'', ?_, hboth⟩
      rcases hlast with hok | ⟨herr', hthere, rfl⟩
      · simp only [createDirAllUp, herr, hrec, mkdirOrDir, hok]
      · simp only [createDirAllUp, herr, hrec, mkdirOrDir, herr', hthere, if_true]

/-- Making a directory on a clear way succeeds, and changes what was missing on it. -/
theorem createDirAll_makes (h : Clear path t) (limit : ℕ) :
    ∃ t', createDirAll limit t path = (.ok (), t') ∧ Makes path t t' := by
  rw [createDirAll]
  have hmakes := createDirAllUp_makes limit path.reverse (by rwa [List.reverse_reverse])
  rwa [List.reverse_reverse] at hmakes

end

/-! ## Taking a file away -/

def erase (t : Tree α δ) (place : List α) : Tree α δ := fun p => if p = place then none else t p

theorem erase_self (place : List α) : erase t place place = none := by
  simp [erase]

theorem erase_of_ne (h : p ≠ place) : erase t place p = t p := by
  simp [erase, h]

section

variable {t : Tree α δ} {here place : List α} {segs : List (Seg α)}

variable {gone : List α} {content : δ} {follow : Bool}

theorem walkWith_erase (hgone : t gone = some (.file content))
    {onLink onLink' : List α → List (Seg α) → Except Error (List α)}
    (hlink : ∀ here segs place, onLink here segs = .ok place → onLink' here segs = .ok place)
    (h : walkWith t follow onLink here segs = .ok place) :
    walkWith (erase t gone) follow onLink' here segs = .ok place := by
  induction segs generalizing here with
  | nil => exact h
  | cons seg rest ih =>
    cases seg with
    | root => exact ih h
    | cur => exact ih h
    | parent => exact ih h
    | name a =>
      rw [walkWith] at h ⊢
      by_cases heq : here ++ [a] = gone
      · -- a file is passed by no path, and its own leads to its place with or without it
        rw [heq, hgone] at h
        rw [heq, erase_self]
        simp only at h ⊢
        split at h
        · rename_i hlast
          rw [if_pos hlast]
          exact h
        · cases h
      · rw [erase_of_ne t heq]
        split at h
        · exact h
        · exact ih h
        · exact h
        · split at h
          · rename_i hlast
            rw [if_pos hlast]
            exact h
          · rename_i hlast
            rw [if_neg hlast]
            exact hlink _ _ _ h

/-- Where a path leads is the same once a file is gone. -/
theorem walk_erase (hgone : t gone = some (.file content)) {limit : ℕ}
    (h : walk t follow limit here segs = .ok place) :
    walk (erase t gone) follow limit here segs = .ok place := by
  induction limit generalizing here segs place with
  | zero => exact walkWith_erase hgone (fun _ _ _ hok => by cases hok) h
  | succ limit ih => exact walkWith_erase hgone (fun here segs place hok => ih hok) h

end

/-! ## The last name of a path -/

section

variable {t : Tree α δ} {here place : List α} {segs : List (Seg α)}

omit [DecidableEq α]

variable {onLink : List α → List (Seg α) → Except Error (List α)} {a : α}

variable {onLink' : List α → List (Seg α) → Except Error (List α)}

theorem walkWith_follow
    (hlink : ∀ here segs place, onLink here segs = .ok place →
      (∀ target, t place ≠ some (.link target)) → onLink' here segs = .ok place)
    (h : walkWith t false onLink here segs = .ok place)
    (hplace : ∀ target, t place ≠ some (.link target)) :
    walkWith t true onLink' here segs = .ok place := by
  induction segs generalizing here with
  | nil => exact h
  | cons seg rest ih =>
    cases seg with
    | root => exact ih h
    | cur => exact ih h
    | parent => exact ih h
    | name a =>
      rw [walkWith] at h ⊢
      split at h
      · exact h
      · exact ih h
      · exact h
      · rename_i target hat
        split at h
        · rw [← Except.ok.inj h] at hplace
          exact absurd hat (hplace target)
        · rw [if_neg (by simp)]
          exact hlink _ _ _ h hplace

/-- A path that does not end in a link leads to the same place when links are followed. -/
theorem walk_follow {limit : ℕ} (h : walk t false limit here segs = .ok place)
    (hplace : ∀ target, t place ≠ some (.link target)) :
    walk t true limit here segs = .ok place := by
  induction limit generalizing here segs place with
  | zero => exact walkWith_follow (fun _ _ _ hok => by cases hok) h hplace
  | succ limit ih => exact walkWith_follow (fun here segs place hok => ih hok) h hplace

/-- A place that more can be looked up in. -/
def IsDir (t : Tree α δ) (place : List α) : Prop := place = [] ∨ t place = some .dir

instance [DecidableEq δ] (t : Tree α δ) (place : List α) :
    Decidable (IsDir t place) :=
  inferInstanceAs (Decidable (place = [] ∨ t place = some .dir))

theorem walkWith_snoc
    (hlink : ∀ here segs place, onLink here segs = .ok place → IsDir t place →
      onLink' here (segs ++ [Seg.name a]) = .ok (place ++ [a]))
    (h : walkWith t true onLink here segs = .ok place) (hplace : IsDir t place) :
    walkWith t false onLink' here (segs ++ [Seg.name a]) = .ok (place ++ [a]) := by
  induction segs generalizing here with
  | nil =>
    rw [← Except.ok.inj h, List.nil_append, walkWith]
    split
    · rfl
    · rfl
    · rfl
    · rfl
  | cons seg rest ih =>
    cases seg with
    | root => exact ih h
    | cur => exact ih h
    | parent => exact ih h
    | name b =>
      have hempty : (rest ++ [Seg.name a]).isEmpty = false := by simp
      rw [List.cons_append, walkWith, hempty]
      rw [walkWith] at h
      split at h
      · -- nothing there: it would have to be the directory
        rename_i hnone
        split at h
        · rw [← Except.ok.inj h] at hplace
          rcases hplace with hnil | hdir
          · simp at hnil
          · rw [hnone] at hdir
            cases hdir
        · cases h
      · exact ih h
      · rename_i hfile
        split at h
        · rw [← Except.ok.inj h] at hplace
          rcases hplace with hnil | hdir
          · simp at hnil
          · rw [hfile] at hdir
            cases hdir
        · cases h
      · rename_i target hat
        have hnext := hlink here (target ++ rest) place (by simpa using h) hplace
        rwa [List.append_assoc] at hnext

/-- One name more below a directory. -/
theorem walk_snoc {limit : ℕ} (h : walk t true limit here segs = .ok place)
    (hplace : IsDir t place) :
    walk t false limit here (segs ++ [Seg.name a]) = .ok (place ++ [a]) := by
  induction limit generalizing here segs place with
  | zero => exact walkWith_snoc (fun _ _ _ hok => by cases hok) h hplace
  | succ limit ih => exact walkWith_snoc (fun here segs place hok => ih hok) h hplace

theorem walkWith_siblings
    (hlink : ∀ here segs place, onLink here (segs ++ [Seg.name a]) = .ok place →
      ∃ dir, place = dir ++ [a] ∧ ∀ b, onLink here (segs ++ [Seg.name b]) = .ok (dir ++ [b]))
    (h : walkWith t false onLink here (segs ++ [Seg.name a]) = .ok place) :
    ∃ dir, place = dir ++ [a] ∧
      ∀ b, walkWith t false onLink here (segs ++ [Seg.name b]) = .ok (dir ++ [b]) := by
  have hlast : ∀ (here : List α) (b : α),
      walkWith t false onLink here [Seg.name b] = .ok (here ++ [b]) := by
    intro here b
    rw [walkWith]
    split
    · rfl
    · rfl
    · rfl
    · rfl
  induction segs generalizing here with
  | nil =>
    rw [List.nil_append, hlast] at h
    exact ⟨here, (Except.ok.inj h).symm, fun b => hlast here b⟩
  | cons seg rest ih =>
    cases seg with
    | root => exact ih h
    | cur => exact ih h
    | parent => exact ih h
    | name c =>
      have hempty : ∀ b, (rest ++ [Seg.name b]).isEmpty = false := by simp
      simp only [List.cons_append, walkWith, hempty, Bool.false_and, Bool.false_eq_true,
        if_false] at h ⊢
      split at h
      · cases h
      · exact ih h
      · cases h
      · rename_i target hat
        have hnext := hlink here (target ++ rest) place (by rwa [List.append_assoc])
        simpa only [List.append_assoc] using hnext

/-- Paths that differ in their last name lead to places that do, in one directory. -/
theorem walk_siblings {limit : ℕ} (h : walk t false limit here (segs ++ [Seg.name a]) = .ok place) :
    ∃ dir, place = dir ++ [a] ∧
      ∀ b, walk t false limit here (segs ++ [Seg.name b]) = .ok (dir ++ [b]) := by
  induction limit generalizing here segs place with
  | zero => exact walkWith_siblings (fun _ _ _ hok => by cases hok) h
  | succ limit ih => exact walkWith_siblings (fun here segs place hok => ih hok) h

end

end FileTree
