import Hedos.Discovery.Disk

/-!
# The links a path passes through

`passed_links` (`kernel/src/discovery/duplicates.rs`) against the resolution of a path one component
at a time, as a system does it that follows up to `maxLinks` symlinks.

* `Passes`: the resolution, with the links it has passed so far;
* `walk_passes`: the walk lists them in that order;
* `lists_iff`: the list is that of the resolution unless this ends with the last link allowed.
-/

namespace Hedos.Discovery.Disk

variable (disk : Disk)

/-! ## Resolving a path -/

/-- A symlink with its directory resolved, as its directory lists it. -/
def spelled (link : Path) : Path := ((disk.entryOf link).map disk.spelledOnDisk).getD link

/-- Where a path ends, resolved in full. -/
def ended (place : Path) : Path :=
  (disk.canonicalize place).getD ((disk.entryOf place).getD place)

/-- From a resolved directory and the components to come, the resolution passes these links in
order; a part that does not exist is taken as written. -/
inductive Passes : Path → List Component → List Path → Path → List Component → Prop
  | refl (here : Path) (pending : List Component) : Passes here pending [] here pending
  | up {here there : Path} {pending left : List Component} {links : List Path}
      (h : Passes (pop here) pending links there left) :
      Passes here (.parentDir :: pending) links there left
  | down {here there : Path} {component : Component} {pending left : List Component}
      {links : List Path} (hname : component ≠ .parentDir)
      (hplain : disk.isSymlink (here ++ [component]) = false)
      (h : Passes (here ++ [component]) pending links there left) :
      Passes here (component :: pending) links there left
  | follow {here there target : Path} {component : Component} {pending left : List Component}
      {links : List Path} (hname : component ≠ .parentDir)
      (hlink : disk.isSymlink (here ++ [component]) = true)
      (htarget : disk.readLink (here ++ [component]) = some target)
      (h : Passes (plan target here pending).1 (plan target here pending).2 links there left) :
      Passes here (component :: pending) ((here ++ [component]) :: links) there left

/-- The resolution stands before a link that cannot be read. -/
def Unreadable (here : Path) (pending : List Component) (link : Path) : Prop :=
  ∃ component rest, pending = component :: rest ∧ component ≠ .parentDir ∧
    link = here ++ [component] ∧ disk.isSymlink link = true ∧ disk.readLink link = none

/-! ## The walk -/

variable {disk} {left : ℕ} {here : Path} {component : Component} {pending : List Component}

theorem walk_up :
    disk.walk left here (.parentDir :: pending) = disk.walk left (pop here) pending := by
  rw [walk]

theorem walk_down (hname : component ≠ .parentDir)
    (hplain : disk.isSymlink (here ++ [component]) = false) :
    disk.walk left here (component :: pending) = disk.walk left (here ++ [component]) pending := by
  rw [walk]
  · simp only [hplain, Bool.false_eq_true, if_false]
  · exact hname

variable {target path : Path}

theorem walk_last (hname : component ≠ .parentDir)
    (hlink : disk.isSymlink (here ++ [component]) = true)
    (htarget : disk.readLink (here ++ [component]) = some target) :
    disk.walk 1 here (component :: pending) = [disk.spelled (here ++ [component])] := by
  rw [walk]
  · simp only [hlink, if_true, htarget]
    rfl
  · exact hname

theorem walk_follow (hname : component ≠ .parentDir)
    (hlink : disk.isSymlink (here ++ [component]) = true)
    (htarget : disk.readLink (here ++ [component]) = some target) (hleft : 0 < left) :
    disk.walk (left + 1) here (component :: pending) =
      disk.spelled (here ++ [component]) ::
        disk.walk left (plan target here pending).1 (plan target here pending).2 := by
  rw [walk]
  · simp only [hlink, if_true, htarget, if_neg hleft.ne']
    rfl
  · exact hname

theorem walk_unreadable {link : Path} (h : disk.Unreadable here pending link) :
    disk.walk left here pending = [disk.spelled link] := by
  obtain ⟨component, rest, rfl, hname, rfl, hlink, hread⟩ := h
  rw [walk]
  · simp only [hlink, if_true, hread]
    rfl
  · exact hname

theorem walk_end : disk.walk left here [] = [disk.ended here] := by
  rw [walk]
  rfl

section Links

variable {there : Path} {rest : List Component} {links : List Path}

/-- The walk lists the links the resolution passes, as long as more may follow. -/
theorem walk_passes (h : disk.Passes here pending links there rest) (hroom : links.length < left) :
    disk.walk left here pending =
      links.map disk.spelled ++ disk.walk (left - links.length) there rest := by
  induction h generalizing left with
  | refl here pending => rfl
  | up _ ih => rw [walk_up, ih hroom]
  | down hname hplain _ ih => rw [walk_down hname hplain, ih hroom]
  | follow hname hlink htarget _ ih =>
    rename_i links _
    rw [List.length_cons] at hroom
    obtain ⟨less, rfl⟩ : ∃ less, left = less + 1 := ⟨left - 1, by omega⟩
    rw [walk_follow hname hlink htarget (by omega), ih (by omega), List.map_cons,
      List.cons_append, List.length_cons, Nat.add_sub_add_right]

/-- Once no more may follow, they are all it lists. -/
theorem walk_passes_all (h : disk.Passes here pending links there rest)
    (hlast : links.length = left) (hleft : 0 < left) :
    disk.walk left here pending = links.map disk.spelled := by
  induction h generalizing left with
  | refl here pending => exact absurd hlast hleft.ne
  | up _ ih => rw [walk_up, ih hlast hleft]
  | down hname hplain _ ih => rw [walk_down hname hplain, ih hlast hleft]
  | follow hname hlink htarget _ ih =>
    rename_i links _
    rw [List.length_cons] at hlast
    subst hlast
    rcases Nat.eq_zero_or_pos links.length with hnone | hmore
    · rw [hnone, Nat.zero_add, walk_last hname hlink htarget, List.length_eq_zero_iff.1 hnone]
      rfl
    · rw [walk_follow hname hlink htarget hmore, ih rfl hmore, List.map_cons]

end Links

/-- What a walk lists: links the resolution passes, and then where it ends, the link it cannot
read, or nothing where no more may follow. -/
theorem walk_listed (hleft : 0 < left) (here : Path) (pending : List Component) :
    ∃ links there rest last, disk.Passes here pending links there rest ∧
      disk.walk left here pending = links.map disk.spelled ++ last ∧
      (links.length = left ∧ last = [] ∨
        links.length < left ∧ (rest = [] ∧ last = [disk.ended there] ∨
          ∃ link, disk.Unreadable there rest link ∧ last = [disk.spelled link])) := by
  induction left generalizing here pending with
  | zero => exact absurd hleft (Nat.lt_irrefl 0)
  | succ left ih =>
    -- up to the next link
    induction pending generalizing here with
    | nil => exact ⟨[], here, [], _, .refl _ _, walk_end, Or.inr ⟨hleft, Or.inl ⟨rfl, rfl⟩⟩⟩
    | cons component pending ihPending =>
      by_cases hname : component = .parentDir
      · subst hname
        obtain ⟨links, there, rest, last, hpasses, hwalk, hlast⟩ := ihPending (pop here)
        exact ⟨links, there, rest, last, .up hpasses, walk_up.trans hwalk, hlast⟩
      · cases hlink : disk.isSymlink (here ++ [component]) with
        | false =>
          obtain ⟨links, there, rest, last, hpasses, hwalk, hlast⟩ :=
            ihPending (here ++ [component])
          exact ⟨links, there, rest, last, .down hname hlink hpasses,
            (walk_down hname hlink).trans hwalk, hlast⟩
        | true =>
          cases htarget : disk.readLink (here ++ [component]) with
          | none =>
            have hstuck : disk.Unreadable here (component :: pending) (here ++ [component]) :=
              ⟨component, pending, rfl, hname, rfl, hlink, htarget⟩
            exact ⟨[], here, _, _, .refl _ _, walk_unreadable hstuck,
              Or.inr ⟨hleft, Or.inr ⟨_, hstuck, rfl⟩⟩⟩
          | some target =>
            rcases Nat.eq_zero_or_pos left with hnone | hmore
            · subst hnone
              refine ⟨[here ++ [component]], _, _, [], .follow hname hlink htarget (.refl _ _),
                ?_, Or.inl ⟨rfl, rfl⟩⟩
              rw [walk_last hname hlink htarget]
              rfl
            · obtain ⟨links, there, rest, last, hpasses, hwalk, hlast⟩ :=
                ih hmore (plan target here pending).1 (plan target here pending).2
              refine ⟨(here ++ [component]) :: links, there, rest, last,
                .follow hname hlink htarget hpasses, ?_, ?_⟩
              · rw [walk_follow hname hlink htarget hmore, hwalk]
                rfl
              · simpa using hlast

/-! ## The list of a path -/

/-- What is listed of a resolution that follows up to `maxLinks` symlinks: every link it passes, in
order; then where it ends, if it does; and nothing else, but for a link that cannot be read. -/
structure ListsFrom (disk : Disk) (here : Path) (pending : List Component) (listed : List Path) :
    Prop where
  passed : ∀ links there rest, disk.Passes here pending links there rest →
    links.length ≤ maxLinks → links.map disk.spelled <+: listed
  target : ∀ links place, disk.Passes here pending links place [] → links.length ≤ maxLinks →
    listed = links.map disk.spelled ++ [disk.ended place]
  only : ∃ links there rest last, disk.Passes here pending links there rest ∧
    links.length ≤ maxLinks ∧ listed = links.map disk.spelled ++ last ∧
    (last = [] ∧ links.length = maxLinks ∨ rest = [] ∧ last = [disk.ended there] ∨
      ∃ link, disk.Unreadable there rest link ∧ last = [disk.spelled link])

def Lists (disk : Disk) (path : Path) : Prop :=
  ∀ start, disk.absolute path = some start →
    disk.ListsFrom (plan start [] []).1 (plan start [] []).2 (disk.passedLinks path)

/-- The path ends, and the last link on its way is the last that may be followed. -/
def EndsAtLimit (disk : Disk) (path : Path) : Prop :=
  ∃ start links place, disk.absolute path = some start ∧
    disk.Passes (plan start [] []).1 (plan start [] []).2 links place [] ∧
    links.length = maxLinks

theorem passedLinks_eq {start : Path} (h : disk.absolute path = some start) :
    disk.passedLinks path = disk.walk maxLinks (plan start [] []).1 (plan start [] []).2 := by
  rw [passedLinks, h]

/-- The path that ends at the limit has no target in its list. -/
theorem not_lists_of_endsAtLimit (h : disk.EndsAtLimit path) : ¬ disk.Lists path := by
  obtain ⟨start, links, place, hstart, hpasses, hlimit⟩ := h
  intro hlists
  have htarget := (hlists start hstart).target links place hpasses hlimit.le
  rw [passedLinks_eq hstart, walk_passes_all hpasses hlimit (by decide)] at htarget
  exact absurd (congrArg List.length htarget) (by simp)

/-- For every disk and every path the list is that of its resolution, unless this ends with exactly
as many links as may be followed. -/
theorem lists_iff (disk : Disk) (path : Path) : disk.Lists path ↔ ¬ disk.EndsAtLimit path := by
  refine ⟨fun hlists hlimit => not_lists_of_endsAtLimit hlimit hlists, fun hends start hstart => ?_⟩
  rw [passedLinks_eq hstart]
  refine ⟨fun links there rest hpasses hlength => ?_, fun links place hpasses hlength => ?_, ?_⟩
  · rcases hlength.lt_or_eq with hroom | hlimit
    · rw [walk_passes hpasses hroom]
      exact List.prefix_append _ _
    · exact (walk_passes_all hpasses hlimit (by decide)).symm ▸ List.prefix_rfl
  · have hroom : links.length < maxLinks :=
      lt_of_le_of_ne hlength fun hlimit => hends ⟨start, links, place, hstart, hpasses, hlimit⟩
    rw [walk_passes hpasses hroom, walk_end]
  · obtain ⟨links, there, rest, last, hpasses, hwalk, hlast⟩ :=
      @walk_listed disk maxLinks (by decide) (plan start [] []).1 (plan start [] []).2
    refine ⟨links, there, rest, last, hpasses, ?_, hwalk, ?_⟩
    · rcases hlast with ⟨hlimit, _⟩ | ⟨hroom, _⟩ <;> omega
    · rcases hlast with ⟨hlimit, hnone⟩ | ⟨_, hlast⟩
      · exact Or.inl ⟨hnone, hlimit⟩
      · exact Or.inr hlast

/-! ## A chain of links -/

/-- A name of this length in the root. -/
def named (length : ℕ) : Path := [.rootDir, .normal (String.ofList (List.replicate length 'a'))]

/-- Forty links, each to the next shorter name, and the shortest to the root. -/
def chainTarget : Path → Option Path
  | [.rootDir, .normal name] =>
    if name.length = 0 ∨ maxLinks < name.length then none
    else if name.length = 1 then some [.rootDir]
    else some (named (name.length - 1))
  | _ => none

def chain : Disk where
  currentDir := [.rootDir]
  metadata _ := none
  symlinkMetadata path :=
    (chainTarget path).map fun _ => { identity := (0, 0), isSymlink := true }
  readLink := chainTarget
  readDir _ := none
  canonicalize path := some path
  openRegular _ := none
  sha256 bytes := bytes

theorem chainTarget_named {length : ℕ} (hpos : 0 < length) (h : length ≤ maxLinks) :
    chainTarget (named length) =
      if length = 1 then some [.rootDir] else some (named (length - 1)) := by
  have hlength : (String.ofList (List.replicate length 'a')).length = length := by
    rw [String.length_ofList, List.length_replicate]
  rw [named, chainTarget, hlength, if_neg (by omega)]

theorem chain_isSymlink (h : chainTarget path = some target) : chain.isSymlink path = true := by
  have hmetadata : chain.symlinkMetadata path =
      (chainTarget path).map fun _ => { identity := (0, 0), isSymlink := true } := rfl
  rw [isSymlink, hmetadata, h]
  rfl

theorem chain_passes {length : ℕ} (h : length + 1 ≤ maxLinks) :
    ∃ links, chain.Passes (plan (named (length + 1)) [] []).1 (plan (named (length + 1)) [] []).2
      links [.rootDir] [] ∧ links.length = length + 1 := by
  have htarget := chainTarget_named (Nat.succ_pos length) h
  induction length with
  | zero =>
    refine ⟨_, .follow (by simp) (chain_isSymlink htarget) htarget (.refl _ _), rfl⟩
  | succ length ih =>
    obtain ⟨links, hpasses, hlength⟩ :=
      ih (by omega) (chainTarget_named (Nat.succ_pos length) (by omega))
    refine ⟨_, .follow (by simp) (chain_isSymlink htarget) htarget hpasses, ?_⟩
    rw [List.length_cons, hlength]

/-- A path through a chain of forty links. -/
theorem chain_unlisted : ¬ chain.Lists (named 40) := by
  obtain ⟨links, hpasses, hlength⟩ := chain_passes (show 39 + 1 ≤ maxLinks by decide)
  exact not_lists_of_endsAtLimit ⟨named 40, links, [.rootDir], rfl, hpasses, hlength⟩

end Hedos.Discovery.Disk
