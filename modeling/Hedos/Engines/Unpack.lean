import Hedos.Discovery.Disk
import Hedos.Lib.FileTree

/-!
# Unpacking an engine's archive

`unpack` and `within` of `runtime/src/engines/fetch.rs`: a tar archive is written below a
directory, its own top-level directory dropped.

* `Entry` is what the tar reader gives of an entry, `unpack` the code's loop over the tree of
  `FileTree`;
* whatever is in the archives, what is written stays below the target
  (`unpackAll_keeps_below`), since every link made is the name of a sibling;
* an entry that has to be refused is, unless its path names the top-level directory alone:
  such an entry is passed over before its kind is looked at (`unpack_refuses_iff`).
-/

namespace Hedos.Engines

open Hedos.Discovery (Component Path)
open FileTree

/-! ## Archives -/

inductive EntryKind
  | directory
  | file
  | symlink
  | other
deriving DecidableEq

/-- What the tar reader gives of an entry; each answer may be an error with its text. Reading
the data ends with the error `readError` if there is one. -/
structure Entry where
  path : Except String String
  kind : EntryKind
  linkName : Except String (Option String)
  mode : Option ℕ
  data : Bytes
  readError : Option String

/-- The entries in order, each of which may be unreadable, or an archive that cannot be
listed. -/
abbrev Archive := Except String (List (Except String Entry))

/-- A file as it is written. -/
structure Content where
  data : Bytes
  mode : ℕ
deriving DecidableEq

abbrev Files := Tree String Content

inductive EngineInstallError
  | archive (archive entry reason : String)
  | io (path : List String) (error : FileTree.Error)
deriving DecidableEq

def endsWithSlash (text : String) : Bool := text.toList.getLast? == some '/'

/-- The names of a path that neither starts at the root nor climbs. -/
def normalParts : Path → Option (List String)
  | [] => some []
  | .normal name :: rest => (normalParts rest).map (name :: ·)
  | .curDir :: rest => normalParts rest
  | _ :: _ => none

/-- An entry's path with its top-level directory dropped: `none` when it is absolute or
climbs with `..`, `some none` for the top-level directory itself. -/
def within (inside : String) : Option (Option (List String)) :=
  match normalParts (Path.ofString inside) with
  | none => none
  | some (_ :: b :: rest) => some (some (b :: rest))
  | some [only] => if endsWithSlash inside then some none else some (some [only])
  | some [] => some none

/-- The link is a single name, and so a sibling's. -/
def beside (link : String) : Bool :=
  match Path.ofString link with
  | [.normal _] => true
  | _ => false

def toSeg : Component → Seg String
  | .rootDir => .root
  | .curDir => .cur
  | .parentDir => .parent
  | .normal name => .name name

/-- What a link with this text stands for; behind a trailing slash only a directory does. -/
def linkSegs (link : String) : List (Seg String) :=
  (Path.ofString link).map toSeg ++ if endsWithSlash link then [Seg.cur] else []

/-! ## Unpacking -/

variable (limit : ℕ) (name : String) (target : List String)

/-- A file is made and filled as far as the archive can be read, then given its mode. -/
def unpackFile (entry : Entry) (shown : String) (destination : List String) (t : Files) :
    Except EngineInstallError Unit × Files :=
  match createDirAll limit t destination.dropLast with
  | (.error e, t) => (.error (.io destination.dropLast e), t)
  | (.ok (), t) =>
    let mode := (entry.mode.getD 0o644) &&& 0o755
    match create limit t destination { data := entry.data, mode := 0o644 } with
    | .error e => (.error (.io destination e), t)
    | .ok t =>
      match entry.readError with
      | some reason => (.error (.archive name shown reason), t)
      | none =>
        match update limit t destination fun content => { content with mode := mode } with
        | .error e => (.error (.io destination e), t)
        | .ok t => (.ok (), t)

/-- A link is made if it names a sibling. -/
def unpackLink (entry : Entry) (shown : String) (destination : List String) (t : Files) :
    Except EngineInstallError Unit × Files :=
  match entry.linkName with
  | .error reason => (.error (.archive name shown reason), t)
  | .ok none => (.error (.archive name shown "the link names nothing"), t)
  | .ok (some link) =>
    if !beside link then
      (.error (.archive name shown "the link leads out of its directory"), t)
    else
      match createDirAll limit t destination.dropLast with
      | (.error e, t) => (.error (.io destination.dropLast e), t)
      | (.ok (), t) =>
        match symlink limit t destination (linkSegs link) with
        | .error e => (.error (.io destination e), t)
        | .ok t => (.ok (), t)

/-- The body of the loop of `unpack`. -/
def unpackEntry (entry : Entry) (t : Files) : Except EngineInstallError Unit × Files :=
  match entry.path with
  | .error reason => (.error (.archive name "an entry" reason), t)
  | .ok inside =>
    match within inside with
    | none => (.error (.archive name inside "its path leaves the archive"), t)
    | some none => (.ok (), t)
    | some (some relative) =>
      let destination := target ++ relative
      match entry.kind with
      | .directory =>
        match createDirAll limit t destination with
        | (.error e, t) => (.error (.io destination e), t)
        | (.ok (), t) => (.ok (), t)
      | .file => unpackFile limit name entry inside destination t
      | .symlink => unpackLink limit name entry inside destination t
      | .other =>
        (.error (.archive name inside "it is not a file, a directory or a link"), t)

def unpackEntries : List (Except String Entry) → Files → Except EngineInstallError Unit × Files
  | [], t => (.ok (), t)
  | .error reason :: _, t => (.error (.archive name "an entry" reason), t)
  | .ok entry :: rest, t =>
    match unpackEntry limit name target entry t with
    | (.error e, t) => (.error e, t)
    | (.ok (), t) => unpackEntries rest t

/-- Unpacks an archive into `target`. -/
def unpack (archive : Archive) (t : Files) : Except EngineInstallError Unit × Files :=
  match createDirAll limit t target with
  | (.error e, t) => (.error (.io target e), t)
  | (.ok (), t) =>
    match archive with
    | .error reason => (.error (.archive name "the archive" reason), t)
    | .ok entries => unpackEntries limit name target entries t

/-- The files after the named archives were unpacked into `target` one after another, whatever
came of each. -/
def unpackAll (archives : List (String × Archive)) (t : Files) : Files :=
  archives.foldl (fun t archive => (unpack limit archive.1 target archive.2 t).2) t

/-! ## What is written stays below the target -/

theorem linkSegs_downward {link : String} (h : beside link = true) : Downward (linkSegs link) := by
  unfold beside at h
  split at h
  · rename_i only hparts
    rw [linkSegs, hparts]
    intro seg hseg
    rcases List.mem_append.1 hseg with hname | hcur
    · rw [List.map_singleton, List.mem_singleton] at hname
      simp [hname, toSeg]
    · split at hcur
      · simp [List.mem_singleton.1 hcur]
      · simp at hcur
  · simp at h

theorem within_ne_nil {inside : String} {relative : List String}
    (h : within inside = some (some relative)) : relative ≠ [] := by
  unfold within at h
  split at h
  · simp at h
  · simp only [Option.some.injEq] at h
    simp [← h]
  · split at h
    · simp at h
    · simp only [Option.some.injEq] at h
      simp [← h]
  · simp at h

section

variable {target} {t : Files}

theorem unpackFile_stays (hroot : Rooted target t) (ht : Confined target t) (entry : Entry)
    (shown : String) {relative : List String} (hne : relative ≠ []) :
    Stays target t (unpackFile limit name entry shown (target ++ relative) t).2 := by
  have hparent : (target ++ relative).dropLast = target ++ relative.dropLast :=
    List.dropLast_append_of_ne_nil hne
  have hdirs := createDirAll_stays hroot ht limit relative.dropLast
  rw [unpackFile, hparent]
  cases hmade : createDirAll limit t (target ++ relative.dropLast) with
  | mk result t₁ =>
    rw [hmade] at hdirs
    have hroot₁ := hdirs.rooted hroot
    have ht₁ := hdirs.confined ht
    cases result with
    | error e => exact hdirs
    | ok u =>
      simp only
      split
      · exact hdirs
      · rename_i t₂ hcreate
        have hfile := create_stays hroot₁ ht₁ hcreate
        split
        · exact hdirs.trans hfile
        · split
          · exact hdirs.trans hfile
          · rename_i t₃ hmode
            exact (hdirs.trans hfile).trans
              (update_stays (hfile.rooted hroot₁) (hfile.confined ht₁) hmode)

theorem unpackLink_stays (hroot : Rooted target t) (ht : Confined target t) (entry : Entry)
    (shown : String) {relative : List String} (hne : relative ≠ []) :
    Stays target t (unpackLink limit name entry shown (target ++ relative) t).2 := by
  have hparent : (target ++ relative).dropLast = target ++ relative.dropLast :=
    List.dropLast_append_of_ne_nil hne
  have hdirs := createDirAll_stays hroot ht limit relative.dropLast
  rw [unpackLink, hparent]
  split
  · exact Stays.refl target t
  · exact Stays.refl target t
  · rename_i link hlink
    split
    · exact Stays.refl target t
    · rename_i hbeside
      cases hmade : createDirAll limit t (target ++ relative.dropLast) with
      | mk result t₁ =>
        rw [hmade] at hdirs
        cases result with
        | error e => exact hdirs
        | ok u =>
          simp only
          split
          · exact hdirs
          · rename_i t₂ hsymlink
            exact hdirs.trans (symlink_stays (hdirs.rooted hroot) (hdirs.confined ht)
              (linkSegs_downward (by simpa using hbeside)) hsymlink)

theorem unpackEntry_stays (hroot : Rooted target t) (ht : Confined target t) (entry : Entry) :
    Stays target t (unpackEntry limit name target entry t).2 := by
  rw [unpackEntry]
  split
  · exact Stays.refl target t
  · split
    · exact Stays.refl target t
    · exact Stays.refl target t
    · rename_i relative hwithin
      have hne := within_ne_nil hwithin
      cases entry.kind with
      | directory =>
        have hdirs := createDirAll_stays hroot ht limit relative
        simp only
        split <;> simp_all
      | file => exact unpackFile_stays limit name hroot ht entry _ hne
      | symlink => exact unpackLink_stays limit name hroot ht entry _ hne
      | other => exact Stays.refl target t

theorem unpackEntries_stays (hroot : Rooted target t) (ht : Confined target t)
    (entries : List (Except String Entry)) :
    Stays target t (unpackEntries limit name target entries t).2 := by
  induction entries generalizing t with
  | nil => exact Stays.refl target t
  | cons item rest ih =>
    cases item with
    | error reason => exact Stays.refl target t
    | ok entry =>
      have hentry := unpackEntry_stays limit name hroot ht entry
      rw [unpackEntries]
      cases hdone : unpackEntry limit name target entry t with
      | mk result t₁ =>
        rw [hdone] at hentry
        cases result with
        | error e => exact hentry
        | ok u => exact hentry.trans (ih (hentry.rooted hroot) (hentry.confined ht))

/-- What unpacking into `target` may change: what is below it, and missing directories on the
way down to it. -/
def Keeps (target : List String) (t t' : Files) : Prop :=
  ∀ p, t' p ≠ t p → target <+: p ∨ (p <+: target ∧ t p = none ∧ t' p = some .dir)

theorem Keeps.trans {t t' t'' : Files} (h : Keeps target t t') (h' : Keeps target t' t'') :
    Keeps target t t'' := by
  intro p hp
  by_cases hsame : t' p = t p
  · rcases h' p (by rwa [hsame]) with hbelow | ⟨habove, hnone, hdir⟩
    · exact .inl hbelow
    · exact .inr ⟨habove, by rwa [← hsame], hdir⟩
  · rcases h p hsame with hbelow | ⟨habove, hnone, hdir⟩
    · exact .inl hbelow
    · by_cases hsame' : t'' p = t' p
      · exact .inr ⟨habove, hnone, hsame'.trans hdir⟩
      · rcases h' p hsame' with hbelow | ⟨-, hnone', -⟩
        · exact .inl hbelow
        · rw [hdir] at hnone'
          cases hnone'

/-- One archive: the target is made if it is missing, everything else is written below it. -/
theorem unpack_keeps (hclear : Clear target t) (ht : Confined target t) (archive : Archive) :
    Keeps target t (unpack limit name target archive t).2 ∧
      Rooted target (unpack limit name target archive t).2 ∧
      Confined target (unpack limit name target archive t).2 := by
  obtain ⟨t', hmade, hmakes⟩ := createDirAll_makes hclear limit
  have hkeeps : Keeps target t t' := by
    intro p hp
    rcases hmakes.only p with hsame | hmissing
    · exact absurd hsame hp
    · exact .inr hmissing
  have hconfined : Confined target t' := by
    intro p link hp hlink
    rcases hmakes.only p with hsame | ⟨-, -, hdir⟩
    · exact ht p link hp (by rwa [← hsame])
    · rw [hdir] at hlink
      cases hlink
  rw [unpack, hmade]
  cases archive with
  | error reason => exact ⟨hkeeps, hmakes.rooted, hconfined⟩
  | ok entries =>
    have hstays := unpackEntries_stays limit name hmakes.rooted hconfined entries
    refine ⟨hkeeps.trans fun p hp => .inl ?_, hstays.rooted hmakes.rooted,
      hstays.confined hconfined⟩
    by_contra hout
    exact hp (hstays.outside p hout)

theorem unpackAll_keeps (hclear : Clear target t) (ht : Confined target t)
    (archives : List (String × Archive)) :
    Keeps target t (unpackAll limit target archives t) ∧
      Confined target (unpackAll limit target archives t) := by
  induction archives generalizing t with
  | nil => exact ⟨fun p hp => absurd rfl hp, ht⟩
  | cons archive archives ih =>
    obtain ⟨hkeeps, hroot, hconfined⟩ := unpack_keeps limit archive.1 hclear ht archive.2
    have hrest := ih (fun p hp hne => .inr (hroot p hp hne)) hconfined
    rw [unpackAll, List.foldl_cons]
    exact ⟨hkeeps.trans hrest.1, hrest.2⟩

end

/-! ## What is refused -/

/-- The path is absolute or climbs. -/
def Leaves (path : Path) : Prop := Component.rootDir ∈ path ∨ Component.parentDir ∈ path

/-- An entry the archive has to be refused for: its path is absolute or climbs, it is a link
that does not name a sibling, or it is neither a file, a directory nor a link. -/
def Refusable (entry : Entry) : Prop :=
  (∃ inside, entry.path = .ok inside ∧ Leaves (Path.ofString inside)) ∨
  (entry.kind = .symlink ∧ ¬ ∃ link sibling, entry.linkName = .ok (some link) ∧
    Path.ofString link = [.normal sibling]) ∨
  entry.kind = .other

/-- The entry's path names the top-level directory alone. -/
def TopLevelOnly (entry : Entry) : Prop :=
  ∃ inside, entry.path = .ok inside ∧ within inside = some none

theorem normalParts_eq_none {path : Path} (h : Leaves path) : normalParts path = none := by
  induction path with
  | nil => simp [Leaves] at h
  | cons component rest ih =>
    cases component with
    | rootDir => rfl
    | parentDir => rfl
    | curDir => exact ih (by simpa [Leaves] using h)
    | normal part => simp [normalParts, ih (by simpa [Leaves] using h)]

theorem beside_iff {link : String} :
    beside link = true ↔ ∃ sibling, Path.ofString link = [.normal sibling] := by
  unfold beside
  split
  · rename_i sibling hparts
    simp [hparts]
  · rename_i hparts
    simp only [Bool.false_eq_true, false_iff, not_exists]
    exact fun sibling => hparts sibling

variable {entry : Entry}

/-- An entry to be refused is, if its path names something below the top-level directory. -/
theorem unpackEntry_refuses (hbad : Refusable entry) (htop : ¬ TopLevelOnly entry)
    (t : Files) : ∃ e, (unpackEntry limit name target entry t).1 = .error e := by
  rw [unpackEntry]
  split
  · exact ⟨_, rfl⟩
  · rename_i inside hpath
    cases hwithin : within inside with
    | none => exact ⟨_, rfl⟩
    | some relative =>
      cases relative with
      | none => exact absurd ⟨inside, hpath, hwithin⟩ htop
      | some relative =>
        rcases hbad with ⟨inside', hpath', hleaves⟩ | ⟨hkind, hlink⟩ | hkind
        · rw [hpath, Except.ok.injEq] at hpath'
          subst hpath'
          rw [within, normalParts_eq_none hleaves] at hwithin
          cases hwithin
        · simp only [hkind, unpackLink]
          split
          · exact ⟨_, rfl⟩
          · exact ⟨_, rfl⟩
          · rename_i link hname
            have hbeside : beside link = false := by
              rw [← Bool.not_eq_true, beside_iff]
              rintro ⟨sibling, hsibling⟩
              exact hlink ⟨link, sibling, hname, hsibling⟩
            simp only [hbeside, Bool.not_false, if_true]
            exact ⟨_, rfl⟩
        · simp only [hkind]
          exact ⟨_, rfl⟩

theorem unpackEntries_refuses (hbad : Refusable entry)
    (htop : ¬ TopLevelOnly entry) (before after : List (Except String Entry)) (t : Files) :
    ∃ e, (unpackEntries limit name target (before ++ Except.ok entry :: after) t).1 = .error e := by
  induction before generalizing t with
  | nil =>
    obtain ⟨e, he⟩ := unpackEntry_refuses limit name target hbad htop t
    rw [List.nil_append, unpackEntries]
    cases hdone : unpackEntry limit name target entry t with
    | mk result t₁ =>
      rw [hdone] at he
      simp only at he
      subst he
      exact ⟨e, rfl⟩
  | cons item before ih =>
    cases item with
    | error reason => exact ⟨_, rfl⟩
    | ok first =>
      rw [List.cons_append, unpackEntries]
      cases unpackEntry limit name target first t with
      | mk result t₁ =>
        cases result with
        | error e => exact ⟨e, rfl⟩
        | ok u => exact ih t₁

theorem unpack_refuses (hbad : Refusable entry) (htop : ¬ TopLevelOnly entry)
    (before after : List (Except String Entry)) (t : Files) :
    ∃ e, (unpack limit name target (.ok (before ++ Except.ok entry :: after)) t).1 = .error e := by
  rw [unpack]
  cases createDirAll limit t target with
  | mk result t₁ =>
    cases result with
    | error e => exact ⟨_, rfl⟩
    | ok u => exact unpackEntries_refuses limit name target hbad htop before after t₁

/-- An entry for the top-level directory alone is passed over, whatever it is. -/
theorem unpack_passes (htop : TopLevelOnly entry) {t : Files} (hclear : Clear target t) :
    (unpack limit name target (.ok [.ok entry]) t).1 = .ok () := by
  obtain ⟨inside, hpath, hwithin⟩ := htop
  obtain ⟨t', hmade, -⟩ := createDirAll_makes hclear limit
  simp [unpack, hmade, unpackEntries, unpackEntry, hpath, hwithin]

/-- Whatever archives are unpacked one after another into a target without links, nothing but
what lies below the target is touched, missing directories on the way down to it apart; and an
entry to be refused makes `unpack` fail in every archive exactly if its path names more than
the top-level directory. -/
theorem unpack_keeps_below_and_refuses (target : List String) :
    (∀ archives t, Clear target t → (∀ p link, target <+: p → t p ≠ some (.link link)) →
      Keeps target t (unpackAll limit target archives t)) ∧
    ∀ entry, Refusable entry →
      ((∀ name before after t,
        ∃ e, (unpack limit name target (.ok (before ++ Except.ok entry :: after)) t).1 = .error e) ↔
      ¬ TopLevelOnly entry) := by
  refine ⟨fun archives t hclear hlinks => ?_, fun entry hbad => ⟨fun hall htop => ?_, ?_⟩⟩
  · refine (unpackAll_keeps limit hclear ?_ archives).1
    intro p link hp hlink
    exact absurd hlink (hlinks p link hp)
  · obtain ⟨e, he⟩ := hall "" [] [] fun _ => some .dir
    have hclear : Clear target (fun _ => some .dir : Files) := fun p hp hne => .inr rfl
    rw [List.nil_append, unpack_passes limit "" target htop hclear] at he
    cases he
  · intro htop name before after t
    exact unpack_refuses limit name target hbad htop before after t

/-- A link out of the build, under the name of the top-level directory. -/
def strayLink : Entry where
  path := .ok "llama-b11669/"
  kind := .symlink
  linkName := .ok (some "../../../etc/passwd")
  mode := some 0o777
  data := []
  readError := none

/-- A link to the password file has to be refused, whatever its own path is. -/
theorem climbing_link_refusable (hkind : entry.kind = .symlink)
    (hlink : entry.linkName = .ok (some "../../../etc/passwd")) : Refusable entry := by
  refine .inr (.inl ⟨hkind, ?_⟩)
  rintro ⟨link, sibling, hname, hparts⟩
  rw [hlink, Except.ok.injEq, Option.some.injEq] at hname
  have hclimbs : Path.ofString "../../../etc/passwd" =
      [.parentDir, .parentDir, .parentDir, .normal "etc", .normal "passwd"] := by decide +kernel
  rw [← hname, hclimbs] at hparts
  cases hparts

/-- The stray link is no reason for `unpack` to refuse the archive. -/
theorem strayLink_passes : Refusable strayLink ∧
    (unpack 40 "llama-b11669-bin.tar" ["opt", "build"] (.ok [.ok strayLink]) fun _ => none).1 =
      .ok () := by
  refine ⟨climbing_link_refusable rfl rfl,
    unpack_passes _ _ _ ⟨"llama-b11669/", rfl, ?_⟩ fun p hp hne => ?_⟩
  · decide +kernel
  · exact .inl rfl

/-- The same link under a name of its own. -/
def strayLibrary : Entry := { strayLink with path := .ok "llama-b11669/libx.dylib" }

/-- Into an empty place, the library link is refused and nothing is written elsewhere. -/
theorem strayLibrary_refused :
    Keeps ["opt", "build"] (fun _ => none)
      (unpackAll 40 ["opt", "build"] [("a.tar", .ok [.ok strayLibrary])] fun _ => none) ∧
    ∃ e, (unpack 40 "a.tar" ["opt", "build"] (.ok [.ok strayLibrary]) fun _ => none).1 =
      .error e := by
  obtain ⟨hkeeps, hrefuses⟩ := unpack_keeps_below_and_refuses 40 ["opt", "build"]
  refine ⟨hkeeps _ _ (fun p hp hne => .inl rfl) (by simp), ?_⟩
  refine (hrefuses strayLibrary (climbing_link_refusable rfl rfl)).2 ?_ "a.tar" [] [] _
  rintro ⟨inside, hpath, hwithin⟩
  simp only [strayLibrary, Except.ok.injEq] at hpath
  subst hpath
  exact absurd hwithin (by decide +kernel)

end Hedos.Engines
