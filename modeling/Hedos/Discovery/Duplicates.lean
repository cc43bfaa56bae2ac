import Hedos.Discovery.Service

/-!
# Finding duplicate copies

`find` and `gather` (`kernel/src/discovery/duplicates.rs`): the candidates as physical copies,
what removing a copy frees and takes from others, content compared by sampling, and the copies
that can go gathered around the ones kept.

The maps and sets of the code are lists read by membership; `FileMap` keeps the order of its
keys, which decides how a set of identities is spelled. Arrays over the copies are functions of
an index.
-/

namespace Hedos.Discovery

/-! ## Candidates and copies -/

structure DuplicateMember where
  id : String
  name : String
  kind : SourceKind
  path : String
deriving DecidableEq

/-- A model, the files removing it deletes, and what would break with it. -/
structure DuplicateCandidate where
  member : DuplicateMember
  files : List String
  bookkeeping : List String
  pinnedBy : List String
deriving DecidableEq

/-- One file of a copy: a path that reads it, and the directory entries that name it, directly
or as symlinks. -/
structure StoredFile where
  path : Path
  size : ℕ
  links : ℕ
  direct : List Path := []
  linked : List Path := []
  bookkeeping : Bool
deriving DecidableEq

def StoredFile.entries (file : StoredFile) : List Path := file.direct ++ file.linked

abbrev FileMap := List (Identity × StoredFile)

/-- The order of identities. -/
def Identity.before (a b : Identity) : Bool := a.1 < b.1 ∨ a.1 = b.1 ∧ a.2 < b.2

/-- Change the file under `identity`, or put `fresh` in its place in the order. -/
def FileMap.upsert (identity : Identity) (fresh : StoredFile) (change : StoredFile → StoredFile) :
    FileMap → FileMap
  | [] => [(identity, fresh)]
  | (key, file) :: rest =>
    if key = identity then (key, change file) :: rest
    else if identity.before key then (identity, fresh) :: (key, file) :: rest
    else (key, file) :: FileMap.upsert identity fresh change rest

section Files

variable (disk : Disk)

/-- One listed path. -/
def fileOf (files : FileMap) (listed : String × Bool) : Option FileMap := do
  let path := Path.ofString listed.1
  let metadata ← (disk.metadata path).filter Metadata.isFile
  let entry ← disk.entryOf path
  let place (file : StoredFile) : StoredFile :=
    if disk.isSymlink path then { file with linked := file.linked.insert entry }
    else { file with direct := file.direct.insert entry }
  return files.upsert metadata.identity
    (place { path, size := metadata.size, links := metadata.links, bookkeeping := listed.2 })
    fun file => place { file with bookkeeping := file.bookkeeping && listed.2 }

/-- The files of `candidate`, unless one is not a regular file or cannot be placed. -/
def filesOf (candidate : DuplicateCandidate) : Option FileMap :=
  if candidate.files = [] then none
  else
    (candidate.files.map (·, false) ++ candidate.bookkeeping.map (·, true)).foldlM (fileOf disk) []

end Files

/-- One physical copy: its files, and every candidate reaching them with whether that
candidate's path is a symlink. -/
structure Found where
  files : FileMap := []
  names : List (DuplicateCandidate × Bool) := []

namespace Found

/-- The files that hold the model. -/
def content (copy : Found) : FileMap := copy.files.filter fun entry => !entry.2.bookkeeping

def add (copy : Found) (candidate : DuplicateCandidate) (linked : Bool)
    (files : FileMap) : Found where
  files := files.foldl (fun known entry =>
    known.upsert entry.1 entry.2 fun stored =>
      { stored with
        direct := stored.direct ∪ entry.2.direct
        linked := stored.linked ∪ entry.2.linked
        bookkeeping := stored.bookkeeping && entry.2.bookkeeping }) copy.files
  names := copy.names ++ [(candidate, linked)]

/-- Every model removing the copy is an Ollama model. -/
def onlyOllama (copy : Found) : Bool := copy.names.all fun name => name.1.member.kind = .ollama

/-- A model outside the copy would break were it removed. -/
def pinned (copy : Found) : Bool :=
  copy.names.any fun name => name.1.pinnedBy.any fun id =>
    !copy.names.any fun other => other.1.member.id = id

def onlyThroughLinks (copy : Found) : Bool := copy.content.all fun entry => entry.2.direct = []

end Found

/-- The copies so far, each under the identities it was first found by. -/
abbrev Shelf := List (List Identity × Found)

def shelve (disk : Disk) (shelf : Shelf) (candidate : DuplicateCandidate) : Shelf :=
  match filesOf disk candidate with
  | none => shelf
  | some files =>
    let identities := (files.filter fun entry => !entry.2.bookkeeping).map Prod.fst
    let linked := disk.isSymlink (Path.ofString candidate.member.path)
    match shelf.findIdx? (·.1 = identities) with
    | some index => shelf.modify index fun entry => (entry.1, entry.2.add candidate linked files)
    | none => shelf ++ [(identities, ({} : Found).add candidate linked files)]

def copiesOf (disk : Disk) (candidates : List DuplicateCandidate) : List Found :=
  (candidates.foldl (shelve disk) []).map Prod.snd

/-! ## How the copies share their files -/

section Sharing

variable (disk : Disk) (copies : List Found)

/-- The indices of the copies that meet `p`. -/
def indicesWhere (p : Found → Bool) : List ℕ :=
  (List.range copies.length).filter fun index => (copies[index]?).any p

/-- The copies naming the file directly. -/
def namers (identity : Identity) : List ℕ :=
  indicesWhere copies fun copy => copy.files.any fun entry =>
    entry.1 = identity ∧ entry.2.direct ≠ []

/-- The directory entries naming the file directly, across every copy. -/
def namedEntries (identity : Identity) : List Path :=
  ((copies.flatMap Found.files).filter (·.1 = identity)).flatMap (·.2.direct)

/-- The copies listing the directory entry, a file or a symlink. -/
def listing (entry : Path) : List ℕ :=
  indicesWhere copies fun copy => copy.files.any fun file => entry ∈ file.2.entries

/-- The copies whose symlinks pass through the directory entry. -/
def leaning (entry : Path) : List ℕ :=
  indicesWhere copies fun copy => copy.files.any fun file =>
    file.2.linked.any fun link => entry ∈ disk.passedLinks link

def maxI64 : ℤ := 2 ^ 63 - 1

/-- The bytes removing the copies frees, each file once. -/
def frees (removed : List ℕ) : ℤ :=
  let files := removed.flatMap fun index => (copies[index]?).elim [] Found.files
  let counted := files.foldl (fun (acc : List Identity × ℤ) entry =>
    if entry.1 ∈ acc.1 then acc
    else
      let names := namers copies entry.1
      let allNamed := names ≠ [] ∧ ∀ index ∈ names, index ∈ removed
      let named := (namedEntries copies entry.1).eraseDups.length
      (entry.1 :: acc.1,
        if allNamed ∧ named ≥ entry.2.links
        then min maxI64 (acc.2 + min maxI64 entry.2.size) else acc.2)) ([], 0)
  counted.2

/-- What is known of one copy before content is compared. -/
structure Traits where
  frees : ℤ
  offerable : Bool
  keeps : List (Identity × ℕ)

def others (indices : List ℕ) (index : ℕ) : List ℕ := indices.filter (· ≠ index)

/-- Removing the copy takes the entry away from another copy: listed there (a blob of two
Ollama models excepted), or leaned on. -/
def takesAway (index : ℕ) (copy : Found) (file : StoredFile) (entry : Path) : Bool :=
  let blob := decide (entry ∈ file.direct) && copy.onlyOllama
  ((others (listing copies entry) index).any fun other =>
    !(blob && (copies[other]?).any Found.onlyOllama)) ||
  !(others (leaning disk copies entry) index).isEmpty

def traits (index : ℕ) (copy : Found) : Traits where
  frees := frees copies [index]
  offerable := !copy.pinned && copy.files.all fun entry =>
    entry.2.entries.all fun name => !takesAway disk copies index copy entry.2 name
  keeps := copy.content.map fun entry => (entry.1, entry.2.size)

end Sharing

/-! ## Comparing content -/

def headBytes : ℕ := 8 * 2 ^ 20
def blockBytes : ℕ := 64 * 2 ^ 10
def blocks : ℕ := 256

/-- The ranges read of a file: the head, then blocks spread to its end, or the whole of a small
one. -/
def samples (size : ℕ) : List (ℕ × ℕ) :=
  (0, min size headBytes) ::
    if size ≤ headBytes + blocks * blockBytes then
      (List.range ((size - headBytes + blockBytes - 1) / blockBytes)).map fun block =>
        let offset := headBytes + block * blockBytes
        (offset, min blockBytes (size - offset))
    else
      (List.range blocks).map fun block =>
        (headBytes + (size - headBytes - blockBytes) * block / (blocks - 1), blockBytes)

section Content

variable (disk : Disk)

def hashRange (path : Path) (range : ℕ × ℕ) : Option Bytes := do
  Disk.readExact (← disk.openRegular path) range.1 range.2

/-- What has been fed to the hasher of `file` after its first `steps` samples. -/
def sampled (file : StoredFile) (steps : ℕ) : Option Bytes :=
  (((samples file.size).take steps).mapM (hashRange disk file.path)).map List.flatten

/-- `FileReading::advance`: the size and the digest so far. -/
def advance (file : StoredFile) (step : ℕ) : Option (ℕ × Bytes) :=
  (sampled disk file (step + 1)).map fun bytes => (file.size, disk.sha256 bytes)

/-- Split a class by what its files read at `step`; a file that cannot be read, or that no
other matches, is let go. -/
def splitClass (step : ℕ) (files : FileMap) : List FileMap :=
  let keys := (files.filterMap fun entry => advance disk entry.2 step).eraseDups
  (keys.map fun key => files.filter fun entry => advance disk entry.2 step = some key).filter
    (1 < ·.length)

/-- The classes of two or more files whose sampled content is the same. -/
def identical (files : FileMap) : List FileMap :=
  let steps := (files.map fun entry => (samples entry.2.size).length).foldl max 0
  (List.range steps).foldl (fun classes step => classes.flatMap (splitClass disk step)) [files]

end Content

abbrev Classes := List (Identity × ℕ)

def Classes.get (classes : Classes) (identity : Identity) : Option ℕ :=
  (classes.find? (·.1 = identity)).map Prod.snd

/-- Set the number of a file that has one. -/
def Classes.set (classes : Classes) (identity : Identity) (number : ℕ) : Classes :=
  classes.map fun entry => if entry.1 = identity then (identity, number) else entry

/-- The first file found under the identity. -/
def storedOf (copies : List Found) (identity : Identity) : Option StoredFile :=
  ((copies.flatMap Found.files).find? (·.1 = identity)).map Prod.snd

/-- A number of its own for every file. -/
def ownClasses (copies : List Found) : Classes :=
  (copies.flatMap Found.files).foldl (fun classes entry =>
    if (classes.get entry.1).isSome then classes
    else classes ++ [(entry.1, classes.length)]) []

/-- One class of files takes the number of its first. -/
def joinClass (classes : Classes) (members : FileMap) : Classes :=
  match members.head?.bind fun first => classes.get first.1 with
  | none => classes
  | some number => members.foldl (fun classes entry => classes.set entry.1 number) classes

/-- The identities the copies keep at a size. -/
def keptBySize (copies : List Found) (keeps : ℕ → List (Identity × ℕ)) (size : ℕ) :
    List Identity :=
  (((List.range copies.length).flatMap keeps).filter (·.2 = size)).map Prod.fst

section Find

variable (disk : Disk) (copies : List Found)

/-- The files of one size that are compared, in the order of their identities. -/
def bucket (offerable : ℕ → Bool) (keeps : ℕ → List (Identity × ℕ)) (size : ℕ) :
    List Identity :=
  let offered := ((indicesWhere copies fun _ => true).filter offerable).flatMap fun index =>
    (copies[index]?).elim [] fun copy =>
      (copy.content.filter (·.2.size = size)).map Prod.fst
  ((offered ++ keptBySize copies keeps size).eraseDups).mergeSort fun a b => !b.before a

/-- A class number for every file: files of one size and sampled content share one. Only the
sizes held by a copy that may be offered are read. -/
def contentClasses (offerable : ℕ → Bool) (keeps : ℕ → List (Identity × ℕ)) : Classes :=
  let sizes := (((indicesWhere copies fun _ => true).filter offerable).flatMap fun index =>
    (copies[index]?).elim [] fun copy => copy.content.map (·.2.size)).eraseDups.mergeSort (· ≤ ·)
  let classes := sizes.flatMap fun size =>
    let members := bucket copies offerable keeps size
    if members.length < 2 then []
    else identical disk (members.filterMap fun identity =>
      (storedOf copies identity).map fun file => (identity, file))
  classes.foldl joinClass (ownClasses copies)

/-- The copies other than `index` that keep, for every file of `copy`, that file or another of
its size. -/
def keepersBySize (keeps : ℕ → List (Identity × ℕ)) (index : ℕ) (copy : Found) : List ℕ :=
  match copy.content with
  | [] => []
  | first :: rest =>
    let here (file : Identity × StoredFile) : List ℕ :=
      (List.range copies.length).filter fun other =>
        decide (other ≠ index) && (keptBySize copies keeps file.2.size).any fun identity =>
          identity ∈ (keeps other).map Prod.fst
    rest.foldl (fun possible file => possible.filter (· ∈ here file)) (here first)

/-- Whether content compared the same lets `copy` go in favour of `other`. -/
def coveredBy (classes : Classes) (keeps : ℕ → List (Identity × ℕ)) (copy : Found) (other : ℕ) :
    Bool :=
  let kept := (keeps other).filterMap fun entry => classes.get entry.1
  copy.content.all fun entry => (classes.get entry.1).any (· ∈ kept)

end Find

/-! ## Gathering the copies offered around the copies kept -/

/-- The kept copies so far, and each offered copy with the one it goes in favour of. -/
structure Gathering where
  kept : List ℕ := []
  offered : List (ℕ × ℕ) := []

namespace Gathering

variable (order : List ℕ) (favours : ℕ → List ℕ)

def isOpen (state : Gathering) (index : ℕ) : Bool :=
  decide (index ∉ state.kept) && decide (index ∉ state.offered.map Prod.fst)

/-- Offer a copy in favour of the first kept one it can go for. -/
def offer (state : Gathering) (index : ℕ) : Gathering :=
  if state.isOpen index then
    match order.find? fun keeper => keeper ∈ state.kept ∧ keeper ∈ favours index with
    | some keeper => { state with offered := state.offered ++ [(index, keeper)] }
    | none => state
  else state

/-- The next copy to keep: an open one that an open one can go for. -/
def next (state : Gathering) : Option ℕ :=
  order.find? fun keeper => state.isOpen keeper &&
    order.any fun other => state.isOpen other && decide (keeper ∈ favours other)

theorem offer_kept (state : Gathering) (index : ℕ) :
    (state.offer order favours index).kept = state.kept := by
  unfold offer
  split
  · split <;> rfl
  · rfl

/-- One sweep over the order. -/
def sweep (state : Gathering) : Gathering := order.foldl (offer order favours) state

theorem sweep_kept (state : Gathering) : (state.sweep order favours).kept = state.kept := by
  unfold sweep
  suffices h : ∀ indices : List ℕ, ∀ state : Gathering,
      (indices.foldl (offer order favours) state).kept = state.kept from h order state
  intro indices
  induction indices with
  | nil => exact fun _ => rfl
  | cons index indices ih =>
    intro state
    rw [List.foldl_cons, ih, offer_kept]

theorem next_eq_some {state : Gathering} {keeper : ℕ} (h : state.next order favours = some keeper) :
    keeper ∈ order ∧ state.isOpen keeper = true := by
  have hfind := List.find?_some h
  simp only [Bool.and_eq_true] at hfind
  exact ⟨List.mem_of_find?_eq_some h, hfind.1⟩

/-- One more copy kept leaves fewer that are not. -/
theorem length_not_kept_lt {kept : List ℕ} {keeper : ℕ} (hmem : keeper ∈ order)
    (hnot : keeper ∉ kept) :
    (order.filter (· ∉ kept ++ [keeper])).length < (order.filter (· ∉ kept)).length := by
  have hsub : (order.filter (· ∉ kept ++ [keeper])) =
      (order.filter (· ∉ kept)).filter (· ≠ keeper) := by
    rw [List.filter_filter]
    refine List.filter_congr fun index _ => ?_
    simp [not_or, and_comm]
  rw [hsub]
  refine List.length_filter_lt_length_iff_exists.2 ⟨keeper, ?_, by simp⟩
  exact List.mem_filter.2 ⟨hmem, by simpa using hnot⟩

/-- The loop: offer what can go, then keep one more, until none is left to keep. -/
def run (state : Gathering) : Gathering :=
  match _hnext : (state.sweep order favours).next order favours with
  | none => state.sweep order favours
  | some keeper =>
    run { state.sweep order favours with kept := (state.sweep order favours).kept ++ [keeper] }
termination_by (order.filter (· ∉ state.kept)).length
decreasing_by
  obtain ⟨hmem, hopen⟩ := next_eq_some order favours _hnext
  simp only [isOpen, sweep_kept, Bool.and_eq_true, decide_eq_true_eq] at hopen
  rw [sweep_kept]
  exact length_not_kept_lt order hmem hopen.1

end Gathering

/-! ## What is reported -/

def usizeMax : ℕ := 2 ^ 64 - 1

/-- Where a store sorts: its place among the named ones, or after all of them. -/
def storeRank (kind : SourceKind) : ℕ :=
  ([SourceKind.ollama, .huggingfaceCache, .lmStudio, .builtin].findIdx? (· = kind)).getD usizeMax

/-- The order of members: by name, then by path. -/
def memberLe (a b : DuplicateMember) : Bool :=
  a.name < b.name ∨ a.name = b.name ∧ a.path ≤ b.path

/-- A copy as reported: one member, the other candidates as its aliases, and where the bytes
are when every file is reached through a symlink. -/
structure DuplicateCopy where
  member : DuplicateMember
  aliases : List DuplicateMember
  linkTarget : Option Path
deriving DecidableEq

structure RemovableCopy where
  copy : DuplicateCopy
  reclaimableBytes : ℤ
deriving DecidableEq

structure DuplicateGroup where
  kept : DuplicateCopy
  removable : List RemovableCopy
  reclaimableBytes : ℤ
deriving DecidableEq

namespace Found

def bestStore (copy : Found) : ℕ :=
  (copy.names.map fun name => storeRank name.1.member.kind).foldl min usizeMax

/-- One whose path is not a link comes first, then the first by name and path. -/
def nameLe (a b : DuplicateCandidate × Bool) : Bool :=
  if a.2 = b.2 then memberLe a.1.member b.1.member else !a.2

/-- The place of the candidate the copy is reported by: the first of the least. -/
def firstIndex (copy : Found) : Option ℕ :=
  copy.names.findIdx? fun name => copy.names.all (nameLe name)

def firstName (copy : Found) : Option DuplicateMember :=
  (copy.firstIndex.bind (copy.names[·]?)).map (·.1.member)

def named (disk : Disk) (copy : Found) : Option DuplicateCopy := do
  let index ← copy.firstIndex
  let member := (← copy.names[index]?).1.member
  let path := Path.ofString member.path
  return {
    member
    aliases := ((copy.names.eraseIdx index).map (·.1.member)).mergeSort memberLe
    linkTarget := if copy.onlyThroughLinks && disk.isSymlink path
      then disk.canonicalize path else none }

end Found

/-- Which copy to keep first: one that cannot go, then one with a file it names itself, then by
store, then by the name it is reported by. -/
def keepsBefore (a b : Found × Bool) : Bool :=
  let name (copy : Found) := copy.firstName
  if a.2 ≠ b.2 then !a.2
  else if a.1.onlyThroughLinks ≠ b.1.onlyThroughLinks then !a.1.onlyThroughLinks
  else if a.1.bestStore ≠ b.1.bestStore then decide (a.1.bestStore < b.1.bestStore)
  else match name a.1, name b.1 with
    | none, _ => true
    | some _, none => false
    | some a, some b => memberLe a b

/-- Each keeper with the copies offered in its favour. -/
def gather (copies : List Found) (favours : ℕ → List ℕ) : List (ℕ × List ℕ) :=
  let copyAt (index : ℕ) : Found × Bool := ((copies[index]?).getD {}, !(favours index).isEmpty)
  let order := ((List.range copies.length).filter fun index =>
    !(favours index).isEmpty ||
      (List.range copies.length).any fun other => decide (index ∈ favours other)).mergeSort
    fun a b => keepsBefore (copyAt a) (copyAt b)
  let state := Gathering.run order favours {}
  state.kept.map fun keeper =>
    (keeper, ((state.offered.filter (·.2 = keeper)).map Prod.fst).mergeSort (· ≤ ·))

section Find

variable (disk : Disk) (copies : List Found) (threshold : ℤ)

/-- The traits of the copy at an index, with the size of the saving checked. -/
def traitsAt (index : ℕ) : Traits :=
  match copies[index]? with
  | none => ⟨0, false, []⟩
  | some copy =>
    let item := traits disk copies index copy
    { item with
      offerable := item.offerable && decide (item.frees > 0) && decide (item.frees ≥ threshold) }

def keepsAt (index : ℕ) : List (Identity × ℕ) := (traitsAt disk copies threshold index).keeps

/-- The copies the one at an index could go in favour of, by size. -/
def possibleAt (index : ℕ) : List ℕ :=
  if (traitsAt disk copies threshold index).offerable then
    (copies[index]?).elim [] (keepersBySize copies (keepsAt disk copies threshold) index)
  else []

/-- The classes of the shelf; only copies that some other keeps by size are compared. -/
def shelfClasses : Classes :=
  contentClasses disk copies (fun index => !(possibleAt disk copies threshold index).isEmpty)
    (keepsAt disk copies threshold)

/-- The copies the one at an index can go in favour of. -/
def favoursAt (index : ℕ) : List ℕ :=
  (possibleAt disk copies threshold index).filter fun other =>
    (copies[index]?).any fun copy =>
      coveredBy (shelfClasses disk copies threshold) (keepsAt disk copies threshold) copy other

/-- The copies offered, around the copies kept. -/
def offers : List (ℕ × List ℕ) := gather copies (favoursAt disk copies threshold)

/-- A keeper and the copies offered in its favour, as reported. -/
def groupOf (offer : ℕ × List ℕ) : Option DuplicateGroup := do
  let kept ← (copies[offer.1]?).bind (Found.named disk)
  let removable := offer.2.filterMap fun index =>
    ((copies[index]?).bind (Found.named disk)).map fun copy =>
      RemovableCopy.mk copy (traitsAt disk copies threshold index).frees
  if removable = [] then none
  else
    return {
      kept
      removable := removable.mergeSort fun a b => memberLe a.copy.member b.copy.member
      reclaimableBytes := frees copies offer.2 }

/-- The groups, most reclaimable first, and what removing every copy they offer frees. -/
def find (candidates : List DuplicateCandidate) : List DuplicateGroup × ℤ :=
  let copies := copiesOf disk candidates
  let reported := (offers disk copies threshold).filterMap fun offer =>
    (groupOf disk copies threshold offer).map fun group => (group, offer.2)
  ((reported.map Prod.fst).mergeSort fun a b =>
      decide (a.reclaimableBytes > b.reclaimableBytes) ||
        (decide (a.reclaimableBytes = b.reclaimableBytes) && memberLe a.kept.member b.kept.member),
    frees copies (((reported.flatMap Prod.snd).eraseDups).mergeSort (· ≤ ·)))

end Find

end Hedos.Discovery
