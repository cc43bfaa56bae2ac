import Hedos.Discovery.Duplicates
import Mathlib.Data.Finset.Insert
import Mathlib.Data.List.Sort
import Std.Data.ExtTreeMap

/-!
# Where a model's bytes are on disk

`footprint_files`, `directory_contents`, `disk_by_store` and `bytes_by_store` of
`src/kernel/src/discovery/on_disk.rs`, over one state of a volume.

A path leads to an inode, through links of either kind, and the inode has the type and the
length, so two paths to one file cannot disagree about it. `manifest_blobs` and `removable_paths`
are read off the volume as they are.
-/

namespace Hedos.Discovery

variable {ι ν : Type}

/-! ## Volumes -/

/-- What a file's length is read from; a length is an `off_t`. -/
structure Inode where
  isFile : Bool
  size : ℕ
  fits : size < 2 ^ 63

/-- An entry of a directory, with what is under it. -/
inductive DirEntry
  /-- The entry, or its type, cannot be read. -/
  | failed
  | dir (readable : Bool) (entries : List DirEntry)
  | file (path : Path)
  | symlink (path : Path)
  | special

/-- One state of the disk; `ι` is what a file is known by, the device and inode or the canonical
path. -/
structure Volume (ι ν : Type) where
  /-- Where a path leads, links followed; `none` is an error. -/
  identity : Path → Option ι
  inode : ι → Inode
  readDir : Path → Option (List DirEntry)
  manifestBlobs : Path → Option (List Path)
  removablePaths : Record ν → List Path

namespace Volume

variable (volume : Volume ι ν)

/-- The regular file a path leads to. -/
def regular (path : Path) : Option ι :=
  (volume.identity path).filter fun id => (volume.inode id).isFile

/-- The files found before the walk ends, and whether it read every directory. -/
def everythingUnder : List DirEntry → List Path × Bool
  | [] => ([], true)
  | .failed :: _ => ([], false)
  | .dir readable inner :: entries =>
    if readable then
      let (found, whole) := everythingUnder inner
      if whole then
        let (others, whole) := everythingUnder entries
        (found ++ others, whole)
      else (found, false)
    else ([], false)
  | .file path :: entries =>
    let (others, whole) := everythingUnder entries
    (path :: others, whole)
  | .symlink path :: entries =>
    let (others, whole) := everythingUnder entries
    (if (volume.regular path).isSome then path :: others else others, whole)
  | .special :: entries => everythingUnder entries

def directoryContents (dir : Path) : List Path :=
  match volume.readDir dir with
  | none => []
  | some entries => (volume.everythingUnder entries).1

/-- The files a record's footprint counts; `none` for a store that keeps no files, or when none
are where the record says. -/
def footprintFiles (record : Record ν) : Option (List Path) :=
  let source := Path.ofString record.details.source.path
  let kind := record.details.source.kind
  let files : Option (List Path) :=
    if kind = .ollama then volume.manifestBlobs source
    else if kind = .huggingfaceCache ∨ kind = .folder then some (volume.directoryContents source)
    else if kind = .lmStudio ∨ kind = .file then some (volume.removablePaths record)
    else none
  files.filter (· ≠ [])

end Volume

/-- The size on disk, when one is recorded and positive. -/
def sizeOnDisk (record : Record ν) : Option ℤ := record.footprintBytes.filter (0 < ·)

/-! ## Bytes by store -/

/-- The order of `DiscoverySummary::stores`: by rank, then by name. -/
def StoreLe (a b : SourceKind) : Prop :=
  storeRank a < storeRank b ∨ storeRank a = storeRank b ∧ a.value ≤ b.value

instance : DecidableRel StoreLe := fun _ _ => inferInstanceAs (Decidable (_ ∨ _))

/-- A store, the files of a model's footprint when they could be listed, and the footprint. -/
structure StoreModel where
  kind : SourceKind
  files : Option (List Path)
  footprint : ℤ

/-- The files counted so far, and the bytes of each store by its name. -/
structure DiskTally (ι : Type) where
  counted : Finset ι
  perKind : Std.ExtTreeMap String ℤ

namespace DiskTally

def bytes (tally : DiskTally ι) (kind : SourceKind) : ℤ := tally.perKind[kind.value]?.getD 0

def add (tally : DiskTally ι) (kind : SourceKind) (bytes : ℤ) : DiskTally ι :=
  { tally with
    perKind := tally.perKind.insert kind.value (saturatingAddI64 (tally.bytes kind) bytes) }

variable [DecidableEq ι] (volume : Volume ι ν)

def countFile (kind : SourceKind) (tally : DiskTally ι) (file : Path) : DiskTally ι :=
  match volume.regular file with
  | none => tally
  | some id =>
    if id ∈ tally.counted then tally
    else { tally.add kind (volume.inode id).size with counted := insert id tally.counted }

def countModel (tally : DiskTally ι) (model : StoreModel) : DiskTally ι :=
  -- the store has an entry from its first model on, whatever is counted under it
  let tally : DiskTally ι :=
    { tally with perKind := tally.perKind.insert model.kind.value (tally.bytes model.kind) }
  match model.files with
  | none => tally.add model.kind model.footprint
  | some files => files.foldl (countFile volume model.kind) tally

end DiskTally

variable [DecidableEq ι]

def bytesByStore (volume : Volume ι ν) (models : List StoreModel) : Std.ExtTreeMap String ℤ :=
  ((models.insertionSort fun a b => StoreLe a.kind b.kind).foldl
    (DiskTally.countModel volume) ⟨∅, ∅⟩).perKind

def storeModel (volume : Volume ι ν) (record : Record ν) : StoreModel :=
  ⟨record.details.source.kind, volume.footprintFiles record, (sizeOnDisk record).getD 0⟩

def diskByStore (volume : Volume ι ν) (records : List (Record ν)) : Std.ExtTreeMap String ℤ :=
  bytesByStore volume
    ((records.filter fun record => record.state ≠ .missing).map (storeModel volume))

end Hedos.Discovery
