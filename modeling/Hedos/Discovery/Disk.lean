import Hedos.Lib.Primitives
import Mathlib.Algebra.Order.Ring.Int

/-!
# What discovery reads of a disk

Paths as their components, and one state of the disk as the answers its system calls give
(`Disk`). Above them the code's own walks: `entryOf` and `passedLinks`
(`kernel/src/discovery/duplicates.rs`), `placeOf` (`loose_file_scanner.rs`) and the content
fingerprint a record is followed by.
-/

namespace Hedos.Discovery

/-! ## Paths -/

inductive Component
  | rootDir
  | curDir
  | parentDir
  | normal (name : String)
deriving DecidableEq

/-- A path as `Path::components` gives it. -/
abbrev Path := List Component

def Component.ofPart (part : List Char) : Component :=
  if part = ['.'] then .curDir
  else if part = ['.', '.'] then .parentDir
  else .normal (String.ofList part)

/-- `Path::new`: repeated separators are one, and a `.` counts only in front. -/
def Path.ofString (path : String) : Path :=
  let parts := ((path.toList.splitOn '/').filter (· ≠ [])).map Component.ofPart
  if path.toList.head? = some '/' then .rootDir :: parts.filter (· ≠ .curDir)
  else parts.take 1 ++ (parts.drop 1).filter (· ≠ .curDir)

namespace Path

def hasRoot (path : Path) : Bool := path.head? == some .rootDir

def parent (path : Path) : Option Path :=
  match path.getLast? with
  | none | some .rootDir => none
  | some _ => some path.dropLast

def fileName (path : Path) : Option String :=
  match path.getLast? with
  | some (.normal name) => some name
  | _ => none

def join (path : Path) (name : String) : Path := path ++ [Component.normal name]

end Path

/-! ## One state of the disk -/

/-- The device and the inode. -/
abbrev Identity := ℕ × ℕ

structure Metadata where
  identity : Identity
  isFile : Bool
  size : ℕ
  links : ℕ
deriving DecidableEq

/-- What `lstat` gives. -/
structure LinkMetadata where
  identity : Identity
  isSymlink : Bool
deriving DecidableEq

/-- The answers of the system calls; `none` is an error. -/
structure Disk where
  currentDir : Path
  metadata : Path → Option Metadata
  symlinkMetadata : Path → Option LinkMetadata
  readLink : Path → Option Path
  /-- The names `read_dir` lists, entries it cannot read left out. -/
  readDir : Path → Option (List String)
  canonicalize : Path → Option Path
  /-- The bytes of a file opened as a regular one. -/
  openRegular : Path → Option Bytes
  sha256 : Bytes → Bytes

namespace Disk

variable (disk : Disk)

def isSymlink (path : Path) : Bool :=
  (disk.symlinkMetadata path).any LinkMetadata.isSymlink

def isFile (path : Path) : Bool := (disk.metadata path).any Metadata.isFile

/-- `Path::exists`. -/
def existsAt (path : Path) : Bool := (disk.metadata path).isSome

/-- `std::path::absolute`. -/
def absolute (path : Path) : Option Path :=
  if path = [] then none
  else if path.hasRoot then some path
  else some (disk.currentDir ++ path.filter (· ≠ .curDir))

/-- `path` with its directory resolved. -/
def entryOf (path : Path) : Option Path := do
  let name ← path.fileName
  let parent := match path.parent with
    | some (component :: rest) => component :: rest
    | _ => [.curDir]
  return (← disk.canonicalize parent).join name

/-- Where `path` is on disk, whichever way it was reached. -/
def placeOf (path : Path) : Path :=
  match path.parent.bind disk.canonicalize, path.fileName with
  | some dir, some name => dir.join name
  | _, _ => path

/-- A symlink with its own name as its directory lists it, found by the link's inode. -/
def spelledOnDisk (entry : Path) : Path :=
  match entry.parent, disk.symlinkMetadata entry with
  | some parent, some link =>
    match disk.readDir parent with
    | none => entry
    | some names =>
      match names.find? fun name =>
          (disk.symlinkMetadata (parent.join name)).any (·.identity = link.identity) with
      | some name => parent.join name
      | none => entry
  | _, _ => entry

def maxLinks : ℕ := 40

/-- The components of `path` to resolve next, ahead of those pending, starting again from its
root when it has one. -/
def plan (path resolved : Path) (pending : List Component) : Path × List Component :=
  let resolved := if path.hasRoot then [] else resolved
  (resolved ++ path.filter (· = .rootDir),
    path.filter (fun component => component ≠ .rootDir ∧ component ≠ .curDir) ++ pending)

/-- `PathBuf::pop`. -/
def pop (path : Path) : Path := path.parent.getD path

/-- The walk of `passed_links`: `left` links may still be followed. -/
def walk (left : ℕ) (resolved : Path) : List Component → List Path
  | [] => [(disk.canonicalize resolved).getD ((disk.entryOf resolved).getD resolved)]
  | .parentDir :: pending => walk left (pop resolved) pending
  | component :: pending =>
    let next := resolved ++ [component]
    if disk.isSymlink next then
      let link := ((disk.entryOf next).map disk.spelledOnDisk).getD next
      match disk.readLink next, left with
      | some target, left + 1 =>
        if left = 0 then [link]
        else
          let (resolved, pending) := plan target resolved pending
          link :: walk left resolved pending
      | _, _ => [link]
    else walk left next pending
termination_by pending => (left, pending.length)

/-- Every symlink `path` passes through, its own name included, then where it ends. -/
def passedLinks (path : Path) : List Path :=
  match disk.absolute path with
  | none => []
  | some start =>
    let (resolved, pending) := plan start [] []
    disk.walk maxLinks resolved pending

/-! ## The content fingerprint -/

def sampleSize : ℕ := 2 ^ 20

/-- `read_exact` of `length` bytes from `offset`. -/
def readExact (content : Bytes) (offset length : ℕ) : Option Bytes :=
  if offset + length ≤ content.length then some ((content.drop offset).take length) else none

def hexDigits : List Char :=
  ['0', '1', '2', '3', '4', '5', '6', '7', '8', '9', 'a', 'b', 'c', 'd', 'e', 'f']

/-- `hex::encode`. -/
def hexEncode (bytes : Bytes) : String :=
  String.ofList (bytes.flatMap fun byte =>
    [hexDigits.getD (byte.toNat / 16) '0', hexDigits.getD (byte.toNat % 16) '0'])

/-- The hash of the first and last megabyte of the file, or of the whole of a small one. -/
def contentFingerprint (path : Path) : Option String := do
  let size := (← disk.metadata path).size
  let content ← disk.openRegular path
  if size ≤ sampleSize * 2 then
    return hexEncode (disk.sha256 (content.take size))
  else
    let head ← readExact content 0 sampleSize
    let tail ← readExact content (size - sampleSize) sampleSize
    return hexEncode (disk.sha256 (head ++ tail))

end Disk

end Hedos.Discovery
