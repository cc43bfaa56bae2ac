import Hedos.Manifests.Install
import Hedos.Lib.DirTree

/-!
# Community runtimes under runtimes.d

`ManifestInstaller` of `runtime/src/manifests/community.rs`: `install`, `uninstall`,
`require_installable`, `load_manifest` and `copy_dir_recursive`, with `RuntimeProvenance` of
`kernel/src/manifests/provenance.rs` and `write_atomic` of `kernel/src/persistence.rs` under it.

`runtimes.d` is a directory, or missing; a recipe is a directory or a file of its own. Every step of
the disk may fail (`Disk.fails`), and a copy or write that fails may leave a part of its file. A
recipe directory that `runtimes.d` lies in is copied into itself until a step fails.
-/

namespace Hedos.Manifests.Community

open DirTree (Leaf Node Seen RemoveStep)

/-- The entries of a directory. -/
abbrev Tree := DirTree.Tree String Bytes

/-- The names of an entry below the destination. -/
abbrev Place := List String

/-! ## The disk -/

/-- What `write_atomic` does. -/
inductive WriteStep
  | parent
  | create
  | write
  | sync
  | rename
  /-- The temporary file is removed after a step that failed. -/
  | cleanUp
deriving DecidableEq

inductive Step
  | readManifest
  | makeRuntimes
  | makeDir (place : Place)
  | readDir (place : Place)
  /-- `entry?` and `entry.file_type()?`. -/
  | entry (place : Place)
  | copy (place : Place)
  | provenance (step : WriteStep)
  | remove (step : RemoveStep String)
deriving DecidableEq

/-- What one call meets. -/
structure Disk where
  /-- The text of the error, when the step fails. -/
  fails : Step → Option String
  /-- What is there of the file after a copy or a write that failed. -/
  left : Place → Option Bytes
  /-- `unique_suffix()`. -/
  suffix : String
  now : ℤ

def isADirectory : String := "Is a directory (os error 21)"

def fileExists : String := "File exists (os error 17)"

def noSuchFile : String := "No such file or directory (os error 2)"

/-- What `std::fs::copy` says of a source that is no file. -/
def notAFile : String := "the source path is neither a regular file nor a symlink to a regular file"

/-- A symbolic link that leads nowhere lies where the destination goes, and cannot be made a
directory. -/
def Disk.blocked (disk : Disk) (blocked : Bool) : Disk :=
  { disk with
    fails := fun step =>
      if blocked ∧ step = .makeDir [] then some ((disk.fails step).getD fileExists)
      else disk.fails step }

/-! ## Manifests and provenance -/

/-- A manifest, as far as installing it goes. -/
structure Manifest where
  id : String
  /-- It has a `[vm]` section. -/
  vm : Bool
  allowed : validId id = true

/-- What `toml` and `serde_json` make of the files. -/
structure Formats where
  /-- `RuntimeManifest::parse` of the text that the bytes are. -/
  parse : Bytes → Except String Manifest
  /-- The provenance of a community install made then, as `write` writes it. -/
  community : ℤ → Bytes
  /-- The origin in a provenance that can be read. -/
  origin : Bytes → Option String
  origin_community : ∀ now, origin (community now) = some "community"

inductive ManifestError
  | failed (text : String)
deriving DecidableEq

def manifestName : String := "manifest.toml"

def provenanceName : String := ".provenance.json"

/-- `RuntimeProvenance::read` of a directory. -/
def Formats.provenance (formats : Formats) (inside : Tree) : Option String :=
  match inside.look [provenanceName] with
  | some (.file bytes) => formats.origin bytes
  | _ => none

def Formats.isCommunity (formats : Formats) (inside : Tree) : Bool :=
  formats.provenance inside = some "community"

/-- The id in the manifest of a directory. -/
def Formats.manifestId (formats : Formats) (inside : Tree) : Option String :=
  match inside.look [manifestName] with
  | some (.file bytes) => (formats.parse bytes).toOption.map Manifest.id
  | _ => none

/-- What the manifest file of a source holds: a directory's `manifest.toml`, or the file. -/
def manifestFile : Node String Bytes → Option Bytes
  | .leaf entry => entry.content
  | .dir inside | .linkDir inside =>
    match inside.look [manifestName] with
    | some (.file bytes) => some bytes
    | _ => none

/-- The manifest at a source that is `shown` so in messages. -/
def loadManifest (formats : Formats) (disk : Disk) (source : Node String Bytes) (shown : String) :
    Except ManifestError Manifest :=
  match manifestFile source with
  | none => .error (.failed s!"no manifest.toml at {shown}")
  | some bytes =>
    match disk.fails .readManifest with
    | some error => .error (.failed error)
    | none =>
      match formats.parse bytes with
      | .error error => .error (.failed error)
      | .ok manifest => .ok manifest

/-- The ids an installer keeps back. -/
abbrev Reserved := List String

def requireInstallable (reserved : Reserved) (manifest : Manifest) : Except ManifestError Unit :=
  if manifest.vm = false then
    .error (.failed s!"community runtimes run contained, so {manifest.id} needs a [vm] section")
  else if reserved.contains manifest.id then
    .error (.failed s!"id \"{manifest.id}\" is reserved")
  else .ok ()

/-! ## Copying -/

/-- `std::fs::copy` of one entry: the result, and what then lies at the place. -/
def copyFile (disk : Disk) (entry : Leaf Bytes) (place : Place) :
    Except String Unit × Option (Node String Bytes) :=
  match entry with
  | .link none => (.error noSuchFile, none)
  | .other => (.error notAFile, none)
  | .file bytes | .link (some bytes) =>
    match disk.fails (.copy place) with
    | some error => (.error error, (disk.left place).map fun part => .leaf (.file part))
    | none => (.ok (), some (.leaf (.file bytes)))

/-- A directory is made at the place and filled by `loop`. -/
def copyInto (disk : Disk) (place : Place) (loop : Except String Unit × Tree) :
    Except String Unit × Option (Node String Bytes) :=
  match disk.fails (.makeDir place) with
  | some error => (.error error, none)
  | none =>
    match disk.fails (.readDir place) with
    | some error => (.error error, some (.dir .nil))
    | none => (loop.1, some (.dir loop.2))

def keep (name : String) (node : Option (Node String Bytes)) (rest : Tree) : Tree :=
  match node with
  | some node => .cons name node rest
  | none => rest

/-- One entry is copied, and when that went well the rest. -/
def thenCopy (disk : Disk) (place : Place) (name : String)
    (one : Except String Unit × Option (Node String Bytes)) (rest : Except String Unit × Tree) :
    Except String Unit × Tree :=
  match disk.fails (.entry (place ++ [name])) with
  | some error => (.error error, .nil)
  | none =>
    match one with
    | (.error error, made) => (.error error, keep name made .nil)
    | (.ok (), made) => (rest.1, keep name made rest.2)

/-- The loop of `copy_dir_recursive`. -/
def copyEntries (disk : Disk) : Tree → Place → Except String Unit × Tree
  | .nil, _ => (.ok (), .nil)
  | .leaf name entry rest, place =>
    thenCopy disk place name (copyFile disk entry (place ++ [name])) (copyEntries disk rest place)
  -- `file_type` does not follow the link, `copy` does.
  | .linkDir name _ rest, place =>
    thenCopy disk place name (.error notAFile, none) (copyEntries disk rest place)
  | .dir name inside rest, place =>
    thenCopy disk place name
      (copyInto disk (place ++ [name]) (copyEntries disk inside (place ++ [name])))
      (copyEntries disk rest place)

def copyDirRecursive (disk : Disk) (src : Tree) (place : Place) :
    Except String Unit × Option (Node String Bytes) :=
  copyInto disk place (copyEntries disk src place)

/-- A manifest that is a file of its own. -/
def copyManifest (disk : Disk) (entry : Leaf Bytes) :
    Except String Unit × Option (Node String Bytes) :=
  match disk.fails (.makeDir []) with
  | some error => (.error error, none)
  | none =>
    match copyFile disk entry [manifestName] with
    | (result, made) => (result, some (.dir (keep manifestName made .nil)))

def copyRecipe (disk : Disk) (source : Node String Bytes) :
    Except String Unit × Option (Node String Bytes) :=
  match source with
  | .leaf entry => copyManifest disk entry
  | .dir inside | .linkDir inside => copyDirRecursive disk inside []

/-! ## The provenance stamp -/

/-- `temp_sibling` of the provenance. -/
def Disk.temp (disk : Disk) : String := ".." ++ ("provenance.json.tmp-" ++ disk.suffix)

/-- A step of `write_atomic` failed, and the temporary file is removed if it can be. -/
def Disk.cleanUp (disk : Disk) (inside : Tree) (error : String) : Except String Unit × Tree :=
  match disk.fails (.provenance .cleanUp) with
  | some _ => (.error error, inside)
  | none =>
    if inside.look [disk.temp] = some .directory then (.error error, inside)
    else (.error error, inside.erase disk.temp)

/-- `write_atomic` of the provenance. -/
def writeAtomic (disk : Disk) (inside : Tree) (bytes : Bytes) : Except String Unit × Tree :=
  let step (step : WriteStep) := disk.fails (.provenance step)
  let temp (bytes : Bytes) := inside.put disk.temp (.leaf (.file bytes))
  match step .parent with
  | some error => (.error error, inside)
  | none =>
    if inside.look [disk.temp] = some .directory then disk.cleanUp inside isADirectory
    else match step .create, step .write, step .sync, step .rename with
    | some error, _, _, _ => disk.cleanUp inside error
    | none, some error, _, _ => disk.cleanUp (temp ((disk.left [disk.temp]).getD [])) error
    | none, none, some error, _ | none, none, none, some error => disk.cleanUp (temp bytes) error
    | none, none, none, none =>
      if inside.look [provenanceName] = some .directory then
        disk.cleanUp (temp bytes) isADirectory
      else
        (.ok (), ((temp bytes).erase disk.temp).put provenanceName (.leaf (.file bytes)))

/-! ## The installer -/

/-- `runtimes.d`, when there is one. -/
abbrev Runtimes := Option Tree

/-- What lies at the path that joins the name to that of `runtimes.d`. -/
def Runtimes.destination (runtimes : Runtimes) (name : String) : Option (Node String Bytes) :=
  match runtimes with
  | none => none
  | some content => if name = "" then some (.dir content) else content.get? name

def Runtimes.exists (runtimes : Runtimes) (name : String) : Bool :=
  (runtimes.destination name).any Node.leads

/-- The copy and the stamp, in a directory that is not there yet. -/
def fill (formats : Formats) (disk : Disk) (source : Node String Bytes) :
    Except String Unit × Option (Node String Bytes) :=
  match copyRecipe disk source with
  | (.ok (), some (.dir inside)) =>
    match writeAtomic disk inside (formats.community disk.now) with
    | (result, inside) => (result, some (.dir inside))
  | made => made

/-- The result, and `runtimes.d` after it. -/
def install (formats : Formats) (alphanumeric : Char → Bool) (reserved : Reserved) (disk : Disk)
    (runtimes : Runtimes) (source : Node String Bytes) (shown : String) :
    Except ManifestError String × Runtimes :=
  match loadManifest formats disk source shown with
  | .error error => (.error error, runtimes)
  | .ok manifest =>
    match requireInstallable reserved manifest with
    | .error error => (.error error, runtimes)
    | .ok () =>
      let name := slug alphanumeric manifest.id
      if runtimes.exists name then
        (.error (.failed s!"a runtime named {manifest.id} is already installed"), runtimes)
      else
        match disk.fails .makeRuntimes with
        | some error => (.error (.failed error), runtimes)
        | none =>
          let content := runtimes.getD .nil
          match fill formats (disk.blocked (content.get? name).isSome) source with
          | (.error error, made) => (.error (.failed error), some (keep name made content))
          | (.ok (), made) => (.ok manifest.id, some (keep name made content))

/-- `remove_dir_all` of what lies at the name: a symbolic link goes as a link. -/
def removeDirAll (disk : Disk) (runtimes : Runtimes) (name : String) (node : Node String Bytes) :
    Except String Unit × Runtimes :=
  let fails (step : RemoveStep String) := disk.fails (.remove step)
  match node with
  | .leaf _ | .linkDir _ =>
    match fails (.unlink []) with
    | some error => (.error error, runtimes)
    | none => (.ok (), runtimes.map (·.erase name))
  | .dir inside =>
    match inside.removeAll fails [] with
    | (result, left) =>
      if name = "" then (result, left)
      else match left with
        | none => (result, runtimes.map (·.erase name))
        | some left => (result, runtimes.map (·.replace name (.dir left)))

def uninstall (formats : Formats) (alphanumeric : Char → Bool) (disk : Disk) (runtimes : Runtimes)
    (id : String) : Except ManifestError Unit × Runtimes :=
  let name := slug alphanumeric id
  match runtimes.destination name with
  | none => (.error (.failed s!"no installed runtime named {id}"), runtimes)
  | some node =>
    if node.leads = false then (.error (.failed s!"no installed runtime named {id}"), runtimes)
    else if node.inside.any formats.isCommunity = false then
      (.error (.failed s!"{id} was not installed by Hedos; remove it by hand from runtimes.d"),
        runtimes)
    else
      match removeDirAll disk runtimes name node with
      | (.error error, after) => (.error (.failed error), after)
      | (.ok (), after) => (.ok (), after)

end Hedos.Manifests.Community
