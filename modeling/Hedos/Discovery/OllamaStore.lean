import Hedos.Discovery.Disk
import Hedos.Lib.FileTree

/-!
# The files of an Ollama model

`exclusive_files` and `names_under` (`kernel/src/discovery/ollama_scanner.rs`) on one state of the
disk. Reading a manifest as JSON is a parameter. A directory is listed with the type of each of its
entries or not at all, since the code gives up at the first of them it cannot read.
-/

namespace Hedos.Discovery.OllamaStore

open FileTree (Seg Node)

/-- A directory entry by its names from the root down. -/
abbrev Place := List String

/-- A regular file, with its bytes unless it cannot be read, or something else. -/
inductive Stored
  | plain (content : Option Bytes)
  | special
deriving DecidableEq

/-- The disk: what stands where, what reading a directory lists, and how deep it goes. -/
structure Store where
  tree : FileTree.Tree String Stored
  listing : Place → Option (List String)
  cwd : Place
  /-- How many links a path may go through. -/
  limit : ℕ
  depth : ℕ
  /-- The root is a directory without standing in the tree. -/
  rootless : tree [] = none
  closed : ∀ dir name, (tree (dir ++ [name])).isSome → FileTree.IsDir tree dir
  listed : ∀ dir names name, listing dir = some names → (tree (dir ++ [name])).isSome → name ∈ names
  deep : ∀ place, (tree place).isSome → place.length ≤ depth

structure Layer where
  mediaType : String := ""
  size : ℤ := 0
  digest : String := ""
deriving DecidableEq

structure Manifest where
  layers : List Layer := []
  config : Option Layer := none
deriving DecidableEq

/-- The digest of every blob the manifest names: its config and its layers. -/
def Manifest.digests (manifest : Manifest) : List String :=
  (manifest.config.toList ++ manifest.layers).map Layer.digest

/-- Why an Ollama model's files are not deleted. -/
inductive StoreRefusal
  | manifestUnreadable
  | notAFile
  | outsideStore
  | oddDigest
  | otherManifestUnreadable
  | blobNotPlain
  | blobUnreadable
deriving DecidableEq

def StoreRefusal.text : StoreRefusal → String
  | .manifestUnreadable => "its manifest can't be read"
  | .notAFile => "its manifest isn't a file in Ollama's store"
  | .outsideStore => "its manifest isn't in Ollama's store"
  | .oddDigest => "its manifest names a blob Ollama would not"
  | .otherManifestUnreadable => "another manifest in Ollama's store can't be read"
  | .blobNotPlain => "one of its blobs isn't a plain file"
  | .blobUnreadable => "one of its blobs can't be read"

/-! ## The system calls -/

def segment : Component → Seg String
  | .rootDir => .root
  | .curDir => .cur
  | .parentDir => .parent
  | .normal name => .name name

/-- `Path::ancestors` and `nth`. -/
def ancestor : ℕ → Path → Option Path
  | 0, path => some path
  | n + 1, path => path.parent.bind (ancestor n)

namespace Store

variable (s : Store)

def resolve (follow : Bool) (path : Path) : Except FileTree.Error Place :=
  if path = [] then .error .notFound
  else FileTree.walk s.tree follow s.limit s.cwd (path.map segment)

/-- What stands at a place; the root is a directory. -/
def node (place : Place) : Option (Node String Stored) :=
  if place = [] then some .dir else s.tree place

def nodeOf (found : Except FileTree.Error Place) : Except FileTree.Error (Node String Stored) :=
  match found with
  | .error e => .error e
  | .ok place =>
    match s.node place with
    | some node => .ok node
    | none => .error .notFound

def symlinkMetadata (path : Path) : Except FileTree.Error (Node String Stored) :=
  s.nodeOf (s.resolve false path)

def canonicalize (path : Path) : Option Place :=
  match s.resolve true path with
  | .error _ => none
  | .ok place => if (s.node place).isSome then some place else none

/-- `read_regular`. -/
def readRegular (path : Path) : Option Bytes :=
  match s.nodeOf (s.resolve true path) with
  | .ok (.file (.plain content)) => content
  | _ => none

def isRealDir (path : Path) : Bool :=
  match s.symlinkMetadata path with
  | .ok .dir => true
  | _ => false

end Store

/-! ## Digests -/

def asciiLower (text : String) : String := String.ofList (text.toList.map Char.toLower)

def isHexDigit (c : Char) : Bool :=
  decide (c ∈ "0123456789abcdefABCDEF".toList)

/-- `sha256:` and 64 hex characters. -/
def isDigest (text : String) : Bool :=
  "sha256:".toList.isPrefixOf text.toList && (text.toList.drop 7).length == 64 &&
    (text.toList.drop 7).all isHexDigit

def isAsciiUppercase (c : Char) : Bool := decide (c ∈ "ABCDEFGHIJKLMNOPQRSTUVWXYZ".toList)

/-- A digest in the lowercase Ollama writes. -/
def canonical (digest : String) : Bool :=
  isDigest digest && !digest.toList.any isAsciiUppercase

/-- `replace(':', "-")`. -/
def blobName (digest : String) : String :=
  String.ofList (digest.toList.map fun c => if c = ':' then '-' else c)

def hidden (name : String) : Bool := name.toList.head? == some '.'

/-! ## The files to delete -/

section Files

variable (s : Store) (parse : Bytes → Option Manifest)

/-- What one entry of a directory names; a directory by `inside`. -/
def entryNames (skip : Place) (inside : Place → Option (List String)) (dir : Place)
    (name : String) : Option (List String) :=
  match s.tree (dir ++ [name]) with
  | some .dir => inside (dir ++ [name])
  | some (.file (.plain content)) =>
    if dir ++ [name] = skip then some []
    else
      match content.bind parse with
      | some other => some (other.digests.map asciiLower)
      | none => if hidden name then some [] else none
  | _ => none

/-- What the entries of a directory name, unless one fails. -/
def gatherNames (of : String → Option (List String)) : List String → Option (List String)
  | [] => some []
  | name :: rest => do
    let named ← of name
    let others ← gatherNames of rest
    return named ++ others

/-- The digests the manifests under a directory name, `skip` aside, through so many levels. -/
def namesUnder (skip : Place) : ℕ → Place → Option (List String)
  | 0, _ => none
  | left + 1, dir =>
    (s.listing dir).bind (gatherNames (entryNames s parse skip (namesUnder skip left) dir))

/-- The loop over the digests: the blobs to delete. -/
def ownBlobs (blobs : Path) (shared : List String) :
    List String → List String → Except StoreRefusal (List Path)
  | [], _ => .ok []
  | digest :: rest, seen =>
    if digest ∈ shared ∨ digest ∈ seen then ownBlobs blobs shared rest seen
    else
      match s.symlinkMetadata (blobs.join (blobName digest)) with
      | .ok (.file (.plain _)) =>
        (ownBlobs blobs shared rest (digest :: seen)).map (blobs.join (blobName digest) :: ·)
      | .ok _ => .error .blobNotPlain
      | .error .notFound => ownBlobs blobs shared rest (digest :: seen)
      | .error _ => .error .blobUnreadable

/-- A path of a root and names. -/
def plainPath (path : Path) : Bool :=
  path.all fun part => decide (part ≠ .curDir ∧ part ≠ .parentDir)

def isPlainFile : Node String Stored → Bool
  | .file (.plain _) => true
  | _ => false

def exclusiveFiles (manifest : Path) : Except StoreRefusal (List Path) :=
  match s.symlinkMetadata manifest with
  | .error .notFound => .ok []
  | .error _ => .error .manifestUnreadable
  | .ok metadata =>
    if !isPlainFile metadata || !plainPath manifest then .error .notAFile
    else
      match ancestor 4 manifest with
      | none => .error .outsideStore
      | some manifests =>
        match manifests.parent with
        | none => .error .outsideStore
        | some root =>
          match s.canonicalize manifest, s.canonicalize manifests with
          | some own, some dir =>
            if !dir.isPrefixOf own || manifests.fileName ≠ some "manifests" ||
                !s.isRealDir manifests || !s.isRealDir (root.join "blobs") then
              .error .outsideStore
            else
              match (s.readRegular manifest).bind parse with
              | none => .error .manifestUnreadable
              | some parsed =>
                if !parsed.digests.all canonical then .error .oddDigest
                else
                  -- no place lies deeper than the disk goes
                  match namesUnder s parse own (s.depth + 1) dir with
                  | none => .error .otherManifestUnreadable
                  | some shared =>
                    (ownBlobs s (root.join "blobs") shared parsed.digests []).map
                      (· ++ [manifest])
          | _, _ => .error .outsideStore

end Files

end Hedos.Discovery.OllamaStore
