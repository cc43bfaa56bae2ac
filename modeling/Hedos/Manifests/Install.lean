import Hedos.Engines.Unpack
import Hedos.Lib.Transition

/-!
# Commands a manifest downloads

`location`, `installed`, `install` and `unpack` of `runtime/src/manifests/install.rs`, over the
manifests that `validate_install` and `validate_id` of `kernel/src/manifests/manifest.rs` let
through.

The files below `bin_root` are a map from their names to their bytes: directories are made as they
are needed, and writes and renames succeed. The digest and the tar reader are parameters (`Tools`).

* a call that fails changes nothing (`unpack_error`), one that succeeds puts the entry it names at
  its location and leaves every other place as it was, or empty (`unpack_ok`);
* a location has the slug of the id, half of a pin and the last name of the binary's path in it:
  calls with another pin or another path may share it (`installed_command_pinned_when_apart`).
-/

namespace Hedos.Manifests

open Hedos.Discovery (Path)
open Hedos.Engines (Entry Archive)

/-! ## Manifests -/

def validId (id : String) : Bool :=
  (id.toList.all fun c => c.isAlphanum || "._:-".toList.contains c) &&
    id.toList.any Char.isAlphanum && id.toList.any (· ≠ '.')

def validSha256 (sha256 : String) : Bool :=
  sha256.utf8ByteSize == 64 && sha256.toList.all fun c => c.isDigit || ('a' ≤ c && c ≤ 'f')

/-- A path inside the archive. -/
def validBinary (binary : String) : Bool :=
  !binary.isEmpty && (Path.ofString binary).all fun part =>
    match part with
    | .normal _ => true
    | _ => false

/-- One platform's build of an installed command, as `validate_install` lets it through. -/
structure InstallTarget where
  url : String
  sha256 : String
  binary : String
  https : "https://".toList.isPrefixOf url.toList = true
  pin : validSha256 sha256 = true
  inside : validBinary binary = true
deriving DecidableEq

/-- A manifest, as far as `[install]` goes; the targets are keyed by their triple. -/
structure RuntimeManifest where
  id : String
  targets : List (String × InstallTarget)
  allowed : validId id = true

inductive InstallError
  | noBuild (id target : String)
  | download (url reason : String)
  | checksum (url expected found : String)
  | noBinary (url binary : String)
  | write (path : List String) (reason : String)
deriving DecidableEq

/-- The build the manifest pins for this machine. -/
def hostBuild (target : String) (manifest : RuntimeManifest) :
    Except InstallError InstallTarget :=
  match manifest.targets.lookup target with
  | some build => .ok build
  | none => .error (.noBuild manifest.id target)

/-! ## Places -/

/-- `alphanumeric` is `char::is_alphanumeric`. -/
def slug (alphanumeric : Char → Bool) (id : String) : String :=
  String.ofList (id.toList.map fun c => if alphanumeric c then c else '-')

/-- The names of a file below `bin_root`. -/
abbrev Place := List String

/-- Ids are ASCII. -/
def location (manifest : RuntimeManifest) (build : InstallTarget) : Place :=
  let name := slug Char.isAlphanum manifest.id
  [name, String.ofList (build.sha256.toList.take 16),
    (Path.ofString build.binary).fileName.getD name]

/-- `Path::file_stem` of a name: what is before its last dot, if anything is. -/
def fileStem (name : String) : String :=
  let behind := name.toList.reverse.takeWhile (· ≠ '.')
  let before := (name.toList.reverse.drop (behind.length + 1)).reverse
  if before.isEmpty then name else String.ofList before

def withExtension (place : Place) (extension : String) : Place :=
  match place.getLast? with
  | some name => place.dropLast ++ [fileStem name ++ "." ++ extension]
  | none => place

/-! ## Files -/

abbrev Files := Place → Option Bytes

def Files.write (files : Files) (place : Place) (bytes : Bytes) : Files :=
  fun p => if p = place then some bytes else files p

def Files.rename (files : Files) (source target : Place) : Files :=
  fun p => if p = target then files source else if p = source then none else files p

/-- What the crates give. -/
structure Tools where
  /-- `hex::encode(Sha256::digest(archive))`. -/
  sha256 : Bytes → String
  /-- `tar::Archive::new(GzDecoder::new(archive)).entries()`. -/
  untar : Bytes → Archive

/-! ## Unpacking -/

def isNamed (binary : String) (entry : Entry) : Bool :=
  match entry.path with
  | .ok inside => Path.ofString inside == Path.ofString binary
  | .error _ => false

/-- The loop of `unpack`, up to the first entry with the path. -/
def findBinary (binary : String) : List (Except String Entry) → Except String (Option Bytes)
  | [] => .ok none
  | .error reason :: _ => .error reason
  | .ok entry :: rest =>
    if isNamed binary entry then
      match entry.readError with
      | some reason => .error reason
      | none => .ok (some entry.data)
    else findBinary binary rest

/-- The bytes of the entry that a build names as its binary. -/
def Tools.binary (tools : Tools) (build : InstallTarget) (archive : Bytes) :
    Except String (Option Bytes) :=
  match tools.untar archive with
  | .error reason => .error reason
  | .ok entries => findBinary build.binary entries

def unpack (tools : Tools) (manifest : RuntimeManifest) (build : InstallTarget) (archive : Bytes)
    (files : Files) : Except InstallError Place × Files :=
  let found := tools.sha256 archive
  if found ≠ build.sha256 then (.error (.checksum build.url build.sha256 found), files)
  else
    let path := location manifest build
    match tools.binary build archive with
    | .error reason => (.error (.write path reason), files)
    | .ok none => (.error (.noBinary build.url build.binary), files)
    | .ok (some binary) =>
      let partialPath := withExtension path "partial"
      (.ok path, (files.write partialPath binary).rename partialPath path)

def installed (target : String) (manifest : RuntimeManifest) (files : Files) : Option Place :=
  match hostBuild target manifest with
  | .error _ => none
  | .ok build =>
    let path := location manifest build
    if (files path).isSome then some path else none

/-- `install`, where the download gives `fetched`. -/
def install (tools : Tools) (target : String) (manifest : RuntimeManifest)
    (fetched : InstallTarget → Except InstallError Bytes) (files : Files) :
    Except InstallError Place × Files :=
  match installed target manifest files with
  | some path => (.ok path, files)
  | none =>
    match hostBuild target manifest with
    | .error error => (.error error, files)
    | .ok build =>
      match fetched build with
      | .error error => (.error error, files)
      | .ok archive => unpack tools manifest build archive files

/-! ## One call -/

section

variable {tools : Tools} {target : String} {manifest : RuntimeManifest} {build : InstallTarget}
  {archive : Bytes} {files : Files}

theorem Files.rename_write (files : Files) (source target place : Place) (bytes : Bytes) :
    (files.write source bytes).rename source target place =
      if place = target then some bytes else if place = source then none else files place := by
  simp only [Files.rename, Files.write, if_true]
  split
  · rfl
  · split <;> rfl

theorem unpack_error {error : InstallError} {files' : Files}
    (h : unpack tools manifest build archive files = (.error error, files')) : files' = files := by
  unfold unpack at h
  simp only at h
  split at h
  · cases h
    rfl
  · split at h
    · cases h
      rfl
    · cases h
      rfl
    · cases h

/-- What a call that succeeds does to the files. -/
theorem unpack_ok {path : Place} {files' : Files}
    (h : unpack tools manifest build archive files = (.ok path, files')) :
    tools.sha256 archive = build.sha256 ∧ path = location manifest build ∧
      ∃ binary, tools.binary build archive = .ok (some binary) ∧ files' path = some binary ∧
        ∀ place ≠ path, files' place = files place ∨ files' place = none := by
  unfold unpack at h
  simp only at h
  split at h
  · cases h
  · rename_i hpin
    split at h
    · cases h
    · cases h
    · rename_i binary hbinary
      cases h
      refine ⟨not_not.1 hpin, rfl, binary, hbinary, ?_, fun place hplace => ?_⟩
      · rw [Files.rename_write, if_pos rfl]
      · rw [Files.rename_write, if_neg hplace]
        split
        · exact .inr rfl
        · exact .inl rfl

end

/-! ## Runs -/

/-- A call of `unpack`. -/
structure Call where
  manifest : RuntimeManifest
  build : InstallTarget
  archive : Bytes

def step (tools : Tools) (files : Files) (call : Call) : Option Files :=
  some (unpack tools call.manifest call.build call.archive files).2

/-- An installed command of the manifest is the entry it names, of an archive that has its pin. -/
def IsPinned (tools : Tools) (target : String) (manifest : RuntimeManifest) (files : Files) :
    Prop :=
  ∀ build path, hostBuild target manifest = .ok build →
    installed target manifest files = some path →
    ∃ archive binary, tools.sha256 archive = build.sha256 ∧
      tools.binary build archive = .ok (some binary) ∧ files path = some binary

/-- A call with the archive it pins does not share the manifest's location, or shares its pin and
its binary's path too. -/
def Apart (tools : Tools) (target : String) (manifest : RuntimeManifest) (call : Call) : Prop :=
  ∀ build, hostBuild target manifest = .ok build →
    tools.sha256 call.archive = call.build.sha256 →
    location call.manifest call.build = location manifest build →
    call.build.sha256 = build.sha256 ∧ Path.ofString call.build.binary = Path.ofString build.binary

section

variable {tools : Tools} {target : String} {manifest : RuntimeManifest}

theorem installed_eq_some {build : InstallTarget} (hbuild : hostBuild target manifest = .ok build)
    {files : Files} {path : Place} (h : installed target manifest files = some path) :
    path = location manifest build ∧ (files path).isSome = true := by
  rw [installed, hbuild] at h
  simp only at h
  split at h
  · rename_i hfile
    cases h
    exact ⟨rfl, hfile⟩
  · cases h

theorem findBinary_congr {a b : String} (h : Path.ofString a = Path.ofString b)
    (entries : List (Except String Entry)) : findBinary a entries = findBinary b entries := by
  have hnamed : ∀ entry, isNamed a entry = isNamed b entry := by
    intro entry
    simp only [isNamed, h]
  induction entries with
  | nil => rfl
  | cons entry rest ih =>
    cases entry with
    | error reason => rfl
    | ok entry => rw [findBinary, findBinary, hnamed, ih]

theorem Tools.binary_congr {a b : InstallTarget}
    (h : Path.ofString a.binary = Path.ofString b.binary)
    (archive : Bytes) : tools.binary a archive = tools.binary b archive := by
  unfold Tools.binary
  cases tools.untar archive with
  | error reason => rfl
  | ok entries => exact findBinary_congr h entries

theorem isPinned_of_empty : IsPinned tools target manifest (fun _ => none) := by
  intro build path hbuild hinstalled
  exact absurd (installed_eq_some hbuild hinstalled).2 (by simp)

/-- A call that keeps apart from the manifest keeps its command the pinned one. -/
theorem isPinned_step {files files' : Files} {call : Call}
    (h : IsPinned tools target manifest files) (hapart : Apart tools target manifest call)
    (hstep : step tools files call = some files') : IsPinned tools target manifest files' := by
  cases hcall : unpack tools call.manifest call.build call.archive files with
  | mk answer after =>
    obtain rfl : after = files' := by
      simpa [step, hcall] using hstep
    cases answer with
    | error error =>
      rw [unpack_error hcall]
      exact h
    | ok path =>
      obtain ⟨hpin, rfl, binary, hbinary, hat, hothers⟩ := unpack_ok hcall
      intro build path hbuild hinstalled
      obtain ⟨rfl, hfile⟩ := installed_eq_some hbuild hinstalled
      by_cases hplace : location call.manifest call.build = location manifest build
      · obtain ⟨hsame, hpath⟩ := hapart build hbuild hpin hplace
        refine ⟨call.archive, binary, hpin.trans hsame, ?_, hplace ▸ hat⟩
        rw [← Tools.binary_congr hpath, hbinary]
      · -- elsewhere a file is as it was, since it is there
        rcases hothers (location manifest build) (Ne.symm hplace) with hkept | hgone
        · rw [hkept] at hfile ⊢
          refine h build _ hbuild ?_
          rw [installed, hbuild]
          simp only [hfile, if_true]
        · rw [hgone] at hfile
          cases hfile

/-- In every state that calls apart from a manifest reach from an empty `bin_root`, its installed
command is the pinned one; and a call that fails changes no file. -/
theorem installed_command_pinned_when_apart (tools : Tools) (target : String)
    (manifest : RuntimeManifest) (files : Files)
    (h : Transition.ReachableWhen (step tools)
      (fun _ call => Apart tools target manifest call) (· = fun _ => none) files) :
    IsPinned tools target manifest files ∧
      ∀ (call : Call) error files',
        unpack tools call.manifest call.build call.archive files = (.error error, files') →
        files' = files := by
  refine ⟨?_, fun call error files' hcall => unpack_error hcall⟩
  refine h.invariant ?_ fun files call files' hpinned hapart hstep => ?_
  · rintro files rfl
    exact isPinned_of_empty
  · exact isPinned_step hpinned hapart hstep

end

/-! ## Two commands of one archive -/

/-- An archive with an `old/tool` and a `new/tool`. -/
def twoTools : Bytes :=
  [31, 139, 8, 0, 0, 0, 0, 0, 2, 255, 203, 207, 73, 209, 47, 201, 207, 207, 97, 160, 33, 48, 0,
    2, 51, 19, 19, 48, 13, 4, 232, 52, 16, 24, 34, 177, 65, 226, 230, 38, 134, 70, 12, 10, 6,
    12, 116, 0, 165, 197, 37, 137, 69, 64, 43, 25, 70, 38, 112, 100, 24, 5, 35, 25, 228, 165,
    150, 15, 202, 252, 111, 100, 58, 154, 255, 233, 1, 156, 70, 179, 192, 40, 24, 5, 163, 96,
    20, 140, 72, 0, 0, 43, 86, 72, 50, 0, 12, 0, 0]

def regular (path : String) (data : Bytes) : Entry where
  path := .ok path
  kind := .file
  linkName := .ok none
  mode := some 0o644
  data := data
  readError := none

/-- What the crates give for that archive. -/
def twoToolsRead : Tools where
  sha256 bytes :=
    if bytes = twoTools then "d1951c4ed83eac36435ffd7035f8d6525a0c8188e1b2c95a2ae449e31397b7c0"
    else ""
  untar bytes :=
    if bytes = twoTools then .ok [.ok (regular "old/tool" [65]), .ok (regular "new/tool" [66])]
    else .error "invalid gzip header"

def oldTool : InstallTarget where
  url := "https://example.invalid/tool.tar.gz"
  sha256 := "d1951c4ed83eac36435ffd7035f8d6525a0c8188e1b2c95a2ae449e31397b7c0"
  binary := "old/tool"
  https := by decide +kernel
  pin := by decide +kernel
  inside := by decide +kernel

def newTool : InstallTarget where
  url := "https://example.invalid/tool.tar.gz"
  sha256 := "d1951c4ed83eac36435ffd7035f8d6525a0c8188e1b2c95a2ae449e31397b7c0"
  binary := "new/tool"
  https := by decide +kernel
  pin := by decide +kernel
  inside := by decide +kernel

def cliTool (build : InstallTarget) : RuntimeManifest where
  id := "cli:tool"
  targets := [("aarch64-apple-darwin", build)]
  allowed := by decide +kernel

/-- The files once the manifest with the old tool is installed. -/
def oldInstalled : Files :=
  (unpack twoToolsRead (cliTool oldTool) oldTool twoTools fun _ => none).2

theorem old_tool_is_pinned :
    installed "aarch64-apple-darwin" (cliTool oldTool) oldInstalled =
        some ["cli-tool", "d1951c4ed83eac36", "tool"] ∧
      IsPinned twoToolsRead "aarch64-apple-darwin" (cliTool oldTool) oldInstalled := by
  refine ⟨by decide +kernel, ?_⟩
  refine (installed_command_pinned_when_apart twoToolsRead "aarch64-apple-darwin" (cliTool oldTool)
    oldInstalled ?_).1
  refine .step (.init rfl) (a := ⟨cliTool oldTool, oldTool, twoTools⟩) ?_ rfl
  intro build hbuild _ _
  cases hbuild
  exact ⟨rfl, rfl⟩

/-- The manifest then names the new tool, and runs the old one. -/
theorem new_tool_runs_old : ∃ files,
    Transition.Reachable (step twoToolsRead) (· = fun _ => none) files ∧
      ¬ IsPinned twoToolsRead "aarch64-apple-darwin" (cliTool newTool) files := by
  refine ⟨oldInstalled, ?_, fun hpinned => ?_⟩
  · refine Transition.ReachableWhen.step (.init rfl) trivial
      (show step twoToolsRead (fun _ => none) ⟨cliTool oldTool, oldTool, twoTools⟩ = _ from rfl)
  · obtain ⟨archive, binary, hsha, hbinary, hat⟩ := hpinned newTool
      ["cli-tool", "d1951c4ed83eac36", "tool"] rfl (by decide +kernel)
    have harchive : archive = twoTools := by
      by_contra hne
      simp only [twoToolsRead, hne, if_false] at hsha
      exact absurd hsha (by decide +kernel)
    subst harchive
    have hnew : twoToolsRead.binary newTool twoTools = .ok (some [66]) := by decide +kernel
    have hold : oldInstalled ["cli-tool", "d1951c4ed83eac36", "tool"] = some [65] := by
      decide +kernel
    rw [hnew] at hbinary
    rw [hold] at hat
    cases hbinary
    cases hat

end Hedos.Manifests
