import Hedos.Config.Document
import Hedos.Lib.DirTree
import Hedos.Upstream.LineStream
import Mathlib

/-!
# Consent

`host_consent` (`runtime/src/manifests/consent.rs`) over the approvals that `approve_runtime` and
`revoke_runtime` (`runtime/src/settings.rs`) leave, and the `consent_hash`
(`runtime/src/manifests/store.rs`) of what a runtime consists of.

* no two runtimes are hashed alike, whatever their files (`digested_injective`);
* a runtime counts as approved exactly when the last that was done about its id is an approval of
  the very files it has (`approved_iff_covered`).
-/

namespace Hedos.Manifests.Consent

open Hedos.Config

/-- What is read of a file. -/
abbrev Content := { bytes : Bytes // bytes.length < 2 ^ 63 }

/-- What a file is called. -/
abbrev Name := { bytes : Bytes // (0 : UInt8) ∉ bytes }

/-! ## What is hashed -/

structure RuntimeManifest where
  id : String
  entrypoint : Option Bytes
  lockfile : Option Bytes
deriving DecidableEq

structure RuntimeDir where
  /-- A file that cannot be read has no content. -/
  entries : DirTree.Tree Name (Option Content)
  /-- What a path leads to that is joined to the directory. -/
  read : Bytes → Option Content
  /-- The CPU variant of a lockfile, unless the walk takes it. -/
  variant : Bytes → Option (Name × Content)

/-- A name that is no text is not hidden. -/
def isHidden (name : Name) : Bool :=
  (Upstream.fromUtf8 name.1).isSome && name.1.head? = some 46

def join : Option Name → Name → Name
  | none, name => name
  | some base, name => ⟨base.1 ++ 47 :: name.1, by simp [base.2, name.2]⟩

def collectFiles (base : Option Name) :
    DirTree.Tree Name (Option Content) → List (Name × Option Content)
  | .nil => []
  | .leaf name (.file content) rest =>
    (if isHidden name then [] else [(join base name, content)]) ++ collectFiles base rest
  | .leaf _ _ rest | .linkDir _ _ rest => collectFiles base rest
  | .dir name inside rest =>
    (if isHidden name then [] else collectFiles (some (join base name)) inside) ++
      collectFiles base rest

def manifestName : Bytes := "manifest.toml".toList.flatMap String.utf8EncodeChar

/-- A `(path, content)` pair. -/
abbrev Pair := Bytes × Option Content

def pairOf (file : Name × Option Content) : Pair := (file.1.1, file.2)

def declared (text : Content) (manifest : RuntimeManifest) (dir : RuntimeDir) : List Pair :=
  (manifestName, some text) ::
    (manifest.entrypoint.toList ++ manifest.lockfile.toList).map fun path => (path, dir.read path)

def walked (manifest : RuntimeManifest) (dir : RuntimeDir) : List (Name × Option Content) :=
  ((manifest.lockfile.bind dir.variant).map fun file => (file.1, some file.2)).toList ++
    ((collectFiles none dir.entries).filter (·.1.1 ≠ manifestName)).mergeSort (·.1.1 ≤ ·.1.1)

/-- The lowest bytes of a number, the lowest first. -/
def toLeBytes : ℕ → ℕ → Bytes
  | 0, _ => []
  | k + 1, n => UInt8.ofNat n :: toLeBytes k (n / 256)

/-- The path, a zero, the length and the content; of a file that is not there the greatest
length. -/
def absorb (pair : Pair) : Bytes :=
  pair.1 ++ 0 :: (toLeBytes 8 (pair.2.elim (2 ^ 64 - 1) (·.1.length)) ++ pair.2.elim [] (·.1))

/-- A manifest as it is found, in a directory or by itself. -/
structure Found (parse : Content → Option RuntimeManifest) where
  text : Content
  manifest : RuntimeManifest
  parsed : parse text = some manifest
  directory : Option RuntimeDir

namespace Found

variable {parse : Content → Option RuntimeManifest}

/-- What a runtime consists of. -/
def covered (found : Found parse) : Content × Option (List Pair) :=
  (found.text, found.directory.map fun dir => declared found.text found.manifest dir ++
    (walked found.manifest dir).map pairOf)

def digested (found : Found parse) : Bytes :=
  found.covered.2.elim found.text.1 (·.flatMap absorb)

/-- `consent_hash`. -/
def contentHash (sha256 : Bytes → String) (found : Found parse) : String := sha256 found.digested

end Found

/-! ## Approvals -/

inductive HostConsent
  | approved
  | changed
  | unapproved
deriving DecidableEq

def hostConsent (id : String) (contentHash : Option String) (models : ModelsSettings) :
    HostConsent :=
  if id ∉ models.approvedHostRuntimes then .unapproved
  else
    match models.approvedHostRuntimeHashes[id]?, contentHash with
    | some approved, some current => if approved = current then .approved else .changed
    | _, _ => .changed

/-- A call about a runtime, which is approved as it is found, or by its id alone. -/
inductive Decision (parse : Content → Option RuntimeManifest)
  | approve (found : Found parse) (network : Bool)
  | approveId (id : String) (network : Bool)
  | revoke (id : String)

namespace Decision

variable {parse : Content → Option RuntimeManifest}

def apply (sha256 : Bytes → String) (models : ModelsSettings) : Decision parse → ModelsSettings
  | approve found network =>
    models.approve found.manifest.id (some (found.contentHash sha256)) network
  | approveId id network => models.approve id none network
  | revoke id => models.revoke id

def hash (sha256 : Bytes → String) : Decision parse → Option String
  | approve found _ => some (found.contentHash sha256)
  | approveId _ _ | revoke _ => none

/-- The decision sets or drops the hash of the id. -/
def settles (id : String) : Decision parse → Bool
  | approve found _ => found.manifest.id = id
  | approveId _ _ => false
  | revoke other => other = id

end Decision

/-! ## Names and contents -/

theorem length_toLeBytes (k n : ℕ) : (toLeBytes k n).length = k := by
  induction k generalizing n with
  | zero => rfl
  | succ k ih => rw [toLeBytes, List.length_cons, ih]

theorem toLeBytes_injective (k : ℕ) {m n : ℕ} (hm : m < 256 ^ k) (hn : n < 256 ^ k)
    (h : toLeBytes k m = toLeBytes k n) : m = n := by
  induction k generalizing m n with
  | zero => omega
  | succ k ih =>
    obtain ⟨hlow, hhigh⟩ := List.cons.inj h
    have hmod : m % 256 = n % 256 := by simpa using congrArg UInt8.toNat hlow
    have hdiv : m / 256 = n / 256 := ih (by omega) (by omega) hhigh
    omega

/-- Behind the same path the content can be told from what follows. -/
theorem absorb_append {path : Bytes} {c c' : Option Content} {more more' : Bytes}
    (h : absorb (path, c) ++ more = absorb (path, c') ++ more') : c = c' ∧ more = more' := by
  simp only [absorb, List.append_assoc, List.cons_append, List.append_cancel_left_eq,
    List.cons.injEq, true_and] at h
  obtain ⟨hcount, hrest⟩ := List.append_inj h (by rw [length_toLeBytes, length_toLeBytes])
  have hsmall (c : Option Content) : c.elim (2 ^ 64 - 1) (·.1.length) < 256 ^ 8 := by
    cases c with
    | none => decide
    | some content => exact content.2.trans (by decide)
  have hlength := toLeBytes_injective 8 (hsmall c) (hsmall c') hcount
  cases c with
  | none =>
    cases c' with
    | none => exact ⟨rfl, hrest⟩
    | some content =>
      have hbound := content.2
      simp only [Option.elim_none, Option.elim_some] at hlength
      omega
  | some content =>
    cases c' with
    | none =>
      have hbound := content.2
      simp only [Option.elim_none, Option.elim_some] at hlength
      omega
    | some content' =>
      obtain ⟨hcontent, hmore⟩ := List.append_inj hrest (by simpa using hlength)
      exact ⟨congrArg some (Subtype.ext hcontent), hmore⟩

/-- Declared files: the same paths on both sides. -/
theorem absorb_declared {paths : List Bytes} {read read' : Bytes → Option Content}
    {more more' : Bytes}
    (h : (paths.map fun path => (path, read path)).flatMap absorb ++ more =
      (paths.map fun path => (path, read' path)).flatMap absorb ++ more') :
    (∀ path ∈ paths, read path = read' path) ∧ more = more' := by
  induction paths with
  | nil => exact ⟨by simp, h⟩
  | cons path paths ih =>
    simp only [List.map_cons, List.flatMap_cons, List.append_assoc] at h
    obtain ⟨hcontent, hrest⟩ := absorb_append h
    obtain ⟨hpaths, hmore⟩ := ih hrest
    exact ⟨List.forall_mem_cons.2 ⟨hcontent, hpaths⟩, hmore⟩

/-- Files of the disk: their names hold no zero. -/
theorem absorb_walked {files files' : List (Name × Option Content)}
    (h : (files.map pairOf).flatMap absorb = (files'.map pairOf).flatMap absorb) :
    files = files' := by
  induction files generalizing files' with
  | nil =>
    cases files' with
    | nil => rfl
    | cons file files' => simp [absorb] at h
  | cons file files ih =>
    cases files' with
    | nil => simp [absorb] at h
    | cons file' files' =>
      obtain ⟨name, content⟩ := file
      obtain ⟨name', content'⟩ := file'
      simp only [List.map_cons, List.flatMap_cons, pairOf] at h
      have hfront (name : Name) (more : Bytes) :
          (name.1 ++ 0 :: more).takeWhile (· ≠ 0) = name.1 := by
        have hname : ∀ byte ∈ name.1, decide (byte ≠ 0) = true := fun byte hbyte =>
          decide_eq_true (ne_of_mem_of_not_mem hbyte name.2)
        rw [List.takeWhile_append_of_pos hname]
        simp
      have hname : name = name' := by
        simp only [absorb, List.append_assoc, List.cons_append] at h
        have htaken := congrArg (List.takeWhile (· ≠ 0)) h
        rw [hfront, hfront] at htaken
        exact Subtype.ext htaken
      subst hname
      obtain ⟨rfl, hrest⟩ := absorb_append h
      rw [ih hrest]

variable {parse : Content → Option RuntimeManifest}

/-- What is hashed tells what a runtime consists of. A manifest is no manifest with a zero in it. -/
theorem digested_injective (hparse : ∀ text manifest, parse text = some manifest → 0 ∉ text.1)
    {found other : Found parse} (h : found.digested = other.digested) :
    found.covered = other.covered := by
  obtain ⟨text, manifest, hfound, directory⟩ := found
  obtain ⟨text', manifest', hother, directory'⟩ := other
  have hzero (text : Content) (manifest : RuntimeManifest) (dir : RuntimeDir) (rest : List Pair) :
      (0 : UInt8) ∈ (declared text manifest dir ++ rest).flatMap absorb := by
    simp [declared, absorb]
  simp only [Found.digested, Found.covered] at h ⊢
  cases directory with
  | none =>
    cases directory' with
    | none => simpa [Subtype.ext_iff] using h
    | some dir =>
      simp only [Option.map_none, Option.map_some, Option.elim_none, Option.elim_some] at h
      exact absurd (h ▸ hzero ..) (hparse _ _ hfound)
  | some dir =>
    cases directory' with
    | none =>
      simp only [Option.map_none, Option.map_some, Option.elim_none, Option.elim_some] at h
      exact absurd (h ▸ hzero ..) (hparse _ _ hother)
    | some dir' =>
      simp only [Option.map_some, Option.elim_some, declared, List.cons_append,
        List.flatMap_cons, List.flatMap_append] at h
      -- the manifest comes first, and says which other files are declared
      obtain ⟨htext, hrest⟩ := absorb_append h
      cases htext
      obtain rfl : manifest = manifest' := Option.some.inj (hfound.symm.trans hother)
      obtain ⟨hread, hfiles⟩ := absorb_declared hrest
      have hdeclared := List.map_congr_left fun path hpath =>
        congrArg (Prod.mk path) (hread path hpath)
      simp only [Option.map_some, declared, absorb_walked hfiles, hdeclared]

/-! ## Runs of decisions -/

theorem mem_pushUnique {list : List String} {value other : String} :
    other ∈ pushUnique list value ↔ other ∈ list ∨ other = value := by
  rw [pushUnique]
  split
  · rename_i hmem
    exact ⟨.inl, fun h => h.elim id (· ▸ hmem)⟩
  · simp

/-- The approvals for the host, whether or not there is one for the network. -/
theorem approve_host (models : ModelsSettings) (id : String) (hash : Option String)
    (network : Bool) :
    (models.approve id hash network).approvedHostRuntimes =
        pushUnique models.approvedHostRuntimes id ∧
      (models.approve id hash network).approvedHostRuntimeHashes =
        recordHash models.approvedHostRuntimeHashes id hash := by
  rw [ModelsSettings.approve]
  split <;> exact ⟨rfl, rfl⟩

/-- After any decisions, the hash of an id is that of the last approval that settled it. -/
theorem hash_of_decisions (sha256 : Bytes → String) (decisions : List (Decision parse))
    (id : String) :
    let models := decisions.foldl (Decision.apply sha256) {}
    models.approvedHostRuntimeHashes[id]? =
        (decisions.reverse.find? (·.settles id)).bind (Decision.hash sha256) ∧
      (id ∈ models.approvedHostRuntimeHashes → id ∈ models.approvedHostRuntimes) := by
  induction decisions using List.reverseRecOn with
  | nil => simp
  | append_singleton decisions decision ih =>
    obtain ⟨hhash, hlisted⟩ := ih
    simp only [List.foldl_append, List.foldl_cons, List.foldl_nil, List.reverse_append,
      List.reverse_singleton, List.singleton_append]
    generalize decisions.foldl (Decision.apply sha256) {} = models at hhash hlisted
    have hhost := approve_host models
    cases decision with
    | approve found network =>
      simp only [Decision.apply, hhost]
      by_cases hid : found.manifest.id = id
      · simp [Decision.settles, Decision.hash, hid, recordHash, mem_pushUnique]
      · simpa [Decision.settles, hid, recordHash, mem_pushUnique,
          Std.ExtTreeMap.getElem?_insert] using ⟨hhash, fun h => .inl (hlisted h)⟩
    | approveId other network =>
      simp only [Decision.apply, hhost]
      simpa [Decision.settles, recordHash, mem_pushUnique] using ⟨hhash, fun h => .inl (hlisted h)⟩
    | revoke other =>
      by_cases hid : other = id
      · simp [Decision.apply, Decision.settles, Decision.hash, ModelsSettings.revoke, hid]
      · simpa [Decision.apply, Decision.settles, ModelsSettings.revoke, hid, Ne.symm hid,
          Std.ExtTreeMap.getElem?_erase] using ⟨hhash, hlisted⟩

/-- A runtime is approved exactly when the last that settled its id is an approval of what it
consists of now. -/
theorem approved_iff_covered {sha256 : Bytes → String} (hsha256 : Function.Injective sha256)
    (hparse : ∀ text manifest, parse text = some manifest → 0 ∉ text.1)
    (decisions : List (Decision parse)) (found : Found parse) :
    hostConsent found.manifest.id (some (found.contentHash sha256))
        (decisions.foldl (Decision.apply sha256) {}) = .approved ↔
      ∃ seen network, decisions.reverse.find? (·.settles found.manifest.id) =
          some (.approve seen network) ∧ seen.covered = found.covered := by
  obtain ⟨hhash, hlisted⟩ := hash_of_decisions sha256 decisions found.manifest.id
  generalize decisions.foldl (Decision.apply sha256) {} = models at hhash hlisted
  have hsame (seen : Found parse) : seen.contentHash sha256 = found.contentHash sha256 ↔
      seen.covered = found.covered := by
    refine ⟨fun h => digested_injective hparse (hsha256 h), fun h => ?_⟩
    rw [Found.contentHash, Found.contentHash, Found.digested, Found.digested, h,
      show seen.text = found.text from congrArg Prod.fst h]
  rw [Std.ExtTreeMap.mem_iff_isSome_getElem?] at hlisted
  cases hfind : decisions.reverse.find? (·.settles found.manifest.id) with
  | none =>
    rw [hfind, Option.bind_none] at hhash
    simp only [hostConsent, hhash]
    split <;> simp
  | some decision =>
    rw [hfind, Option.bind_some] at hhash
    cases decision with
    | approve seen network =>
      have hin := hlisted (by rw [hhash]; rfl)
      simp [hostConsent, hhash, Decision.hash, hin, hsame]
    | approveId | revoke =>
      simp only [Decision.hash] at hhash
      simp only [hostConsent, hhash]
      split <;> simp

/-- Something injective in the place of the hash. -/
def latin (bytes : Bytes) : String := String.ofList (bytes.map Char.ofUInt8)

theorem latin_injective : Function.Injective latin := by
  have hchar : Function.Injective Char.ofUInt8 := fun a b h => by
    have hval := congrArg Char.val h
    exact UInt8.toUInt32_inj.1 hval
  exact fun a b h => List.map_injective_iff.2 hchar (String.ofList_injective h)

def parseOne (text : Content) : Option RuntimeManifest :=
  if 0 ∈ text.1 then none else some ⟨"one", none, none⟩

/-- A manifest, and a script with the given byte beside it. -/
def withScript (byte : UInt8) : Found parseOne where
  text := ⟨[97], by decide⟩
  manifest := ⟨"one", none, none⟩
  parsed := rfl
  directory := some
    { entries := .leaf ⟨[115, 104], by decide⟩ (.file (some ⟨[byte], by simp⟩)) .nil
      read := fun _ => none
      variant := fun _ => none }

theorem edited_script_is_not_approved :
    hostConsent "one" (some ((withScript 8).contentHash latin))
      ([Decision.approve (withScript 7) true, .approveId "one" false].foldl
        (Decision.apply latin) {}) ≠ .approved := by
  intro h
  have hparse : ∀ text manifest, parseOne text = some manifest → 0 ∉ text.1 := by
    intro text manifest h hzero
    simp [parseOne, hzero] at h
  obtain ⟨seen, network, hfind, hcovered⟩ :=
    (approved_iff_covered latin_injective hparse _ (withScript 8)).1 h
  obtain ⟨rfl, -⟩ : withScript 7 = seen ∧ true = network := by
    simpa [Decision.settles, withScript] using hfind
  have hshown : isHidden ⟨[115, 104], by decide⟩ = false := by decide
  have hother : ¬ ([115, 104] : Bytes) = manifestName := by decide
  simp [Found.covered, withScript, walked, collectFiles, join, declared, pairOf, hshown,
    hother] at hcovered

end Hedos.Manifests.Consent
