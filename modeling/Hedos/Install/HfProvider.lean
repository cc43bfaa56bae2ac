import Hedos.Install.Service

/-!
# The Hugging Face provider under the install service

`install_keeping`, `run_install` and `clean_up_after_interruption` of
`runtime/src/install/huggingface.rs`, with what they call of `HFCacheWriter`
(`runtime/src/install/hf_cache.rs`), for the installs of one reference.

A provider task is spawned when the task of its install prepares. Each operation on the repo
directory is a step of its own; what the hub answers, how long the files are, which partials have
gone stale and when a task is scheduled is up to the run. The `select!` sees the receiver gone
where `run_install` waits: for the listing, for the bytes of a file and for its last send.
-/

namespace Hedos.Install.HuggingFace

open Service (Progress StreamEvent)

/-! ## The repo directory -/

/-- `models--<org>--<name>`; a file is its length. -/
structure Repo where
  directory : Bool := false
  blobsDir : Bool := false
  refsDir : Bool := false
  main : Option String := none
  snapshots : List String := []
  links : List (String × String) := []
  partials : List (String × ℕ) := []
  blobs : List (String × ℕ) := []
deriving DecidableEq

/-- What an install makes use of. -/
inductive Item
  | directory
  | refs
  | main
  | snapshot (revision : String)
  | incomplete (name : String)
deriving DecidableEq

namespace Repo

def hasPartial (repo : Repo) (name : String) : Bool := repo.partials.any (·.1 == name)

def hasBlob (repo : Repo) (name : String) : Bool := repo.blobs.any (·.1 == name)

def has (repo : Repo) : Item → Bool
  | .directory => repo.directory
  | .refs => repo.refsDir
  | .main => repo.main.isSome
  | .snapshot revision => repo.snapshots.contains revision
  | .incomplete name => repo.hasPartial name

def makeBlobs (repo : Repo) : Repo := { repo with directory := true, blobsDir := true }

def makeRefs (repo : Repo) : Repo := { repo with directory := true, refsDir := true }

def makeSnapshot (repo : Repo) (revision : String) : Repo :=
  { repo with directory := true, snapshots := revision :: repo.snapshots.erase revision }

def dropPartials (repo : Repo) (names : List String) : Repo :=
  { repo with partials := repo.partials.filter fun file => !names.contains file.1 }

def setPartial (repo : Repo) (name : String) (length : ℕ) : Repo :=
  { repo with partials := (name, length) :: (repo.dropPartials [name]).partials }

/-- A chunk is appended to the open file, wherever that is now. -/
def append (repo : Repo) (name : String) (length : ℕ) : Repo :=
  { repo with partials := repo.partials.map fun file =>
      if file.1 = name then (name, file.2 + length) else file }

/-- One partial is renamed to another. -/
def rename (repo : Repo) (old new : String) : Repo :=
  match repo.partials.find? (·.1 == old) with
  | some file => (repo.dropPartials [old]).setPartial new file.2
  | none => repo

/-- The partial becomes the blob of that name, or goes when there is one. -/
def land (repo : Repo) (name blob : String) : Repo :=
  match repo.partials.find? (·.1 == name) with
  | some file =>
    let repo := repo.dropPartials [name]
    if repo.hasBlob blob then repo else { repo with blobs := (blob, file.2) :: repo.blobs }
  | none => repo

/-! ### What the clean-up calls -/

def removeEmptyPlaceholders (repo : Repo) : Repo :=
  { repo with partials := repo.partials.filter fun file => file.2 != 0 }

/-- `remove_repo`: nothing is left. -/
def remove (_repo : Repo) : Repo := {}

def hasSubstantialProgress (repo : Repo) (minimumBytes : ℕ) : Bool :=
  (repo.blobs ++ repo.partials).any fun file => minimumBytes ≤ file.2

def hasCompletedBlob (repo : Repo) : Bool := !repo.blobs.isEmpty

/-- The two halves of `retreat_to_blobs_only`. -/
def retreatRefs (repo : Repo) : Repo := { repo with refsDir := false, main := none }

def retreatSnapshots (repo : Repo) : Repo := { repo with snapshots := [], links := [] }

end Repo

def weightKeepThreshold : ℕ := 10 * 2 ^ 20

/-! ## A provider task -/

inductive Stage
  | spawned
  | resolving
  /- `prepare_skeleton` -/
  | makingBlobs
  | makingSnapshot
  | makingRefs
  | writingMain
  | placing
  /-- `remove_stray_incompletes` and `remove_superseded_incompletes`. -/
  | reaping
  /- `download` of the first of the files -/
  | opening
  | fetching
  | linking (blob : String)
  /- behind the files -/
  | committing
  | clearing
  | finishing
  /- `clean_up_after_interruption`, with the error that led to it -/
  | sweeping (failure : Option InstallError)
  | deciding (failure : Option InstallError)
  | weighing (failure : Option InstallError)
  | removing (failure : Option InstallError)
  | checking (failure : Option InstallError)
  | retreatingRefs (failure : Option InstallError)
  | retreatingSnapshots (failure : Option InstallError)
  | reporting (error : InstallError)
  | ended
deriving DecidableEq

/-- The install has begun to prepare the repo, and works on it. -/
def Stage.isUsing : Stage → Bool
  | makingBlobs | makingSnapshot | makingRefs | writingMain | placing | reaping | opening
  | fetching | linking _ | committing | clearing | finishing => true
  | _ => false

def Stage.isCleaning : Stage → Bool
  | sweeping _ | deciding _ | weighing _ | removing _ | checking _ | retreatingRefs _
  | retreatingSnapshots _ => true
  | _ => false

/-- `files` are those still to be downloaded. `holds` is what the install has made use of and not
given up itself, which the code does not keep. -/
structure Provider where
  stage : Stage := .spawned
  repoExistedBefore : Bool := false
  revision : String := ""
  keeping : List String := []
  firstWeight : Option String := none
  files : List HFSibling := []
  holds : List Item := []
deriving DecidableEq

/-- What the world decides at a step. -/
inductive Move
  /-- The next operation. -/
  | go
  /-- The receiver is gone. -/
  | closed
  /-- The listing: the revision and the selection in the order of the download. -/
  | resolved (revision : String) (files : List HFSibling)
  /-- A request or an operation failed. -/
  | fail (error : InstallError)
  /-- The partials that are old enough and locked by no download. -/
  | stale (names : List String)
  | chunk (length : ℕ) (progress : Option Progress)
  /-- The server would not resume. -/
  | restart
  /-- The transfer is over; the hash of what was fetched. -/
  | fetched (digest : String)
  | finished (progress : Progress)
deriving DecidableEq

/-- What does not change: the service's own, the reference, the hash and what counts as a
weight. -/
structure Params where
  config : Service.Config
  reference : String
  hash : Bytes → String
  isWeight : HFSibling → Bool

/-- What a step of a provider task does. -/
structure Effect where
  provider : Provider
  repo : Repo
  told : Option (Except InstallError StreamEvent) := none

section

variable (params : Params)

def isUnsafe (revision : String) : Bool :=
  revision == "" || revision.toList.contains '/' || revision.toList.contains '\\' ||
    revision == "." || revision == ".."

/-- `run_install` goes on with the listing. -/
def Provider.resolved (p : Provider) (revision : String) (files : List HFSibling) : Provider :=
  if isUnsafe revision then
    { p with stage := .sweeping (some (.referenceInvalid
        (params.reference ++ " resolved to an unsafe revision"))) }
  else if !files.any params.isWeight then
    { p with stage := .sweeping (some (.transferFailed
        (params.reference ++ " has no model weights hedos knows how to download."))) }
  else
    { p with
      stage := .makingBlobs
      revision := revision
      files := files
      keeping := files.map fun file => pendingBlobName params.hash file revision
      firstWeight :=
        (files.find? params.isWeight).map fun file => pendingBlobName params.hash file revision }

/-- An operation that needs a directory fails without it. -/
def needing (there : Bool) (p : Provider) (repo : Repo) (effect : Effect) : Effect :=
  if there then effect
  else
    { provider := { p with stage := .sweeping (some (.localError "no such file or directory")) }
      repo }

/-- The first weight's placeholder, for a file of which there is nothing. -/
def Provider.place (p : Provider) (repo : Repo) : Effect :=
  match p.firstWeight with
  | none => { provider := { p with stage := .reaping }, repo }
  | some name =>
    if repo.hasPartial name then
      { provider := { p with stage := .reaping, holds := .incomplete name :: p.holds }, repo }
    else if repo.hasBlob name then { provider := { p with stage := .reaping }, repo }
    else
      needing repo.blobsDir p repo
        { provider := { p with stage := .reaping, holds := .incomplete name :: p.holds }
          repo := repo.setPartial name 0 }

/-- The partial of the file is taken up, or laid down. A partial that was named before the hash
was known is carried on from. -/
def Provider.openPartial (p : Provider) (file : HFSibling) (repo : Repo) : Effect :=
  let name := pendingBlobName params.hash file p.revision
  let unnamed := unnamedBlobName params.hash file.rfilename p.revision
  let nothingSaved := !repo.partials.any fun saved => saved.1 == name && saved.2 != 0
  let adopts := file.sha256.isSome && nothingSaved && repo.hasPartial unnamed
  let repo := if adopts then repo.rename unnamed name else repo
  let holds := if adopts then p.holds.filter (· ≠ .incomplete unnamed) else p.holds
  let opened := { p with stage := .fetching, holds := .incomplete name :: holds }
  if repo.hasPartial name then { provider := opened, repo }
  else needing repo.blobsDir p repo { provider := opened, repo := repo.setPartial name 0 }

def Provider.open (p : Provider) (file : HFSibling) (repo : Repo) : Effect :=
  match file.sha256.filter repo.hasBlob with
  | some sha =>
    let name := pendingBlobName params.hash file p.revision
    { provider :=
        { p with stage := .linking sha, holds := p.holds.filter (· ≠ .incomplete name) }
      repo := repo.dropPartials [name] }
  | none => p.openPartial params file repo

/-- Behind the last byte of a file. -/
def Provider.finish (p : Provider) (file : HFSibling) (digest : String) (repo : Repo) : Effect :=
  let name := pendingBlobName params.hash file p.revision
  let holds := p.holds.filter (· ≠ .incomplete name)
  if file.sha256.any (· ≠ digest) then
    { provider :=
        { p with stage := .sweeping (some (.checksumMismatch file.rfilename)), holds }
      repo := repo.dropPartials [name] }
  else
    let blob := file.sha256.getD digest
    needing (repo.hasPartial name) p repo
      { provider := { p with stage := .linking blob, holds }, repo := repo.land name blob }

/-- Where the clean-up leads. -/
def afterCleanUp : Option InstallError → Stage
  | some error => .reporting error
  | none => .ended

/-- A step of `clean_up_after_interruption`. -/
def Provider.cleanUp (p : Provider) (keep : Bool) (repo : Repo) : Option Effect :=
  let goTo (stage : Stage) (repo : Repo) : Option Effect :=
    some { provider := { p with stage }, repo }
  match p.stage with
  | .sweeping failure => goTo (.deciding failure) repo.removeEmptyPlaceholders
  | .deciding failure =>
    goTo (if p.repoExistedBefore || keep then afterCleanUp failure else .weighing failure) repo
  | .weighing failure =>
    goTo (if repo.hasSubstantialProgress weightKeepThreshold then .checking failure
      else .removing failure) repo
  | .removing failure => goTo (afterCleanUp failure) repo.remove
  | .checking failure =>
    goTo (if repo.hasCompletedBlob then afterCleanUp failure else .retreatingRefs failure) repo
  | .retreatingRefs failure => goTo (.retreatingSnapshots failure) repo.retreatRefs
  | .retreatingSnapshots failure => goTo (afterCleanUp failure) repo.retreatSnapshots
  | _ => none

/-- A step of the provider task; `gone` is whether the receiver is gone, `keep` the flag that
`stop_keeping` sets. -/
def Provider.act (p : Provider) (gone keep : Bool) (repo : Repo) (move : Move) : Option Effect :=
  match p.stage, move with
  | .spawned, .go =>
    some
      { provider := { p with stage := .resolving, repoExistedBefore := repo.directory }
        repo, told := some (.ok (.status ("Resolving " ++ params.reference))) }
  | .resolving, .resolved revision files =>
    some { provider := p.resolved params revision files, repo }
  | .makingBlobs, .go =>
    some
      { provider := { p with stage := .makingSnapshot, holds := .directory :: p.holds }
        repo := repo.makeBlobs }
  | .makingSnapshot, .go =>
    some
      { provider := { p with stage := .makingRefs, holds := .snapshot p.revision :: p.holds }
        repo := repo.makeSnapshot p.revision }
  | .makingRefs, .go =>
    some
      { provider := { p with stage := .writingMain, holds := .refs :: p.holds }
        repo := repo.makeRefs }
  | .writingMain, .go =>
    let p' := { p with stage := .placing, holds := .main :: p.holds }
    if repo.main.isSome then some { provider := p', repo }
    else
      some (needing repo.refsDir p repo
        { provider := p', repo := { repo with main := some p.revision } })
  | .placing, .go => some (p.place repo)
  | .reaping, .stale names =>
    let p := { p with stage := if p.files.isEmpty then .committing else .opening }
    some { provider := p, repo := repo.dropPartials (names.filter (!p.keeping.contains ·)) }
  | .opening, .go => p.files.head?.map fun file => p.open params file repo
  | .fetching, .chunk length progress =>
    p.files.head?.map fun file =>
      { provider := p
        repo := repo.append (pendingBlobName params.hash file p.revision) length
        told := progress.map fun progress => .ok (.progress progress) }
  | .fetching, .restart =>
    p.files.head?.map fun file => needing repo.blobsDir p repo
      { provider := p, repo := repo.setPartial (pendingBlobName params.hash file p.revision) 0 }
  | .fetching, .fetched digest => p.files.head?.map fun file => p.finish params file digest repo
  | .linking _, .go =>
    p.files.head?.map fun file =>
      { provider :=
          { p with
            stage := if p.files.tail.isEmpty then .committing else .opening
            files := p.files.tail }
        repo :=
          { repo.makeSnapshot p.revision with
            links := (p.revision, file.rfilename) :: repo.links } }
  | .committing, .go =>
    some (needing repo.refsDir p repo
      { provider := { p with stage := .clearing }, repo := { repo with main := some p.revision } })
  | .clearing, .stale names =>
    some
      { provider :=
          { p with stage := .finishing, holds := p.holds.filter fun item =>
              !names.any fun name => item == .incomplete name }
        repo := repo.dropPartials names }
  | .finishing, .finished progress =>
    some { provider := { p with stage := .ended }, repo, told := some (.ok (.progress progress)) }
  | .resolving, .closed | .fetching, .closed | .finishing, .closed =>
    if gone then some { provider := { p with stage := .sweeping none }, repo } else none
  | .reporting error, .go =>
    some { provider := { p with stage := .ended }, repo, told := some (.error error) }
  | stage, .fail error =>
    if stage == .resolving || stage.isUsing then
      some { provider := { p with stage := .sweeping (some error) }, repo }
    else none
  | _, .go => p.cleanUp keep repo
  | _, _ => none

end

/-! ## The service and its provider tasks -/

structure World where
  service : Service.State := {}
  repo : Repo := {}
  providers : ℕ → Option Provider := fun _ => none

inductive Action
  | service (action : Service.Action)
  | provider (i : ℕ) (move : Move)

/-- The installs whose provider task this is about. -/
def Params.isOurs (params : Params) (task : Service.Task) : Bool :=
  task.plan.provider == "huggingface" && task.plan.reference == params.reference

/-- The provider task that a step of the service spawns. -/
def spawned (params : Params) (service : Service.State) : Service.Action → Option ℕ
  | .task i =>
    (service.tasks i).bind fun task =>
      if task.pc = .preparing && params.isOurs task then some i else none
  | _ => none

/-- A stream of ours is sent into and closed by its provider task only. -/
def isForeign (params : Params) (service : Service.State) : Service.Action → Bool
  | .push i _ | .close i => (service.tasks i).any fun task => !params.isOurs task
  | _ => true

def tell (service : Service.State) (i : ℕ) :
    Option (Except InstallError StreamEvent) → Service.State
  | some item =>
    (Service.stepProvider service i fun task => { task with queue := task.queue ++ [item] }).getD
      service
  | none => service

/-- The sender is dropped when the task returns. -/
def hangUp (service : Service.State) (i : ℕ) : Stage → Service.State
  | .ended => (Service.stepProvider service i fun task => { task with closed := true }).getD service
  | _ => service

def isGone (service : Service.State) (i : ℕ) : Bool :=
  (service.tasks i).all fun task => !task.hasReceiver

def isKept (service : Service.State) (i : ℕ) : Bool := (service.tasks i).any (·.keep)

def step (params : Params) (w : World) : Action → Option World
  | .service action =>
    if isForeign params w.service action then
      (Service.step params.config w.service action).map fun service =>
        { w with
          service
          providers := (spawned params w.service action).elim w.providers fun i =>
            Function.update w.providers i (some {}) }
    else none
  | .provider i move =>
    (w.providers i).bind fun p =>
      (p.act params (isGone w.service i) (isKept w.service i) w.repo move).map fun effect =>
        { service := hangUp (tell w.service i effect.told) i effect.provider.stage
          repo := effect.repo
          providers := Function.update w.providers i (some effect.provider) }

end Hedos.Install.HuggingFace
