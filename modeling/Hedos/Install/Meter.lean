import Hedos.Install.Service

/-!
# The progress of a pull

`HFCacheWriter::present_bytes` (`runtime/src/install/hf_cache.rs`) and `InstallProgressMeter`,
`summed_bytes`, `partial` and the loop over the files of `run_install`
(`runtime/src/install/huggingface.rs`), on the `download` of `HfCache.lean`.

An `i64` is an integer, wrapped where the code adds with `+` and `-`.
-/

namespace Hedos.Install.Meter

open Hedos.Install.Service (Progress)

/-! ## Sizes -/

section

variable (hash : Bytes → String)

/-- What `present_bytes` adds for one file. -/
def presentOf (cache : Cache) (revision : String) (sibling : HFSibling) : ℤ :=
  match sibling.sha256.filter fun sha => (cache.blobs sha).isSome with
  | some _ => max (sibling.bytes.getD 0) 0
  | none =>
    -- a partial longer than its file counts as the file
    let size := ((cache.incompletes (pendingBlobName hash sibling revision)).getD []).length
    max (min (size : ℤ) (sibling.bytes.getD i64Max)) 0

def presentBytes (cache : Cache) (revision : String) (selection : List HFSibling) : ℤ :=
  selection.foldl (fun present sibling =>
    saturatingAddI64 present (presentOf hash cache revision sibling)) 0

end

/-- `summed_bytes`. -/
def summedBytes (selection : List HFSibling) : Option ℤ :=
  match selection.filterMap HFSibling.bytes with
  | [] => none
  | sizes => some (sizes.foldl saturatingAddI64 0)

/-- `partial`. -/
def isPartial (selection : List HFSibling) : Bool :=
  selection.any fun sibling => sibling.bytes.isNone

/-! ## The meter -/

structure MeterState where
  present : ℤ
  onDisk : ℤ := 0
  fetched : ℤ := 0
  currentFile : Option String := none
  lastEmittedBytes : ℤ := 0
  fresh : Bool := false
deriving DecidableEq

structure InstallProgressMeter where
  totalBytes : Option ℤ
  totalIsPartial : Bool
  state : MeterState
deriving DecidableEq

def emitBytes : ℤ := 8 * 2 ^ 20

def MeterState.downloaded (state : MeterState) : ℤ :=
  wrapI64 (max state.present state.onDisk + state.fetched)

namespace InstallProgressMeter

def new (totalBytes : Option ℤ) (totalIsPartial : Bool) (presentBytes : ℤ) :
    InstallProgressMeter :=
  { totalBytes, totalIsPartial, state := { present := max presentBytes 0 } }

def snapshot (meter : InstallProgressMeter) : Progress :=
  { bytesDownloaded := max meter.state.downloaded 0
    totalBytes := meter.totalBytes
    totalIsPartial := meter.totalIsPartial
    currentFile := meter.state.currentFile }

def beginFile (meter : InstallProgressMeter) (file : String) : InstallProgressMeter :=
  { meter with state := { meter.state with currentFile := some file, fresh := true } }

/-- A snapshot is due. -/
def emit (meter : InstallProgressMeter) : InstallProgressMeter × Option Progress :=
  let meter := { meter with state := { meter.state with
    fresh := false
    lastEmittedBytes := meter.state.downloaded } }
  (meter, some meter.snapshot)

/-- `add`; `late` says that the interval since the last snapshot is over. -/
def add (meter : InstallProgressMeter) (landed : Landed) (late : Bool) :
    InstallProgressMeter × Option Progress :=
  match landed with
  | .onDisk bytes =>
    ({ meter with state := { meter.state with onDisk := wrapI64 (meter.state.onDisk + bytes) } },
      none)
  | .discarded bytes =>
    { meter with
      state := { meter.state with fetched := wrapI64 (meter.state.fetched - bytes) } }.emit
  | .fetched bytes =>
    let meter :=
      { meter with state := { meter.state with fetched := wrapI64 (meter.state.fetched + bytes) } }
    if meter.state.fresh ∨ late ∨
        emitBytes ≤ wrapI64 (meter.state.downloaded - meter.state.lastEmittedBytes) then meter.emit
    else (meter, none)

def finish (meter : InstallProgressMeter) : Progress :=
  { meter with state := { meter.state with currentFile := none } }.snapshot

end InstallProgressMeter

/-! ## The files of a pull -/

/-- A snapshot, with the report it was emitted at; the last one comes without. -/
structure Emitted where
  report : Option Landed
  progress : Progress
deriving DecidableEq

/-- The reports of one file. -/
def addAll (late : ℕ → Bool) : InstallProgressMeter → ℕ → List Landed →
    InstallProgressMeter × List Emitted
  | meter, _, [] => (meter, [])
  | meter, n, landed :: rest =>
    let (meter, progress) := meter.add landed (late n)
    let (meter, more) := addAll late meter (n + 1) rest
    (meter, (progress.map (Emitted.mk (some landed))).toList ++ more)

/-- The reports of all files; `late` tells the time at each report of a file. -/
def meterFiles (late : ℕ → ℕ → Bool) : InstallProgressMeter → ℕ →
    List (HFSibling × List Landed) → InstallProgressMeter × List Emitted
  | meter, _, [] => (meter, [])
  | meter, k, (sibling, reports) :: rest =>
    let (meter, sent) := addAll (late k) (meter.beginFile sibling.rfilename) 0 reports
    let (meter, more) := meterFiles late meter (k + 1) rest
    (meter, sent ++ more)

section

variable (hash : Bytes → String) (repo revision : String)
  (transport : ℕ → ℕ → Except InstallError StreamStart)

/-- The downloads in order, up to one that fails: what each reports. -/
def downloadFiles : Cache → ℕ → List HFSibling →
    List (HFSibling × List Landed) × Except InstallError Unit
  | _, _, [] => ([], .ok ())
  | cache, k, sibling :: rest =>
    match download hash repo sibling revision (transport k) cache with
    | (transfer, .error error) => ([(sibling, transfer.events)], .error error)
    | (transfer, .ok ()) =>
      let (more, result) := downloadFiles transfer.cache (k + 1) rest
      ((sibling, transfer.events) :: more, result)

/-- The snapshots of a pull from a disk, and how its downloads end. -/
def pull (late : ℕ → ℕ → Bool) (cache : Cache) (ordered : List HFSibling) :
    List Emitted × Except InstallError Unit :=
  let (reports, result) := downloadFiles hash repo revision transport cache 0 ordered
  let meter := InstallProgressMeter.new (summedBytes ordered) (isPartial ordered)
    (presentBytes hash cache revision ordered)
  let (meter, sent) := meterFiles late meter 0 reports
  match result with
  | .error error => (sent, .error error)
  | .ok () => (sent ++ [⟨none, meter.finish⟩], .ok ())

end

end Hedos.Install.Meter
