import Hedos.Lib.Primitives
import Mathlib.Algebra.BigOperators.Group.List.Basic
import Mathlib.Algebra.Order.Ring.Int

/-!
# Downloading into the hub cache

`HFCacheWriter::download` (`runtime/src/install/hf_cache.rs`): one file of a repository is
fetched into an `.incomplete` blob, resumed over range requests, hashed as it goes, and moved
to the blob its hash names.

* `download` is the code's own, with the file system as explicit state and the transport as a
  sequence of answers, one for each request made;
* `Transfer` is what the loop carries: the disk, the bytes fed to the hasher, the count
  `written`, the events reported, the requests made, and a record of every moment at which one
  of them changed;
* `Transfer.Sound` is the invariant of the loop, and `download_integrity` what it gives.

The hash function is a parameter; a hasher is the bytes it was fed.
-/

namespace Hedos.Install

open Function

/-! ## Data -/

inductive InstallError
  | providerUnknown (id : String)
  | providerUnavailable (reason : String)
  | referenceInvalid (reference : String)
  | referenceNotFound (reference : String)
  | accessDenied (reason : String)
  | authRequired (repo : String)
  | insufficientDisk (requiredBytes availableBytes : ℤ)
  | checksumMismatch (file : String)
  | transferFailed (message : String)
  | localError (message : String)
deriving DecidableEq

/-- A file of the repository as the listing gives it. -/
structure HFSibling where
  rfilename : String
  bytes : Option ℤ
  sha256 : Option String
deriving DecidableEq

/-- A started response: its status, the chunks of its body, and how the body ends. -/
structure StreamStart where
  status : ℕ
  chunks : List Bytes
  broke : Option InstallError
deriving DecidableEq

/-- Bytes a download counts as it goes. -/
inductive Landed
  | onDisk (bytes : ℤ)
  | fetched (bytes : ℤ)
  | discarded (bytes : ℤ)
deriving DecidableEq

/-- What an event adds to the count. -/
def Landed.amount : Landed → ℤ
  | .onDisk bytes | .fetched bytes => bytes
  | .discarded bytes => -bytes

def landed (events : List Landed) : ℤ := (events.map Landed.amount).sum

/-- The blobs directory, completed and `.incomplete`, and the links of the snapshots. -/
structure Cache where
  blobs : String → Option Bytes
  incompletes : String → Option Bytes
  links : String × String → Option String

def streamResumes : ℕ := 5

def hashChunkBytes : ℕ := 2 ^ 20

/-- The `.incomplete` file, the bytes fed to the hasher and the count, at one moment. -/
structure Moment where
  file : Option Bytes
  hashed : Bytes
  written : ℕ
deriving DecidableEq

/-- The hasher and the count agree with the bytes in the file. -/
def Moment.Agrees (moment : Moment) : Prop :=
  moment.file = some moment.hashed ∧ moment.written = moment.hashed.length

/-- What the loop carries. `opens` counts the requests of the loop, `restarts` the requests
made again without a range. -/
structure Transfer where
  cache : Cache
  hashed : Bytes := []
  written : ℕ := 0
  events : List Landed := []
  opens : ℕ := 0
  restarts : ℕ := 0
  moments : List Moment := []

/-! ## Steps of a download -/

section Names

variable (hash : Bytes → String)

def unnamedBlobName (rfilename revision : String) : String :=
  "tmp-" ++ hash (revision ++ "\n" ++ rfilename).toUTF8.toList

def pendingBlobName (sibling : HFSibling) (revision : String) : String :=
  match sibling.sha256 with
  | some sha => sha
  | none => unnamedBlobName hash sibling.rfilename revision

end Names

/-- Feed a file to the hasher slice by slice: the bytes fed and how many they are. -/
def hashExisting (file hashed : Bytes) (total : ℕ) : Bytes × ℕ :=
  let slice := file.take hashChunkBytes
  if slice = [] then (hashed, total)
  else hashExisting (file.drop hashChunkBytes) (hashed ++ slice) (total + slice.length)
termination_by file.length
decreasing_by
  rename_i h
  have hpos : 0 < slice.length := List.length_pos_of_ne_nil h
  have hle : slice.length ≤ file.length := List.length_take_le' _ _
  simp only [List.length_drop, hashChunkBytes]
  omega

namespace Transfer

/-- Note the moment. -/
def mark (transfer : Transfer) (pending : String) : Transfer :=
  { transfer with
    moments := transfer.moments ++
      [⟨transfer.cache.incompletes pending, transfer.hashed, transfer.written⟩] }

def setIncomplete (transfer : Transfer) (name : String) (file : Option Bytes) : Transfer :=
  { transfer with
    cache := { transfer.cache with
      incompletes := update transfer.cache.incompletes name file } }

/-- Empty the partial and start counting again. -/
def discard (transfer : Transfer) (pending : String) : Transfer :=
  { transfer.setIncomplete pending (some []) with
    hashed := []
    written := 0
    events := transfer.events ++ [Landed.discarded transfer.written] } |>.mark pending

/-- One chunk: appended to the file, fed to the hasher, counted and reported. -/
def receive (pending : String) (transfer : Transfer) (chunk : Bytes) : Transfer :=
  let file := (transfer.cache.incompletes pending).getD []
  { transfer.setIncomplete pending (some (file ++ chunk)) with
    hashed := transfer.hashed ++ chunk
    written := transfer.written + chunk.length
    events := transfer.events ++ [Landed.fetched chunk.length] } |>.mark pending

end Transfer

/-- The partial is already the whole file, by a listing that gave a hash for it. -/
def HFSibling.settled (sibling : HFSibling) (written : ℕ) : Bool :=
  sibling.sha256.isSome && sibling.bytes == some (written : ℤ)

/-- What a status other than the two good ones means. -/
def refusal (repo : String) (sibling : HFSibling) (status : ℕ) : InstallError :=
  if status = 401 ∨ status = 403 then .authRequired repo
  else if status = 404 then .referenceNotFound (sibling.rfilename ++ " in " ++ repo)
  else .transferFailed
    ("hugging face returned HTTP " ++ toString status ++ " for " ++ sibling.rfilename)

/-- The break is one a reopened stream can mend. -/
def InstallError.isTransferFailed : InstallError → Bool
  | .transferFailed _ => true
  | _ => false

section Download

variable (hash : Bytes → String) (repo : String) (sibling : HFSibling) (revision : String)
  (transport : ℕ → Except InstallError StreamStart)

/-- The `n`-th answer of the transport goes to the `n`-th request. -/
def Transfer.ask (transfer : Transfer) : Except InstallError StreamStart :=
  transport (transfer.opens + transfer.restarts)

/-- The request of one round, asked again from nothing when the partial is past the end. -/
def openStream (pending : String) (transfer : Transfer) :
    Transfer × Except InstallError StreamStart :=
  let answer := transfer.ask transport
  let transfer := { transfer with opens := transfer.opens + 1 }
  match answer with
  | .error error => (transfer, .error error)
  | .ok start =>
    if start.status = 416 ∧ transfer.written > 0 then
      let transfer := transfer.discard pending
      let answer := transfer.ask transport
      ({ transfer with restarts := transfer.restarts + 1 }, answer)
    else (transfer, .ok start)

/-- One round: the request, the check of its status, and the body. The error is the one the
body broke with. -/
def round (pending : String) (transfer : Transfer) :
    Transfer × Except InstallError (Option InstallError) :=
  match openStream transport pending transfer with
  | (transfer, .error error) => (transfer, .error error)
  | (transfer, .ok start) =>
    if start.status = 200 ∨ start.status = 206 then
      -- a full response despite the range: the partial is given up
      let transfer := if start.status = 200 ∧ transfer.written > 0
        then transfer.discard pending else transfer
      (start.chunks.foldl (Transfer.receive pending) transfer, .ok start.broke)
    else (transfer, .error (refusal repo sibling start.status))

/-- The loop, with `left` reopens to go. -/
def transferLoop (pending : String) : ℕ → Transfer → Transfer × Except InstallError Unit
  | left, transfer =>
    if sibling.settled transfer.written then (transfer, .ok ())
    else
      match round repo sibling transport pending transfer with
      | (transfer, .error error) => (transfer, .error error)
      | (transfer, .ok none) => (transfer, .ok ())
      | (transfer, .ok (some error)) =>
        match left with
        | 0 => (transfer, .error error)
        | left + 1 =>
          if error.isTransferFailed then
            if sibling.settled transfer.written then (transfer, .ok ())
            else transferLoop pending left transfer
          else (transfer, .error error)

/-- The partial to carry on from: one named before the hash was known is taken over when
nothing is saved under the hash. -/
def adoptUnnamed (pending : String) (cache : Cache) : Cache :=
  let nothingSaved := (cache.incompletes pending).all fun file => file.length == 0
  let unnamed := unnamedBlobName hash sibling.rfilename revision
  match sibling.sha256.isSome && nothingSaved, cache.incompletes unnamed with
  | true, some file =>
    { cache with
      incompletes := update (update cache.incompletes unnamed none) pending (some file) }
  | _, _ => cache

/-- Hash what is saved, or lay down an empty partial. -/
def startTransfer (pending : String) (cache : Cache) : Transfer :=
  match cache.incompletes pending with
  | some file =>
    let (hashed, written) := hashExisting file [] 0
    { cache, hashed, written,
      events := if written > 0 then [.onDisk written] else [] : Transfer } |>.mark pending
  | none =>
    { cache := { cache with
        incompletes := update cache.incompletes pending (some []) } : Transfer }
      |>.mark pending

/-- The checks behind the loop, and the move to the blob the hash names. -/
def finish (pending : String) (transfer : Transfer) : Transfer × Except InstallError Unit :=
  if ∃ expected ∈ sibling.bytes, (transfer.written : ℤ) ≠ expected then
    (transfer, .error (.transferFailed
      (sibling.rfilename ++ " ended after " ++ toString transfer.written ++ " of " ++
        toString (sibling.bytes.getD 0) ++ " bytes")))
  else
    let digest := hash transfer.hashed
    if ∃ sha ∈ sibling.sha256, digest ≠ sha then
      (transfer.setIncomplete pending none, .error (.checksumMismatch sibling.rfilename))
    else
      let finalName := sibling.sha256.getD digest
      let cache := transfer.cache
      let blobs := if (cache.blobs finalName).isSome then cache.blobs
        else update cache.blobs finalName (cache.incompletes pending)
      ({ transfer with
          cache :=
            { blobs
              incompletes := update cache.incompletes pending none
              links := update cache.links (revision, sibling.rfilename)
                (some finalName) } }, .ok ())

/-- Download the file, resuming from any saved partial, verifying the hash, moving it into
`blobs` and linking it under the snapshot. -/
def download (cache : Cache) : Transfer × Except InstallError Unit :=
  let pending := pendingBlobName hash sibling revision
  match sibling.sha256.filter fun sha => (cache.blobs sha).isSome with
  | some sha =>
    ({ cache :=
        { cache with
          incompletes := update cache.incompletes pending none
          links := update cache.links (revision, sibling.rfilename) (some sha) }
       events := [.onDisk (sibling.bytes.getD 0)] : Transfer }, .ok ())
  | none =>
    let transfer := startTransfer pending (adoptUnnamed hash sibling revision pending cache)
    match transferLoop repo sibling transport pending streamResumes transfer with
    | (transfer, .error error) => (transfer, .error error)
    | (transfer, .ok ()) => finish hash sibling revision pending transfer

end Download

/-! ## The invariant of a transfer -/

/-- The saved bytes are fed to the hasher whole. -/
theorem hashExisting_eq (file hashed : Bytes) (total : ℕ) :
    hashExisting file hashed total = (hashed ++ file, total + file.length) := by
  fun_induction hashExisting file hashed total with
  | case1 file hashed total slice h =>
    have hnil : file = [] := by
      have hchunk : ¬ hashChunkBytes = 0 := by decide
      simpa [slice, hchunk] using h
    simp [hnil]
  | case2 file hashed total slice h ih =>
    have hsplit : slice ++ file.drop hashChunkBytes = file := List.take_append_drop _ _
    have hlen : slice.length + (file.drop hashChunkBytes).length = file.length := by
      rw [← List.length_append, hsplit]
    rw [ih, List.append_assoc, hsplit, Nat.add_assoc, hlen]

/-- The file, the hasher and the count agree, now and at every moment so far; the events add up
to the count; the completed blobs are as they were. -/
structure Transfer.Sound (blobs : String → Option Bytes) (pending : String)
    (transfer : Transfer) : Prop where
  file : transfer.cache.incompletes pending = some transfer.hashed
  written : transfer.written = transfer.hashed.length
  events : landed transfer.events = transfer.written
  blobs : transfer.cache.blobs = blobs
  moments : ∀ moment ∈ transfer.moments, moment.Agrees

section Soundness

variable {blobs : String → Option Bytes} {pending : String} {transfer : Transfer}

theorem landed_append (events : List Landed) (event : Landed) :
    landed (events ++ [event]) = landed events + event.amount := by
  simp [landed]

/-- A moment noted in agreement is one more of them. -/
theorem Transfer.Sound.mark (hfile : transfer.cache.incompletes pending = some transfer.hashed)
    (hwritten : transfer.written = transfer.hashed.length)
    (hevents : landed transfer.events = transfer.written) (hblobs : transfer.cache.blobs = blobs)
    (hmoments : ∀ moment ∈ transfer.moments, moment.Agrees) :
    (transfer.mark pending).Sound blobs pending := by
  refine ⟨hfile, hwritten, hevents, hblobs, fun moment hmoment => ?_⟩
  cases List.mem_append.1 hmoment with
  | inl hold => exact hmoments moment hold
  | inr hnew =>
    rw [List.mem_singleton.1 hnew]
    exact ⟨hfile, hwritten⟩

theorem Transfer.Sound.discard (h : transfer.Sound blobs pending) :
    (transfer.discard pending).Sound blobs pending := by
  apply Transfer.Sound.mark
  · exact update_self pending (some []) transfer.cache.incompletes
  · rfl
  · show landed (transfer.events ++ [Landed.discarded transfer.written]) = 0
    rw [landed_append, h.events]
    simp [Landed.amount]
  · exact h.blobs
  · exact h.moments

theorem Transfer.Sound.receive (h : transfer.Sound blobs pending) (chunk : Bytes) :
    (transfer.receive pending chunk).Sound blobs pending := by
  apply Transfer.Sound.mark
  · show update transfer.cache.incompletes pending _ pending = _
    rw [update_self, h.file]
    rfl
  · show transfer.written + chunk.length = (transfer.hashed ++ chunk).length
    rw [List.length_append, h.written]
  · show landed (transfer.events ++ [Landed.fetched chunk.length])
      = ((transfer.written + chunk.length : ℕ) : ℤ)
    rw [landed_append, h.events]
    simp [Landed.amount]
  · exact h.blobs
  · exact h.moments

/-- The body of a response, chunk by chunk. -/
theorem Transfer.Sound.receiveAll (h : transfer.Sound blobs pending) (chunks : List Bytes) :
    (chunks.foldl (Transfer.receive pending) transfer).Sound blobs pending := by
  induction chunks generalizing transfer with
  | nil => exact h
  | cons chunk chunks ih => exact ih (h.receive chunk)

theorem receiveAll_opens (chunks : List Bytes) (transfer : Transfer) :
    (chunks.foldl (Transfer.receive pending) transfer).opens = transfer.opens := by
  induction chunks generalizing transfer with
  | nil => rfl
  | cons chunk chunks ih => exact ih (transfer.receive pending chunk)

theorem openStream_sound (transport : ℕ → Except InstallError StreamStart)
    (h : transfer.Sound blobs pending) :
    (openStream transport pending transfer).1.Sound blobs pending ∧
      (openStream transport pending transfer).1.opens = transfer.opens + 1 := by
  have hopened : ({ transfer with opens := transfer.opens + 1 } : Transfer).Sound blobs pending :=
    ⟨h.file, h.written, h.events, h.blobs, h.moments⟩
  unfold openStream
  cases transfer.ask transport with
  | error error => exact ⟨hopened, rfl⟩
  | ok start =>
    simp only
    split
    · have hdiscarded := hopened.discard
      exact ⟨⟨hdiscarded.file, hdiscarded.written, hdiscarded.events, hdiscarded.blobs,
        hdiscarded.moments⟩, rfl⟩
    · exact ⟨hopened, rfl⟩

theorem round_sound (repo : String) (sibling : HFSibling)
    (transport : ℕ → Except InstallError StreamStart) (h : transfer.Sound blobs pending) :
    (round repo sibling transport pending transfer).1.Sound blobs pending ∧
      (round repo sibling transport pending transfer).1.opens = transfer.opens + 1 := by
  have hopen := openStream_sound transport h
  unfold round
  cases hstream : openStream transport pending transfer with
  | mk opened answer =>
    rw [hstream] at hopen
    obtain ⟨hsound, hopens⟩ := hopen
    cases answer with
    | error error => exact ⟨hsound, hopens⟩
    | ok start =>
      simp only
      split
      · by_cases hfull : start.status = 200 ∧ opened.written > 0
        · rw [if_pos hfull]
          exact ⟨hsound.discard.receiveAll start.chunks, by rw [receiveAll_opens]; exact hopens⟩
        · rw [if_neg hfull]
          exact ⟨hsound.receiveAll start.chunks, by rw [receiveAll_opens]; exact hopens⟩
      · exact ⟨hsound, hopens⟩

/-- The loop keeps the invariant and opens the stream once and once more for each reopen. -/
theorem transferLoop_sound (repo : String) (sibling : HFSibling)
    (transport : ℕ → Except InstallError StreamStart) (left : ℕ)
    (h : transfer.Sound blobs pending) :
    (transferLoop repo sibling transport pending left transfer).1.Sound blobs pending ∧
      (transferLoop repo sibling transport pending left transfer).1.opens
        ≤ transfer.opens + (left + 1) := by
  induction left generalizing transfer with
  | zero =>
    have hround := round_sound repo sibling transport h
    unfold transferLoop
    by_cases hsettled : sibling.settled transfer.written = true
    · rw [if_pos hsettled]
      exact ⟨h, Nat.le_add_right _ _⟩
    · rw [if_neg hsettled]
      cases hresult : round repo sibling transport pending transfer with
      | mk after outcome =>
        rw [hresult] at hround
        obtain ⟨hsound, hopens⟩ := hround
        cases outcome with
        | error error => exact ⟨hsound, hopens.le⟩
        | ok broke =>
          cases broke with
          | none => exact ⟨hsound, hopens.le⟩
          | some error => exact ⟨hsound, hopens.le⟩
  | succ left ih =>
    have hround := round_sound repo sibling transport h
    unfold transferLoop
    by_cases hsettled : sibling.settled transfer.written = true
    · rw [if_pos hsettled]
      exact ⟨h, Nat.le_add_right _ _⟩
    · rw [if_neg hsettled]
      cases hresult : round repo sibling transport pending transfer with
      | mk after outcome =>
        rw [hresult] at hround
        obtain ⟨hsound, hopens⟩ := hround
        have hle : after.opens ≤ transfer.opens + (left + 1 + 1) := by
          simp only at hopens
          omega
        cases outcome with
        | error error => exact ⟨hsound, hle⟩
        | ok broke =>
          cases broke with
          | none => exact ⟨hsound, hle⟩
          | some error =>
            simp only
            split
            · split
              · exact ⟨hsound, hle⟩
              · have hmore := ih hsound
                refine ⟨hmore.1, hmore.2.trans ?_⟩
                simp only at hopens ⊢
                omega
            · exact ⟨hsound, hle⟩

theorem startTransfer_sound (pending : String) (cache : Cache) :
    (startTransfer pending cache).Sound cache.blobs pending ∧
      (startTransfer pending cache).opens = 0 := by
  unfold startTransfer
  cases hfile : cache.incompletes pending with
  | none =>
    refine ⟨?_, rfl⟩
    apply Transfer.Sound.mark
    · exact update_self pending (some []) cache.incompletes
    · rfl
    · rfl
    · rfl
    · exact fun _ h => nomatch h
  | some file =>
    simp only [hashExisting_eq, List.nil_append, Nat.zero_add]
    refine ⟨?_, rfl⟩
    apply Transfer.Sound.mark
    · exact hfile
    · rfl
    · show landed (if file.length > 0 then [Landed.onDisk file.length] else []) = (file.length : ℤ)
      split
      · simp [landed, Landed.amount]
      · have hzero : file.length = 0 := by omega
        simp [landed, hzero]
    · rfl
    · exact fun _ h => nomatch h

theorem adoptUnnamed_blobs (hash : Bytes → String) (sibling : HFSibling) (revision : String)
    (cache : Cache) : (adoptUnnamed hash sibling revision pending cache).blobs = cache.blobs := by
  unfold adoptUnnamed
  simp only
  split <;> rfl

/-- The listing is of this file. -/
structure HFSibling.Describes (hash : Bytes → String) (sibling : HFSibling) (file : Bytes) :
    Prop where
  sha256 : ∀ sha ∈ sibling.sha256, hash file = sha
  bytes : ∀ bytes ∈ sibling.bytes, (file.length : ℤ) = bytes

/-- A completed blob of the file, named by its hash. `fresh` says that the blob was not there
before: then it has the listed size and the events add up to its length. One that was there is
kept with nothing fetched, and the listed size, or 0, is all that is counted. -/
structure Landing (hash : Bytes → String) (sibling : HFSibling) (transfer : Transfer)
    (fresh : Prop) (name : String) (content : Bytes) : Prop where
  blob : transfer.cache.blobs name = some content
  named : hash content = name
  sha256 : ∀ sha ∈ sibling.sha256, name = sha
  bytes : (fresh ∨ ∃ file, sibling.Describes hash file) →
    ∀ bytes ∈ sibling.bytes, (content.length : ℤ) = bytes
  events : (fresh ∨ sibling.bytes.isSome ∧ ∃ file, sibling.Describes hash file) →
    landed transfer.events = content.length
  kept : ¬ fresh → transfer.events = [.onDisk (sibling.bytes.getD 0)] ∧ transfer.opens = 0

/-- What `finish` makes of a sound transfer. -/
theorem finish_sound {hash : Bytes → String} (hcollisions : Injective hash)
    (hnamed : ∀ name content, blobs name = some content → hash content = name)
    (sibling : HFSibling) (revision : String) (h : transfer.Sound blobs pending)
    {after : Transfer} {result : Except InstallError Unit}
    (hfinish : finish hash sibling revision pending transfer = (after, result)) :
    after.moments = transfer.moments ∧ after.opens = transfer.opens ∧
      (result = .ok () → ∃ name content, Landing hash sibling after True name content) ∧
      ∀ error, result = .error error → after.cache.blobs = blobs := by
  unfold finish at hfinish
  by_cases hsize : ∃ expected ∈ sibling.bytes, (transfer.written : ℤ) ≠ expected
  · rw [if_pos hsize, Prod.mk.injEq] at hfinish
    obtain ⟨rfl, rfl⟩ := hfinish
    exact ⟨rfl, rfl, (nofun), fun _ _ => h.blobs⟩
  rw [if_neg hsize] at hfinish
  simp only at hfinish
  by_cases hsha : ∃ sha ∈ sibling.sha256, hash transfer.hashed ≠ sha
  · rw [if_pos hsha, Prod.mk.injEq] at hfinish
    obtain ⟨rfl, rfl⟩ := hfinish
    exact ⟨rfl, rfl, (nofun), fun _ _ => h.blobs⟩
  rw [if_neg hsha, Prod.mk.injEq] at hfinish
  obtain ⟨rfl, rfl⟩ := hfinish
  refine ⟨rfl, rfl, fun _ => ?_, fun _ herror => nomatch herror⟩
  have hname : sibling.sha256.getD (hash transfer.hashed) = hash transfer.hashed := by
    cases hlisted : sibling.sha256 with
    | none => rfl
    | some sha =>
      by_contra hne
      exact hsha ⟨sha, hlisted, fun heq => hne heq.symm⟩
  have hblob : (if (transfer.cache.blobs (hash transfer.hashed)).isSome then transfer.cache.blobs
      else update transfer.cache.blobs (hash transfer.hashed)
        (transfer.cache.incompletes pending)) (hash transfer.hashed) = some transfer.hashed := by
    by_cases hthere : (transfer.cache.blobs (hash transfer.hashed)).isSome
    · -- a blob of the same name is the same file
      rw [if_pos hthere]
      obtain ⟨content, hcontent⟩ := Option.isSome_iff_exists.1 hthere
      have hsame : hash content = hash transfer.hashed := by
        rw [h.blobs] at hcontent
        exact hnamed _ content hcontent
      rw [hcontent, hcollisions hsame]
    · rw [if_neg hthere, update_self, h.file]
  refine ⟨hash transfer.hashed, transfer.hashed, ?_, rfl, ?_, fun _ => ?_, fun _ => ?_,
    fun hfresh => absurd trivial hfresh⟩
  · simp only [hname]
    exact hblob
  · intro sha hlisted
    by_contra hne
    exact hsha ⟨sha, hlisted, hne⟩
  · intro bytes hbytes
    rw [← h.written]
    by_contra hne
    exact hsize ⟨bytes, hbytes, hne⟩
  · rw [h.events, h.written]

end Soundness

/-- `download`, whatever the listing says and the transport answers: the file, the hasher and
the count agree at every moment; success leaves a completed blob of the file; failure leaves the
completed blobs as they were; and the stream is reopened at most `streamResumes` times. -/
theorem download_integrity (hash : Bytes → String) (hcollisions : Injective hash) (repo : String)
    (sibling : HFSibling) (revision : String) (transport : ℕ → Except InstallError StreamStart)
    (cache : Cache) (hnamed : ∀ name content, cache.blobs name = some content → hash content = name)
    {transfer : Transfer} {result : Except InstallError Unit}
    (hdownload : download hash repo sibling revision transport cache = (transfer, result)) :
    (∀ moment ∈ transfer.moments, moment.Agrees) ∧
      (result = .ok () → ∃ name content, Landing hash sibling transfer
        (∀ sha ∈ sibling.sha256, cache.blobs sha = none) name content) ∧
      (∀ error, result = .error error → transfer.cache.blobs = cache.blobs) ∧
      transfer.opens ≤ streamResumes + 1 := by
  unfold download at hdownload
  cases hthere : sibling.sha256.filter fun sha => (cache.blobs sha).isSome with
  | some sha =>
    simp only [hthere, Prod.mk.injEq] at hdownload
    obtain ⟨rfl, rfl⟩ := hdownload
    rw [Option.filter_eq_some_iff] at hthere
    obtain ⟨hsha, hsome⟩ := hthere
    obtain ⟨content, hcontent⟩ := Option.isSome_iff_exists.1 hsome
    -- the blob named by the listing's hash is the listed file
    have hlength : (∃ file, sibling.Describes hash file) →
        ∀ bytes ∈ sibling.bytes, (content.length : ℤ) = bytes := by
      rintro ⟨file, hfile⟩ bytes hbytes
      have hsame : content = file := by
        apply hcollisions
        rw [hnamed sha content hcontent, hfile.sha256 sha hsha]
      rw [hsame]
      exact hfile.bytes bytes hbytes
    have hthere : ¬ ∀ sha ∈ sibling.sha256, cache.blobs sha = none := by
      intro hfresh
      rw [hfresh sha hsha] at hcontent
      cases hcontent
    refine ⟨(fun _ h => nomatch h), fun _ => ⟨sha, content, hcontent, hnamed sha content hcontent,
      ?_, fun hor => hlength (hor.resolve_left hthere), fun hor => ?_, fun _ => ⟨rfl, rfl⟩⟩,
      (fun _ h => nomatch h), Nat.zero_le _⟩
    · intro sha' hsha'
      exact Option.some.inj (hsha.symm.trans hsha')
    · obtain ⟨hsome, hfile⟩ := hor.resolve_left hthere
      obtain ⟨bytes, hbytes⟩ := Option.isSome_iff_exists.1 hsome
      rw [hlength hfile bytes hbytes]
      simp [landed, Landed.amount, hbytes]
  | none =>
    simp only [hthere] at hdownload
    generalize hpending : pendingBlobName hash sibling revision = pending at hdownload
    have hstart := startTransfer_sound pending (adoptUnnamed hash sibling revision pending cache)
    rw [adoptUnnamed_blobs] at hstart
    have hloop := transferLoop_sound repo sibling transport streamResumes hstart.1
    cases hresult : transferLoop repo sibling transport pending streamResumes
        (startTransfer pending (adoptUnnamed hash sibling revision pending cache)) with
    | mk after outcome =>
      rw [hresult, hstart.2] at hloop
      obtain ⟨hsound, hopens⟩ := hloop
      rw [hresult] at hdownload
      have hle : after.opens ≤ streamResumes + 1 := by
        simp only at hopens
        omega
      cases outcome with
      | error error =>
        simp only [Prod.mk.injEq] at hdownload
        obtain ⟨rfl, rfl⟩ := hdownload
        exact ⟨hsound.moments, (nofun), fun _ _ => hsound.blobs, hle⟩
      | ok _ =>
        obtain ⟨hmoments, hopens', hok, herror⟩ :=
          finish_sound hcollisions hnamed sibling revision hsound hdownload
        refine ⟨by rw [hmoments]; exact hsound.moments, fun hresult => ?_, herror,
          by rw [hopens']; exact hle⟩
        obtain ⟨name, content, hlanding⟩ := hok hresult
        refine ⟨name, content, hlanding.blob, hlanding.named, hlanding.sha256,
          fun _ => hlanding.bytes (Or.inl trivial), fun _ => hlanding.events (Or.inl trivial),
          fun hkept => absurd (fun sha hsha => ?_) hkept⟩
        rw [Option.filter_eq_none_iff] at hthere
        simpa using hthere sha hsha

/-! ## A download that breaks and is resumed -/

/-- One character past the first 256 for each byte. -/
def otherName (content : Bytes) : String :=
  String.ofList (content.map fun byte => Char.ofNat (256 + byte.toNat))

/-- SHA-256 on the two inputs of the download below, and a name of its own for any other. -/
def sampleHash (content : Bytes) : String :=
  if content = [97, 98, 99] then
    "ba7816bf8f01cfea414140de5dae2223b00361a396177a9cb410ff61f20015ad"
  else if content = "main\nmodel.bin".toUTF8.toList then
    "e00d57a54c7521dba76b573f7d111a8d174341ef52849c7149ea3ab019ac4fba"
  else otherName content

theorem toNat_byteChar (byte : UInt8) :
    (Char.ofNat (256 + byte.toNat)).toNat = 256 + byte.toNat := by
  have hlt := byte.toNat_lt
  have hvalid : (256 + byte.toNat).isValidChar := Or.inl (by omega)
  rw [Char.ofNat, dif_pos hvalid]
  rfl

theorem otherName_injective : Injective otherName := by
  have hbyte : Injective fun byte : UInt8 => Char.ofNat (256 + byte.toNat) := by
    intro a b hab
    have hnat := congrArg Char.toNat hab
    simp only [toNat_byteChar] at hnat
    exact UInt8.toNat_inj.1 (by omega)
  intro a b hab
  exact List.map_injective_iff.2 hbyte (String.ofList_injective hab)

/-- No name of another input is a plain hexadecimal one. -/
theorem otherName_ne (content : Bytes) {name : String} {c : Char} (hc : c ∈ name.toList)
    (hplain : c.toNat < 256) : otherName content ≠ name := by
  rintro rfl
  simp only [otherName, String.toList_ofList, List.mem_map] at hc
  obtain ⟨byte, -, rfl⟩ := hc
  rw [toNat_byteChar] at hplain
  omega

theorem sampleHash_injective : Injective sampleHash := by
  have hfirst : ∀ content, otherName content ≠
      "ba7816bf8f01cfea414140de5dae2223b00361a396177a9cb410ff61f20015ad" :=
    fun content => otherName_ne content (c := 'b') (by rw [String.toList_ofList]; decide)
      (by decide)
  have hsecond : ∀ content, otherName content ≠
      "e00d57a54c7521dba76b573f7d111a8d174341ef52849c7149ea3ab019ac4fba" :=
    fun content => otherName_ne content (c := 'e') (by rw [String.toList_ofList]; decide)
      (by decide)
  intro a b hab
  unfold sampleHash at hab
  by_cases ha : a = [97, 98, 99]
  · by_cases hb : b = [97, 98, 99]
    · rw [ha, hb]
    · rw [if_pos ha, if_neg hb] at hab
      split at hab
      · exact absurd hab (by decide)
      · exact absurd hab.symm (hfirst b)
  · rw [if_neg ha] at hab
    by_cases hb : b = [97, 98, 99]
    · rw [if_pos hb] at hab
      split at hab
      · exact absurd hab (by decide)
      · exact absurd hab (hfirst a)
    · rw [if_neg hb] at hab
      split at hab <;> split at hab
      · simp_all
      · exact absurd hab.symm (hsecond b)
      · exact absurd hab (hsecond a)
      · exact otherName_injective hab

def sampleSibling : HFSibling where
  rfilename := "model.bin"
  bytes := some 3
  sha256 := some "ba7816bf8f01cfea414140de5dae2223b00361a396177a9cb410ff61f20015ad"

/-- Two ranges: the first breaks after a byte, the second goes to the end. -/
def sampleTransport : ℕ → Except InstallError StreamStart
  | 0 => .ok ⟨206, [[98]], some (.transferFailed "connection reset")⟩
  | _ => .ok ⟨206, [[99]], none⟩

/-- The first byte of the file is saved already. -/
def sampleCache : Cache where
  blobs := fun _ => none
  incompletes := update (fun _ => none)
    "ba7816bf8f01cfea414140de5dae2223b00361a396177a9cb410ff61f20015ad" (some [97])
  links := fun _ => none

theorem sampleDownload_ok :
    (download sampleHash "org/model" sampleSibling "main" sampleTransport sampleCache).2
      = .ok () := by
  simp only [download, startTransfer, hashExisting_eq]
  rfl

theorem download_integrity_resumed :
    ∃ name content,
      Landing sampleHash sampleSibling
        (download sampleHash "org/model" sampleSibling "main" sampleTransport sampleCache).1
        (∀ sha ∈ sampleSibling.sha256, sampleCache.blobs sha = none) name content :=
  (download_integrity sampleHash sampleHash_injective "org/model" sampleSibling "main"
    sampleTransport sampleCache (fun _ _ h => nomatch h) (Prod.mk.eta).symm).2.1 sampleDownload_ok

/-- The file listed with its hash and no size. -/
def unsizedSibling : HFSibling := { sampleSibling with bytes := none }

/-- Its blob is there already. -/
def keptCache : Cache :=
  { sampleCache with
    blobs := update (fun _ => none)
      "ba7816bf8f01cfea414140de5dae2223b00361a396177a9cb410ff61f20015ad" (some [97, 98, 99]) }

/-- A blob of three bytes that is there already is kept under a listing with no size, and 0 is
counted for it. -/
theorem kept_blob_counts_zero :
    Injective sampleHash ∧
      (∀ name content, keptCache.blobs name = some content → sampleHash content = name) ∧
      (download sampleHash "org/model" unsizedSibling "main" sampleTransport keptCache).2
        = .ok () ∧
      ¬ ∃ name content,
        (download sampleHash "org/model" unsizedSibling "main" sampleTransport
          keptCache).1.cache.blobs
          name = some content ∧
        landed (download sampleHash "org/model" unsizedSibling "main" sampleTransport
          keptCache).1.events = content.length := by
  have hnamed : ∀ name content, keptCache.blobs name = some content →
      name = "ba7816bf8f01cfea414140de5dae2223b00361a396177a9cb410ff61f20015ad" ∧
        content = [97, 98, 99] := by
    intro name content hcontent
    simp only [keptCache, update_apply] at hcontent
    split at hcontent
    · exact ⟨‹_›, (Option.some.inj hcontent).symm⟩
    · cases hcontent
  refine ⟨sampleHash_injective, fun name content hcontent => ?_, rfl, ?_⟩
  · obtain ⟨rfl, rfl⟩ := hnamed name content hcontent
    rfl
  · rintro ⟨name, content, hcontent, hlanded⟩
    obtain ⟨-, rfl⟩ := hnamed name content hcontent
    exact absurd hlanded (by decide)

end Hedos.Install
