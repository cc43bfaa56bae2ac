import Mathlib.Algebra.Order.BigOperators.Group.List
import Mathlib.Algebra.Order.Group.Abs
import Hedos.Install.Meter

/-!
# The progress of a pull adds up

The snapshots of a pull never fall except where bytes are given up, and the last one of a pull that
succeeds is its total (`install_progress_adds_up`), when no listed size of a blob that is there is
negative, no file without a hash shares its saved partial with one before it, and the counts stay in
`i64`.
-/

namespace Hedos.Install.Meter

open Function

open Hedos.Install.Service (Progress)

/-! ## Reports -/

/-- The bytes a report speaks of. -/
def size : Landed → ℤ
  | .onDisk bytes | .fetched bytes | .discarded bytes => bytes

def diskBytes : Landed → ℤ
  | .onDisk bytes => bytes
  | _ => 0

def wireBytes : Landed → ℤ
  | .onDisk _ => 0
  | .fetched bytes => bytes
  | .discarded bytes => -bytes

def isDiscarded : Landed → Bool
  | .discarded _ => true
  | _ => false

theorem landed_eq (events : List Landed) :
    landed events = (events.map diskBytes).sum + (events.map wireBytes).sum := by
  induction events with
  | nil => rfl
  | cons event events ih =>
    simp only [landed, List.map_cons, List.sum_cons] at ih ⊢
    rw [ih]
    cases event <;> simp only [Landed.amount, diskBytes, wireBytes] <;> omega

/-! ## Snapshots that rise -/

/-- From a floor on, the snapshots do not fall except at a report of bytes given up. -/
def Rises : ℤ → List Emitted → Prop
  | _, [] => True
  | floor, emitted :: rest =>
    (floor ≤ emitted.progress.bytesDownloaded ∨ emitted.report.any isDiscarded = true) ∧
      0 ≤ emitted.progress.bytesDownloaded ∧ Rises emitted.progress.bytesDownloaded rest

instance decidableRises : ∀ floor sent, Decidable (Rises floor sent)
  | _, [] => .isTrue trivial
  | floor, emitted :: rest =>
    have := decidableRises emitted.progress.bytesDownloaded rest
    inferInstanceAs (Decidable ((floor ≤ emitted.progress.bytesDownloaded ∨
      emitted.report.any isDiscarded = true) ∧ 0 ≤ emitted.progress.bytesDownloaded ∧
        Rises emitted.progress.bytesDownloaded rest))

/-- The last count that was shown. -/
def lastShown (floor : ℤ) (sent : List Emitted) : ℤ :=
  (sent.getLast?.map fun emitted => emitted.progress.bytesDownloaded).getD floor

theorem lastShown_cons (floor : ℤ) (emitted : Emitted) (rest : List Emitted) :
    lastShown floor (emitted :: rest) = lastShown emitted.progress.bytesDownloaded rest := by
  unfold lastShown
  rw [List.getLast?_cons]
  cases rest.getLast? <;> rfl

theorem lastShown_append (floor : ℤ) (sent more : List Emitted) :
    lastShown floor (sent ++ more) = lastShown (lastShown floor sent) more := by
  induction sent generalizing floor with
  | nil => rfl
  | cons emitted sent ih => rw [List.cons_append, lastShown_cons, lastShown_cons, ih]

theorem Rises.append {floor : ℤ} {sent more : List Emitted} (h : Rises floor sent)
    (hmore : Rises (lastShown floor sent) more) : Rises floor (sent ++ more) := by
  induction sent generalizing floor with
  | nil => exact hmore
  | cons emitted sent ih =>
    obtain ⟨hrise, hnonneg, hrest⟩ := h
    rw [lastShown_cons] at hmore
    exact ⟨hrise, hnonneg, ih hrest hmore⟩

/-! ## The meter counts exactly -/

theorem wrap_eq {x : ℤ} (hlow : -2 ^ 63 ≤ x) (hhigh : x < 2 ^ 63) : wrapI64 x = x := by
  unfold wrapI64
  exact Int.bmod_eq_of_le (by omega) (by omega)

/-- The counts leave room for reports of so many bytes. -/
structure Counts (room : ℤ) (state : MeterState) : Prop where
  present : 0 ≤ state.present
  onDisk : 0 ≤ state.onDisk
  room : max state.present state.onDisk + |state.fetched| + room < 2 ^ 63

theorem Counts.downloaded {room : ℤ} {state : MeterState} (h : Counts room state)
    (hroom : 0 ≤ room) :
    state.downloaded = max state.present state.onDisk + state.fetched := by
  have hbounds := abs_le.1 (le_refl |state.fetched|)
  have hpresent := h.present
  have hfits := h.room
  exact wrap_eq (by omega) (by omega)

/-- What a report does to the counts. -/
structure Adds (landed : Landed) (state state' : MeterState) : Prop where
  present : state'.present = state.present
  onDisk : state'.onDisk = state.onDisk + diskBytes landed
  fetched : state'.fetched = state.fetched + wireBytes landed

theorem Adds.counts {landed : Landed} {state state' : MeterState} {room : ℤ}
    (h : Adds landed state state') (hsize : 0 ≤ size landed)
    (hcounts : Counts (size landed + room) state) : Counts room state' := by
  obtain ⟨hpresent, honDisk, hfetched⟩ := h
  obtain ⟨hp, hd, hroom⟩ := hcounts
  have hbounds := abs_le.1 (le_refl |state.fetched|)
  refine ⟨by rw [hpresent]; exact hp, ?_, ?_⟩
  · rw [honDisk]
    cases landed <;> simp only [size, diskBytes] at hsize ⊢ <;> omega
  · rw [hpresent, honDisk, hfetched]
    have habs : |state.fetched + wireBytes landed| ≤ |state.fetched| + |wireBytes landed| :=
      abs_add_le _ _
    have hwire : |wireBytes landed| + diskBytes landed = size landed := by
      cases landed with
      | onDisk bytes => simp [wireBytes, diskBytes, size]
      | fetched bytes => simpa [wireBytes, diskBytes, size] using hsize
      | discarded bytes => simpa [wireBytes, diskBytes, size] using hsize
    have hdisk : 0 ≤ diskBytes landed := by
      cases landed <;> simp only [size, diskBytes] at hsize ⊢ <;> omega
    omega

theorem Adds.le {landed : Landed} {state state' : MeterState} (h : Adds landed state state')
    (hsize : 0 ≤ size landed) (hkept : isDiscarded landed = false) :
    max state.present state.onDisk + state.fetched ≤
      max state'.present state'.onDisk + state'.fetched := by
  obtain ⟨hpresent, honDisk, hfetched⟩ := h
  rw [hpresent, honDisk, hfetched]
  cases landed with
  | onDisk bytes => simp only [size, diskBytes, wireBytes] at hsize ⊢; omega
  | fetched bytes => simp only [size, diskBytes, wireBytes] at hsize ⊢; omega
  | discarded bytes => cases hkept

/-- A report is counted exactly; a snapshot shows the count. -/
theorem add_spec {meter : InstallProgressMeter} {landed : Landed} (late : Bool) {room : ℤ}
    (hsize : 0 ≤ size landed) (hroom : 0 ≤ room)
    (hcounts : Counts (size landed + room) meter.state) :
    Adds landed meter.state (meter.add landed late).1.state ∧
      (meter.add landed late).1.totalBytes = meter.totalBytes ∧
      ((meter.add landed late).2 = none ∧ isDiscarded landed = false ∨
        ∃ progress, (meter.add landed late).2 = some progress ∧
          progress.bytesDownloaded = max (meter.add landed late).1.state.downloaded 0) := by
  have hbounds := abs_le.1 (le_refl |meter.state.fetched|)
  have hp := hcounts.present
  have hd := hcounts.onDisk
  have hfits := hcounts.room
  cases landed with
  | onDisk bytes =>
    simp only [size] at hsize hfits
    refine ⟨⟨rfl, ?_, (add_zero _).symm⟩, rfl, .inl ⟨rfl, rfl⟩⟩
    exact wrap_eq (by omega) (by omega)
  | discarded bytes =>
    simp only [size] at hsize hfits
    refine ⟨⟨rfl, (add_zero _).symm, ?_⟩, rfl, .inr ⟨_, rfl, rfl⟩⟩
    exact wrap_eq (by omega) (by omega)
  | fetched bytes =>
    simp only [size] at hsize hfits
    have hexact : wrapI64 (meter.state.fetched + bytes) = meter.state.fetched + bytes :=
      wrap_eq (by omega) (by omega)
    simp only [InstallProgressMeter.add]
    split
    · exact ⟨⟨rfl, (add_zero _).symm, hexact⟩, rfl, .inr ⟨_, rfl, rfl⟩⟩
    · exact ⟨⟨rfl, (add_zero _).symm, hexact⟩, rfl, .inl ⟨rfl, rfl⟩⟩

/-- What many reports do to the counts. -/
structure AddsAll (reports : List Landed) (meter meter' : InstallProgressMeter) : Prop where
  present : meter'.state.present = meter.state.present
  onDisk : meter'.state.onDisk = meter.state.onDisk + (reports.map diskBytes).sum
  fetched : meter'.state.fetched = meter.state.fetched + (reports.map wireBytes).sum
  totalBytes : meter'.totalBytes = meter.totalBytes

def sizes (reports : List Landed) : ℤ := (reports.map size).sum

theorem sizes_cons (landed : Landed) (reports : List Landed) :
    sizes (landed :: reports) = size landed + sizes reports := by
  rw [sizes, List.map_cons, List.sum_cons, sizes]

theorem sizes_nonneg {reports : List Landed} (h : ∀ landed ∈ reports, 0 ≤ size landed) :
    0 ≤ sizes reports :=
  List.sum_nonneg fun x hx => by
    obtain ⟨landed, hmem, rfl⟩ := List.mem_map.1 hx
    exact h landed hmem

/-- The reports of a file keep the snapshots rising, and what was shown below the count. -/
theorem addAll_spec (late : ℕ → Bool) {reports : List Landed} {meter : InstallProgressMeter}
    {n : ℕ} {room floor : ℤ} (hsizes : ∀ landed ∈ reports, 0 ≤ size landed) (hroom : 0 ≤ room)
    (hcounts : Counts (sizes reports + room) meter.state)
    (hfloor : floor ≤ max meter.state.downloaded 0) :
    AddsAll reports meter (addAll late meter n reports).1 ∧
      Counts room (addAll late meter n reports).1.state ∧
      Rises floor (addAll late meter n reports).2 ∧
      lastShown floor (addAll late meter n reports).2 ≤
        max (addAll late meter n reports).1.state.downloaded 0 := by
  induction reports generalizing meter n floor with
  | nil =>
    rw [sizes, List.map_nil, List.sum_nil, zero_add] at hcounts
    refine ⟨⟨rfl, ?_, ?_, rfl⟩, hcounts, trivial, hfloor⟩ <;> simp [addAll]
  | cons landed reports ih =>
    obtain ⟨hsize, hrest⟩ := List.forall_mem_cons.1 hsizes
    have hmore := sizes_nonneg hrest
    rw [sizes_cons, add_assoc] at hcounts
    have hlater : 0 ≤ sizes reports + room := by omega
    obtain ⟨hadds, htotal, hsnapshot⟩ := add_spec (late n) hsize hlater hcounts
    have hcounts' : Counts (sizes reports + room) (meter.add landed (late n)).1.state :=
      hadds.counts hsize hcounts
    -- what was shown stays below the count, or is shown anew
    have hshown : Rises floor
          (((meter.add landed (late n)).2.map (Emitted.mk (some landed))).toList) ∧
        lastShown floor (((meter.add landed (late n)).2.map (Emitted.mk (some landed))).toList) ≤
          max (meter.add landed (late n)).1.state.downloaded 0 := by
      have hle : isDiscarded landed = false →
          floor ≤ max (meter.add landed (late n)).1.state.downloaded 0 := by
        intro hkept
        have hstep := hadds.le hsize hkept
        rw [hcounts.downloaded (by omega)] at hfloor
        rw [hcounts'.downloaded hlater]
        omega
      rcases hsnapshot with ⟨hnone, hkept⟩ | ⟨progress, hsome, hbytes⟩
      · rw [hnone]
        exact ⟨trivial, hle hkept⟩
      · rw [hsome]
        refine ⟨⟨?_, ?_, trivial⟩, hbytes.le⟩
        · cases hkept : isDiscarded landed with
          | true => exact .inr hkept
          | false =>
            left
            show floor ≤ progress.bytesDownloaded
            rw [hbytes]
            exact hle hkept
        · show 0 ≤ progress.bytesDownloaded
          rw [hbytes]
          exact le_max_right _ 0
    obtain ⟨hall, hend, hrises, hlast⟩ := ih (n := n + 1) hrest hcounts' hshown.2
    simp only [addAll]
    refine ⟨⟨?_, ?_, ?_, ?_⟩, hend, hshown.1.append hrises, ?_⟩
    · rw [hall.present, hadds.present]
    · rw [hall.onDisk, hadds.onDisk, List.map_cons, List.sum_cons, add_assoc]
    · rw [hall.fetched, hadds.fetched, List.map_cons, List.sum_cons, add_assoc]
    · rw [hall.totalBytes, htotal]
    · rw [lastShown_append]
      exact hlast

/-- The reports of all files. -/
def reportsOf (files : List (HFSibling × List Landed)) : List Landed := files.flatMap Prod.snd

theorem meterFiles_spec (late : ℕ → ℕ → Bool) {files : List (HFSibling × List Landed)}
    {meter : InstallProgressMeter} {k : ℕ} {floor : ℤ}
    (hsizes : ∀ landed ∈ reportsOf files, 0 ≤ size landed)
    (hcounts : Counts (sizes (reportsOf files)) meter.state)
    (hfloor : floor ≤ max meter.state.downloaded 0) :
    AddsAll (reportsOf files) meter (meterFiles late meter k files).1 ∧
      Counts 0 (meterFiles late meter k files).1.state ∧
      Rises floor (meterFiles late meter k files).2 ∧
      lastShown floor (meterFiles late meter k files).2 ≤
        max (meterFiles late meter k files).1.state.downloaded 0 := by
  induction files generalizing meter k floor with
  | nil => exact ⟨⟨rfl, (add_zero _).symm, (add_zero _).symm, rfl⟩, hcounts, trivial, hfloor⟩
  | cons file files ih =>
    obtain ⟨sibling, reports⟩ := file
    have hsplit : reportsOf ((sibling, reports) :: files) = reports ++ reportsOf files := rfl
    rw [hsplit] at hsizes hcounts
    obtain ⟨hfirst, hrest⟩ := List.forall_mem_append.1 hsizes
    have hsum : sizes (reports ++ reportsOf files) = sizes reports + sizes (reportsOf files) := by
      rw [sizes, List.map_append, List.sum_append]
      rfl
    rw [hsum] at hcounts
    -- the name of the file changes no count
    have hbegun : Counts (sizes reports + sizes (reportsOf files))
        (meter.beginFile sibling.rfilename).state := ⟨hcounts.present, hcounts.onDisk, hcounts.room⟩
    obtain ⟨hall, hend, hrises, hlast⟩ := addAll_spec (late k) (n := 0) hfirst
      (sizes_nonneg hrest) hbegun hfloor
    obtain ⟨hall', hend', hrises', hlast'⟩ := ih (k := k + 1) hrest hend hlast
    simp only [meterFiles]
    refine ⟨⟨?_, ?_, ?_, ?_⟩, hend', hrises.append hrises', ?_⟩
    · rw [hall'.present, hall.present]
      rfl
    · rw [hall'.onDisk, hall.onDisk, hsplit, List.map_append, List.sum_append, ← add_assoc]
      rfl
    · rw [hall'.fetched, hall.fetched, hsplit, List.map_append, List.sum_append, ← add_assoc]
      rfl
    · rw [hall'.totalBytes, hall.totalBytes]
      rfl
    · rw [lastShown_append]
      exact hlast'

/-! ## What a download reports -/

section

variable {pending : String}

/-- Steps of a transfer: they report bytes from the wire and bytes given up, and touch no other
partial and no blob. -/
structure Moves (pending : String) (transfer transfer' : Transfer) : Prop where
  events : ∃ more, transfer'.events = transfer.events ++ more ∧
    ∀ event ∈ more, 0 ≤ size event ∧ diskBytes event = 0
  others : ∀ name, name ≠ pending →
    transfer'.cache.incompletes name = transfer.cache.incompletes name
  blobs : transfer'.cache.blobs = transfer.cache.blobs

variable (transfer : Transfer)

theorem Moves.refl : Moves pending transfer transfer :=
  ⟨⟨[], (List.append_nil _).symm, nofun⟩, fun _ _ => rfl, rfl⟩

theorem Moves.trans {first second third : Transfer} (h : Moves pending first second)
    (h' : Moves pending second third) : Moves pending first third := by
  obtain ⟨more, hmore, hsizes⟩ := h.events
  obtain ⟨rest, hrest, hsizes'⟩ := h'.events
  refine ⟨⟨more ++ rest, by rw [hrest, hmore, List.append_assoc], ?_⟩, fun name hname => ?_, ?_⟩
  · intro event hevent
    rcases List.mem_append.1 hevent with hin | hin
    · exact hsizes event hin
    · exact hsizes' event hin
  · rw [h'.others name hname, h.others name hname]
  · rw [h'.blobs, h.blobs]

/-- The counts of requests are no part of it. -/
theorem Moves.congr {transfer after after' : Transfer} (h : Moves pending transfer after)
    (hevents : after'.events = after.events) (hcache : after'.cache = after.cache) :
    Moves pending transfer after' :=
  ⟨by rw [hevents]; exact h.events, by rw [hcache]; exact h.others, by rw [hcache]; exact h.blobs⟩

theorem moves_discard : Moves pending transfer (transfer.discard pending) := by
  refine ⟨⟨[.discarded transfer.written], rfl, ?_⟩, fun name hname => ?_, rfl⟩
  · intro event hevent
    rw [List.mem_singleton.1 hevent]
    exact ⟨Int.natCast_nonneg _, rfl⟩
  · exact update_of_ne hname _ _

theorem moves_receive (chunk : Bytes) :
    Moves pending transfer (transfer.receive pending chunk) := by
  refine ⟨⟨[.fetched chunk.length], rfl, ?_⟩, fun name hname => ?_, rfl⟩
  · intro event hevent
    rw [List.mem_singleton.1 hevent]
    exact ⟨Int.natCast_nonneg _, rfl⟩
  · exact update_of_ne hname _ _

theorem moves_receiveAll (chunks : List Bytes) (transfer : Transfer) :
    Moves pending transfer (chunks.foldl (Transfer.receive pending) transfer) := by
  induction chunks generalizing transfer with
  | nil => exact .refl transfer
  | cons chunk chunks ih => exact (moves_receive transfer chunk).trans (ih _)

theorem moves_openStream (pending : String) (transport : ℕ → Except InstallError StreamStart)
    (transfer : Transfer) :
    Moves pending transfer (openStream transport pending transfer).1 := by
  unfold openStream
  cases transfer.ask transport with
  | error error => exact (Moves.refl transfer).congr rfl rfl
  | ok start =>
    simp only
    split
    · exact (((Moves.refl transfer).congr rfl rfl).trans (moves_discard _)).congr rfl rfl
    · exact (Moves.refl transfer).congr rfl rfl

theorem moves_round (pending : String) (repo : String) (sibling : HFSibling)
    (transport : ℕ → Except InstallError StreamStart) (transfer : Transfer) :
    Moves pending transfer (round repo sibling transport pending transfer).1 := by
  have hopen := moves_openStream pending transport transfer
  unfold round
  rcases hstream : openStream transport pending transfer with ⟨opened, error | start⟩
  · rw [hstream] at hopen
    exact hopen
  · rw [hstream] at hopen
    simp only
    split
    · split
      · exact hopen.trans ((moves_discard opened).trans (moves_receiveAll _ _))
      · exact hopen.trans (moves_receiveAll _ _)
    · exact hopen

theorem moves_transferLoop (pending : String) (repo : String) (sibling : HFSibling)
    (transport : ℕ → Except InstallError StreamStart) (left : ℕ) (transfer : Transfer) :
    Moves pending transfer (transferLoop repo sibling transport pending left transfer).1 := by
  induction left generalizing transfer with
  | zero =>
    have hround := moves_round pending repo sibling transport transfer
    unfold transferLoop
    split
    · exact .refl transfer
    · rcases hresult : round repo sibling transport pending transfer with
        ⟨after, error | none | error⟩ <;> (rw [hresult] at hround; exact hround)
  | succ left ih =>
    have hround := moves_round pending repo sibling transport transfer
    unfold transferLoop
    split
    · exact .refl transfer
    · rcases hresult : round repo sibling transport pending transfer with
        ⟨after, error | none | error⟩
      · rw [hresult] at hround
        exact hround
      · rw [hresult] at hround
        exact hround
      · rw [hresult] at hround
        simp only
        split
        · split
          · exact hround
          · exact hround.trans (ih after)
        · exact hround

end

section

variable (hash : Bytes → String) (repo revision : String)

/-- The blob of a listed hash is there. -/
def hasBlob (cache : Cache) (sibling : HFSibling) : Bool :=
  sibling.sha256.any fun sha => (cache.blobs sha).isSome

/-- The partial that a download of the file carries on from. -/
def savedBytes (cache : Cache) (sibling : HFSibling) : Bytes :=
  let pending := pendingBlobName hash sibling revision
  ((adoptUnnamed hash sibling revision pending cache).incompletes pending).getD []

/-- What a download does to the disk, and what it reports. -/
structure Downloads (cache : Cache) (sibling : HFSibling) (transfer : Transfer)
    (result : Except InstallError Unit) : Prop where
  blobs : ∀ name, (cache.blobs name).isSome = true → (transfer.cache.blobs name).isSome = true
  others : ∀ name, name ≠ pendingBlobName hash sibling revision →
    name ≠ unnamedBlobName hash sibling.rfilename revision →
      transfer.cache.incompletes name = cache.incompletes name
  onDisk : (transfer.events.map diskBytes).sum =
    if hasBlob cache sibling then sibling.bytes.getD 0
    else (savedBytes hash revision cache sibling).length
  sizes : (hasBlob cache sibling = true → 0 ≤ sibling.bytes.getD 0) →
    ∀ event ∈ transfer.events, 0 ≤ size event
  landed : result = .ok () → ∀ bytes ∈ sibling.bytes, landed transfer.events = bytes
  linked : result = .ok () → sibling.sha256.isSome = true → hasBlob transfer.cache sibling = true

/-- The move of a partial to its blob reports nothing. -/
theorem downloads_finish {cache : Cache} {sibling : HFSibling} {transfer : Transfer}
    (hsound : transfer.Sound cache.blobs (pendingBlobName hash sibling revision))
    (hothers : ∀ name, name ≠ pendingBlobName hash sibling revision →
      name ≠ unnamedBlobName hash sibling.rfilename revision →
        transfer.cache.incompletes name = cache.incompletes name)
    (honDisk : (transfer.events.map diskBytes).sum =
      (savedBytes hash revision cache sibling).length)
    (hsizes : ∀ event ∈ transfer.events, 0 ≤ size event)
    (hfresh : hasBlob cache sibling = false) {after : Transfer}
    {result : Except InstallError Unit}
    (h : finish hash sibling revision (pendingBlobName hash sibling revision) transfer =
      (after, result)) :
    Downloads hash revision cache sibling after result := by
  have hdisk : (transfer.events.map diskBytes).sum =
      if hasBlob cache sibling then sibling.bytes.getD 0
      else (savedBytes hash revision cache sibling).length := by
    rw [hfresh]
    exact honDisk
  unfold finish at h
  by_cases hlength : ∃ expected ∈ sibling.bytes, (transfer.written : ℤ) ≠ expected
  · rw [if_pos hlength, Prod.mk.injEq] at h
    obtain ⟨rfl, rfl⟩ := h
    exact ⟨fun name hname => by rwa [hsound.blobs], hothers, hdisk, fun _ => hsizes, nofun, nofun⟩
  rw [if_neg hlength] at h
  simp only at h
  by_cases hsha : ∃ sha ∈ sibling.sha256, hash transfer.hashed ≠ sha
  · rw [if_pos hsha, Prod.mk.injEq] at h
    obtain ⟨rfl, rfl⟩ := h
    refine ⟨fun name hname => by rwa [Transfer.setIncomplete, hsound.blobs],
      fun name hname hold => ?_, hdisk, fun _ => hsizes, nofun, nofun⟩
    exact (update_of_ne hname _ _).trans (hothers name hname hold)
  rw [if_neg hsha, Prod.mk.injEq] at h
  obtain ⟨rfl, rfl⟩ := h
  have hgrow : ∀ final name, (transfer.cache.blobs name).isSome = true ∨ name = final →
      ((if (transfer.cache.blobs final).isSome then transfer.cache.blobs
        else update transfer.cache.blobs final
          (transfer.cache.incompletes (pendingBlobName hash sibling revision))) name).isSome =
        true := by
    intro final name hname
    by_cases hthere : (transfer.cache.blobs final).isSome = true
    · rw [if_pos hthere]
      rcases hname with hname | rfl
      · exact hname
      · exact hthere
    · rw [if_neg hthere]
      by_cases heq : name = final
      · rw [heq, update_self, hsound.file]
        rfl
      · rw [update_of_ne heq]
        exact hname.resolve_right heq
  refine ⟨fun name hname => ?_, fun name hname hold => ?_, hdisk, fun _ => hsizes,
    fun _ bytes hbytes => ?_, fun _ hhashed => ?_⟩
  · exact hgrow _ name (.inl (by rwa [hsound.blobs]))
  · exact (update_of_ne hname _ _).trans (hothers name hname hold)
  · show landed transfer.events = bytes
    rw [hsound.events]
    by_contra hne
    exact hlength ⟨bytes, hbytes, hne⟩
  · obtain ⟨sha, hlisted⟩ := Option.isSome_iff_exists.1 hhashed
    simp only [hasBlob, hlisted, Option.any_some, Option.getD_some]
    exact hgrow sha sha (.inr rfl)

theorem download_spec (transport : ℕ → Except InstallError StreamStart) (cache : Cache)
    (sibling : HFSibling) :
    Downloads hash revision cache sibling
      (download hash repo sibling revision transport cache).1
      (download hash repo sibling revision transport cache).2 := by
  unfold download
  cases hthere : sibling.sha256.filter fun sha => (cache.blobs sha).isSome with
  | some sha =>
    simp only
    obtain ⟨hsha, hsome⟩ := Option.filter_eq_some_iff.1 hthere
    have hblob : hasBlob cache sibling = true := by
      rw [hasBlob, hsha]
      exact hsome
    refine ⟨fun name hname => hname, fun name hname _ => update_of_ne hname _ _, ?_, ?_,
      fun _ bytes hbytes => ?_, fun _ _ => hblob⟩
    · rw [hblob]
      simp [diskBytes]
    · intro hnonneg event hevent
      rw [List.mem_singleton.1 hevent]
      exact hnonneg hblob
    · have hbytes : sibling.bytes = some bytes := hbytes
      simp [Hedos.Install.landed, Landed.amount, hbytes]
  | none =>
    have hfresh : hasBlob cache sibling = false := by
      cases hsha : sibling.sha256 with
      | none => simp [hasBlob, hsha]
      | some sha =>
        rw [hsha, Option.filter_some, ite_eq_right_iff] at hthere
        cases hblob : (cache.blobs sha).isSome with
        | true => cases hthere hblob
        | false => simp [hasBlob, hsha, hblob]
    simp only
    generalize hpending : pendingBlobName hash sibling revision = pending
    generalize hadopted : adoptUnnamed hash sibling revision pending cache = adopted
    have hblobs : adopted.blobs = cache.blobs := by
      rw [← hadopted, adoptUnnamed_blobs]
    -- what is taken over lies under the two names of the file
    have hothers : ∀ name, name ≠ pending → name ≠ unnamedBlobName hash sibling.rfilename revision →
        adopted.incompletes name = cache.incompletes name := by
      intro name hname hold
      rw [← hadopted]
      unfold adoptUnnamed
      simp only
      split
      · exact (update_of_ne hname _ _).trans (update_of_ne hold _ _)
      · rfl
    have hsaved : (savedBytes hash revision cache sibling) =
        (adopted.incompletes pending).getD [] := by
      rw [savedBytes, hpending, hadopted]
    have hstart : (startTransfer pending adopted).Sound cache.blobs pending := by
      rw [← hblobs]
      exact (startTransfer_sound pending adopted).1
    have hevents : ((startTransfer pending adopted).events.map diskBytes).sum =
          (savedBytes hash revision cache sibling).length ∧
        ∀ event ∈ (startTransfer pending adopted).events, 0 ≤ size event := by
      rw [hsaved]
      unfold startTransfer
      cases hfile : adopted.incompletes pending with
      | none => exact ⟨rfl, fun event hevent => (List.not_mem_nil hevent).elim⟩
      | some file =>
        simp only [hashExisting_eq, List.nil_append, Nat.zero_add, Option.getD_some]
        show ((if file.length > 0 then [Landed.onDisk file.length] else []).map diskBytes).sum = _ ∧
          ∀ event ∈ (if file.length > 0 then [Landed.onDisk file.length] else []), 0 ≤ size event
        by_cases hpos : file.length > 0
        · simp [hpos, diskBytes, size]
        · have hzero : file.length = 0 := by omega
          simp [hzero]
    have hstarted : ∀ name, name ≠ pending →
        (startTransfer pending adopted).cache.incompletes name = adopted.incompletes name := by
      intro name hname
      unfold startTransfer
      cases hfile : adopted.incompletes pending with
      | none => exact update_of_ne hname _ _
      | some file => rfl
    have hmoves := moves_transferLoop pending repo sibling transport streamResumes
      (startTransfer pending adopted)
    have hloop := (transferLoop_sound repo sibling transport streamResumes hstart).1
    rcases hresult : transferLoop repo sibling transport pending streamResumes
      (startTransfer pending adopted) with ⟨after, result⟩
    rw [hresult] at hmoves hloop
    have hafter : ∀ name, name ≠ pending →
        name ≠ unnamedBlobName hash sibling.rfilename revision →
          after.cache.incompletes name = cache.incompletes name := by
      intro name hname hold
      rw [hmoves.others name hname, hstarted name hname, hothers name hname hold]
    obtain ⟨more, hmore, hsizes⟩ := hmoves.events
    have hdisk : (after.events.map diskBytes).sum =
        (savedBytes hash revision cache sibling).length := by
      have hzero : (more.map diskBytes).sum = 0 := by
        apply List.sum_eq_zero
        intro x hx
        obtain ⟨event, hevent, rfl⟩ := List.mem_map.1 hx
        exact (hsizes event hevent).2
      rw [hmore, List.map_append, List.sum_append, hevents.1, hzero, add_zero]
    have hnonneg : ∀ event ∈ after.events, 0 ≤ size event := by
      intro event hevent
      rw [hmore] at hevent
      rcases List.mem_append.1 hevent with hin | hin
      · exact hevents.2 event hin
      · exact (hsizes event hin).1
    subst hpending
    cases result with
    | error error =>
      refine ⟨fun name hname => by rwa [hloop.blobs], hafter, ?_, fun _ => hnonneg, by simp,
        by simp⟩
      rw [hfresh]
      exact hdisk
    | ok _ => exact downloads_finish hash revision hloop hafter hdisk hnonneg hfresh rfl

end

/-! ## All files -/

section

variable (hash : Bytes → String) (repo revision : String)
  (transport : ℕ → ℕ → Except InstallError StreamStart)

/-- At each download a blob that is there has a listed size that is not negative. -/
def BlobsSized : Cache → ℕ → List HFSibling → Prop
  | _, _, [] => True
  | cache, k, sibling :: rest =>
    (hasBlob cache sibling = true → 0 ≤ sibling.bytes.getD 0) ∧
      BlobsSized (download hash repo sibling revision (transport k) cache).1.cache (k + 1) rest

/-- The partial counted for a file without a hash is not one that a file before it carries on
from. -/
def OwnPartial (cache : Cache) (before sibling : HFSibling) : Prop :=
  sibling.sha256 = none → unnamedBlobName hash before.rfilename revision =
      unnamedBlobName hash sibling.rfilename revision →
    presentOf hash cache revision sibling = 0

/-- `safe_hash`: a listed hash is 64 hexadecimal digits, in lower case. -/
def IsSafeHash (sha : String) : Prop :=
  sha.length = 64 ∧ ∀ c ∈ sha.toList, c.isDigit ∨ 'a' ≤ c ∧ c ≤ 'f'

theorem IsSafeHash.ne_unnamed {sha : String} (h : IsSafeHash sha) (rfilename : String) :
    sha ≠ unnamedBlobName hash rfilename revision := by
  rintro rfl
  have hc := h.2 't' (by simp [unnamedBlobName])
  revert hc
  decide

variable (cache : Cache)

/-- A download carries on from at least what lies under the name of the file. -/
theorem length_saved_le (sibling : HFSibling) :
    ((cache.incompletes (pendingBlobName hash sibling revision)).getD []).length ≤
      (savedBytes hash revision cache sibling).length := by
  unfold savedBytes
  simp only
  unfold adoptUnnamed
  simp only
  split
  · rename_i file hadopts _
    -- a partial is taken over only where nothing is saved
    have hnothing := (Bool.and_eq_true _ _ ▸ hadopts).2
    cases hfile : cache.incompletes (pendingBlobName hash sibling revision) with
    | none => exact Nat.zero_le _
    | some saved =>
      rw [hfile, Option.all_some, beq_iff_eq] at hnothing
      rw [Option.getD_some, hnothing]
      exact Nat.zero_le _
  · exact Nat.le_refl _

theorem presentOf_le (sibling : HFSibling) (hfresh : hasBlob cache sibling = false) :
    presentOf hash cache revision sibling ≤
      ((cache.incompletes (pendingBlobName hash sibling revision)).getD []).length := by
  have hnone : (sibling.sha256.filter fun sha => (cache.blobs sha).isSome) = none := by
    rw [Option.filter_eq_none_iff]
    intro sha hsha
    rw [hasBlob, hsha] at hfresh
    simpa using hfresh
  unfold presentOf
  simp only [hnone]
  omega

theorem presentOf_le_bytes (sibling : HFSibling) {bytes : ℤ}
    (hbytes : sibling.bytes = some bytes) (hnonneg : 0 ≤ bytes) :
    presentOf hash cache revision sibling ≤ bytes := by
  unfold presentOf
  rw [hbytes]
  split <;> simp only [Option.getD_some] <;> omega

theorem presentOf_nonneg (sibling : HFSibling) : 0 ≤ presentOf hash cache revision sibling := by
  unfold presentOf
  split <;> exact le_max_right _ 0

/-- What the disk is behind the downloads of some files. -/
structure Reached (start : Cache) (before : List HFSibling) (cache : Cache) : Prop where
  blobs : ∀ name, (start.blobs name).isSome = true → (cache.blobs name).isSome = true
  others : ∀ name, (∀ file ∈ before, name ≠ pendingBlobName hash file revision ∧
    name ≠ unnamedBlobName hash file.rfilename revision) →
      cache.incompletes name = start.incompletes name
  landed : ∀ file ∈ before, file.sha256.isSome = true → hasBlob cache file = true

variable {hash revision} in
theorem Reached.next {start cache : Cache} {before : List HFSibling} {sibling : HFSibling}
    {transfer : Transfer} (h : Reached hash revision start before cache)
    (hdownloads : Downloads hash revision cache sibling transfer (.ok ())) :
    Reached hash revision start (before ++ [sibling]) transfer.cache := by
  refine ⟨fun name hname => hdownloads.blobs name (h.blobs name hname), fun name hname => ?_,
    fun file hfile hhashed => ?_⟩
  · obtain ⟨hbefore, hlast⟩ := List.forall_mem_append.1 hname
    obtain ⟨hpending, hunnamed⟩ := hlast sibling (List.mem_singleton_self _)
    rw [hdownloads.others name hpending hunnamed, h.others name hbefore]
  · rcases List.mem_append.1 hfile with hin | hlast
    · have hblob := h.landed file hin hhashed
      rw [hasBlob, Option.any_eq_true] at hblob ⊢
      obtain ⟨sha, hsha, hthere⟩ := hblob
      exact ⟨sha, hsha, hdownloads.blobs sha hthere⟩
    · rw [List.mem_singleton.1 hlast] at hhashed ⊢
      exact hdownloads.linked rfl hhashed

variable {hash revision} in
/-- What was counted for a file at the start is on disk when it is its turn. -/
theorem Reached.present_le {start cache : Cache} {before : List HFSibling} {sibling : HFSibling}
    {bytes : ℤ} {transfer : Transfer} {result : Except InstallError Unit}
    (h : Reached hash revision start before cache)
    (hsafe : ∀ file ∈ before ++ [sibling], ∀ sha ∈ file.sha256, IsSafeHash sha)
    (hown : ∀ file ∈ before, OwnPartial hash revision start file sibling)
    (hbytes : sibling.bytes = some bytes) (hnonneg : 0 ≤ bytes)
    (hdownloads : Downloads hash revision cache sibling transfer result) :
    presentOf hash start revision sibling ≤ (transfer.events.map diskBytes).sum := by
  obtain ⟨hsafe, hsafe'⟩ := List.forall_mem_append.1 hsafe
  have hsafe' := hsafe' sibling (List.mem_singleton_self _)
  rw [hdownloads.onDisk]
  cases hblob : hasBlob cache sibling with
  | true =>
    rw [if_pos rfl, hbytes, Option.getD_some]
    exact presentOf_le_bytes hash revision start sibling hbytes hnonneg
  | false =>
    rw [if_neg Bool.false_ne_true]
    have hfresh : hasBlob start sibling = false := by
      rw [hasBlob, Option.any_eq_false] at hblob ⊢
      intro sha hsha
      cases hthere : (start.blobs sha).isSome with
      | false => rfl
      | true => exact (h.blobs sha hthere).symm.trans (hblob sha hsha)
    have hsaved := length_saved_le hash revision cache sibling
    -- the partial under the name of the file is the one that was counted
    have hsame : (∀ file ∈ before,
          pendingBlobName hash sibling revision ≠ pendingBlobName hash file revision ∧
          pendingBlobName hash sibling revision ≠ unnamedBlobName hash file.rfilename revision) →
        presentOf hash start revision sibling ≤
          (savedBytes hash revision cache sibling).length := by
      intro hothers
      have hpresent := presentOf_le hash revision start sibling hfresh
      rw [← h.others _ hothers] at hpresent
      omega
    cases hsha : sibling.sha256 with
    | some sha =>
      have hpending : pendingBlobName hash sibling revision = sha := by
        rw [pendingBlobName, hsha]
      apply hsame
      rw [hpending]
      have hunnamed := (hsafe' sha hsha).ne_unnamed hash revision
      intro file hfile
      refine ⟨fun heq => ?_, hunnamed file.rfilename⟩
      cases hother : file.sha256 with
      | none =>
        rw [pendingBlobName, hother] at heq
        exact hunnamed file.rfilename heq
      | some other =>
        have heq : sha = other := by
          rw [pendingBlobName, hother] at heq
          exact heq
        have hlanded := h.landed file hfile (by rw [hother]; rfl)
        rw [hasBlob, hother, ← heq] at hlanded
        rw [hasBlob, hsha] at hblob
        exact Bool.false_ne_true (hblob.symm.trans hlanded)
    | none =>
      have hpending : pendingBlobName hash sibling revision =
          unnamedBlobName hash sibling.rfilename revision := by
        rw [pendingBlobName, hsha]
      by_cases hshared : ∃ file ∈ before, unnamedBlobName hash file.rfilename revision =
          unnamedBlobName hash sibling.rfilename revision
      · obtain ⟨file, hfile, heq⟩ := hshared
        rw [hown file hfile hsha heq]
        exact Int.natCast_nonneg _
      · apply hsame
        rw [hpending]
        intro file hfile
        have hne : unnamedBlobName hash sibling.rfilename revision ≠
            unnamedBlobName hash file.rfilename revision :=
          fun heq => hshared ⟨file, hfile, heq.symm⟩
        refine ⟨?_, hne⟩
        cases hother : file.sha256 with
        | none =>
          rw [pendingBlobName, hother]
          exact hne
        | some other =>
          rw [pendingBlobName, hother]
          exact ((hsafe file hfile other hother).ne_unnamed hash revision sibling.rfilename).symm

/-- No report is of a negative number of bytes. -/
theorem downloadFiles_sizes {cache : Cache} {k : ℕ} {rest : List HFSibling}
    (hsized : BlobsSized hash repo revision transport cache k rest) :
    ∀ landed ∈ reportsOf (downloadFiles hash repo revision transport cache k rest).1,
      0 ≤ size landed := by
  induction rest generalizing cache k with
  | nil => exact nofun
  | cons sibling rest ih =>
    obtain ⟨hfirst, hrest⟩ := hsized
    have hspec := download_spec hash repo revision (transport k) cache sibling
    unfold downloadFiles
    rcases hdownload : download hash repo sibling revision (transport k) cache with
      ⟨transfer, error | done⟩
    · rw [hdownload] at hspec
      simpa [reportsOf] using hspec.sizes hfirst
    · rw [hdownload] at hspec hrest
      have hmore := ih hrest
      intro landed hlanded
      simp only [reportsOf, List.flatMap_cons] at hlanded
      rcases List.mem_append.1 hlanded with hin | hin
      · exact hspec.sizes hfirst landed hin
      · exact hmore landed hin

/-- The reports of downloads that succeed add up to the sizes, and begin with what was counted. -/
theorem downloadFiles_sum {start cache : Cache} {k : ℕ} {before rest : List HFSibling}
    (hreached : Reached hash revision start before cache)
    (hsafe : ∀ file ∈ before ++ rest, ∀ sha ∈ file.sha256, IsSafeHash sha)
    (hown : (before ++ rest).Pairwise (OwnPartial hash revision start))
    (hbytes : ∀ sibling ∈ rest, ∃ bytes, sibling.bytes = some bytes ∧ 0 ≤ bytes)
    (hok : (downloadFiles hash repo revision transport cache k rest).2 = .ok ()) :
    landed (reportsOf (downloadFiles hash repo revision transport cache k rest).1) =
        (rest.filterMap HFSibling.bytes).sum ∧
      (rest.map (presentOf hash start revision)).sum ≤
        ((reportsOf (downloadFiles hash repo revision transport cache k rest).1).map
          diskBytes).sum := by
  induction rest generalizing cache k before with
  | nil => exact ⟨rfl, le_refl 0⟩
  | cons sibling rest ih =>
    have hspec := download_spec hash repo revision (transport k) cache sibling
    obtain ⟨⟨bytes, hlisted, hnonneg⟩, hrest⟩ := List.forall_mem_cons.1 hbytes
    unfold downloadFiles at hok ⊢
    rcases hdownload : download hash repo sibling revision (transport k) cache with
      ⟨transfer, error | done⟩
    · rw [hdownload] at hok
      cases hok
    rw [hdownload] at hok hspec
    have hassoc : before ++ sibling :: rest = (before ++ [sibling]) ++ rest := by simp
    rw [hassoc] at hsafe hown
    have hpresent := hreached.present_le
      (fun file hfile => hsafe file (List.mem_append_left _ hfile))
      (fun file hfile => (List.pairwise_append.1 (List.pairwise_append.1 hown).1).2.2 file hfile
        sibling (List.mem_singleton_self _)) hlisted hnonneg hspec
    obtain ⟨hsum, hdisk⟩ := ih (hreached.next hspec) hsafe hown hrest hok
    have hfirst := hspec.landed rfl bytes hlisted
    simp only at hpresent hfirst
    simp only [reportsOf, List.flatMap_cons, List.map_append, List.sum_append, List.map_cons,
      List.sum_cons, List.filterMap_cons, hlisted] at hsum hdisk ⊢
    refine ⟨?_, ?_⟩
    · rw [Hedos.Install.landed, List.map_append, List.sum_append, ← Hedos.Install.landed,
        ← Hedos.Install.landed, hfirst, hsum]
    · omega

theorem presentBytes_le (selection : List HFSibling) :
    presentBytes hash cache revision selection ≤
      (selection.map (presentOf hash cache revision)).sum := by
  have hfold : ∀ present, 0 ≤ present →
      selection.foldl (fun present sibling =>
          saturatingAddI64 present (presentOf hash cache revision sibling)) present ≤
        present + (selection.map (presentOf hash cache revision)).sum := by
    induction selection with
    | nil => exact fun present _ => by simp
    | cons sibling selection ih =>
      intro present hpresent
      have hnonneg := presentOf_nonneg hash revision cache sibling
      have hmax : 0 ≤ i64Max := by decide
      have hrest := ih (saturatingAddI64 present (presentOf hash cache revision sibling))
        (by unfold saturatingAddI64; omega)
      rw [List.foldl_cons, List.map_cons, List.sum_cons]
      unfold saturatingAddI64 at hrest ⊢
      omega
  have hsum := hfold 0 (le_refl 0)
  rwa [zero_add] at hsum

/-- A sum that fits is the total. -/
theorem summedBytes_eq {selection : List HFSibling} (hne : selection ≠ [])
    (hbytes : ∀ sibling ∈ selection, ∃ bytes, sibling.bytes = some bytes ∧ 0 ≤ bytes)
    (hfits : (selection.filterMap HFSibling.bytes).sum < 2 ^ 63) :
    summedBytes selection = some (selection.filterMap HFSibling.bytes).sum := by
  have hnonneg : ∀ x ∈ selection.filterMap HFSibling.bytes, 0 ≤ x := by
    intro x hx
    obtain ⟨sibling, hsibling, hx⟩ := List.mem_filterMap.1 hx
    obtain ⟨bytes, hlisted, hbytes⟩ := hbytes sibling hsibling
    obtain rfl := Option.some.inj (hlisted.symm.trans hx)
    exact hbytes
  have hfold : ∀ sizes : List ℤ, (∀ x ∈ sizes, 0 ≤ x) → ∀ start, 0 ≤ start →
      start + sizes.sum < 2 ^ 63 → sizes.foldl saturatingAddI64 start = start + sizes.sum := by
    intro sizes
    induction sizes with
    | nil => exact fun _ start _ _ => (add_zero start).symm
    | cons x sizes ih =>
      intro hsizes start hstart hsum
      obtain ⟨hx, hrest⟩ := List.forall_mem_cons.1 hsizes
      have hrest' := List.sum_nonneg hrest
      rw [List.sum_cons] at hsum
      have hexact : saturatingAddI64 start x = start + x := by
        unfold saturatingAddI64 i64Max
        omega
      rw [List.foldl_cons, hexact, ih hrest (start + x) (by omega) (by omega), List.sum_cons,
        add_assoc]
  unfold summedBytes
  split
  · rename_i hnil
    obtain ⟨sibling, rest, rfl⟩ := List.exists_cons_of_ne_nil hne
    obtain ⟨bytes, hlisted, -⟩ := hbytes sibling (.head _)
    rw [List.filterMap_cons, hlisted] at hnil
    cases hnil
  · rw [hfold _ hnonneg 0 (le_refl 0) (by rwa [zero_add]), zero_add]

theorem wireBytes_le (reports : List Landed) (h : ∀ landed ∈ reports, 0 ≤ size landed) :
    landed reports ≤ sizes reports := by
  induction reports with
  | nil => exact le_refl 0
  | cons event reports ih =>
    obtain ⟨hevent, hrest⟩ := List.forall_mem_cons.1 h
    have hle := ih hrest
    rw [sizes_cons, landed, List.map_cons, List.sum_cons, ← landed]
    cases event <;> simp only [Landed.amount, size] at hevent ⊢ <;> omega

/-! ## The pull -/

/-- The counts of a pull stay in `i64`: what was found at first and all that is reported. -/
def Fits (cache : Cache) (ordered : List HFSibling) : Prop :=
  presentBytes hash cache revision ordered +
    sizes (reportsOf (downloadFiles hash repo revision transport cache 0 ordered).1) < 2 ^ 63

/-- Whatever the listing, the disk, the server and the times: when the blobs that are there have
sizes that are not negative and the counts fit, no snapshot is negative and none is lower than the
one before it, except at a report of bytes given up. When besides each file has a size that is not
negative, no file shares its saved partial with one before it, and all downloads succeed, the last
snapshot is the total. -/
theorem install_progress_adds_up (late : ℕ → ℕ → Bool) (cache : Cache) (ordered : List HFSibling)
    (hsafe : ∀ sibling ∈ ordered, ∀ sha ∈ sibling.sha256, IsSafeHash sha)
    (hsized : BlobsSized hash repo revision transport cache 0 ordered)
    (hfits : Fits hash repo revision transport cache ordered) :
    Rises 0 (pull hash repo revision transport late cache ordered).1 ∧
      (ordered ≠ [] → (∀ sibling ∈ ordered, ∃ bytes, sibling.bytes = some bytes ∧ 0 ≤ bytes) →
        ordered.Pairwise (OwnPartial hash revision cache) →
        (pull hash repo revision transport late cache ordered).2 = .ok () →
        ∃ final, (pull hash repo revision transport late cache ordered).1.getLast? =
            some ⟨none, final⟩ ∧ final.totalBytes = some final.bytesDownloaded) := by
  have hsizes := downloadFiles_sizes hash repo revision transport hsized
  have hpresent : 0 ≤ presentBytes hash cache revision ordered := by
    unfold presentBytes
    apply List.foldlRecOn (motive := fun present : ℤ => 0 ≤ present) ordered _ (le_refl 0)
    intro present hpresent sibling _
    have hnonneg := presentOf_nonneg hash revision cache sibling
    have hmax : 0 ≤ i64Max := by decide
    unfold saturatingAddI64
    omega
  have hsum := fun hbytes hown => @downloadFiles_sum hash repo revision transport cache cache 0 []
    ordered ⟨fun _ => id, fun _ _ => rfl, nofun⟩ hsafe hown hbytes
  unfold Fits at hfits
  unfold pull
  rcases hdownloads : downloadFiles hash repo revision transport cache 0 ordered with
    ⟨reports, result⟩
  rw [hdownloads] at hsizes hfits hsum
  dsimp only at hsizes hfits hsum ⊢
  generalize hnew : InstallProgressMeter.new (summedBytes ordered) (isPartial ordered)
    (presentBytes hash cache revision ordered) = meter
  have hstate : meter.state = { present := presentBytes hash cache revision ordered } := by
    rw [← hnew]
    simp only [InstallProgressMeter.new, max_eq_left hpresent]
  have hcounts : Counts (sizes (reportsOf reports)) meter.state := by
    rw [hstate]
    refine ⟨hpresent, le_refl 0, ?_⟩
    simpa [max_eq_left hpresent] using hfits
  obtain ⟨hall, hend, hrises, hlast⟩ := meterFiles_spec late (k := 0) hsizes hcounts
    (le_max_right meter.state.downloaded 0)
  have hdownloaded := hend.downloaded (le_refl 0)
  cases result with
  | error error => exact ⟨hrises, fun _ _ _ hok => nomatch hok⟩
  | ok _ =>
    refine ⟨hrises.append ⟨.inl hlast, le_max_right _ 0, trivial⟩, fun hne hbytes hown _ => ?_⟩
    refine ⟨_, List.getLast?_concat, ?_⟩
    obtain ⟨hlanded, hdisk⟩ := hsum hbytes hown rfl
    have hle := presentBytes_le hash revision cache ordered
    have hwire := wireBytes_le (reportsOf reports) hsizes
    rw [landed_eq] at hlanded hwire
    have hnonneg : 0 ≤ (ordered.filterMap HFSibling.bytes).sum := by
      apply List.sum_nonneg
      intro x hx
      obtain ⟨sibling, hsibling, hx⟩ := List.mem_filterMap.1 hx
      obtain ⟨bytes, hlisted, hbytes⟩ := hbytes sibling hsibling
      obtain rfl := Option.some.inj (hlisted.symm.trans hx)
      exact hbytes
    have htotal : meter.totalBytes = some (ordered.filterMap HFSibling.bytes).sum := by
      rw [← hnew]
      exact summedBytes_eq hne hbytes (by omega)
    show (meterFiles late meter 0 reports).1.totalBytes =
      some (max (meterFiles late meter 0 reports).1.state.downloaded 0)
    rw [hall.totalBytes, htotal, hdownloaded, hall.present, hall.onDisk, hall.fetched, hstate]
    simp only [zero_add, Option.some.injEq]
    omega

end

/-! ## A pull that is resumed -/

/-- `abc` under its hash. -/
def abcHash : String := "ba7816bf8f01cfea414140de5dae2223b00361a396177a9cb410ff61f20015ad"

/-- The first byte of `model.bin` is saved under the name it has without a hash. -/
def savedCache : Cache where
  blobs := fun _ => none
  incompletes := update (fun _ => none)
    "tmp-e00d57a54c7521dba76b573f7d111a8d174341ef52849c7149ea3ab019ac4fba" (some [97])
  links := fun _ => none

/-- The file whole, or what the partial lacks, in two chunks. -/
def abcTransport (k : ℕ) (_ : ℕ) : Except InstallError StreamStart :=
  if k = 0 then .ok ⟨206, [[98], [99]], none⟩ else .ok ⟨200, [[97, 98, 99]], none⟩

theorem abcHash_toList : abcHash.toList =
    ['b', 'a', '7', '8', '1', '6', 'b', 'f', '8', 'f', '0', '1', 'c', 'f', 'e', 'a',
      '4', '1', '4', '1', '4', '0', 'd', 'e', '5', 'd', 'a', 'e', '2', '2', '2', '3',
      'b', '0', '0', '3', '6', '1', 'a', '3', '9', '6', '1', '7', '7', 'a', '9', 'c',
      'b', '4', '1', '0', 'f', 'f', '6', '1', 'f', '2', '0', '0', '1', '5', 'a', 'd'] :=
  String.toList_ofList

theorem abcHash_safe : IsSafeHash abcHash := by
  rw [IsSafeHash, ← String.length_toList, abcHash_toList]
  refine ⟨rfl, fun c hc => ?_⟩
  have hhex : ∀ c : Char, (c.isDigit || decide (97 ≤ c.toNat) && decide (c.toNat ≤ 102)) = true →
      c.isDigit ∨ 'a' ≤ c ∧ c ≤ 'f' := by
    intro c h
    rw [Bool.or_eq_true, Bool.and_eq_true, decide_eq_true_eq, decide_eq_true_eq] at h
    exact h
  apply hhex
  revert c
  rw [← List.all_eq_true]
  rfl

theorem install_progress_adds_up_resumed :
    Rises 0 (pull sampleHash "org/model" "main" abcTransport (fun _ _ => true) savedCache
        [sampleSibling]).1 ∧
      ∃ final, (pull sampleHash "org/model" "main" abcTransport (fun _ _ => true) savedCache
        [sampleSibling]).1.getLast? = some ⟨none, final⟩ ∧
          final.totalBytes = some final.bytesDownloaded := by
  have hsafe : ∀ sibling ∈ [sampleSibling], ∀ sha ∈ sibling.sha256, IsSafeHash sha := by
    intro sibling hsibling sha hsha
    rw [List.mem_singleton.1 hsibling] at hsha
    cases hsha
    exact abcHash_safe
  have hsized :
      BlobsSized sampleHash "org/model" "main" abcTransport savedCache 0 [sampleSibling] :=
    ⟨fun _ => by decide, trivial⟩
  have hfits : Fits sampleHash "org/model" "main" abcTransport savedCache [sampleSibling] := by
    unfold Fits
    decide +kernel
  obtain ⟨hrises, hfinal⟩ := install_progress_adds_up sampleHash "org/model" "main" abcTransport
    (fun _ _ => true) savedCache [sampleSibling] hsafe hsized hfits
  refine ⟨hrises, hfinal (List.cons_ne_nil _ _) ?_ (List.pairwise_singleton _ _)
    (by decide +kernel)⟩
  intro sibling hsibling
  rw [List.mem_singleton.1 hsibling]
  exact ⟨3, rfl, by decide⟩

/-! ## Listings that do not add up -/

/-- A file without a hash that the listing names twice. -/
def namedTwice : List HFSibling :=
  [{ rfilename := "model.bin", bytes := some 3, sha256 := none },
    { rfilename := "model.bin", bytes := some 3, sha256 := none }]

/-- A copy of the file whose listed size is negative. -/
def negativeCopy : List HFSibling :=
  [{ rfilename := "model.bin", bytes := some 3, sha256 := some abcHash },
    { rfilename := "copy.bin", bytes := some (-1), sha256 := some abcHash }]

/-- The saved partial of a file that is named twice is counted twice, and a negative size takes
bytes off the count that were not given up. -/
theorem listings_do_not_add_up :
    ((pull sampleHash "org/model" "main" abcTransport (fun _ _ => true) savedCache namedTwice).2 =
        .ok () ∧
      (pull sampleHash "org/model" "main" abcTransport (fun _ _ => true) savedCache
        namedTwice).1.getLast?.map (fun emitted =>
          (emitted.progress.bytesDownloaded, emitted.progress.totalBytes)) = some (7, some 6)) ∧
      ¬ Rises 0 (pull sampleHash "org/model" "main" abcTransport (fun _ _ => true) savedCache
        negativeCopy).1 := by
  decide +kernel

end Hedos.Install.Meter
