import Hedos.Artifacts.Faults
import Hedos.Artifacts.Integrity

/-!
# What is listed after an error

* the files a scan can decode, `sidecars`, are all that a listing depends on: a store lists one
  artifact of each id among them (`shows_iff`), and loading keeps them (`sidecars_loadOr`);
* `store` changes its index last, so an error leaves it (`storeOr_error`); what an error can
  leave is an output that a scan takes for a sidecar, and an index that was loaded while something
  could not be read;
* `delete` changes its index first, so an error leaves the artifact out of it
  (`artifact_errors_change_nothing`).
-/

namespace Hedos.Artifacts

variable {ν : Type}

/-! ## What is asked -/

/-- Listing may show these artifacts. -/
def Shows (env : Env ν) (s : State ν) (shown : Set (Artifact ν)) : Prop :=
  ∃ entries, Lists s entries ∧ ∀ a, a ∈ shown ↔ a ∈ (s.loadOr env .good entries).list

/-- Where the call returned an error, the store lists what it did, and so does one opened on the
same root. -/
def Keeps {α : Type} (env : Env ν) (s : State ν) (result : Except ArtifactStoreError α × State ν) :
    Prop :=
  (∃ error, result.1 = .error error) →
    (∀ shown, Shows env result.2 shown → Shows env s shown) ∧
    (∀ shown, Shows env result.2.reopen shown → Shows env s.reopen shown)

/-! ## When it is kept -/

/-- The artifact that a scan finds at the path. -/
def decodedAt (env : Env ν) (s : State ν) (path : Path) : Option (Artifact ν) :=
  if isSidecar path then (s.read path).bind env.fromSlice else none

def sidecars (env : Env ν) (s : State ν) : Set (Artifact ν) :=
  {a | ∃ path, decodedAt env s path = some a}

/-- Those that a scan gets at. -/
def readSidecars (env : Env ν) (io : Io) (s : State ν) : Set (Artifact ν) :=
  {a | ∃ path, io.unread path = false ∧ decodedAt env s path = some a}

/-- The index is loaded, or no id is missed in loading it. -/
def AllRead (env : Env ν) (io : Io) (s : State ν) : Prop :=
  s.loaded = true ∨ ∀ a ∈ sidecars env s, ∃ b ∈ readSidecars env io s, b.id = a.id

/-- The output is not there and cannot be written. -/
def OutputFails (env : Env ν) (io : Io) (s : State ν) (draft : ArtifactDraft ν) (createdAt : ℤ) :
    Prop :=
  s.read (outputPath env draft createdAt) = none ∧ (io.fails .writeOutput).isSome = true

def PreviewFails (env : Env ν) (io : Io) (s : State ν) (draft : ArtifactDraft ν) : Prop :=
  ∃ preview, draft.preview = some preview ∧ s.read (previewPath env preview) = none ∧
    (io.fails .writePreview).isSome = true

/-- The output is written where a scan takes it for the sidecar of an artifact there was not. -/
def TakenForSidecar (env : Env ν) (io : Io) (s : State ν) (draft : ArtifactDraft ν)
    (createdAt : ℤ) : Prop :=
  s.read (outputPath env draft createdAt) = none ∧ io.fails .writeOutput = none ∧
    isSidecar (outputPath env draft createdAt) = true ∧
    ∃ a, env.fromSlice draft.data = some a ∧ a ∉ sidecars env s

/-- A needed write of `store` fails only when every id was read, and no output is left that a scan
takes for a sidecar. -/
def StoreSpared (env : Env ν) (io : Io) (entries : List (Sigma fun _ : Path => Bytes))
    (draft : ArtifactDraft ν) (createdAt : ℤ) (s : State ν) : Prop :=
  let loaded := s.loadOr env io entries
  OutputFails env io loaded draft createdAt ∨ PreviewFails env io loaded draft ∨
      (io.fails .writeSidecar).isSome = true →
    AllRead env io s ∧ ¬ TakenForSidecar env io loaded draft createdAt

/-- A needed removal of `delete` fails. -/
def RemovalFails (io : Io) (s : State ν) (artifact : Artifact ν) : Prop :=
  (io.fails .removeSidecar).isSome = true ∨
  ((∀ other ∈ s.values, other.path ≠ artifact.path) ∧ (io.fails .removeOutput).isSome = true) ∨
  (∃ path, artifact.previewPath = some path ∧
    (∀ other ∈ s.values, other.previewPath ≠ some path) ∧
    (io.fails .removePreview).isSome = true)

/-- The artifact is there and each of its files can be removed, or it is not there and every id was
read. -/
def DeleteSpared (env : Env ν) (io : Io) (entries : List (Sigma fun _ : Path => Bytes)) (id : Text)
    (s : State ν) : Prop :=
  let loaded := s.loadOr env io entries
  (∀ artifact, loaded.artifacts.lookup id = some artifact →
    ¬ RemovalFails io { loaded with artifacts := loaded.artifacts.erase id } artifact) ∧
  (loaded.artifacts.lookup id = none → AllRead env io s)

/-! ## Names that are no sidecar's -/

/-- What follows the last dot of a sidecar's name. -/
theorem json_of_isSidecar {path : Path} (h : isSidecar path = true) {init rest : Text}
    (hname : path.name = init ++ '.' :: rest) (hrest : '.' ∉ rest) : rest = "json".toList := by
  have hext : extension path.name = some "json".toList := by
    simp only [isSidecar, Bool.and_eq_true, beq_iff_eq] at h
    exact h.2
  have hsuffix := extension_eq_some hext
  rw [hname] at hsuffix
  rcases List.suffix_or_suffix_of_suffix hsuffix (List.suffix_append init ('.' :: rest)) with h | h
  · rcases List.suffix_cons_iff.1 h with heq | hin
    · exact (List.cons.inj heq).2.symm
    · exact absurd (hin.subset (List.mem_cons_self ..)) hrest
  · rcases List.suffix_cons_iff.1 h with heq | hin
    · exact (List.cons.inj heq).2
    · exact absurd (hin.subset (List.mem_cons_self ..)) (by decide)

section Names

variable {env : Env ν}

theorem temp_not_isSidecar (hplain : ∀ n, '.' ∉ env.uniqueSuffix n) (path : Path) (n : ℕ) :
    isSidecar (tempSibling env path n) = false := by
  rw [← Bool.not_eq_true]
  intro h
  have hjson := @json_of_isSidecar _ h ('.' :: path.name) ("tmp-".toList ++ env.uniqueSuffix n)
    (by simp [tempSibling]) (by simpa using hplain n)
  simp at hjson

theorem quarantine_not_isSidecar (hplain : ∀ n, '.' ∉ env.uniqueSuffix n) (path : Path) (n : ℕ) :
    isSidecar { path with name := path.name ++ ".corrupt-".toList ++ env.uniqueSuffix n } =
      false := by
  rw [← Bool.not_eq_true]
  intro h
  have hjson := @json_of_isSidecar _ h path.name ("corrupt-".toList ++ env.uniqueSuffix n)
    (by simp) (by simpa using hplain n)
  simp at hjson

theorem preview_not_isSidecar (preview : Bytes) : isSidecar (previewPath env preview) = false := rfl

end Names

/-! ## What the scan finds -/

section Scan

variable {env : Env ν} {io : Io} {s t : State ν} {path : Path}

theorem decodedAt_writeAtomic (path' : Path) (bytes : Bytes) :
    decodedAt env (s.writeAtomic path' bytes) path =
      if path = path' then if isSidecar path' then env.fromSlice bytes else none
      else decodedAt env s path := by
  unfold decodedAt
  rw [State.read_writeAtomic]
  by_cases h : path = path'
  · simp [h]
  · simp [h]

theorem decodedAt_quarantine (hplain : ∀ n, '.' ∉ env.uniqueSuffix n) {path' : Path}
    (hnone : decodedAt env s path' = none) (bytes : Bytes) :
    decodedAt env (s.quarantine env path' bytes) path = decodedAt env s path := by
  have hread : (s.quarantine env path' bytes).read path =
      ((s.removeIfPresent path').writeAtomic { path' with
        name := path'.name ++ ".corrupt-".toList ++ env.uniqueSuffix s.quarantined } bytes).read
        path := rfl
  unfold decodedAt
  rw [hread, State.read_writeAtomic, State.read_removeIfPresent]
  by_cases hside : isSidecar path = true
  · have htarget : path ≠ { path' with
        name := path'.name ++ ".corrupt-".toList ++ env.uniqueSuffix s.quarantined } := by
      intro h
      rw [h, quarantine_not_isSidecar hplain] at hside
      cases hside
    rw [if_neg htarget]
    by_cases hpath : path = path'
    · subst hpath
      rw [decodedAt] at hnone
      simp [hnone]
    · rw [if_neg hpath]
  · simp [hside]

/-- What one entry adds to the index. -/
def pick (env : Env ν) (io : Io) (entry : Sigma fun _ : Path => Bytes) : Option (Artifact ν) :=
  if isSidecar entry.1 && !io.unread entry.1 then env.fromSlice entry.2 else none

/-- The artifacts put in the index one after the other. -/
def indexed (artifacts : AList fun _ : Text => Artifact ν) (as : List (Artifact ν)) :
    AList fun _ : Text => Artifact ν :=
  as.foldl (fun index a => index.insert a.id a) artifacts

theorem scanEntryOr_artifacts (entry : Sigma fun _ : Path => Bytes) :
    (s.scanEntryOr env io entry).artifacts = indexed s.artifacts (pick env io entry).toList := by
  unfold State.scanEntryOr pick
  split
  · cases env.fromSlice entry.2 with
    | some artifact => rfl
    | none => cases io.fails (.quarantine entry.1) <;> rfl
  · rfl

theorem scanEntryOr_loaded (entry : Sigma fun _ : Path => Bytes) :
    (s.scanEntryOr env io entry).loaded = s.loaded := by
  unfold State.scanEntryOr
  split
  · cases env.fromSlice entry.2 with
    | some artifact => rfl
    | none => cases io.fails (.quarantine entry.1) <;> rfl
  · rfl

theorem foldl_scanEntryOr_artifacts (entries : List (Sigma fun _ : Path => Bytes)) :
    (entries.foldl (State.scanEntryOr env io) s).artifacts =
      indexed s.artifacts (entries.filterMap (pick env io)) := by
  induction entries generalizing s with
  | nil => rfl
  | cons entry entries ih =>
    rw [List.foldl_cons, ih, scanEntryOr_artifacts]
    cases hpick : pick env io entry <;> simp [indexed, hpick]

theorem foldl_scanEntryOr_loaded (entries : List (Sigma fun _ : Path => Bytes)) :
    (entries.foldl (State.scanEntryOr env io) s).loaded = s.loaded := by
  induction entries generalizing s with
  | nil => rfl
  | cons entry entries ih => rw [List.foldl_cons, ih, scanEntryOr_loaded]

/-- Only files that do not decode are moved. -/
theorem decodedAt_foldl_scanEntryOr (hplain : ∀ n, '.' ∉ env.uniqueSuffix n)
    {entries : List (Sigma fun _ : Path => Bytes)}
    (hentries : ∀ entry ∈ entries, env.fromSlice entry.2 = none →
      decodedAt env s entry.1 = none) (path : Path) :
    decodedAt env (entries.foldl (State.scanEntryOr env io) s) path = decodedAt env s path := by
  induction entries generalizing s with
  | nil => rfl
  | cons entry entries ih =>
    have hstep (path : Path) :
        decodedAt env (s.scanEntryOr env io entry) path = decodedAt env s path := by
      unfold State.scanEntryOr
      split
      · cases hslice : env.fromSlice entry.2 with
        | some artifact => rfl
        | none =>
          cases io.fails (.quarantine entry.1) with
          | some error => rfl
          | none => exact decodedAt_quarantine hplain (hentries entry (by simp) hslice) _
      · rfl
    rw [List.foldl_cons, ih, hstep]
    intro other hother hslice
    rw [hstep]
    exact hentries other (by simp [hother]) hslice

theorem loadOr_loaded (entries : List (Sigma fun _ : Path => Bytes)) :
    (s.loadOr env io entries).loaded = true := by
  unfold State.loadOr
  split
  · assumption
  · split
    · rfl
    · rw [foldl_scanEntryOr_loaded]

/-- Loading the index takes no artifact from the disk. -/
theorem decodedAt_loadOr (hplain : ∀ n, '.' ∉ env.uniqueSuffix n)
    {entries : List (Sigma fun _ : Path => Bytes)} (hentries : Lists s entries) (path : Path) :
    decodedAt env (s.loadOr env io entries) path = decodedAt env s path := by
  unfold State.loadOr
  split
  · rfl
  · split
    · rfl
    · refine decodedAt_foldl_scanEntryOr hplain (fun entry hentry hslice => ?_) path
      have hread : s.read entry.1 = some entry.2 :=
        AList.mem_lookup_iff.2 (hentries.mem_iff.1 hentry)
      have hread' : State.read { s with artifacts := ∅, loaded := true } entry.1 =
        some entry.2 := hread
      simp [decodedAt, hread', hslice]

theorem sidecars_loadOr (hplain : ∀ n, '.' ∉ env.uniqueSuffix n)
    {entries : List (Sigma fun _ : Path => Bytes)} (hentries : Lists s entries) :
    sidecars env (s.loadOr env io entries) = sidecars env s := by
  simp only [sidecars, decodedAt_loadOr hplain hentries]

end Scan

/-! ## What an index shows -/

section Index

variable {as bs : List (Artifact ν)} {index : AList fun _ : Text => Artifact ν}

/-- Every artifact is in the index under its own id. -/
def Keyed (index : AList fun _ : Text => Artifact ν) : Prop :=
  ∀ id a, index.lookup id = some a → a.id = id

/-- One artifact of each id in `D`. -/
structure Indexes (D shown : Set (Artifact ν)) : Prop where
  sub : shown ⊆ D
  all : ∀ a ∈ D, ∃ b ∈ shown, b.id = a.id
  one : ∀ a ∈ shown, ∀ b ∈ shown, a.id = b.id → a = b

theorem lookup_indexed_of_not_mem {id : Text} (h : ∀ a ∈ as, a.id ≠ id) :
    (indexed index as).lookup id = index.lookup id := by
  induction as generalizing index with
  | nil => rfl
  | cons a as ih =>
    rw [indexed, List.foldl_cons, ← indexed, ih fun b hb => h b (by simp [hb]),
      AList.lookup_insert_ne (h a (by simp)).symm]

theorem lookup_indexed_of_mem {a : Artifact ν} (ha : a ∈ as)
    (hone : ∀ b ∈ as, b.id = a.id → b = a) : (indexed index as).lookup a.id = some a := by
  induction as generalizing index with
  | nil => cases ha
  | cons b as ih =>
    rw [indexed, List.foldl_cons, ← indexed]
    by_cases hin : a ∈ as
    · exact ih hin fun c hc => hone c (by simp [hc])
    · obtain rfl : a = b := by simpa [hin] using ha
      rw [lookup_indexed_of_not_mem, AList.lookup_insert]
      intro c hc hid
      exact hin (hone c (by simp [hc]) hid ▸ hc)

theorem mem_of_lookup_indexed {id : Text} {a : Artifact ν}
    (h : (indexed index as).lookup id = some a) :
    a ∈ as ∧ a.id = id ∨ index.lookup id = some a := by
  induction as generalizing index with
  | nil => exact Or.inr h
  | cons b as ih =>
    rw [indexed, List.foldl_cons, ← indexed] at h
    rcases ih h with ⟨hmem, hid⟩ | hlookup
    · exact Or.inl ⟨by simp [hmem], hid⟩
    · by_cases hid : id = b.id
      · subst hid
        obtain rfl : b = a := by simpa using hlookup
        exact Or.inl ⟨by simp, rfl⟩
      · exact Or.inr (by rwa [AList.lookup_insert_ne hid] at hlookup)

theorem lookup_indexed_isSome {id : Text}
    (h : (∃ a ∈ as, a.id = id) ∨ (index.lookup id).isSome = true) :
    ((indexed index as).lookup id).isSome = true := by
  induction as generalizing index with
  | nil => simpa [indexed] using h
  | cons b as ih =>
    rw [indexed, List.foldl_cons, ← indexed]
    apply ih
    by_cases hid : id = b.id
    · exact Or.inr (by rw [hid, AList.lookup_insert]; rfl)
    · rw [AList.lookup_insert_ne hid]
      rcases h with ⟨a, ha, rfl⟩ | hsome
      · have hin : a ∈ as := (List.mem_cons.1 ha).resolve_left fun heq => hid (by rw [heq])
        exact Or.inl ⟨a, hin, rfl⟩
      · exact Or.inr hsome

theorem keyed_indexed (h : Keyed index) : Keyed (indexed index as) := by
  intro id a hlookup
  rcases mem_of_lookup_indexed hlookup with ⟨_, hid⟩ | hlookup
  · exact hid
  · exact h id a hlookup

/-- What the empty index shows after the artifacts were put in. -/
theorem indexes_indexed (as : List (Artifact ν)) :
    Indexes {a | a ∈ as} {a | ∃ id, (indexed ∅ as).lookup id = some a} where
  sub := by
    rintro a ⟨id, hlookup⟩
    rcases mem_of_lookup_indexed hlookup with ⟨hmem, _⟩ | hnone
    · exact hmem
    · cases hnone
  all a ha := by
    obtain ⟨b, hb⟩ := Option.isSome_iff_exists.1
      (@lookup_indexed_isSome _ as ∅ a.id (.inl ⟨a, ha, rfl⟩))
    exact ⟨b, ⟨a.id, hb⟩, keyed_indexed (fun _ _ h => by cases h) _ _ hb⟩
  one a := by
    rintro ⟨id, ha⟩ b ⟨id', hb⟩ heq
    have hkeyed : Keyed (indexed ∅ as) := keyed_indexed fun _ _ h => by cases h
    obtain rfl : id = id' := by rw [← hkeyed _ _ ha, ← hkeyed _ _ hb, heq]
    exact Option.some.inj (ha.symm.trans hb)

/-- The artifacts that are put in last are those shown, when there is one of each id among them. -/
theorem mem_indexed_append (hall : ∀ a ∈ as, ∃ b ∈ bs, b.id = a.id)
    (hone : ∀ a ∈ bs, ∀ b ∈ bs, a.id = b.id → a = b) (a : Artifact ν) :
    (∃ id, (indexed ∅ (as ++ bs)).lookup id = some a) ↔ a ∈ bs := by
  have happend : indexed ∅ (as ++ bs) = indexed (indexed ∅ as) bs := by
    simp [indexed, List.foldl_append]
  rw [happend]
  constructor
  · rintro ⟨id, hlookup⟩
    rcases mem_of_lookup_indexed hlookup with ⟨hmem, _⟩ | hbefore
    · exact hmem
    · -- An earlier artifact has been replaced.
      rcases mem_of_lookup_indexed hbefore with ⟨hmem, hid⟩ | hnone
      · obtain ⟨b, hb, hbid⟩ := hall a hmem
        have hlast := @lookup_indexed_of_mem _ bs (indexed ∅ as) b hb fun c hc hcid =>
          hone c hc b hb hcid
        rw [hbid, hid, hlookup] at hlast
        cases hlast
        exact hb
      · cases hnone
  · intro ha
    exact ⟨a.id, lookup_indexed_of_mem ha fun b hb hid => hone b hb a ha hid⟩

end Index

/-! ## What may be listed -/

section Shows

variable {env : Env ν} {io : Io} {s t : State ν} {shown : Set (Artifact ν)}

theorem mem_list {a : Artifact ν} : a ∈ s.list ↔ ∃ id, s.artifacts.lookup id = some a := by
  rw [State.list, List.mem_mergeSort, State.mem_values]

/-- A store that was not opened yet has an empty index. -/
structure Valid (s : State ν) : Prop where
  fresh : s.loaded = false → s.artifacts = ∅
  keyed : Keyed s.artifacts

theorem shows_of_loaded (h : s.loaded = true) :
    Shows env s shown ↔ ∀ a, a ∈ shown ↔ ∃ id, s.artifacts.lookup id = some a := by
  have hload (entries : List (Sigma fun _ : Path => Bytes)) :
      s.loadOr env .good entries = s := by rw [State.loadOr, if_pos h]
  simp only [Shows, hload, mem_list]
  exact ⟨fun ⟨_, _, hall⟩ => hall, fun hall => ⟨s.files.entries, .refl _, hall⟩⟩

theorem mem_filterMap_pick {entries : List (Sigma fun _ : Path => Bytes)}
    (hentries : Lists s entries) (a : Artifact ν) :
    a ∈ entries.filterMap (pick env io) ↔ a ∈ readSidecars env io s := by
  simp only [List.mem_filterMap, readSidecars, Set.mem_ofPred_eq]
  constructor
  · rintro ⟨⟨path, bytes⟩, hentry, hpick⟩
    have hread : s.read path = some bytes :=
      AList.mem_lookup_iff.2 (hentries.mem_iff.1 hentry)
    simp only [pick, Option.ite_none_right_eq_some, Bool.and_eq_true, Bool.not_eq_true'] at hpick
    exact ⟨path, hpick.1.2, by simp [decodedAt, hpick.1.1, hread, hpick.2]⟩
  · rintro ⟨path, hunread, hdecoded⟩
    simp only [decodedAt, Option.ite_none_right_eq_some, Option.bind_eq_some_iff] at hdecoded
    obtain ⟨hside, bytes, hread, hslice⟩ := hdecoded
    exact ⟨⟨path, bytes⟩, hentries.mem_iff.2 (AList.mem_lookup_iff.1 hread),
      by simp [pick, hside, hunread, hslice]⟩

theorem readSidecars_good : readSidecars env .good s = sidecars env s := by
  simp [readSidecars, sidecars]

/-- The index that a scan fills, whatever it cannot read. -/
theorem loadOr_artifacts (hvalid : Valid s) (hloaded : s.loaded = false)
    (entries : List (Sigma fun _ : Path => Bytes)) :
    (s.loadOr env io entries).artifacts = indexed ∅ (entries.filterMap (pick env io)) := by
  unfold State.loadOr
  rw [hloaded]
  cases hroot : io.fails .readRoot with
  | none => simp only [Bool.false_eq_true, if_false, foldl_scanEntryOr_artifacts]
  | some error =>
    have hnone : entries.filterMap (pick env io) = [] := by
      rw [List.filterMap_eq_nil_iff]
      intro entry _
      simp only [pick, isSidecar, Io.unread, hroot]
      cases entry.1.dir <;> simp [Dir.isYear]
    simp [hnone, indexed, hvalid.fresh hloaded]

theorem indexes_loadOr (hvalid : Valid s) (hloaded : s.loaded = false)
    {entries : List (Sigma fun _ : Path => Bytes)} (hentries : Lists s entries) :
    Indexes (readSidecars env io s)
      {a | ∃ id, (s.loadOr env io entries).artifacts.lookup id = some a} := by
  rw [loadOr_artifacts hvalid hloaded]
  have heq : readSidecars env io s = {a | a ∈ entries.filterMap (pick env io)} :=
    Set.ext fun a => (mem_filterMap_pick hentries a).symm
  rw [heq]
  exact indexes_indexed _

/-- A store that is opened lists one artifact of each id there is, and may list any. -/
theorem shows_iff (hvalid : Valid s) (hloaded : s.loaded = false) :
    Shows env s shown ↔ Indexes (sidecars env s) shown := by
  rw [← readSidecars_good]
  constructor
  · rintro ⟨entries, hentries, hall⟩
    have hindexes := @indexes_loadOr _ env .good _ hvalid hloaded _ hentries
    have heq : shown = {a | ∃ id, (s.loadOr env .good entries).artifacts.lookup id = some a} :=
      Set.ext fun a => (hall a).trans mem_list
    rwa [heq]
  · intro hindexes
    -- The files of the artifacts to be listed are read last.
    classical
    let chosen (entry : Sigma fun _ : Path => Bytes) : Bool :=
      decide (∃ a ∈ shown, pick env .good entry = some a)
    have hlists : Lists s (s.files.entries.filter (fun entry => !chosen entry) ++
        s.files.entries.filter chosen) :=
      List.perm_append_comm.trans (List.filter_append_perm chosen _)
    refine ⟨_, hlists, fun a => ?_⟩
    rw [mem_list, loadOr_artifacts hvalid hloaded, List.filterMap_append]
    have hchosen (a : Artifact ν) :
        a ∈ (s.files.entries.filter chosen).filterMap (pick env .good) ↔ a ∈ shown := by
      simp only [List.mem_filterMap, List.mem_filter, chosen, decide_eq_true_eq]
      constructor
      · rintro ⟨entry, ⟨_, b, hb, hpick⟩, hpick'⟩
        obtain rfl := Option.some.inj (hpick.symm.trans hpick')
        exact hb
      · intro ha
        obtain ⟨entry, hentry, hpick⟩ := List.mem_filterMap.1
          ((mem_filterMap_pick (List.Perm.refl s.files.entries) a).2 (hindexes.sub ha))
        exact ⟨entry, ⟨hentry, a, ha, hpick⟩, hpick⟩
    rw [mem_indexed_append, hchosen]
    · intro b hb
      obtain ⟨entry, hentry, hpick⟩ := List.mem_filterMap.1 hb
      have hb' := (mem_filterMap_pick (List.Perm.refl s.files.entries) b).1
        (List.mem_filterMap.2 ⟨entry, (List.mem_filter.1 hentry).1, hpick⟩)
      obtain ⟨c, hc, hid⟩ := hindexes.all b hb'
      exact ⟨c, (hchosen c).2 hc, hid⟩
    · intro b hb c hc
      exact hindexes.one b ((hchosen b).1 hb) c ((hchosen c).1 hc)

theorem valid_reopen (s : State ν) : Valid s.reopen where
  fresh _ := rfl
  keyed _ _ h := by cases h

/-- What a store opened on the root lists depends on what decodes there. -/
theorem shows_reopen : Shows env s.reopen shown ↔ Indexes (sidecars env s) shown :=
  shows_iff (valid_reopen s) rfl

end Shows

/-! ## Writing -/

section Write

variable {env : Env ν} {io : Io} {s : State ν} {step : IoStep} {path : Path} {bytes : Bytes}

theorem writeOr_error : (∃ error, (s.writeOr env io step path bytes).1 = .error error) ↔
    (io.fails step).isSome = true := by
  unfold State.writeOr
  cases io.fails step with
  | none => simp
  | some error => cases io.temp step <;> simp

theorem writeOr_index : (s.writeOr env io step path bytes).2.artifacts = s.artifacts ∧
    (s.writeOr env io step path bytes).2.loaded = s.loaded := by
  unfold State.writeOr
  cases io.fails step with
  | none => exact ⟨rfl, rfl⟩
  | some error => cases io.temp step <;> exact ⟨rfl, rfl⟩

/-- A temporary file that stays is no sidecar. -/
theorem decodedAt_writeOr (hplain : ∀ n, '.' ∉ env.uniqueSuffix n) (path' : Path) :
    decodedAt env (s.writeOr env io step path bytes).2 path' =
      if path' = path ∧ io.fails step = none then
        if isSidecar path then env.fromSlice bytes else none
      else decodedAt env s path' := by
  unfold State.writeOr
  cases hfails : io.fails step with
  | none => simp [decodedAt_writeAtomic]
  | some error =>
    cases io.temp step with
    | none => simp
    | some part =>
      have htemp := @decodedAt_writeAtomic _ env s path' (tempSibling env path s.quarantined) part
      simp only [temp_not_isSidecar hplain] at htemp
      have hsame : decodedAt env (s.writeAtomic (tempSibling env path s.quarantined) part) path' =
          decodedAt env s path' := by
        rw [htemp]
        split
        · rename_i heq
          simp [decodedAt, heq, temp_not_isSidecar hplain]
        · rfl
      simp only [reduceCtorEq, and_false, if_false]
      exact hsame

theorem writeIfAbsentOr_error :
    (∃ error, (s.writeIfAbsentOr env io step bytes path).1 = .error error) ↔
      s.read path = none ∧ (io.fails step).isSome = true := by
  unfold State.writeIfAbsentOr
  cases hread : s.read path with
  | some there => simp
  | none => simpa using writeOr_error

theorem writeIfAbsentOr_index :
    (s.writeIfAbsentOr env io step bytes path).2.artifacts = s.artifacts ∧
      (s.writeIfAbsentOr env io step bytes path).2.loaded = s.loaded := by
  unfold State.writeIfAbsentOr
  split
  · exact ⟨rfl, rfl⟩
  · exact writeOr_index

theorem decodedAt_writeIfAbsentOr (hplain : ∀ n, '.' ∉ env.uniqueSuffix n) (path' : Path) :
    decodedAt env (s.writeIfAbsentOr env io step bytes path).2 path' =
      if path' = path ∧ s.read path = none ∧ io.fails step = none then
        if isSidecar path then env.fromSlice bytes else none
      else decodedAt env s path' := by
  unfold State.writeIfAbsentOr
  cases hread : s.read path with
  | some there => simp
  | none => simpa using decodedAt_writeOr hplain path'

theorem spillOr_index (preview : Option Bytes) :
    (s.spillOr env io preview).2.artifacts = s.artifacts ∧
      (s.spillOr env io preview).2.loaded = s.loaded := by
  unfold State.spillOr
  cases preview with
  | none => exact ⟨rfl, rfl⟩
  | some preview => exact writeIfAbsentOr_index

theorem decodedAt_spillOr (hplain : ∀ n, '.' ∉ env.uniqueSuffix n) (preview : Option Bytes)
    (path' : Path) :
    decodedAt env (s.spillOr env io preview).2 path' = decodedAt env s path' := by
  unfold State.spillOr
  cases preview with
  | none => rfl
  | some preview =>
    rw [decodedAt_writeIfAbsentOr hplain, preview_not_isSidecar]
    split
    · rename_i h
      simp [decodedAt, h.1, preview_not_isSidecar]
    · rfl

/-- What a write at another place leaves there. -/
theorem read_writeIfAbsentOr_ok
    (hok : ∀ error, (s.writeIfAbsentOr env io step bytes path).1 ≠ .error error) {path' : Path}
    (hne : path' ≠ path) :
    (s.writeIfAbsentOr env io step bytes path).2.read path' = s.read path' := by
  unfold State.writeIfAbsentOr at hok ⊢
  split
  · rfl
  · rename_i hread
    rw [if_neg hread] at hok
    unfold State.writeOr at hok ⊢
    cases hfails : io.fails step with
    | none => simp [State.read_writeAtomic, hne]
    | some error => cases htemp : io.temp step <;> simp [hfails, htemp] at hok

end Write

/-! ## Storing -/

section Store

variable {env : Env ν} {io : Io} {s : State ν} {draft : ArtifactDraft ν} {createdAt : ℤ}
  {entries : List (Sigma fun _ : Path => Bytes)}

theorem outputPath_ne_previewPath (preview : Bytes) :
    previewPath env preview ≠ outputPath env draft createdAt := by
  intro h
  have hdir := congrArg Path.dir h
  cases hdir

/-- What an error of `store` leaves: nothing was put in the index, and all that decodes newly is an
output that was written. -/
structure Stopped (env : Env ν) (io : Io) (draft : ArtifactDraft ν) (createdAt : ℤ)
    (loaded after : State ν) : Prop where
  artifacts : after.artifacts = loaded.artifacts
  isLoaded : after.loaded = true
  decoded : ∀ path, decodedAt env after path =
    if path = outputPath env draft createdAt ∧
        loaded.read (outputPath env draft createdAt) = none ∧ io.fails .writeOutput = none then
      if isSidecar (outputPath env draft createdAt) then env.fromSlice draft.data else none
    else decodedAt env loaded path

/-- `store` returns an error just when a write that it needs fails. -/
theorem storeOr_error (hplain : ∀ n, '.' ∉ env.uniqueSuffix n) :
    ((∃ error, (s.storeOr env io entries draft createdAt).1 = .error error) ↔
      OutputFails env io (s.loadOr env io entries) draft createdAt ∨
        PreviewFails env io (s.loadOr env io entries) draft ∨
        (io.fails .writeSidecar).isSome = true) ∧
    ((∃ error, (s.storeOr env io entries draft createdAt).1 = .error error) →
      Stopped env io draft createdAt (s.loadOr env io entries)
        (s.storeOr env io entries draft createdAt).2) := by
  have hloaded := @loadOr_loaded _ env io s entries
  simp only [State.storeOr]
  generalize s.loadOr env io entries = loaded at hloaded ⊢
  have hfirstError := @writeIfAbsentOr_error _ env io loaded .writeOutput
    (outputPath env draft createdAt) draft.data
  have hfirstIndex := @writeIfAbsentOr_index _ env io loaded .writeOutput
    (outputPath env draft createdAt) draft.data
  have hfirstFiles := @decodedAt_writeIfAbsentOr _ env io loaded .writeOutput
    (outputPath env draft createdAt) draft.data hplain
  have hfirstRead := fun hok preview => @read_writeIfAbsentOr_ok _ env io loaded .writeOutput
    (outputPath env draft createdAt) draft.data hok (previewPath env preview)
    (outputPath_ne_previewPath preview)
  generalize loaded.writeIfAbsentOr env io .writeOutput draft.data
    (outputPath env draft createdAt) = outcome at *
  obtain ⟨error | ⟨⟨⟩⟩, first⟩ := outcome
  · -- The output could not be written.
    have hfails := hfirstError.1 ⟨error, rfl⟩
    exact ⟨iff_of_true ⟨_, rfl⟩ (Or.inl hfails),
      fun _ => ⟨hfirstIndex.1, hfirstIndex.2.trans hloaded, hfirstFiles⟩⟩
  have hnot : ¬ OutputFails env io loaded draft createdAt := fun h => by
    obtain ⟨error, herror⟩ := hfirstError.2 h
    cases herror
  have hpreviewRead := hfirstRead (fun error h => by cases h)
  have hsecondError : (∃ error, (first.spillOr env io draft.preview).1 = .error error) ↔
      PreviewFails env io loaded draft := by
    unfold State.spillOr PreviewFails
    cases draft.preview with
    | none => simp
    | some preview => simp [writeIfAbsentOr_error, hpreviewRead]
  have hsecondIndex := @spillOr_index _ env io first draft.preview
  have hsecondFiles := @decodedAt_spillOr _ env io first hplain draft.preview
  simp only
  generalize first.spillOr env io draft.preview = outcome at *
  obtain ⟨error | ⟨⟨⟩⟩, second⟩ := outcome
  · exact ⟨iff_of_true ⟨_, rfl⟩ (Or.inr (Or.inl (hsecondError.1 ⟨error, rfl⟩))),
      fun _ => ⟨hsecondIndex.1.trans hfirstIndex.1,
        (hsecondIndex.2.trans hfirstIndex.2).trans hloaded,
        fun path => (hsecondFiles path).trans (hfirstFiles path)⟩⟩
  have hnot' : ¬ PreviewFails env io loaded draft := fun h => by
    obtain ⟨error, herror⟩ := hsecondError.2 h
    cases herror
  simp only
  have hthirdError := @writeOr_error _ env io second .writeSidecar
    (sidecarPath (second.record env draft createdAt))
    (env.toVecPretty (second.record env draft createdAt))
  have hthirdIndex := @writeOr_index _ env io second .writeSidecar
    (sidecarPath (second.record env draft createdAt))
    (env.toVecPretty (second.record env draft createdAt))
  have hthirdFiles := @decodedAt_writeOr _ env io second .writeSidecar
    (sidecarPath (second.record env draft createdAt))
    (env.toVecPretty (second.record env draft createdAt)) hplain
  generalize second.writeOr env io .writeSidecar (sidecarPath (second.record env draft createdAt))
    (env.toVecPretty (second.record env draft createdAt)) = outcome at *
  obtain ⟨error | ⟨⟨⟩⟩, third⟩ := outcome
  · have hfails := hthirdError.1 ⟨error, rfl⟩
    refine ⟨iff_of_true ⟨_, rfl⟩ (Or.inr (Or.inr hfails)),
      fun _ => ⟨(hthirdIndex.1.trans hsecondIndex.1).trans hfirstIndex.1,
        ((hthirdIndex.2.trans hsecondIndex.2).trans hfirstIndex.2).trans hloaded, fun path => ?_⟩⟩
    rw [← hfirstFiles, ← hsecondFiles, hthirdFiles, if_neg]
    rintro ⟨_, hnone⟩
    rw [hnone] at hfails
    cases hfails
  · refine ⟨iff_of_false (by rintro ⟨_, ⟨⟩⟩) ?_, by rintro ⟨_, ⟨⟩⟩⟩
    rintro (h | h | h)
    · exact hnot h
    · exact hnot' h
    · obtain ⟨error, herror⟩ := hthirdError.2 h
      cases herror

/-- What `store` does to the index it loaded. -/
theorem storeOr_index :
    (s.storeOr env io entries draft createdAt).2.loaded = true ∧
      ((s.storeOr env io entries draft createdAt).2.artifacts =
          (s.loadOr env io entries).artifacts ∨
        ∃ a : Artifact ν, (s.storeOr env io entries draft createdAt).2.artifacts =
          (s.loadOr env io entries).artifacts.insert a.id a) := by
  have hloaded := @loadOr_loaded _ env io s entries
  simp only [State.storeOr]
  generalize s.loadOr env io entries = loaded at hloaded ⊢
  have hfirst := @writeIfAbsentOr_index _ env io loaded .writeOutput
    (outputPath env draft createdAt) draft.data
  generalize loaded.writeIfAbsentOr env io .writeOutput draft.data
    (outputPath env draft createdAt) = outcome at *
  obtain ⟨error | ⟨⟨⟩⟩, first⟩ := outcome
  · exact ⟨hfirst.2.trans hloaded, Or.inl hfirst.1⟩
  have hsecond := @spillOr_index _ env io first draft.preview
  simp only
  generalize first.spillOr env io draft.preview = outcome at *
  obtain ⟨error | ⟨⟨⟩⟩, second⟩ := outcome
  · exact ⟨hsecond.2.trans (hfirst.2.trans hloaded), Or.inl (hsecond.1.trans hfirst.1)⟩
  have hthird := @writeOr_index _ env io second .writeSidecar
    (sidecarPath (second.record env draft createdAt))
    (env.toVecPretty (second.record env draft createdAt))
  simp only
  generalize second.writeOr env io .writeSidecar (sidecarPath (second.record env draft createdAt))
    (env.toVecPretty (second.record env draft createdAt)) = outcome at *
  obtain ⟨error | ⟨⟨⟩⟩, third⟩ := outcome
  · exact ⟨hthird.2.trans (hsecond.2.trans (hfirst.2.trans hloaded)),
      Or.inl (hthird.1.trans (hsecond.1.trans hfirst.1))⟩
  · refine ⟨hthird.2.trans (hsecond.2.trans (hfirst.2.trans hloaded)),
      Or.inr ⟨second.record env draft createdAt, ?_⟩⟩
    rw [← hfirst.1, ← hsecond.1, ← hthird.1]

end Store

/-! ## Deleting -/

section Delete

variable {env : Env ν} {io : Io} {s : State ν} {entries : List (Sigma fun _ : Path => Bytes)}
  {id : Text}

theorem removeOr_error {step : IoStep} {path : Path} :
    (∃ error, (s.removeOr io step path).1 = .error error) ↔ (io.fails step).isSome = true := by
  unfold State.removeOr
  cases io.fails step <;> simp

theorem removeOr_index {step : IoStep} {path : Path} :
    (s.removeOr io step path).2.artifacts = s.artifacts ∧
      (s.removeOr io step path).2.loaded = s.loaded := by
  unfold State.removeOr
  cases io.fails step <;> exact ⟨rfl, rfl⟩

theorem removeUnsharedOr_error {step : IoStep} {shared : Artifact ν → Bool} {path : Path} :
    (∃ error, (s.removeUnsharedOr io step shared path).1 = .error error) ↔
      (∀ other ∈ s.values, shared other = false) ∧ (io.fails step).isSome = true := by
  unfold State.removeUnsharedOr
  by_cases hany : s.values.any shared = true
  · rw [if_pos hany]
    obtain ⟨other, hother, hshared⟩ := List.any_eq_true.1 hany
    refine iff_of_false (fun ⟨_, h⟩ => by cases h) fun h => ?_
    rw [h.1 other hother] at hshared
    cases hshared
  · rw [if_neg hany, removeOr_error]
    have hnone : ∀ other ∈ s.values, shared other = false := by simpa using hany
    exact ⟨fun h => ⟨hnone, h⟩, And.right⟩

theorem removeUnsharedOr_index {step : IoStep} {shared : Artifact ν → Bool} {path : Path} :
    (s.removeUnsharedOr io step shared path).2.artifacts = s.artifacts ∧
      (s.removeUnsharedOr io step shared path).2.loaded = s.loaded := by
  unfold State.removeUnsharedOr
  split
  · exact ⟨rfl, rfl⟩
  · exact removeOr_index

theorem removePreviewOr_error {preview : Option Path} :
    (∃ error, (s.removePreviewOr io preview).1 = .error error) ↔
      ∃ path, preview = some path ∧ (∀ other ∈ s.values, other.previewPath ≠ some path) ∧
        (io.fails .removePreview).isSome = true := by
  unfold State.removePreviewOr
  cases preview with
  | none => simp
  | some path => simp [removeUnsharedOr_error]

theorem removePreviewOr_index {preview : Option Path} :
    (s.removePreviewOr io preview).2.artifacts = s.artifacts ∧
      (s.removePreviewOr io preview).2.loaded = s.loaded := by
  unfold State.removePreviewOr
  cases preview with
  | none => exact ⟨rfl, rfl⟩
  | some path => exact removeUnsharedOr_index

theorem values_congr {t : State ν} (h : t.artifacts = s.artifacts) : t.values = s.values := by
  simp only [State.values, h]

theorem deleteOr_of_none (h : (s.loadOr env io entries).artifacts.lookup id = none) :
    s.deleteOr env io entries id = (.error (.notFound id), s.loadOr env io entries) := by
  simp only [State.deleteOr, h]

/-- Whatever comes after, the artifact is out of the index. -/
theorem deleteOr_of_some {artifact : Artifact ν}
    (h : (s.loadOr env io entries).artifacts.lookup id = some artifact) :
    ((∃ error, (s.deleteOr env io entries id).1 = .error error) ↔
      RemovalFails io { s.loadOr env io entries with
        artifacts := (s.loadOr env io entries).artifacts.erase id } artifact) ∧
    (s.deleteOr env io entries id).2.artifacts = (s.loadOr env io entries).artifacts.erase id ∧
    (s.deleteOr env io entries id).2.loaded = true := by
  have hloaded := @loadOr_loaded _ env io s entries
  simp only [State.deleteOr, h]
  generalize s.loadOr env io entries = loaded at hloaded h ⊢
  generalize hbase : ({ loaded with
      artifacts := loaded.artifacts.erase id
      stored := loaded.stored.filter fun kept => kept.1.id ≠ id } : State ν) = base
  have hart : base.artifacts = loaded.artifacts.erase id := by rw [← hbase]
  have hload : base.loaded = true := by rw [← hbase]; exact hloaded
  have hvalues : base.values = State.values { loaded with
      artifacts := loaded.artifacts.erase id } := values_congr hart
  unfold RemovalFails
  rw [← hvalues]
  have hfirstError := @removeOr_error _ io base .removeSidecar (sidecarPath artifact)
  have hfirst := @removeOr_index _ io base .removeSidecar (sidecarPath artifact)
  generalize base.removeOr io .removeSidecar (sidecarPath artifact) = outcome at *
  obtain ⟨error | ⟨⟨⟩⟩, first⟩ := outcome
  · exact ⟨iff_of_true ⟨_, rfl⟩ (Or.inl (hfirstError.1 ⟨error, rfl⟩)), hfirst.1.trans hart,
      hfirst.2.trans hload⟩
  have hsecondError := @removeUnsharedOr_error _ io first .removeOutput
    (fun other => other.path == artifact.path) artifact.path
  have hsecond := @removeUnsharedOr_index _ io first .removeOutput
    (fun other => other.path == artifact.path) artifact.path
  rw [values_congr hfirst.1] at hsecondError
  simp only
  generalize first.removeUnsharedOr io .removeOutput (fun other => other.path == artifact.path)
    artifact.path = outcome at *
  obtain ⟨error | ⟨⟨⟩⟩, second⟩ := outcome
  · have hfails := hsecondError.1 ⟨error, rfl⟩
    exact ⟨iff_of_true ⟨_, rfl⟩ (Or.inr (Or.inl ⟨by simpa using hfails.1, hfails.2⟩)),
      hsecond.1.trans (hfirst.1.trans hart), hsecond.2.trans (hfirst.2.trans hload)⟩
  have hthirdError := @removePreviewOr_error _ io second artifact.previewPath
  have hthird := @removePreviewOr_index _ io second artifact.previewPath
  rw [values_congr (hsecond.1.trans hfirst.1)] at hthirdError
  simp only
  generalize second.removePreviewOr io artifact.previewPath = outcome at *
  obtain ⟨error | ⟨⟨⟩⟩, third⟩ := outcome
  · exact ⟨iff_of_true ⟨_, rfl⟩ (Or.inr (Or.inr (hthirdError.1 ⟨error, rfl⟩))),
      hthird.1.trans (hsecond.1.trans (hfirst.1.trans hart)),
      hthird.2.trans (hsecond.2.trans (hfirst.2.trans hload))⟩
  · refine ⟨iff_of_false (by rintro ⟨_, ⟨⟩⟩) ?_,
      hthird.1.trans (hsecond.1.trans (hfirst.1.trans hart)),
      hthird.2.trans (hsecond.2.trans (hfirst.2.trans hload))⟩
    rintro (h | ⟨hshared, h⟩ | h)
    · obtain ⟨error, herror⟩ := hfirstError.2 h
      cases herror
    · obtain ⟨error, herror⟩ := hsecondError.2 ⟨by simpa using hshared, h⟩
      cases herror
    · obtain ⟨error, herror⟩ := hthirdError.2 h
      cases herror

end Delete

/-! ## What an error changes -/

section Errors

variable {env : Env ν} {io : Io} {s t : State ν} {entries : List (Sigma fun _ : Path => Bytes)}

theorem keyed_loadOr (hvalid : Valid s) : Keyed (s.loadOr env io entries).artifacts := by
  by_cases hloaded : s.loaded = true
  · rw [State.loadOr, if_pos hloaded]
    exact hvalid.keyed
  · rw [loadOr_artifacts hvalid (by simpa using hloaded)]
    exact keyed_indexed fun _ _ h => by cases h

/-- The index was only loaded: the same is listed, unless an id was missed. -/
theorem same_iff (hvalid : Valid s) (hentries : Lists s entries)
    (hart : t.artifacts = (s.loadOr env io entries).artifacts) (hload : t.loaded = true) :
    (∀ shown, Shows env t shown → Shows env s shown) ↔ AllRead env io s := by
  by_cases hloaded : s.loaded = true
  · refine iff_of_true (fun shown hshown => ?_) (Or.inl hloaded)
    rw [State.loadOr, if_pos hloaded] at hart
    rw [shows_of_loaded hload, hart] at hshown
    exact (shows_of_loaded hloaded).2 hshown
  · have hfresh : s.loaded = false := by simpa using hloaded
    have hindexes := @indexes_loadOr _ env io _ hvalid hfresh _ hentries
    have hread : AllRead env io s ↔
        ∀ a ∈ sidecars env s, ∃ b ∈ readSidecars env io s, b.id = a.id := or_iff_right hloaded
    simp only [hread, shows_of_loaded hload, shows_iff hvalid hfresh, hart]
    constructor
    · intro h a ha
      obtain ⟨b, hb, hid⟩ := (h _ fun _ => Iff.rfl).all a ha
      exact ⟨b, hindexes.sub hb, hid⟩
    · intro h shown hshown
      obtain rfl : shown =
          {a | ∃ id, (s.loadOr env io entries).artifacts.lookup id = some a} := Set.ext hshown
      refine ⟨fun a ha => ?_, fun a ha => ?_, hindexes.one⟩
      · obtain ⟨path, _, hdecoded⟩ := hindexes.sub ha
        exact ⟨path, hdecoded⟩
      · obtain ⟨b, hb, hid⟩ := h a ha
        obtain ⟨c, hc, hid'⟩ := hindexes.all b hb
        exact ⟨c, hc, hid'.trans hid⟩

/-- Some index shows `a`. -/
theorem exists_indexes {D : Set (Artifact ν)} {a : Artifact ν} (ha : a ∈ D) :
    ∃ shown, Indexes D shown ∧ a ∈ shown := by
  classical
  have hrep (id : Text) : ∃ b, (∃ c ∈ D, c.id = id) → b ∈ D ∧ b.id = id ∧ (id = a.id → b = a) := by
    by_cases hid : id = a.id
    · exact ⟨a, fun _ => ⟨ha, hid.symm, fun _ => rfl⟩⟩
    · by_cases hex : ∃ c ∈ D, c.id = id
      · obtain ⟨c, hc, hcid⟩ := hex
        exact ⟨c, fun _ => ⟨hc, hcid, fun h => absurd h hid⟩⟩
      · exact ⟨a, fun h => absurd h hex⟩
  choose rep hrep using hrep
  refine ⟨{b | ∃ c ∈ D, b = rep c.id}, ⟨?_, ?_, ?_⟩, a, ha, ?_⟩
  · rintro b ⟨c, hc, rfl⟩
    exact (hrep c.id ⟨c, hc, rfl⟩).1
  · intro c hc
    exact ⟨rep c.id, ⟨c, hc, rfl⟩, (hrep c.id ⟨c, hc, rfl⟩).2.1⟩
  · rintro b ⟨c, hc, rfl⟩ b' ⟨c', hc', rfl⟩ hid
    rw [(hrep c.id ⟨c, hc, rfl⟩).2.1, (hrep c'.id ⟨c', hc', rfl⟩).2.1] at hid
    rw [hid]
  · exact ((hrep a.id ⟨a, ha, rfl⟩).2.2 rfl).symm

/-- Where more decodes, the same is listed only if nothing new does. -/
theorem reopened_iff (hsub : sidecars env s ⊆ sidecars env t) :
    (∀ shown, Shows env t.reopen shown → Shows env s.reopen shown) ↔
      sidecars env t ⊆ sidecars env s := by
  simp only [shows_reopen]
  constructor
  · intro h a ha
    obtain ⟨shown, hshown, hmem⟩ := exists_indexes ha
    exact (h shown hshown).sub hmem
  · intro h shown hshown
    rwa [Set.Subset.antisymm hsub h]

theorem keeps_store_iff (hplain : ∀ n, '.' ∉ env.uniqueSuffix n) (hvalid : Valid s)
    (hentries : Lists s entries) (draft : ArtifactDraft ν) (createdAt : ℤ) :
    Keeps env s (s.storeOr env io entries draft createdAt) ↔
      StoreSpared env io entries draft createdAt s := by
  obtain ⟨herror, hstopped⟩ :=
    @storeOr_error _ env io s draft createdAt entries hplain
  refine Iff.trans ?_ (imp_congr_left herror)
  refine imp_congr_right fun hfails => ?_
  obtain ⟨hart, hload, hdecoded⟩ := hstopped hfails
  rw [same_iff hvalid hentries hart hload]
  refine and_congr_right fun _ => ?_
  have hloaded := @sidecars_loadOr _ env io s hplain _ hentries
  have hsub : sidecars env s ⊆ sidecars env (s.storeOr env io entries draft createdAt).2 := by
    rw [← hloaded]
    rintro a ⟨path, ha⟩
    refine ⟨path, ?_⟩
    rw [hdecoded, if_neg]
    · exact ha
    · rintro ⟨rfl, hread, _⟩
      simp [decodedAt, hread] at ha
  rw [reopened_iff hsub]
  constructor
  · rintro h ⟨hread, hok, hside, a, hslice, hnew⟩
    refine hnew (hloaded ▸ h ⟨outputPath env draft createdAt, ?_⟩)
    rw [hdecoded, if_pos ⟨rfl, hread, hok⟩, if_pos hside, hslice]
  · rintro hnot a ⟨path, ha⟩
    rw [hdecoded] at ha
    split at ha
    · rename_i hwritten
      obtain ⟨rfl, hread, hok⟩ := hwritten
      by_contra hnew
      simp only [Option.ite_none_right_eq_some] at ha
      exact hnot ⟨hread, hok, ha.1, a, ha.2, by rwa [hloaded]⟩
    · rw [← hloaded]
      exact ⟨path, ha⟩

theorem keeps_delete_iff (hplain : ∀ n, '.' ∉ env.uniqueSuffix n) (hvalid : Valid s)
    (hentries : Lists s entries) (id : Text) :
    Keeps env s (s.deleteOr env io entries id) ↔ DeleteSpared env io entries id s := by
  have hloaded := @sidecars_loadOr _ env io s hplain _ hentries
  cases hlookup : (s.loadOr env io entries).artifacts.lookup id with
  | none =>
    rw [deleteOr_of_none hlookup]
    have hsame := same_iff hvalid hentries rfl (@loadOr_loaded _ env io s entries)
    have hreopened := (reopened_iff hloaded.symm.subset).2 hloaded.subset
    constructor
    · intro h
      refine ⟨fun artifact hsome => ?_, fun _ => hsame.1 (h ⟨_, rfl⟩).1⟩
      rw [hlookup] at hsome
      cases hsome
    · intro h _
      exact ⟨hsame.2 (h.2 hlookup), hreopened⟩
  | some artifact =>
    obtain ⟨herror, hart, hload⟩ := deleteOr_of_some hlookup
    have hid := keyed_loadOr hvalid _ _ hlookup
    constructor
    · intro h
      refine ⟨fun artifact' hsome hfails => ?_, fun hnone => by rw [hlookup] at hnone; cases hnone⟩
      obtain rfl : artifact = artifact' := Option.some.inj (hlookup.symm.trans hsome)
      -- The artifact was listed, and no artifact with its id is any more.
      have hshows : Shows env s
          {b | ∃ id', (s.deleteOr env io entries id).2.artifacts.lookup id' = some b} :=
        (h (herror.2 hfails)).1 _ ((shows_of_loaded hload).2 fun _ => Iff.rfl)
      have hgone (b : Artifact ν)
          (hb : ∃ id', (s.deleteOr env io entries id).2.artifacts.lookup id' = some b) :
          b.id ≠ id := by
        obtain ⟨id', hb⟩ := hb
        rw [hart] at hb
        intro hbid
        by_cases heq : id' = id
        · rw [heq, AList.lookup_erase] at hb
          cases hb
        · rw [AList.lookup_erase_ne heq] at hb
          exact heq ((keyed_loadOr hvalid _ _ hb).symm.trans hbid)
      by_cases hfresh : s.loaded = true
      · rw [shows_of_loaded hfresh] at hshows
        have hsame : s.loadOr env io entries = s := by rw [State.loadOr, if_pos hfresh]
        rw [hsame] at hlookup
        exact hgone artifact ((hshows artifact).2 ⟨id, hlookup⟩) hid
      · have hnew : s.loaded = false := by simpa using hfresh
        rw [shows_iff hvalid hnew] at hshows
        obtain ⟨path, _, hdecoded⟩ := (@indexes_loadOr _ env io _ hvalid hnew _ hentries).sub
          ⟨id, hlookup⟩
        obtain ⟨b, hb, hbid⟩ := hshows.all artifact ⟨path, hdecoded⟩
        exact hgone b hb (hbid.trans hid)
    · intro h hfails
      exact absurd (herror.1 hfails) (h.1 artifact hlookup)

/-- Every call leaves the index keyed, and the store opened. -/
theorem valid_callStep (hvalid : Valid s) {event : Event ν}
    (hstep : s.callStep env event = some t) : Valid t := by
  have hof {after : State ν} (hload : after.loaded = true) (hkeyed : Keyed after.artifacts) :
      Valid after :=
    ⟨fun h => (by rw [hload] at h; cases h), hkeyed⟩
  cases event with
  | reopen =>
    obtain rfl : s.reopen = t := Option.some.inj hstep
    exact valid_reopen s
  | call io entries call =>
    simp only [State.callStep] at hstep
    split at hstep
    · have hkeyed := @keyed_loadOr _ env io s entries hvalid
      cases call with
      | list =>
        cases hstep
        exact hof (loadOr_loaded entries) hkeyed
      | store draft createdAt =>
        cases hstep
        obtain ⟨hload, hart | ⟨a, hart⟩⟩ := @storeOr_index _ env io s draft createdAt entries
        · exact hof hload (hart ▸ hkeyed)
        · refine hof hload (hart ▸ fun id b hb => ?_)
          by_cases hid : id = a.id
          · subst hid
            rw [AList.lookup_insert] at hb
            cases hb
            rfl
          · rw [AList.lookup_insert_ne hid] at hb
            exact hkeyed id b hb
      | delete id =>
        cases hstep
        cases hlookup : (s.loadOr env io entries).artifacts.lookup id with
        | none =>
          rw [deleteOr_of_none hlookup]
          exact hof (loadOr_loaded entries) hkeyed
        | some artifact =>
          obtain ⟨_, hart, hload⟩ := deleteOr_of_some hlookup
          refine hof hload (hart ▸ fun id' b hb => ?_)
          by_cases heq : id' = id
          · rw [heq, AList.lookup_erase] at hb
            cases hb
          · rw [AList.lookup_erase_ne heq] at hb
            exact hkeyed id' b hb
    · cases hstep

theorem valid_of_reachable (h : Transition.Reachable (State.callStep env) State.Opened s) :
    Valid s := by
  refine h.invariant (fun s hs => ⟨fun _ => hs.2, ?_⟩) fun s event t hs hstep =>
    valid_callStep hs hstep
  intro id a hlookup
  rw [hs.2] at hlookup
  cases hlookup

end Errors

/-- In every state that calls lead to, an error of `store` changes what is listed just when an id
was not read or an output is left that a scan takes for a sidecar, and one of `delete` just when the
artifact was there and a file of it could not be removed, or an id was not read. -/
theorem artifact_errors_change_nothing (env : Env ν) (hplain : ∀ n, '.' ∉ env.uniqueSuffix n)
    {s : State ν} (hs : Transition.Reachable (State.callStep env) State.Opened s) (io : Io)
    {entries : List (Sigma fun _ : Path => Bytes)} (hentries : Lists s entries)
    (draft : ArtifactDraft ν) (createdAt : ℤ) (id : Text) :
    (Keeps env s (s.storeOr env io entries draft createdAt) ↔
      StoreSpared env io entries draft createdAt s) ∧
    (Keeps env s (s.deleteOr env io entries id) ↔ DeleteSpared env io entries id s) :=
  ⟨keeps_store_iff hplain (valid_of_reachable hs) hentries draft createdAt,
    keeps_delete_iff hplain (valid_of_reachable hs) hentries id⟩

/-! ## A deletion that fails -/

/-- An environment that is the real one where the sample is stored and read. -/
def pngEnv : Env Unit where
  digest _ := sampleDigest
  toVecPretty a := if a = sampleArtifact "png".toList then sampleText "png".toList else []
  fromSlice bytes :=
    if bytes = sampleText "png".toList then some (sampleArtifact "png".toList) else none
  toLowercase text := text.map Char.toLower
  isAlphanumeric := Char.isAlphanum
  uniqueSuffix n := "4242-1767225600000-".toList ++ Nat.toDigits 10 n

theorem pngEnv_plain (n : ℕ) : '.' ∉ pngEnv.uniqueSuffix n := by
  intro h
  rcases List.mem_append.1 h with hstart | hdigits
  · exact absurd hstart (by decide)
  · have hdigit := Nat.isDigit_of_mem_toDigits (by decide) (by decide) hdigits
    exact absurd hdigit (by decide)

/-- The store with the sample in it. -/
def pngStored : State Unit :=
  (State.empty.storeOr pngEnv .good [] (sampleDraft "png".toList) sampleTime).2

theorem reachable_pngStored :
    Transition.Reachable (State.callStep pngEnv) State.Opened pngStored := by
  have hlists : Lists (State.empty : State Unit) [] := List.Perm.refl _
  refine Transition.Reachable.step (s := State.empty)
    (a := .call .good [] (.store (sampleDraft "png".toList) sampleTime)) (.init ⟨rfl, rfl⟩) ?_
  simp only [State.callStep, if_pos hlists, pngStored]

/-- The disk refuses to remove one kind of file. -/
def refuses (step : IoStep) : Io where
  fails other := if other = step then some "Permission denied (os error 13)" else none
  temp _ := none

def pngId : Text := "flux_e3b0c44298fc_job-0000".toList

/-- Its list is read, and has the sample. -/
theorem pngStored_listed : pngStored.loaded = true ∧
    pngStored.artifacts.lookup pngId = some (sampleArtifact "png".toList) := by
  unfold pngStored pngEnv pngId sampleArtifact sampleText sampleDraft sampleDigest
  -- character lists evaluate faster than string literals
  repeat rw [String.toList_ofList]
  decide +kernel

theorem pngStored_loadOr (io : Io) (entries : List (Sigma fun _ : Path => Bytes)) :
    (pngStored.loadOr pngEnv io entries).artifacts.lookup pngId =
      some (sampleArtifact "png".toList) := by
  rw [State.loadOr, if_pos pngStored_listed.1]
  exact pngStored_listed.2

/-- A deletion that stops at the sidecar takes the artifact from the list of the store, and one that
stops at the output takes it from the root. -/
theorem failed_deletes_change_lists :
    pngStored.values = [sampleArtifact "png".toList] ∧
    (pngStored.deleteOr pngEnv (refuses .removeSidecar) pngStored.files.entries pngId).1 =
      .error (.io "Permission denied (os error 13)") ∧
    (pngStored.deleteOr pngEnv (refuses .removeSidecar) pngStored.files.entries pngId).2.values =
      [] ∧
    (pngStored.deleteOr pngEnv (refuses .removeOutput) pngStored.files.entries pngId).1 =
      .error (.io "Permission denied (os error 13)") ∧
    (pngStored.deleteOr pngEnv (refuses .removeOutput) pngStored.files.entries pngId).2.read
      (sidecarPath (sampleArtifact "png".toList)) = none ∧
    ¬ Keeps pngEnv pngStored
      (pngStored.deleteOr pngEnv (refuses .removeSidecar) pngStored.files.entries pngId) := by
  have hkeeps : ¬ Keeps pngEnv pngStored
      (pngStored.deleteOr pngEnv (refuses .removeSidecar) pngStored.files.entries pngId) := by
    intro h
    have hspared := (keeps_delete_iff pngEnv_plain (valid_of_reachable reachable_pngStored)
      (.refl _) pngId).1 h
    exact hspared.1 (sampleArtifact "png".toList) (pngStored_loadOr _ _) (Or.inl rfl)
  simp only [hkeeps, not_false_eq_true, and_true]
  unfold pngStored pngEnv pngId sampleArtifact sampleText sampleDraft sampleDigest
  repeat rw [String.toList_ofList]
  decide +kernel

/-- An output that cannot be written: the call fails, and nothing is changed. -/
theorem gif_errors_change_nothing :
    (pngStored.storeOr pngEnv (refuses .writeOutput) pngStored.files.entries
      (sampleDraft "gif".toList) sampleTime).1 = .error (.io "Permission denied (os error 13)") ∧
    Keeps pngEnv pngStored (pngStored.storeOr pngEnv (refuses .writeOutput)
      pngStored.files.entries (sampleDraft "gif".toList) sampleTime) := by
  refine ⟨?_, (artifact_errors_change_nothing pngEnv pngEnv_plain reachable_pngStored
    (refuses .writeOutput) (.refl pngStored.files.entries) (sampleDraft "gif".toList) sampleTime
    pngId).1.2 fun _ => ⟨.inl pngStored_listed.1, fun htaken => nomatch htaken.2.1⟩⟩
  unfold pngStored pngEnv sampleArtifact sampleText sampleDraft sampleDigest
  repeat rw [String.toList_ofList]
  decide +kernel

end Hedos.Artifacts
