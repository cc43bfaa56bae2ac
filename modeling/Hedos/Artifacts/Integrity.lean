import Hedos.Artifacts.Files
import Mathlib.Data.Countable.Basic
import Mathlib.Logic.Equiv.List

/-!
# Integrity of the artifact store

* `Intact` is what the store promises in a state;
* outputs, previews and sidecars share the directories, and an output named like a sidecar
  is read as one when the store is opened again: it is quarantined, or listed as an artifact
  nobody stored (`output_named_json_is_lost`);
* as long as every output keeps another extension (`PlainExtension`), `Consistent` is an
  invariant and every state reached is intact (`store_intact_of_plain_extensions`).
-/

namespace Hedos.Artifacts

open Function

variable {ν : Type}

/-! ## What is promised -/

/-- What deleting `id` does to the files: those of the other artifacts stay as they are, and
a file of the deleted one goes unless another artifact has it too. -/
structure Deletes (s t : State ν) (id : Text) : Prop where
  others : ∀ a ∈ s.list, a.id ≠ id → a ∈ t.list ∧ t.read a.path = s.read a.path ∧
    ∀ path, a.previewPath = some path → t.read path = s.read path
  gone : ∀ a ∈ s.list, a.id = id → ∀ path, (a.path = path ∨ a.previewPath = some path) →
    (∀ b ∈ t.list, b.path ≠ path ∧ b.previewPath ≠ some path) → t.read path = none

/-- The store lists what was stored and not deleted, each under an id of its own and with the
bytes it was stored with; deleting keeps to the deleted artifact, and opening the root again
lists the same. -/
structure Intact (env : Env ν) (s : State ν) : Prop where
  listed : s.list.Perm (s.stored.map Prod.fst)
  ids : (s.list.map Artifact.id).Nodup
  output : ∀ a draft, (a, draft) ∈ s.stored → s.read a.path = some draft.data
  preview : ∀ a draft, (a, draft) ∈ s.stored → a.previewPath.bind s.read = draft.preview
  delete : ∀ id t, s.delete id = some t → Deletes s t id
  reopen : ∀ entries, Lists s entries → (s.reopen.loadIfNeeded env entries).list = s.list

/-- A store step whose contents are in `D`, whose parameters are in `V` and whose extension is
plain. -/
def Plain (D : Set Bytes) (V : Set ν) (_ : State ν) : Op ν → Prop
  | .store draft _ _ =>
    draft.data ∈ D ∧ (∀ preview ∈ draft.preview, preview ∈ D) ∧ draft.params ∈ V ∧
      PlainExtension draft.fileExtension
  | _ => True

/-! ## The invariant -/

/-- How an artifact follows from its draft. -/
structure Made (env : Env ν) (D : Set Bytes) (V : Set ν) (a : Artifact ν)
    (draft : ArtifactDraft ν) :
    Prop where
  path : a.path = outputPath env draft a.createdAt
  previewPath : a.previewPath = draft.preview.map (Artifacts.previewPath env)
  id : a.id ≠ []
  data : draft.data ∈ D
  preview : ∀ preview ∈ draft.preview, preview ∈ D
  params : a.params ∈ V
  plain : PlainExtension draft.fileExtension

/-- The file is the output, the preview or the sidecar of the artifact. -/
def Owns (a : Artifact ν) (path : Path) : Prop :=
  path = a.path ∨ a.previewPath = some path ∨ path = sidecarPath a

/-- Every artifact stored and not deleted has its three files, every file is one of them, and
a loaded index holds those artifacts. -/
structure Consistent (env : Env ν) (D : Set Bytes) (V : Set ν) (s : State ν) : Prop where
  made : ∀ a draft, (a, draft) ∈ s.stored → Made env D V a draft
  ids : (s.stored.map fun kept => kept.1.id).Nodup
  output : ∀ a draft, (a, draft) ∈ s.stored → s.read a.path = some draft.data
  preview : ∀ a draft, (a, draft) ∈ s.stored → a.previewPath.bind s.read = draft.preview
  sidecar : ∀ a draft, (a, draft) ∈ s.stored → s.read (sidecarPath a) = some (env.toVecPretty a)
  owned : ∀ path bytes, s.read path = some bytes → ∃ a draft, (a, draft) ∈ s.stored ∧ Owns a path
  index : s.loaded = true → ∀ id a, s.artifacts.lookup id = some a ↔
    a.id = id ∧ ∃ draft, (a, draft) ∈ s.stored

section

variable {env : Env ν} {D : Set Bytes} {V : Set ν} {s : State ν} {a b : Artifact ν}
  {draft draft' : ArtifactDraft ν}

theorem Made.year (h : Made env D V a draft) : a.path.dir.isYear = true := by
  rw [h.path]
  rfl

variable {path : Path} {t : State ν}

theorem Made.blobs (h : Made env D V a draft) (hpath : a.previewPath = some path) :
    path.dir = .blobs := by
  rw [h.previewPath, Option.map_eq_some_iff] at hpath
  obtain ⟨preview, -, rfl⟩ := hpath
  rfl

/-- An output is never at the place of a sidecar. -/
theorem Made.path_ne_sidecar (h : Made env D V a draft) (b : Artifact ν) :
    a.path ≠ sidecarPath b := by
  intro heq
  apply not_json_of_plain (slug env draft.model) (env.digest draft.data) h.plain
  have hname := congrArg Path.name (h.path.symm.trans heq)
  exact ⟨b.id, hname.symm⟩

theorem Made.preview_ne_sidecar (h : Made env D V a draft)
    (hpath : a.previewPath = some path) (b : Artifact ν) : path ≠ sidecarPath b := by
  intro heq
  have hdir := h.blobs hpath
  rw [heq] at hdir
  cases hdir

theorem Made.preview_ne_path (h : Made env D V a draft) (h' : Made env D V b draft')
    (hpath : a.previewPath = some path) : path ≠ b.path := by
  intro heq
  have hyear := h'.year
  rw [← heq, h.blobs hpath] at hyear
  cases hyear

theorem sidecarPath_id (h : sidecarPath a = sidecarPath b) : a.id = b.id := by
  have hname : a.id ++ ".json".toList = b.id ++ ".json".toList := congrArg Path.name h
  exact List.append_cancel_right hname

/-- Stored artifacts with one id are one. -/
theorem Consistent.eq_of_id (h : Consistent env D V s) (ha : (a, draft) ∈ s.stored)
    (hb : (b, draft') ∈ s.stored) (hid : a.id = b.id) : a = b ∧ draft = draft' := by
  have heq := List.inj_on_of_nodup_map h.ids ha hb hid
  exact ⟨congrArg Prod.fst heq, congrArg Prod.snd heq⟩

theorem Consistent.mem_values (h : Consistent env D V s) (hloaded : s.loaded = true) :
    a ∈ s.values ↔ ∃ draft, (a, draft) ∈ s.stored := by
  rw [State.mem_values]
  constructor
  · rintro ⟨id, hid⟩
    exact ((h.index hloaded id a).1 hid).2
  · rintro ⟨draft, hmem⟩
    exact ⟨a.id, (h.index hloaded a.id a).2 ⟨rfl, draft, hmem⟩⟩

/-- A file that looks like a sidecar is one. -/
theorem Consistent.sidecar_of_json (h : Consistent env D V s) {bytes : Bytes}
    (hread : s.read path = some bytes) (hyear : path.dir.isYear = true)
    (hext : extension path.name = some "json".toList) :
    ∃ a draft, (a, draft) ∈ s.stored ∧ path = sidecarPath a ∧ bytes = env.toVecPretty a := by
  obtain ⟨a, draft, hmem, howns⟩ := h.owned path bytes hread
  have hmade := h.made a draft hmem
  rcases howns with rfl | hpreview | rfl
  · have hsuffix := extension_eq_some hext
    rw [hmade.path] at hsuffix
    exact absurd hsuffix (not_json_of_plain _ _ hmade.plain)
  · rw [hmade.blobs hpreview] at hyear
    cases hyear
  · rw [h.sidecar a draft hmem] at hread
    exact ⟨a, draft, hmem, rfl, (Option.some.inj hread).symm⟩

/-- What depends on the files and on what is stored stays with another index. -/
theorem Consistent.of_files (h : Consistent env D V s) (hfiles : t.files = s.files)
    (hstored : t.stored = s.stored)
    (hindex : t.loaded = true → ∀ id a, t.artifacts.lookup id = some a ↔
      a.id = id ∧ ∃ draft, (a, draft) ∈ t.stored) : Consistent env D V t := by
  have hread : t.read = s.read := by
    funext path
    rw [State.read, hfiles]
    rfl
  refine ⟨?_, ?_, ?_, ?_, ?_, ?_, hindex⟩
  · rw [hstored]
    exact h.made
  · rw [hstored]
    exact h.ids
  · rw [hstored, hread]
    exact h.output
  · rw [hstored, hread]
    exact h.preview
  · rw [hstored, hread]
    exact h.sidecar
  · rw [hstored, hread]
    exact h.owned

theorem Consistent.reopen (h : Consistent env D V s) : Consistent env D V s.reopen :=
  h.of_files rfl rfl (nofun)

/-! ## Loading the index -/

theorem Made.sidecar_json (h : Made env D V a draft) :
    (sidecarPath a).dir.isYear = true ∧
      extension (sidecarPath a).name = some "json".toList :=
  ⟨rfl, extension_append_json a.id h.id⟩

/-- Scanning a consistent root touches no file, and indexes the artifacts whose sidecars have
come up so far. -/
theorem Consistent.scan (henv : env.Sound D V) (h : Consistent env D V s)
    (entries : List (Sigma fun _ : Path => Bytes)) (hsub : entries ⊆ s.files.entries) :
    let t := entries.foldl (State.scanEntry env) { s with artifacts := ∅, loaded := true }
    t.files = s.files ∧ t.stored = s.stored ∧ t.loaded = true ∧
      ∀ id a, t.artifacts.lookup id = some a ↔ a.id = id ∧ (∃ draft, (a, draft) ∈ s.stored) ∧
        ⟨sidecarPath a, env.toVecPretty a⟩ ∈ entries := by
  induction entries using List.reverseRecOn with
  | nil => simp
  | append_singleton entries entry ih =>
    obtain ⟨hfiles, hstored, hloaded, hindex⟩ :=
      ih (fun e he => hsub (List.mem_append_left _ he))
    have hentry : s.read entry.1 = some entry.2 :=
      AList.mem_lookup_iff.2 (hsub (by simp))
    rw [List.foldl_append, List.foldl_cons, List.foldl_nil]
    by_cases hjson : entry.1.dir.isYear = true ∧ extension entry.1.name = some "json".toList
    · obtain ⟨b, draft, hmem, hpath, hbytes⟩ := h.sidecar_of_json hentry hjson.1 hjson.2
      have hscan : ∀ t : State ν, State.scanEntry env t entry =
          { t with artifacts := t.artifacts.insert b.id b } := by
        intro t
        rw [State.scanEntry, hbytes, henv.roundTrip b (h.made b draft hmem).params]
        simp [hjson.1, hjson.2]
      rw [hscan]
      refine ⟨hfiles, hstored, hloaded, fun id a => ?_⟩
      by_cases hid : id = b.id
      · subst hid
        rw [AList.lookup_insert]
        constructor
        · rintro ⟨⟩
          refine ⟨rfl, ⟨draft, hmem⟩, List.mem_append_right _ ?_⟩
          rw [List.mem_singleton, ← hpath, ← hbytes]
        · rintro ⟨hid, ⟨draft', hmem'⟩, -⟩
          rw [(h.eq_of_id hmem hmem' hid.symm).1]
      · rw [AList.lookup_insert_ne hid, hindex]
        constructor
        · rintro ⟨hsame, hex, hin⟩
          exact ⟨hsame, hex, List.mem_append_left _ hin⟩
        · rintro ⟨hsame, hex, hin⟩
          refine ⟨hsame, hex, (List.mem_append.1 hin).resolve_right fun hlast => hid ?_⟩
          rw [List.mem_singleton] at hlast
          have hpaths : sidecarPath a = sidecarPath b := by rw [← hpath, ← hlast]
          rw [← hsame, sidecarPath_id hpaths]
    · have hscan : ∀ t : State ν, State.scanEntry env t entry = t := by
        intro t
        rw [State.scanEntry, if_neg]
        simpa using hjson
      rw [hscan]
      refine ⟨hfiles, hstored, hloaded, fun id a => ?_⟩
      rw [hindex]
      constructor
      · rintro ⟨hsame, hex, hin⟩
        exact ⟨hsame, hex, List.mem_append_left _ hin⟩
      · rintro ⟨hsame, ⟨draft, hmem⟩, hin⟩
        refine ⟨hsame, ⟨draft, hmem⟩, (List.mem_append.1 hin).resolve_right fun hlast => hjson ?_⟩
        rw [List.mem_singleton] at hlast
        rw [← hlast]
        exact (h.made a draft hmem).sidecar_json

theorem Consistent.load (henv : env.Sound D V) (h : Consistent env D V s)
    {entries : List (Sigma fun _ : Path => Bytes)} (hentries : Lists s entries) :
    Consistent env D V (s.loadIfNeeded env entries) ∧ (s.loadIfNeeded env entries).loaded = true ∧
      (s.loadIfNeeded env entries).stored = s.stored := by
  unfold State.loadIfNeeded
  split
  · rename_i hloaded
    exact ⟨h, hloaded, rfl⟩
  · obtain ⟨hfiles, hstored, hloaded, hindex⟩ := h.scan henv entries hentries.subset
    refine ⟨h.of_files hfiles hstored ?_, hloaded, hstored⟩
    · intro _ id a
      rw [hindex, hstored]
      constructor
      · rintro ⟨hid, hex, -⟩
        exact ⟨hid, hex⟩
      · rintro ⟨hid, draft, hmem⟩
        refine ⟨hid, ⟨draft, hmem⟩, hentries.mem_iff.2 ?_⟩
        exact AList.mem_lookup_iff.1 (h.sidecar a draft hmem)

/-! ## Storing -/

/-- A file already at the place of the output holds the same bytes. -/
theorem Consistent.output_shared (henv : env.Sound D V) (h : Consistent env D V s) {time : ℤ}
    (hdata : draft.data ∈ D) (hplain : PlainExtension draft.fileExtension) :
    (s.read (outputPath env draft time)).getD draft.data = draft.data := by
  cases hread : s.read (outputPath env draft time) with
  | none => rfl
  | some bytes =>
    obtain ⟨a, draft', hmem, howns⟩ := h.owned _ _ hread
    have hmade := h.made a draft' hmem
    rcases howns with hpath | hpreview | hsidecar
    · rw [hpath, h.output a draft' hmem] at hread
      have heq := data_eq_of_outputPath henv hdata hmade.data (hpath.trans hmade.path)
      rw [← hread, Option.getD_some, heq]
    · cases hmade.blobs hpreview
    · exact absurd ⟨a.id, (congrArg Path.name hsidecar).symm⟩ (not_json_of_plain _ _ hplain)

/-- A file already at the place of a preview holds the same bytes. -/
theorem Consistent.preview_shared (henv : env.Sound D V) (h : Consistent env D V s)
    {preview : Bytes} (hmem : preview ∈ D) :
    (s.read (previewPath env preview)).getD preview = preview := by
  cases hread : s.read (previewPath env preview) with
  | none => rfl
  | some bytes =>
    obtain ⟨a, draft', hstored, howns⟩ := h.owned _ _ hread
    have hmade := h.made a draft' hstored
    rcases howns with hpath | hpreview | hsidecar
    · have hyear := hmade.year
      rw [← hpath] at hyear
      cases hyear
    · have hbind := h.preview a draft' hstored
      rw [hpreview, Option.bind_some, hread] at hbind
      rw [hmade.previewPath, Option.map_eq_some_iff] at hpreview
      obtain ⟨preview', hpreview', hsame⟩ := hpreview
      have heq := preview_eq_of_previewPath henv hmem
        (hmade.preview preview' (by rw [hpreview']; rfl)) hsame.symm
      rw [← hbind, Option.some.injEq] at hpreview'
      rw [Option.getD_some, hpreview', heq]
    · cases congrArg Path.dir hsidecar

/-- Storing keeps the root consistent, and the new artifact has the bytes of its draft. -/
theorem Consistent.store (henv : env.Sound D V) (h : Consistent env D V s)
    (hloaded : s.loaded = true) {time : ℤ} (hdata : draft.data ∈ D)
    (hpreview : ∀ preview ∈ draft.preview, preview ∈ D) (hparams : draft.params ∈ V)
    (hplain : PlainExtension draft.fileExtension) :
    Consistent env D V (s.store env draft time).2 := by
  obtain ⟨new, hnew⟩ : ∃ new, new = (s.store env draft time).1 := ⟨_, rfl⟩
  have hmade : Made env D V new draft := by
    rw [hnew]
    exact ⟨rfl, rfl, uniqueId_ne_nil _ _ _ _ _, hdata, hpreview, hparams, hplain⟩
  have hpath : new.path = outputPath env draft time := by rw [hnew]; rfl
  have hstored : (s.store env draft time).2.stored = (new, draft) :: s.stored := by
    rw [hnew]
    simp [State.store, State.writeAtomic]
  have hfresh : new.id ∉ s.artifacts := by
    rw [hnew]
    simpa [State.store] using uniqueId_fresh env s.artifacts _ _ _
  have hids : ∀ b d, (b, d) ∈ s.stored → b.id ≠ new.id := by
    intro b d hmem hid
    apply hfresh
    rw [← AList.lookup_isSome, (h.index hloaded new.id b).2 ⟨hid, d, hmem⟩]
    rfl
  have hread : ∀ path, (s.store env draft time).2.read path =
      if path = sidecarPath new then some (env.toVecPretty new)
      else (s.writeFiles env draft time).read path := by
    intro path
    rw [hnew]
    exact State.read_writeAtomic _ _ _ _
  -- the files of the artifacts stored before are where they were
  have hkeep : ∀ path bytes, path ≠ sidecarPath new → s.read path = some bytes →
      (s.store env draft time).2.read path = some bytes := by
    intro path bytes hne hbytes
    rw [hread, if_neg hne, read_writeFiles_of_some hbytes]
  refine ⟨?_, ?_, ?_, ?_, ?_, ?_, ?_⟩
  · rw [hstored]
    intro a d hmem
    rcases List.mem_cons.1 hmem with heq | hold
    · cases heq
      exact hmade
    · exact h.made a d hold
  · rw [hstored, List.map_cons, List.nodup_cons]
    refine ⟨fun hmem => ?_, h.ids⟩
    obtain ⟨⟨b, d⟩, hb, hid⟩ := List.mem_map.1 hmem
    exact hids b d hb hid
  · rw [hstored]
    intro a d hmem
    rcases List.mem_cons.1 hmem with heq | hold
    · cases heq
      rw [hread, if_neg (hmade.path_ne_sidecar new), hpath, read_writeFiles, if_pos rfl,
        h.output_shared henv hdata hplain]
    · exact hkeep _ _ ((h.made a d hold).path_ne_sidecar new) (h.output a d hold)
  · rw [hstored]
    intro a d hmem
    rcases List.mem_cons.1 hmem with heq | hold
    · cases heq
      cases hd : draft.preview with
      | none => rw [hmade.previewPath, hd]; rfl
      | some preview =>
        have hat : new.previewPath = some (previewPath env preview) := by
          rw [hmade.previewPath, hd]
          rfl
        rw [hat, Option.bind_some, hread, if_neg (hmade.preview_ne_sidecar hat new),
          read_writeFiles, if_neg (hpath ▸ hmade.preview_ne_path hmade hat), hd, Option.map_some,
          if_pos rfl, Option.getD_some,
          h.preview_shared henv (hpreview preview (by rw [hd]; rfl))]
    · have hbind := h.preview a d hold
      cases hat : a.previewPath with
      | none => rwa [hat] at hbind
      | some path =>
        rw [hat, Option.bind_some] at hbind
        cases hd : d.preview with
        | none =>
          rw [(h.made a d hold).previewPath, hd] at hat
          cases hat
        | some preview =>
          rw [Option.bind_some]
          exact hkeep _ _ ((h.made a d hold).preview_ne_sidecar hat new) (hd ▸ hbind)
  · rw [hstored]
    intro a d hmem
    rcases List.mem_cons.1 hmem with heq | hold
    · cases heq
      rw [hread, if_pos rfl]
    · refine hkeep _ _ (fun heq => ?_) (h.sidecar a d hold)
      exact hids a d hold (sidecarPath_id heq)
  · rw [hstored]
    intro path bytes hbytes
    rw [hread] at hbytes
    split at hbytes
    · rename_i hsidecar
      exact ⟨new, draft, by simp, .inr (.inr hsidecar)⟩
    · rw [read_writeFiles] at hbytes
      split at hbytes
      · rename_i hout
        exact ⟨new, draft, by simp, .inl (hout.trans hpath.symm)⟩
      · split at hbytes
        · rename_i hprev
          exact ⟨new, draft, by simp, .inr (.inl (hmade.previewPath.trans hprev))⟩
        · obtain ⟨a, d, hmem, howns⟩ := h.owned path bytes hbytes
          exact ⟨a, d, .tail _ hmem, howns⟩
  · intro _ id a
    have hindex : (s.store env draft time).2.artifacts = s.artifacts.insert new.id new := by
      rw [hnew]
      simp [State.store, State.writeAtomic]
    rw [hindex, hstored]
    by_cases hid : id = new.id
    · subst hid
      rw [AList.lookup_insert]
      constructor
      · rintro ⟨⟩
        exact ⟨rfl, draft, by simp⟩
      · rintro ⟨hsame, d, hmem⟩
        rcases List.mem_cons.1 hmem with heq | hold
        · cases heq
          rfl
        · exact absurd hsame (hids a d hold)
    · rw [AList.lookup_insert_ne hid, h.index hloaded]
      constructor
      · rintro ⟨hsame, d, hmem⟩
        exact ⟨hsame, d, .tail _ hmem⟩
      · rintro ⟨hsame, d, hmem⟩
        rcases List.mem_cons.1 hmem with heq | hold
        · cases heq
          exact absurd hsame.symm hid
        · exact ⟨hsame, d, hold⟩

/-! ## Deleting -/

/-- The files of an artifact that stays are not touched by a deletion. -/
theorem Consistent.read_delete_other (h : Consistent env D V s)
    (ha : (a, draft) ∈ s.stored) (hb : (b, draft') ∈ s.stored) (hne : b.id ≠ a.id)
    (hkept : b ∈ t.values) (howns : Owns b path)
    (hread : t.read path =
      if path = sidecarPath a ∨ (path = a.path ∧ ∀ c ∈ t.values, c.path ≠ path) ∨
        (a.previewPath = some path ∧ ∀ c ∈ t.values, c.previewPath ≠ some path)
      then none else s.read path) : t.read path = s.read path := by
  have hma := h.made a draft ha
  have hmb := h.made b draft' hb
  rw [hread, if_neg]
  rcases howns with rfl | hpreview | rfl
  · rintro (hsidecar | ⟨-, hall⟩ | ⟨hpath, -⟩)
    · exact hmb.path_ne_sidecar a hsidecar
    · exact hall b hkept rfl
    · exact hma.preview_ne_path hmb hpath rfl
  · rintro (hsidecar | ⟨hpath, -⟩ | ⟨-, hall⟩)
    · exact hmb.preview_ne_sidecar hpreview a hsidecar
    · exact hmb.preview_ne_path hma hpreview hpath
    · exact hall b hkept hpreview
  · rintro (hsidecar | ⟨hpath, -⟩ | ⟨hpath, -⟩)
    · exact hne (sidecarPath_id hsidecar)
    · exact hma.path_ne_sidecar b hpath.symm
    · exact hma.preview_ne_sidecar hpath b rfl

/-- Deleting keeps the root consistent, touches no file of another artifact, and removes what
no other one has. -/
theorem Consistent.delete (h : Consistent env D V s) (hloaded : s.loaded = true) {id : Text}
    (hdelete : s.delete id = some t) : Consistent env D V t := by
  obtain ⟨a, hlookup, hartifacts, hstored, hload, hread⟩ := delete_eq_some hdelete
  obtain ⟨hid, draft, ha⟩ := (h.index hloaded id a).1 hlookup
  have hmem : ∀ b d, (b, d) ∈ t.stored ↔ (b, d) ∈ s.stored ∧ b.id ≠ id := by
    intro b d
    rw [hstored]
    simp
  have hindex : ∀ id' b, t.artifacts.lookup id' = some b ↔ b.id = id' ∧ ∃ d, (b, d) ∈ t.stored := by
    intro id' b
    rw [hartifacts]
    by_cases hsame : id' = id
    · subst hsame
      rw [AList.lookup_erase]
      simp only [reduceCtorEq, false_iff, not_and, not_exists]
      intro hb d hd
      exact ((hmem b d).1 hd).2 hb
    · rw [AList.lookup_erase_ne hsame, h.index hloaded]
      simp only [hmem]
      refine and_congr_right fun hb => ?_
      rw [hb]
      simp [hsame]
  have hvalues : ∀ b d, (b, d) ∈ t.stored → b ∈ t.values := by
    intro b d hd
    exact State.mem_values.2 ⟨b.id, (hindex b.id b).2 ⟨rfl, d, hd⟩⟩
  have hkeep : ∀ b d path, (b, d) ∈ t.stored → Owns b path → t.read path = s.read path := by
    intro b d path hd howns
    have hb := (hmem b d).1 hd
    exact h.read_delete_other ha hb.1 (by rw [hid]; exact hb.2) (hvalues b d hd) howns (hread path)
  refine ⟨?_, ?_, ?_, ?_, ?_, ?_, fun _ => hindex⟩
  · intro b d hd
    exact h.made b d ((hmem b d).1 hd).1
  · rw [hstored]
    exact h.ids.sublist (List.Sublist.map _ List.filter_sublist)
  · intro b d hd
    rw [hkeep b d _ hd (.inl rfl)]
    exact h.output b d ((hmem b d).1 hd).1
  · intro b d hd
    have hold := h.preview b d ((hmem b d).1 hd).1
    cases hpreview : b.previewPath with
    | none => rwa [hpreview] at hold
    | some path =>
      rw [hpreview, Option.bind_some] at hold
      rw [Option.bind_some, hkeep b d path hd (.inr (.inl hpreview)), hold]
  · intro b d hd
    rw [hkeep b d _ hd (.inr (.inr rfl))]
    exact h.sidecar b d ((hmem b d).1 hd).1
  · intro path bytes hbytes
    rw [hread] at hbytes
    split at hbytes
    · simp at hbytes
    · rename_i hkept
      push Not at hkept
      obtain ⟨hnotSidecar, hout, hprev⟩ := hkept
      obtain ⟨b, d, hb, howns⟩ := h.owned path bytes hbytes
      by_cases hbid : b.id = id
      · -- the file of the deleted artifact is still there: another one has it
        obtain ⟨rfl, rfl⟩ := h.eq_of_id hb ha (hbid.trans hid.symm)
        rcases howns with hpath | hpreview | hsidecar
        · obtain ⟨c, hc, hsame⟩ := hout hpath
          obtain ⟨id', hid'⟩ := State.mem_values.1 hc
          obtain ⟨-, d', hd'⟩ := (hindex id' c).1 hid'
          exact ⟨c, d', hd', .inl hsame.symm⟩
        · obtain ⟨c, hc, hsame⟩ := hprev hpreview
          obtain ⟨id', hid'⟩ := State.mem_values.1 hc
          obtain ⟨-, d', hd'⟩ := (hindex id' c).1 hid'
          exact ⟨c, d', hd', .inr (.inl hsame)⟩
        · exact absurd hsidecar hnotSidecar
      · exact ⟨b, d, (hmem b d).2 ⟨hb, hbid⟩, howns⟩

/-! ## Listing -/

theorem Consistent.values_perm (h : Consistent env D V s) (hloaded : s.loaded = true) :
    s.values.Perm (s.stored.map Prod.fst) := by
  have hvalues : (s.values.map Artifact.id).Nodup := by
    have hkeys : s.values.map Artifact.id = s.artifacts.keys := by
      rw [State.values, List.map_map]
      refine List.map_congr_left fun entry hentry => ?_
      exact ((h.index hloaded entry.1 entry.2).1 (AList.mem_lookup_iff.2 hentry)).1
    rw [hkeys]
    exact s.artifacts.keys_nodup
  have hstored : (s.stored.map Prod.fst).Nodup := by
    apply List.Nodup.of_map Artifact.id
    rw [List.map_map]
    exact h.ids
  rw [List.perm_ext_iff_of_nodup (hvalues.of_map _) hstored]
  intro a
  rw [h.mem_values hloaded, List.mem_map]
  constructor
  · rintro ⟨draft, hmem⟩
    exact ⟨(a, draft), hmem, rfl⟩
  · rintro ⟨⟨b, draft⟩, hmem, rfl⟩
    exact ⟨draft, hmem⟩

theorem newest_total (a b : Artifact ν) : (State.newest a b || State.newest b a) = true := by
  simp only [State.newest, Bool.or_eq_true, decide_eq_true_eq]
  exact le_total _ _

theorem newest_trans (a b c : Artifact ν) (hab : State.newest a b = true)
    (hbc : State.newest b c = true) : State.newest a c = true := by
  simp only [State.newest, decide_eq_true_eq] at *
  exact hbc.trans hab

/-- The order of the listing is decided by what is listed. -/
theorem list_eq_of_perm (hids : (s.stored.map fun kept => kept.1.id).Nodup)
    (hs : s.values.Perm (s.stored.map Prod.fst)) (ht : t.values.Perm (s.stored.map Prod.fst)) :
    t.list = s.list := by
  have hslist : s.list.Perm (s.stored.map Prod.fst) := (List.mergeSort_perm _ _).trans hs
  have htlist : t.list.Perm (s.stored.map Prod.fst) := (List.mergeSort_perm _ _).trans ht
  have hsorted : ∀ u : State ν, u.list.Pairwise fun a b => State.newest a b = true :=
    fun u => List.pairwise_mergeSort newest_trans newest_total u.values
  refine List.Perm.eq_of_pairwise ?_ (hsorted t) (hsorted s) (htlist.trans hslist.symm)
  intro a b ha hb hab hba
  have hkey : toLex (b.createdAt, b.id) = toLex (a.createdAt, a.id) := by
    simp only [State.newest, decide_eq_true_eq] at hab hba
    exact le_antisymm hab hba
  obtain ⟨⟨a', d⟩, had, rfl⟩ := List.mem_map.1 (htlist.mem_iff.1 ha)
  obtain ⟨⟨b', d'⟩, hbd, rfl⟩ := List.mem_map.1 (hslist.mem_iff.1 hb)
  have hid : a'.id = b'.id := (congrArg Prod.snd (toLex.injective hkey)).symm
  exact congrArg Prod.fst (List.inj_on_of_nodup_map hids had hbd hid)

/-- A consistent root with its index loaded keeps every promise. -/
theorem Consistent.intact (henv : env.Sound D V) (h : Consistent env D V s)
    (hloaded : s.loaded = true) : Intact env s := by
  have hvalues := h.values_perm hloaded
  have hlist : s.list.Perm (s.stored.map Prod.fst) := (List.mergeSort_perm _ _).trans hvalues
  have hmemList : ∀ a, a ∈ s.list → ∃ draft, (a, draft) ∈ s.stored := by
    intro a ha
    obtain ⟨⟨b, draft⟩, hb, rfl⟩ := List.mem_map.1 (hlist.mem_iff.1 ha)
    exact ⟨draft, hb⟩
  refine ⟨hlist, ?_, h.output, h.preview, ?_, ?_⟩
  · have hnodup := h.ids
    rw [← comp_def, ← List.map_map] at hnodup
    exact (hlist.map Artifact.id).nodup_iff.2 hnodup
  · intro id t hdelete
    obtain ⟨a, hlookup, hartifacts, hstored, hload, hread⟩ := delete_eq_some hdelete
    obtain ⟨hid, draft, ha⟩ := (h.index hloaded id a).1 hlookup
    have hvaluesT := (h.delete hloaded hdelete).values_perm (hload.trans hloaded)
    have hlistT : ∀ b, b ∈ t.list ↔ b ∈ t.values := fun b => (List.mergeSort_perm _ _).mem_iff
    refine ⟨fun b hb hne => ?_, fun b hb hsame path howns hnone => ?_⟩
    · obtain ⟨d, hd⟩ := hmemList b hb
      have hkept : b ∈ t.values := by
        rw [hvaluesT.mem_iff, List.mem_map]
        exact ⟨(b, d), by rw [hstored]; simpa using ⟨hd, hne⟩, rfl⟩
      have hread' : ∀ path, Owns b path → t.read path = s.read path := fun path howns =>
        h.read_delete_other ha hd (by rwa [hid]) hkept howns (hread path)
      exact ⟨(hlistT b).2 hkept, hread' _ (.inl rfl),
        fun path hpath => hread' _ (.inr (.inl hpath))⟩
    · obtain ⟨d, hd⟩ := hmemList b hb
      obtain ⟨rfl, -⟩ := h.eq_of_id hd ha (hsame.trans hid.symm)
      rw [hread, if_pos]
      rcases howns with hpath | hpath
      · exact .inr (.inl ⟨hpath.symm, fun c hc => (hnone c ((hlistT c).2 hc)).1⟩)
      · exact .inr (.inr ⟨hpath, fun c hc => (hnone c ((hlistT c).2 hc)).2⟩)
  · intro entries hentries
    have hlists : Lists s.reopen entries := hentries
    obtain ⟨hcons, hload, hstored⟩ := h.reopen.load henv hlists
    apply list_eq_of_perm h.ids hvalues
    rw [← show s.reopen.stored = s.stored from rfl, ← hstored]
    exact hcons.values_perm hload

end

/-! ## Every run -/

theorem Consistent.step {env : Env ν} {D : Set Bytes} {V : Set ν} (henv : env.Sound D V)
    {s t : State ν} {op : Op ν} (h : Consistent env D V s) (hop : Plain D V s op)
    (hstep : step env s op = some t) : Consistent env D V t := by
  cases op with
  | store draft time entries =>
    simp only [Artifacts.step, Option.ite_some_none_eq_some] at hstep
    obtain ⟨hentries, rfl⟩ := hstep
    obtain ⟨hcons, hloaded, -⟩ := h.load henv hentries
    exact hcons.store henv hloaded hop.1 hop.2.1 hop.2.2.1 hop.2.2.2
  | delete id entries =>
    simp only [Artifacts.step, Option.ite_some_none_eq_some] at hstep
    obtain ⟨hentries, rfl⟩ := hstep
    obtain ⟨hcons, hloaded, -⟩ := h.load henv hentries
    cases hdelete : (s.loadIfNeeded env entries).delete id with
    | none => exact hcons
    | some t => exact hcons.delete hloaded hdelete
  | list entries =>
    simp only [Artifacts.step, Option.ite_some_none_eq_some] at hstep
    obtain ⟨hentries, rfl⟩ := hstep
    exact (h.load henv hentries).1
  | reopen =>
    simp only [Artifacts.step, Option.some.injEq] at hstep
    subst hstep
    exact h.reopen

theorem consistent_empty (env : Env ν) (D : Set Bytes) (V : Set ν) :
    Consistent env D V State.empty := by
  refine ⟨?_, ?_, ?_, ?_, ?_, ?_, ?_⟩ <;> simp [State.empty, State.read]

/-- In every run whose outputs have plain extensions, every state reached is intact once its
index is loaded: the files listed in any order. -/
theorem store_intact_of_plain_extensions (env : Env ν) (D : Set Bytes) (V : Set ν)
    (henv : env.Sound D V) {s : State ν}
    (hs : Transition.ReachableWhen (step env) (Plain D V) (· = State.empty) s)
    {entries : List (Sigma fun _ : Path => Bytes)} (hentries : Lists s entries) :
    Intact env (s.loadIfNeeded env entries) := by
  have hcons : Consistent env D V s := by
    refine hs.invariant ?_ ?_
    · rintro s rfl
      exact consistent_empty env D V
    · intro s op t h hop hstep
      exact h.step henv hop hstep
  obtain ⟨hload, hloaded, -⟩ := hcons.load henv hentries
  exact hload.intact henv hloaded

/-! ## Two concrete stores -/

/-- An empty output of one model. -/
def sampleDraft (ext : Text) : ArtifactDraft Unit where
  data := []
  fileExtension := ext
  preview := none
  model := "Flux".toList
  modelId := "flux".toList
  runtime := "fake:image".toList
  capability := "image".toList
  params := ()
  jobId := "job-0000000000000000-1".toList
  durationMs := 5
  sessionId := none

/-- SHA-256 of the empty output, in hex. -/
def sampleDigest : Text :=
  "e3b0c44298fc1c149afbf4c8996fb92427ae41e4649b934ca495991b7852b855".toList

theorem sampleDigest_length : sampleDigest.length = 64 := by
  unfold sampleDigest
  rw [String.toList_ofList]
  rfl

def sampleTime : ℤ := 1767225600000

/-- What storing the draft records. -/
def sampleArtifact (ext : Text) : Artifact Unit where
  id := "flux_e3b0c44298fc_job-0000".toList
  path := { dir := .year 2026, name := "flux_e3b0c44298fc.".toList ++ ext }
  contentHash := sampleDigest
  previewPath := none
  model := "Flux".toList
  modelId := "flux".toList
  runtime := "fake:image".toList
  capability := "image".toList
  params := ()
  createdAt := sampleTime
  durationMs := 5
  jobId := "job-0000000000000000-1".toList
  sessionId := none

/-- The sidecar `serde_json` writes for it. -/
def sampleText (ext : Text) : Bytes :=
  0x7b :: ("\n  \"id\": \"flux_e3b0c44298fc_job-0000\",\n".toList ++
    "  \"path\": \"2026/flux_e3b0c44298fc.".toList ++ ext ++ "\",\n".toList ++
    "  \"content_hash\": \"".toList ++ sampleDigest ++ "\",\n".toList ++
    "  \"model\": \"Flux\",\n  \"model_id\": \"flux\",\n".toList ++
    "  \"runtime\": \"fake:image\",\n  \"capability\": \"image\",\n".toList ++
    "  \"params\": null,\n  \"created_at\": 1767225600000,\n  \"duration_ms\": 5,\n".toList ++
    "  \"job_id\": \"job-0000000000000000-1\"\n\x7d".toList).map fun c => UInt8.ofNat c.toNat

def Dir.number : Dir → Option ℤ
  | year n => some n
  | blobs => none

/-- There are no more artifacts than numbers. -/
theorem exists_numbering : ∃ number : Artifact Unit → ℕ, Injective number := by
  have hchar : Countable Char := Injective.countable (f := Char.toNat) (by
    intro a b h
    exact Char.toNat_inj.1 h)
  have hdir : Countable Dir := Injective.countable
    (f := Dir.number) (by
    intro a b h
    cases a <;> cases b <;> simp_all [Dir.number])
  have hpath : Countable Path := Injective.countable
    (f := fun path : Path => (path.dir, path.name)) (by
    rintro ⟨⟩ ⟨⟩ h
    simp_all)
  have hartifact : Countable (Artifact Unit) := Injective.countable
    (f := fun a : Artifact Unit => (a.id, a.path, a.contentHash, a.previewPath, a.model,
      a.modelId, a.runtime, a.capability, a.createdAt, a.durationMs, a.jobId, a.sessionId)) (by
    rintro ⟨⟩ ⟨⟩ h
    simp_all)
  exact hartifact.exists_injective_nat

/-- An environment that is the real one where the sample draft takes it; artifacts other than
the sample are written as so many zeros. -/
noncomputable def sampleEnv (ext : Text) : Env Unit where
  digest _ := sampleDigest
  toVecPretty a :=
    if a = sampleArtifact ext then sampleText ext
    else List.replicate (exists_numbering.choose a + 1) 0
  fromSlice bytes :=
    if bytes = sampleText ext then some (sampleArtifact ext)
    else if bytes = [] then none
    else Function.partialInv exists_numbering.choose (bytes.length - 1)
  toLowercase text := text.map Char.toLower
  isAlphanumeric := Char.isAlphanum
  uniqueSuffix n := "4242-1767225600000-".toList ++ Nat.toDigits 10 n

theorem sampleEnv_sound (ext : Text) : (sampleEnv ext).Sound {[]} Set.univ where
  digits data := by
    have hdigest : (sampleEnv ext).digest data = sampleDigest := by simp only [sampleEnv]
    rw [hdigest, sampleDigest_length]
    decide
  collisionFree := by simp
  roundTrip a _ := by
    by_cases ha : a = sampleArtifact ext
    · simp [sampleEnv, ha]
    · have hne : List.replicate (exists_numbering.choose a + 1) 0 ≠ sampleText ext := by
        intro h
        simp only [sampleText, List.replicate_succ, List.cons.injEq] at h
        exact absurd h.1 (by decide)
      have hinv := Function.partialInv_left exists_numbering.choose_spec a
      simpa [sampleEnv, ha, hne] using hinv
  underscore := by
    show Char.isAlphanum '_' = false
    decide

/-- The store after the sample draft. -/
noncomputable def sampleStored (ext : Text) : State Unit :=
  ((State.empty.loadIfNeeded (sampleEnv ext) []).store (sampleEnv ext) (sampleDraft ext)
    sampleTime).2

theorem step_sampleStored (ext : Text) : step (sampleEnv ext) State.empty
    (.store (sampleDraft ext) sampleTime []) = some (sampleStored ext) := by
  have hlists : Lists (State.empty : State Unit) [] := List.Perm.refl _
  simp only [step, if_pos hlists, sampleStored]

/-- An output named `.json` is taken for a sidecar when the root is opened again, and moved
away because it does not decode: the artifact is listed, its output file is gone. -/
theorem output_named_json_is_lost :
    (sampleEnv "json".toList).Sound {[]} Set.univ ∧
    (sampleDraft "json".toList).data ∈ ({[]} : Set Bytes) ∧
    Transition.run (step (sampleEnv "json".toList)) State.empty
      [.store (sampleDraft "json".toList) sampleTime [], .reopen] =
        some (sampleStored "json".toList).reopen ∧
    ¬ Intact (sampleEnv "json".toList) ((sampleStored "json".toList).reopen.loadIfNeeded
      (sampleEnv "json".toList) (sampleStored "json".toList).files.entries) := by
  refine ⟨sampleEnv_sound _, rfl, ?_, fun h => ?_⟩
  · rw [Transition.run_cons, step_sampleStored]
    rfl
  · have hout := h.output (sampleArtifact "json".toList) (sampleDraft "json".toList) ?_
    · revert hout
      unfold sampleStored sampleEnv sampleArtifact sampleText sampleDraft sampleDigest
      -- character lists evaluate faster than string literals
      repeat rw [String.toList_ofList]
      decide +kernel
    · unfold sampleStored sampleEnv sampleArtifact sampleText sampleDraft sampleDigest
      repeat rw [String.toList_ofList]
      decide +kernel

/-- The same output stored as a `.png` is listed with its bytes. -/
theorem store_intact_png : (sampleStored "png".toList).stored.length = 1 ∧
    Intact (sampleEnv "png".toList) ((sampleStored "png".toList).loadIfNeeded
      (sampleEnv "png".toList) (sampleStored "png".toList).files.entries) := by
  refine ⟨rfl, store_intact_of_plain_extensions _ {[]} Set.univ (sampleEnv_sound _) ?_
    (List.Perm.refl _)⟩
  refine Transition.ReachableWhen.step (.init rfl)
    (a := .store (sampleDraft "png".toList) sampleTime []) ⟨rfl, by simp [sampleDraft], trivial, ?_⟩
    (step_sampleStored _)
  show PlainExtension "png".toList
  decide

end Hedos.Artifacts
