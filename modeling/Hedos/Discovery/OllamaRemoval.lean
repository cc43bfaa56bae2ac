import Mathlib.Data.List.Nodup
import Hedos.Discovery.OllamaStore

/-!
# Deleting an Ollama model's files

What `exclusive_files` (`kernel/src/discovery/ollama_scanner.rs`) lists: the blobs of the manifest
that are there and that no other manifest of the store names, then the manifest
(`exclusiveFiles_iff`). A file taken away changes neither where a path leads nor what the other
manifests name, so a delete that stopped goes on from what is left (`resumes`). The other
manifests are compared by the text of their digests: one that spells a digest with a dash names the
blob all the same, and is not seen (`own_only_iff`).
-/

namespace Hedos.Discovery.OllamaStore

open FileTree (Seg Node)

variable {s : Store} {parse : Bytes → Option Manifest} {skip dir place : Place} {left : ℕ}
  {names : List String}

/-! ## The names of the other manifests -/

variable {of : String → Option (List String)} {entries : List String} {digest : String}
  {path : Path} {c : Char} {blobs : List Path}

theorem mem_gatherNames (h : gatherNames of entries = some names) {x : String} :
    x ∈ names ↔ ∃ entry ∈ entries, ∃ named, of entry = some named ∧ x ∈ named := by
  induction entries generalizing names with
  | nil =>
    cases h
    simp
  | cons entry entries ih =>
    rw [gatherNames] at h
    obtain ⟨named, hnamed, h⟩ := Option.bind_eq_some_iff.1 h
    obtain ⟨others, hothers, h⟩ := Option.bind_eq_some_iff.1 h
    cases h
    rw [List.mem_append, ih hothers]
    constructor
    · rintro (hx | ⟨other, hother, found, hfound, hx⟩)
      · exact ⟨entry, .head _, named, hnamed, hx⟩
      · exact ⟨other, .tail _ hother, found, hfound, hx⟩
    · rintro ⟨other, hother, found, hfound, hx⟩
      rcases List.mem_cons.1 hother with rfl | hother
      · rw [hnamed, Option.some.injEq] at hfound
        exact Or.inl (hfound ▸ hx)
      · exact Or.inr ⟨other, hother, found, hfound, hx⟩

theorem gatherNames_isSome
    (h : gatherNames of entries = some names) {entry : String} (hentry : entry ∈ entries) :
    ∃ named, of entry = some named := by
  induction entries generalizing names with
  | nil => cases hentry
  | cons first entries ih =>
    rw [gatherNames] at h
    obtain ⟨named, hnamed, h⟩ := Option.bind_eq_some_iff.1 h
    obtain ⟨others, hothers, -⟩ := Option.bind_eq_some_iff.1 h
    rcases List.mem_cons.1 hentry with rfl | hentry
    · exact ⟨named, hnamed⟩
    · exact ih hothers hentry

theorem gatherNames_congr {of' : String → Option (List String)}
    (h : ∀ entry ∈ entries, of entry = of' entry) :
    gatherNames of entries = gatherNames of' entries := by
  induction entries with
  | nil => rfl
  | cons entry entries ih =>
    obtain ⟨hentry, hentries⟩ := List.forall_mem_cons.1 h
    rw [gatherNames, gatherNames, hentry, ih hentries]

/-- A manifest of the store under a directory, other than the one at `skip`. -/
def ManifestUnder (s : Store) (parse : Bytes → Option Manifest) (skip dir : Place)
    (manifest : Manifest) : Prop :=
  ∃ below content, below ≠ [] ∧ dir ++ below ≠ skip ∧
    s.tree (dir ++ below) = some (.file (.plain (some content))) ∧ parse content = some manifest

/-- What stands above a place of the store is a directory. -/
theorem isDir_of_above {below rest : Place} (hrest : rest ≠ [])
    (h : (s.tree (below ++ rest)).isSome) : FileTree.IsDir s.tree below := by
  induction rest using List.reverseRecOn generalizing below with
  | nil => exact absurd rfl hrest
  | append_singleton rest name ih =>
    rw [← List.append_assoc] at h
    have hdir := s.closed _ name h
    by_cases hnil : rest = []
    · rwa [hnil, List.append_nil] at hdir
    · rcases hdir with hempty | hdir
      · exact absurd (List.append_eq_nil_iff.1 hempty).2 hnil
      · exact ih hnil (by rw [hdir]; rfl)

/-- The walk has the digests of every other manifest, and of nothing else. -/
theorem mem_namesUnder (h : namesUnder s parse skip left dir = some names) {x : String} :
    x ∈ names ↔ ∃ manifest, ManifestUnder s parse skip dir manifest ∧
      x ∈ manifest.digests.map asciiLower := by
  induction left generalizing dir names with
  | zero => cases h
  | succ left ih =>
    rw [namesUnder] at h
    obtain ⟨entries, hentries, h⟩ := Option.bind_eq_some_iff.1 h
    rw [mem_gatherNames h]
    constructor
    · rintro ⟨entry, -, named, hnamed, hx⟩
      unfold entryNames at hnamed
      split at hnamed
      · obtain ⟨manifest, ⟨below, content, -, hskip, htree, hparse⟩, hmem⟩ := (ih hnamed).1 hx
        refine ⟨manifest, ⟨entry :: below, content, List.cons_ne_nil _ _, ?_, ?_, hparse⟩, hmem⟩
        · simpa using hskip
        · simpa using htree
      · rename_i content htree
        split at hnamed
        · cases hnamed
          cases hx
        · rename_i hskip
          split at hnamed
          · rename_i manifest hparse
            cases hnamed
            obtain ⟨bytes, rfl, hparse⟩ := Option.bind_eq_some_iff.1 hparse
            exact ⟨manifest, ⟨[entry], bytes, List.cons_ne_nil _ _, hskip, htree, hparse⟩, hx⟩
          · split at hnamed
            · cases hnamed
              cases hx
            · cases hnamed
      · cases hnamed
    · rintro ⟨manifest, ⟨below, content, hne, hskip, htree, hparse⟩, hx⟩
      obtain ⟨entry, below, rfl⟩ := List.exists_cons_of_ne_nil hne
      rw [← List.singleton_append, ← List.append_assoc] at htree hskip
      have hsome : (s.tree (dir ++ [entry])).isSome := by
        by_cases hnil : below = []
        · rw [hnil, List.append_nil] at htree
          rw [htree]
          rfl
        · rcases isDir_of_above hnil (by rw [htree]; rfl) with hempty | hdir
          · simp at hempty
          · rw [hdir]
            rfl
      have hentry := s.listed dir entries entry hentries hsome
      obtain ⟨named, hnamed⟩ := gatherNames_isSome h hentry
      refine ⟨entry, hentry, named, hnamed, ?_⟩
      unfold entryNames at hnamed
      by_cases hnil : below = []
      · rw [hnil, List.append_nil] at htree hskip
        rw [htree] at hnamed
        simp only [hskip, if_false, Option.bind_some, hparse] at hnamed
        cases hnamed
        exact hx
      · have hdir : s.tree (dir ++ [entry]) = some .dir := by
          rcases isDir_of_above hnil (by rw [htree]; rfl) with hempty | hdir
          · simp at hempty
          · exact hdir
        rw [hdir] at hnamed
        exact (ih hnamed).2 ⟨manifest, ⟨below, content, hnil, hskip, htree, hparse⟩, hx⟩

/-! ## The blobs of the manifest -/

/-- The digests to look for, each once. -/
def wanted (shared : List String) : List String → List String → List String
  | [], _ => []
  | digest :: rest, seen =>
    if digest ∈ shared ∨ digest ∈ seen then wanted shared rest seen
    else digest :: wanted shared rest (digest :: seen)

theorem mem_wanted {shared digests seen : List String} :
    digest ∈ wanted shared digests seen ↔ digest ∈ digests ∧ digest ∉ shared ∧ digest ∉ seen := by
  fun_induction wanted shared digests seen with
  | case1 seen => simp
  | case2 first rest seen hskip ih =>
    rw [ih, List.mem_cons, or_and_right]
    refine ⟨Or.inr, ?_⟩
    rintro (⟨rfl, hshared, hseen⟩ | h)
    · rcases hskip with h | h
      · exact absurd h hshared
      · exact absurd h hseen
    · exact h
  | case3 first rest seen hskip ih =>
    rw [not_or] at hskip
    rw [List.mem_cons, ih, List.mem_cons, List.mem_cons]
    by_cases heq : digest = first
    · subst heq
      simp [hskip]
    · simp [heq]

theorem nodup_wanted (shared digests seen : List String) : (wanted shared digests seen).Nodup := by
  fun_induction wanted shared digests seen with
  | case1 => exact List.nodup_nil
  | case2 first rest seen hskip ih => exact ih
  | case3 first rest seen hskip ih =>
    refine List.nodup_cons.2 ⟨fun h => ?_, ih⟩
    exact (mem_wanted.1 h).2.2 (.head _)

section Blobs

variable {blobs : Path} {base : Place}

/-- The blobs directory leads to `base`, and the names in it to what is there. -/
def Leads (s : Store) (blobs : Path) (base : Place) : Prop :=
  ∀ name, s.resolve false (blobs.join name) = .ok (base ++ [name])

/-- The blob is a plain file there. -/
def onDisk (s : Store) (base : Place) (digest : String) : Bool :=
  (s.tree (base ++ [blobName digest])).any isPlainFile

/-- Nothing but a plain file is where the blob would be. -/
def ClearOf (s : Store) (base : Place) (digest : String) : Prop :=
  ∀ node, s.tree (base ++ [blobName digest]) = some node → isPlainFile node = true

theorem symlinkMetadata_blob (h : Leads s blobs base) {name : String}
    {node : Node String Stored} (hnode : s.tree (base ++ [name]) = some node) :
    s.symlinkMetadata (blobs.join name) = .ok node := by
  rw [Store.symlinkMetadata, h name, Store.nodeOf, Store.node, if_neg (by simp), hnode]

theorem symlinkMetadata_no_blob (h : Leads s blobs base) {name : String}
    (hnone : s.tree (base ++ [name]) = none) :
    s.symlinkMetadata (blobs.join name) = .error .notFound := by
  rw [Store.symlinkMetadata, h name, Store.nodeOf, Store.node, if_neg (by simp), hnone]

theorem isPlainFile_iff {node : Node String Stored} :
    isPlainFile node = true ↔ ∃ content, node = .file (.plain content) := by
  cases node with
  | dir => simp [isPlainFile]
  | link target => simp [isPlainFile]
  | file stored =>
    cases stored with
    | plain content => simp [isPlainFile]
    | special => simp [isPlainFile]

/-- The loop lists, in order, the wanted blobs that are there. -/
theorem ownBlobs_iff (h : Leads s blobs base) {shared digests seen : List String}
    {files : List Path} : ownBlobs s blobs shared digests seen = .ok files ↔
      (∀ digest ∈ wanted shared digests seen, ClearOf s base digest) ∧
        files = ((wanted shared digests seen).filter (onDisk s base)).map fun digest =>
          blobs.join (blobName digest) := by
  induction digests generalizing seen files with
  | nil =>
    rw [ownBlobs, wanted, Except.ok.injEq]
    simp [eq_comm]
  | cons digest rest ih =>
    rw [ownBlobs, wanted]
    by_cases hskip : digest ∈ shared ∨ digest ∈ seen
    · rw [if_pos hskip, if_pos hskip]
      exact ih
    · rw [if_neg hskip, if_neg hskip, List.forall_mem_cons]
      cases hnode : s.tree (base ++ [blobName digest]) with
      | none =>
        have hoff : onDisk s base digest = false := by rw [onDisk, hnode]; rfl
        have hclear : ClearOf s base digest := by
          intro node hsome
          rw [hnode] at hsome
          cases hsome
        rw [symlinkMetadata_no_blob h hnode, List.filter_cons_of_neg (by rw [hoff]; simp)]
        simp only [hclear, true_and]
        exact ih
      | some node =>
        rw [symlinkMetadata_blob h hnode]
        by_cases hplain : isPlainFile node = true
        · have hon : onDisk s base digest = true := by rw [onDisk, hnode]; exact hplain
          have hclear : ClearOf s base digest := by
            intro node' hsome
            rw [hnode, Option.some.injEq] at hsome
            rwa [← hsome]
          obtain ⟨content, rfl⟩ := isPlainFile_iff.1 hplain
          rw [List.filter_cons_of_pos hon, List.map_cons]
          simp only [hclear, true_and]
          cases hrest : ownBlobs s blobs shared rest (digest :: seen) with
          | error refusal =>
            refine ⟨nofun, ?_⟩
            rintro ⟨hall, -⟩
            rw [ih.2 ⟨hall, rfl⟩] at hrest
            cases hrest
          | ok found =>
            obtain ⟨hall, hfound⟩ := ih.1 hrest
            rw [← hfound]
            simp only [Except.map, Except.ok.injEq]
            exact ⟨fun hfiles => ⟨hall, hfiles.symm⟩, fun hfiles => hfiles.2.symm⟩
        · have hnot : ¬ ClearOf s base digest := fun hclear => hplain (hclear node hnode)
          simp only [hnot, false_and, iff_false]
          unfold isPlainFile at hplain
          split
          · rename_i heq
            cases heq
            exact absurd rfl hplain
          · exact nofun
          · rename_i heq
            cases heq
          · exact nofun

end Blobs

/-! ## What was read on the way -/

/-- What `exclusiveFiles` has found when it comes to the blobs. -/
structure Reading (s : Store) (parse : Bytes → Option Manifest) (manifest root : Path)
    (own dir : Place) (parsed : Manifest) (shared : List String) : Prop where
  file : ∃ content, s.symlinkMetadata manifest = .ok (.file (.plain content))
  plain : plainPath manifest = true
  manifests : ancestor 4 manifest = some (root.join "manifests")
  ownPlace : s.canonicalize manifest = some own
  dirPlace : s.canonicalize (root.join "manifests") = some dir
  inside : dir <+: own
  realDir : s.isRealDir (root.join "manifests") = true
  realBlobs : s.isRealDir (root.join "blobs") = true
  read : (s.readRegular manifest).bind parse = some parsed
  canonical : ∀ digest ∈ parsed.digests, canonical digest = true
  names : namesUnder s parse own (s.depth + 1) dir = some shared

theorem parent_join (root : Path) (name : String) : (root.join name).parent = some root := by
  simp [Path.parent, Path.join]

theorem fileName_join (root : Path) (name : String) : (root.join name).fileName = some name := by
  simp [Path.fileName, Path.join]

theorem eq_join {root : Path} {name : String} (hparent : path.parent = some root)
    (hname : path.fileName = some name) : path = root.join name := by
  unfold Path.parent at hparent
  unfold Path.fileName at hname
  split at hname
  · rename_i last hlast
    cases hname
    rw [hlast] at hparent
    rw [← Option.some.inj hparent, Path.join]
    exact (List.dropLast_append_getLast? _ hlast).symm
  · cases hname

variable {manifest root : Path} {own : Place} {parsed : Manifest} {shared : List String}
  {files : List Path}

theorem exclusiveFiles_of_reading (h : Reading s parse manifest root own dir parsed shared) :
    exclusiveFiles s parse manifest =
      (ownBlobs s (root.join "blobs") shared parsed.digests []).map (· ++ [manifest]) := by
  obtain ⟨content, hfile⟩ := h.file
  have hinside : dir.isPrefixOf own = true := List.isPrefixOf_iff_prefix.2 h.inside
  have hcanonical : parsed.digests.all canonical = true := List.all_eq_true.2 h.canonical
  unfold exclusiveFiles
  simp only [hfile, isPlainFile, h.plain, h.manifests, parent_join, h.ownPlace, h.dirPlace, hinside,
    fileName_join, h.realDir, h.realBlobs, h.read, hcanonical, h.names, Bool.not_true,
    Bool.or_self, Bool.false_eq_true, if_false, ne_eq, not_true_eq_false, decide_false]

theorem exclusiveFiles_ok (h : exclusiveFiles s parse manifest = .ok files) :
    (s.symlinkMetadata manifest = .error .notFound ∧ files = []) ∨
    ∃ root own dir parsed shared blobs, Reading s parse manifest root own dir parsed shared ∧
      ownBlobs s (root.join "blobs") shared parsed.digests [] = .ok blobs ∧
        files = blobs ++ [manifest] := by
  unfold exclusiveFiles at h
  split at h
  · rename_i hgone
    exact Or.inl ⟨hgone, (Except.ok.inj h).symm⟩
  · cases h
  · rename_i metadata hmetadata
    split at h
    · cases h
    · rename_i hplain
      simp only [Bool.or_eq_true, Bool.not_eq_true', not_or, Bool.not_eq_false] at hplain
      obtain ⟨content, rfl⟩ := isPlainFile_iff.1 hplain.1
      split at h
      · cases h
      · rename_i manifests hmanifests
        split at h
        · cases h
        · rename_i root hroot
          split at h
          · rename_i own dir hown hdir
            split at h
            · cases h
            · rename_i hplaces
              simp only [Bool.or_eq_true, Bool.not_eq_true', not_or, Bool.not_eq_false,
                decide_eq_true_eq, ne_eq, not_not] at hplaces
              obtain ⟨⟨⟨hinside, hname⟩, hreal⟩, hblobs⟩ := hplaces
              obtain rfl := eq_join hroot hname
              split at h
              · cases h
              · rename_i parsed hread
                split at h
                · cases h
                · rename_i hcanonical
                  simp only [Bool.not_eq_true', Bool.not_eq_false] at hcanonical
                  split at h
                  · cases h
                  · rename_i shared hnames
                    cases hown' : ownBlobs s (root.join "blobs") shared parsed.digests [] with
                    | error refusal =>
                      rw [hown'] at h
                      cases h
                    | ok blobs =>
                      rw [hown'] at h
                      refine Or.inr ⟨root, own, dir, parsed, shared, blobs, ?_, hown',
                        (Except.ok.inj h).symm⟩
                      exact ⟨⟨content, hmetadata⟩, hplain.2, hmanifests, hown, hdir,
                        List.isPrefixOf_iff_prefix.1 hinside, hreal, hblobs, hread,
                        List.all_eq_true.1 hcanonical, hnames⟩
          · cases h

/-! ## Where the places lie -/

theorem resolve_join (follow : Bool) (root : Path) (name : String) :
    s.resolve follow (root.join name) =
      FileTree.walk s.tree follow s.limit s.cwd (root.map segment ++ [.name name]) := by
  rw [Store.resolve, if_neg (by simp [Path.join]), Path.join, List.map_append]
  rfl

theorem node_eq_dir (h : s.node place = some .dir) : FileTree.IsDir s.tree place := by
  unfold Store.node at h
  split at h
  · rename_i hempty
    exact Or.inl hempty
  · exact Or.inr h

theorem not_link_of_isDir (h : FileTree.IsDir s.tree place) (target : List (Seg String)) :
    s.tree place ≠ some (.link target) := by
  rcases h with rfl | hdir
  · rw [s.rootless]
    exact nofun
  · rw [hdir]
    exact nofun

theorem nodeOf_ok {found : Except FileTree.Error Place} {node : Node String Stored}
    (h : s.nodeOf found = .ok node) : ∃ place, found = .ok place ∧ s.node place = some node := by
  unfold Store.nodeOf at h
  split at h
  · cases h
  · rename_i place
    split at h
    · rename_i node' hnode
      cases h
      exact ⟨place, rfl, hnode⟩
    · cases h

theorem nodeOf_of {node : Node String Stored} (h : s.node place = some node) :
    s.nodeOf (.ok place) = .ok node := by
  rw [Store.nodeOf, h]

/-- A real directory is where its path leads, whether links are followed or not. -/
theorem place_of_realDir (h : s.isRealDir path = true) :
    ∃ place, s.resolve false path = .ok place ∧ s.resolve true path = .ok place ∧
      s.node place = some .dir := by
  unfold Store.isRealDir at h
  split at h
  · rename_i hmetadata
    obtain ⟨place, hplace, hnode⟩ := nodeOf_ok hmetadata
    refine ⟨place, hplace, ?_, hnode⟩
    unfold Store.resolve at hplace ⊢
    split at hplace
    · cases hplace
    · rename_i hne
      rw [if_neg hne]
      exact FileTree.walk_follow hplace (not_link_of_isDir (node_eq_dir hnode))
  · cases h

theorem canonicalize_eq {found : Place} (h : s.canonicalize path = some found) :
    s.resolve true path = .ok found ∧ (s.node found).isSome := by
  unfold Store.canonicalize at h
  split at h
  · cases h
  · split at h
    · cases h
      exact ⟨‹_›, ‹_›⟩
    · cases h

/-- The blobs lie beside the manifests, and a blob is none of what lies under those. -/
theorem Reading.places (h : Reading s parse manifest root own dir parsed shared) :
    ∃ base, Leads s (root.join "blobs") base ∧ s.resolve false (root.join "blobs") = .ok base ∧
      s.node base = some .dir ∧ s.resolve false (root.join "manifests") = .ok dir ∧
        ∀ name, ¬ dir <+: base ++ [name] := by
  obtain ⟨dir', hdir, hfollowed, -⟩ := place_of_realDir h.realDir
  obtain ⟨base, hbase, hbaseFollowed, hbaseNode⟩ := place_of_realDir h.realBlobs
  obtain ⟨hown, -⟩ := canonicalize_eq h.dirPlace
  rw [hfollowed, Except.ok.injEq] at hown
  subst hown
  refine ⟨base, ?_, hbase, hbaseNode, hdir, ?_⟩
  · intro name
    rw [Store.resolve, if_neg (by simp [Path.join])] at hbaseFollowed
    rw [resolve_join]
    exact FileTree.walk_snoc hbaseFollowed (node_eq_dir hbaseNode)
  · -- one directory holds both
    rw [resolve_join] at hdir hbase
    obtain ⟨above, rfl, hsiblings⟩ := FileTree.walk_siblings hdir
    rw [hsiblings "blobs", Except.ok.injEq] at hbase
    rw [← hbase]
    intro name hprefix
    rw [List.append_assoc, List.prefix_append_right_inj] at hprefix
    have hnames := (List.cons_prefix_cons.1 hprefix).1
    exact absurd hnames (by decide)

/-- The manifest is the regular file its resolved path leads to. -/
theorem Reading.own_place (h : Reading s parse manifest root own dir parsed shared) :
    s.resolve false manifest = .ok own ∧ ∃ content, s.tree own = some (.file (.plain content)) := by
  obtain ⟨content, hfile⟩ := h.file
  obtain ⟨place, hplace, hnode⟩ := nodeOf_ok hfile
  have htree : s.tree place = some (.file (.plain content)) := by
    unfold Store.node at hnode
    split at hnode
    · cases hnode
    · exact hnode
  have hfollowed : s.resolve true manifest = .ok place := by
    unfold Store.resolve at hplace ⊢
    split at hplace
    · cases hplace
    · rename_i hne
      rw [if_neg hne]
      refine FileTree.walk_follow hplace fun target hlink => ?_
      rw [htree] at hlink
      cases hlink
  obtain ⟨hown, -⟩ := canonicalize_eq h.ownPlace
  rw [hfollowed, Except.ok.injEq] at hown
  exact ⟨hown ▸ hplace, content, hown ▸ htree⟩

/-! ## Taking a file away -/

/-- The disk without what stood at a place, unless that is a directory. -/
def Store.unlink (s : Store) (gone : Place) : Store :=
  if h : FileTree.IsDir s.tree gone then s
  else
    { s with
      tree := FileTree.erase s.tree gone
      listing := fun dir =>
        (s.listing dir).map fun names => names.filter fun name => dir ++ [name] ≠ gone
      rootless := by
        rw [FileTree.erase]
        split
        · rfl
        · exact s.rootless
      closed := by
        intro dir name hsome
        have hsome' : (s.tree (dir ++ [name])).isSome := by
          rw [FileTree.erase] at hsome
          split at hsome
          · cases hsome
          · exact hsome
        rcases s.closed dir name hsome' with hempty | hdir
        · exact Or.inl hempty
        · refine Or.inr ?_
          rw [FileTree.erase_of_ne]
          · exact hdir
          · rintro rfl
            exact h (Or.inr hdir)
      listed := by
        intro dir names name hnames hsome
        obtain ⟨before, hbefore, rfl⟩ := Option.map_eq_some_iff.1 hnames
        rw [FileTree.erase] at hsome
        split at hsome
        · cases hsome
        · rename_i hne
          exact List.mem_filter.2 ⟨s.listed dir before name hbefore hsome, by simpa using hne⟩
      deep := by
        intro place hsome
        rw [FileTree.erase] at hsome
        split at hsome
        · cases hsome
        · exact s.deep place hsome }

/-- `remove_file`. -/
def Store.removeFile (s : Store) (path : Path) : Store :=
  match s.resolve false path with
  | .ok place => s.unlink place
  | .error _ => s

def Store.removeAll (s : Store) (paths : List Path) : Store := paths.foldl Store.removeFile s

section Unlink

variable {gone : Place} {content : Stored}

theorem not_isDir_of_file (hgone : s.tree gone = some (.file content)) :
    ¬ FileTree.IsDir s.tree gone := by
  rintro (rfl | hdir)
  · rw [s.rootless] at hgone
    cases hgone
  · rw [hgone] at hdir
    cases hdir

theorem unlink_tree (hgone : s.tree gone = some (.file content)) :
    (s.unlink gone).tree = FileTree.erase s.tree gone := by
  rw [Store.unlink, dif_neg (not_isDir_of_file hgone)]

theorem unlink_listing (hgone : s.tree gone = some (.file content)) (hdir : ¬ dir <+: gone) :
    (s.unlink gone).listing dir = s.listing dir := by
  rw [Store.unlink, dif_neg (not_isDir_of_file hgone)]
  simp only
  cases s.listing dir with
  | none => rfl
  | some names =>
    rw [Option.map_some, List.filter_eq_self.2]
    intro name _
    refine decide_eq_true fun heq => hdir ?_
    rw [← heq]
    exact List.prefix_append _ _

theorem unlink_depth (gone : Place) : (s.unlink gone).depth = s.depth := by
  unfold Store.unlink
  split
  · rfl
  · rfl

theorem unlink_node (hgone : s.tree gone = some (.file content)) (hne : place ≠ gone) :
    (s.unlink gone).node place = s.node place := by
  rw [Store.node, Store.node, unlink_tree hgone, FileTree.erase_of_ne _ hne]

theorem unlink_resolve (hgone : s.tree gone = some (.file content)) {follow : Bool} {path : Path}
    (h : s.resolve follow path = .ok place) : (s.unlink gone).resolve follow path = .ok place := by
  unfold Store.resolve at h ⊢
  split at h
  · cases h
  · rename_i hne
    rw [if_neg hne]
    have hwalk := FileTree.walk_erase hgone h
    unfold Store.unlink
    rw [dif_neg (not_isDir_of_file hgone)]
    exact hwalk

/-- What the manifests elsewhere name stays. -/
theorem unlink_namesUnder (hgone : s.tree gone = some (.file content)) (hdir : ¬ dir <+: gone) :
    namesUnder (s.unlink gone) parse skip left dir = namesUnder s parse skip left dir := by
  induction left generalizing dir with
  | zero => rfl
  | succ left ih =>
    rw [namesUnder, namesUnder, unlink_listing hgone hdir]
    refine congrArg _ (funext fun entries => gatherNames_congr fun name _ => ?_)
    have hbelow : ¬ dir ++ [name] <+: gone := fun h => hdir ((List.prefix_append _ _).trans h)
    have hne : dir ++ [name] ≠ gone := by
      rintro rfl
      exact hbelow List.prefix_rfl
    rw [entryNames, entryNames, unlink_tree hgone, FileTree.erase_of_ne _ hne, ih hbelow]

/-- The reading is the same once a file outside the manifests is gone. -/
theorem Reading.unlink (h : Reading s parse manifest root own dir parsed shared)
    (hgone : s.tree gone = some (.file content)) (houtside : ¬ dir <+: gone) :
    Reading (s.unlink gone) parse manifest root own dir parsed shared := by
  obtain ⟨base, hleads, hbase, hbaseNode, hdirPlace, -⟩ := h.places
  obtain ⟨hownPlace, stored, hown⟩ := h.own_place
  have hownNe : own ≠ gone := by
    rintro rfl
    exact houtside h.inside
  have hdirNe : dir ≠ gone := by
    rintro rfl
    exact houtside List.prefix_rfl
  have hbaseNe : base ≠ gone := by
    rintro rfl
    exact not_isDir_of_file hgone (node_eq_dir hbaseNode)
  have hownNode : s.node own = some (.file (.plain stored)) := by
    rw [Store.node, if_neg, hown]
    rintro rfl
    rw [s.rootless] at hown
    cases hown
  obtain ⟨hownFollowed, hownSome⟩ := canonicalize_eq h.ownPlace
  obtain ⟨hdirFollowed, hdirSome⟩ := canonicalize_eq h.dirPlace
  have hdirNode : s.node dir = some .dir := by
    obtain ⟨place, hplace, -, hnode⟩ := place_of_realDir h.realDir
    rw [hdirPlace, Except.ok.injEq] at hplace
    rwa [hplace]
  refine ⟨⟨stored, ?_⟩, h.plain, h.manifests, ?_, ?_, h.inside, ?_, ?_, ?_, h.canonical, ?_⟩
  · rw [Store.symlinkMetadata, unlink_resolve hgone hownPlace]
    exact nodeOf_of ((unlink_node hgone hownNe).trans hownNode)
  · rw [Store.canonicalize, unlink_resolve hgone hownFollowed]
    simp only
    rw [unlink_node hgone hownNe, if_pos hownSome]
  · rw [Store.canonicalize, unlink_resolve hgone hdirFollowed]
    simp only
    rw [unlink_node hgone hdirNe, if_pos hdirSome]
  · rw [Store.isRealDir, Store.symlinkMetadata, unlink_resolve hgone hdirPlace,
      nodeOf_of ((unlink_node hgone hdirNe).trans hdirNode)]
  · rw [Store.isRealDir, Store.symlinkMetadata, unlink_resolve hgone hbase,
      nodeOf_of ((unlink_node hgone hbaseNe).trans hbaseNode)]
  · have hread := h.read
    rw [Store.readRegular, hownFollowed, nodeOf_of hownNode] at hread
    rw [Store.readRegular, unlink_resolve hgone hownFollowed,
      nodeOf_of ((unlink_node hgone hownNe).trans hownNode)]
    exact hread
  · rw [unlink_depth, unlink_namesUnder hgone houtside]
    exact h.names

end Unlink

/-! ## How digests are spelled -/

theorem isHexDigit_ne (h : isHexDigit c = true) : c ≠ ':' ∧ c ≠ '-' := by
  constructor
  · rintro rfl
    exact absurd h (by decide)
  · rintro rfl
    exact absurd h (by decide)

/-- The hex characters of a digest. -/
def hexOf (digest : String) : List Char := digest.toList.drop 7

theorem toList_of_canonical (h : canonical digest = true) :
    digest.toList = "sha256:".toList ++ hexOf digest ∧
      ∀ c ∈ hexOf digest, isHexDigit c = true := by
  unfold canonical isDigest at h
  simp only [Bool.and_eq_true, List.isPrefixOf_iff_prefix, List.all_eq_true] at h
  obtain ⟨⟨⟨⟨rest, hrest⟩, -⟩, hhex⟩, -⟩ := h
  refine ⟨?_, hhex⟩
  rw [hexOf, ← hrest, List.drop_left' (by decide)]

theorem blobName_toList (h : canonical digest = true) :
    (blobName digest).toList = "sha256-".toList ++ hexOf digest := by
  obtain ⟨hlist, hhex⟩ := toList_of_canonical h
  have hsame : (hexOf digest).map (fun c => if c = ':' then '-' else c) = hexOf digest := by
    conv_rhs => rw [← List.map_id (hexOf digest)]
    exact List.map_congr_left fun c hc => if_neg (isHexDigit_ne (hhex c hc)).1
  rw [blobName, String.toList_ofList, hlist, List.map_append, hsame]
  rfl

theorem blobName_inj {a b : String} (ha : canonical a = true) (hb : canonical b = true)
    (h : blobName a = blobName b) : a = b := by
  have hlist := congrArg String.toList h
  rw [blobName_toList ha, blobName_toList hb] at hlist
  rw [← String.toList_inj, (toList_of_canonical ha).1, (toList_of_canonical hb).1,
    List.append_cancel_left hlist]

/-- Lowercase text has a colon where the text has one. -/
theorem toLower_eq_colon (c : Char) : c.toLower = ':' ↔ c = ':' := by
  unfold Char.toLower
  constructor
  · intro h
    split at h
    · rename_i hupper
      have hval : c.val + 32 = 58 := congrArg Char.val h
      have hle : (65 : UInt32).toNat ≤ c.val.toNat := UInt32.le_iff_toNat_le.1 hupper.1
      have hge : c.val.toNat ≤ (90 : UInt32).toNat := UInt32.le_iff_toNat_le.1 hupper.2
      have hnat := congrArg UInt32.toNat hval
      rw [UInt32.toNat_add] at hnat
      simp only [UInt32.reduceToNat] at hle hge hnat
      omega
    · exact h
  · rintro rfl
    decide

theorem asciiLower_blobName (text : String) :
    asciiLower (blobName text) = blobName (asciiLower text) := by
  rw [asciiLower, blobName, blobName, asciiLower, String.toList_ofList, String.toList_ofList,
    List.map_map, List.map_map]
  refine congrArg String.ofList (List.map_congr_left fun c _ => ?_)
  show (if c = ':' then '-' else c).toLower = if c.toLower = ':' then '-' else c.toLower
  by_cases hc : c = ':'
  · rw [if_pos hc, if_pos ((toLower_eq_colon c).2 hc)]
    rfl
  · rw [if_neg hc, if_neg (fun h => hc ((toLower_eq_colon c).1 h))]

theorem eq_of_dashed {d : Char} (h : (if c = ':' then '-' else c) = d) :
    c = d ∨ c = ':' ∧ d = '-' := by
  split at h
  · rename_i hcolon
    exact Or.inr ⟨hcolon, h.symm⟩
  · exact Or.inl h

theorem eq_of_dashed_ne {d : Char} (h : (if c = ':' then '-' else c) = d) (hne : d ≠ '-') : c = d :=
  (eq_of_dashed h).resolve_right fun hdash => hne hdash.2

/-- What leads to the blob of a digest is the digest, or that with a dash for the colon. -/
theorem eq_or_eq_of_blobName {text : String} (h : canonical digest = true)
    (hname : blobName text = blobName digest) : text = digest ∨ text = blobName digest := by
  have hlist : text.toList.map (fun c => if c = ':' then '-' else c) =
      "sha256-".toList ++ hexOf digest := by
    rw [← blobName_toList h, ← hname, blobName, String.toList_ofList]
  obtain ⟨front, rest, htext, hfront, hrest⟩ := List.map_eq_append_iff.1 hlist
  have hrest : rest = hexOf digest := by
    rw [← hrest]
    conv_lhs => rw [← List.map_id rest]
    refine List.map_congr_left fun c hc => (if_neg ?_).symm
    rintro rfl
    have hdash : '-' ∈ hexOf digest := by
      rw [← hrest]
      exact List.mem_map.2 ⟨':', hc, rfl⟩
    exact (isHexDigit_ne ((toList_of_canonical h).2 _ hdash)).2 rfl
  have hfronts : front = "sha256:".toList ∨ front = "sha256-".toList := by
    have hchars : front.map (fun c => if c = ':' then '-' else c) =
        ['s', 'h', 'a', '2', '5', '6', '-'] := hfront
    simp only [List.map_eq_cons_iff, List.map_eq_nil_iff] at hchars
    obtain ⟨a, _, rfl, ha, b, _, rfl, hb, c, _, rfl, hc, d, _, rfl, hd, e, _, rfl, he, f, _, rfl,
      hf, g, _, rfl, hg, rfl⟩ := hchars
    obtain rfl := eq_of_dashed_ne ha (by decide)
    obtain rfl := eq_of_dashed_ne hb (by decide)
    obtain rfl := eq_of_dashed_ne hc (by decide)
    obtain rfl := eq_of_dashed_ne hd (by decide)
    obtain rfl := eq_of_dashed_ne he (by decide)
    obtain rfl := eq_of_dashed_ne hf (by decide)
    rcases eq_of_dashed hg with rfl | ⟨rfl, -⟩
    · exact Or.inr (by decide)
    · exact Or.inl (by decide)
  rcases hfronts with hfront | hfront
  · refine Or.inl (String.toList_inj.1 ?_)
    rw [htext, hfront, hrest, (toList_of_canonical h).1]
  · refine Or.inr (String.toList_inj.1 ?_)
    rw [htext, hfront, hrest, blobName_toList h]

/-! ## A delete that stopped -/

theorem canonical_of_wanted (h : Reading s parse manifest root own dir parsed shared)
    (hdigest : digest ∈ wanted shared parsed.digests []) :
    canonical digest = true :=
  h.canonical digest (mem_wanted.1 hdigest).1

/-- With the first of the blobs gone, the others are listed. -/
theorem ownBlobs_unlink (h : Reading s parse manifest root own dir parsed shared) {blob : Path}
    (hblobs : ownBlobs s (root.join "blobs") shared parsed.digests [] = .ok (blob :: blobs)) :
    ∃ gone content, s.resolve false blob = .ok gone ∧ s.tree gone = some (.file content) ∧
      ¬ dir <+: gone ∧
        ownBlobs (s.unlink gone) (root.join "blobs") shared parsed.digests [] = .ok blobs := by
  obtain ⟨base, hleads, -, -, -, houtside⟩ := h.places
  obtain ⟨hclear, hfiles⟩ := (ownBlobs_iff hleads).1 hblobs
  obtain ⟨digest, rest, hfilter, hblob, hrest⟩ := List.map_eq_cons_iff.1 hfiles.symm
  have hmem : digest ∈ (wanted shared parsed.digests []).filter (onDisk s base) := by
    rw [hfilter]
    exact .head _
  obtain ⟨hwanted, hon⟩ := List.mem_filter.1 hmem
  rw [onDisk, Option.any_eq_true] at hon
  obtain ⟨node, hnode, hplain⟩ := hon
  obtain ⟨content, rfl⟩ := isPlainFile_iff.1 hplain
  have hleads' : Leads (s.unlink (base ++ [blobName digest])) (root.join "blobs") base :=
    fun name => unlink_resolve hnode (hleads name)
  refine ⟨_, _, hblob ▸ hleads (blobName digest), hnode, houtside _, ?_⟩
  rw [ownBlobs_iff hleads']
  have htree : ∀ other ∈ wanted shared parsed.digests [],
      (s.unlink (base ++ [blobName digest])).tree (base ++ [blobName other]) =
        if other = digest then none else s.tree (base ++ [blobName other]) := by
    intro other hother
    rw [unlink_tree hnode]
    by_cases heq : other = digest
    · rw [if_pos heq, heq, FileTree.erase_self]
    · rw [if_neg heq, FileTree.erase_of_ne]
      intro hplace
      have hname : blobName other = blobName digest := by simpa using hplace
      exact heq (blobName_inj (canonical_of_wanted h hother) (canonical_of_wanted h hwanted) hname)
  constructor
  · intro other hother found hfound
    rw [htree other hother] at hfound
    split at hfound
    · cases hfound
    · exact hclear other hother found hfound
  · have hon' : ∀ other ∈ wanted shared parsed.digests [],
        onDisk (s.unlink (base ++ [blobName digest])) base other =
          (decide (other ≠ digest) && onDisk s base other) := by
      intro other hother
      rw [onDisk, htree other hother, onDisk]
      by_cases heq : other = digest
      · simp [heq]
      · simp [heq]
    have hnodup : (digest :: rest).Nodup := hfilter ▸ (nodup_wanted _ _ _).filter _
    have hothers : (digest :: rest).filter (fun other => decide (other ≠ digest)) = rest := by
      rw [List.filter_cons_of_neg (by simp), List.filter_eq_self]
      intro other hother
      exact decide_eq_true fun heq => (List.nodup_cons.1 hnodup).1 (heq ▸ hother)
    rw [List.filter_congr hon', ← List.filter_filter, hfilter, hothers, hrest]

/-- With the first of the files gone, the rest of them is listed. -/
theorem exclusiveFiles_removeFile (h : exclusiveFiles s parse manifest = .ok (path :: files)) :
    exclusiveFiles (s.removeFile path) parse manifest = .ok files := by
  rcases exclusiveFiles_ok h with ⟨-, hnil⟩ | ⟨root, own, dir, parsed, shared, blobs, hreading,
    hblobs, hfiles⟩
  · cases hnil
  · cases blobs with
    | nil =>
      -- the manifest is the last to go
      obtain ⟨rfl, rfl⟩ := List.cons.inj hfiles
      obtain ⟨hplace, content, hown⟩ := hreading.own_place
      rw [Store.removeFile, hplace]
      have hgone : (s.unlink own).symlinkMetadata path = .error .notFound := by
        rw [Store.symlinkMetadata, unlink_resolve hown hplace, Store.nodeOf, Store.node,
          unlink_tree hown, FileTree.erase_self, if_neg]
        rintro rfl
        rw [s.rootless] at hown
        cases hown
      unfold exclusiveFiles
      simp only [hgone]
    | cons blob blobs =>
      obtain ⟨rfl, rfl⟩ := List.cons.inj hfiles
      obtain ⟨gone, content, hplace, hgone, houtside, hrest⟩ := ownBlobs_unlink hreading hblobs
      rw [Store.removeFile, hplace]
      simp only
      rw [exclusiveFiles_of_reading (hreading.unlink hgone houtside), hrest]
      rfl

/-- A delete that stopped goes on from what is left. -/
theorem resumes (h : exclusiveFiles s parse manifest = .ok files) (k : ℕ) :
    exclusiveFiles (s.removeAll (files.take k)) parse manifest = .ok (files.drop k) := by
  induction files generalizing s k with
  | nil => simpa [Store.removeAll] using h
  | cons path files ih =>
    cases k with
    | zero => exact h
    | succ k => exact ih (exclusiveFiles_removeFile h) k

/-! ## What is deleted -/

/-- The directory that holds the manifests and the blobs. -/
def storeRoot (manifest : Path) : Option Path := (ancestor 4 manifest).bind Path.parent

/-- The manifest is there and names the digest. -/
def OwnDigest (s : Store) (parse : Bytes → Option Manifest) (manifest : Path)
    (digest : String) : Prop :=
  s.symlinkMetadata manifest ≠ .error .notFound ∧
    ∃ parsed, (s.readRegular manifest).bind parse = some parsed ∧ digest ∈ parsed.digests

/-- Another manifest of the store the manifest is in. -/
def OtherManifest (s : Store) (parse : Bytes → Option Manifest) (manifest : Path)
    (other : Manifest) : Prop :=
  ∃ manifests own dir, ancestor 4 manifest = some manifests ∧
    s.canonicalize manifest = some own ∧ s.canonicalize manifests = some dir ∧
      ManifestUnder s parse own dir other

/-- One of the digests names the file, in any letter case. -/
def NamesBlob (other : Manifest) (path : Path) : Prop :=
  ∃ digest ∈ other.digests, path.fileName = some (asciiLower (blobName digest))

/-- The blob of the digest, under the blobs of the store. -/
def blobPath (root : Path) (digest : String) : Path := (root.join "blobs").join (blobName digest)

/-- A deletion that touches only what is the manifest's own, and can be gone on with. -/
structure OwnOnly (s : Store) (parse : Bytes → Option Manifest) (manifest : Path)
    (files : List Path) : Prop where
  unnamed : ∀ path ∈ files, path ≠ manifest → ∀ other, OtherManifest s parse manifest other →
    ¬ NamesBlob other path
  own : ∀ path ∈ files, path ≠ manifest → ∃ root digest, storeRoot manifest = some root ∧
    OwnDigest s parse manifest digest ∧ path = blobPath root digest
  once : files.Nodup
  last : (s.symlinkMetadata manifest = .error .notFound ∧ files = []) ∨
    files.getLast? = some manifest
  resumes : ∀ k, exclusiveFiles (s.removeAll (files.take k)) parse manifest = .ok (files.drop k)

/-- Another manifest that names a blob of this one that is there with a dash for the colon is not
alone: one names it with the colon. -/
def SpelledWithColon (s : Store) (parse : Bytes → Option Manifest) (manifest : Path) : Prop :=
  ∀ root digest content, storeRoot manifest = some root → OwnDigest s parse manifest digest →
    s.symlinkMetadata (blobPath root digest) = .ok (.file (.plain content)) →
    ∀ other, OtherManifest s parse manifest other → ∀ spelled ∈ other.digests,
      asciiLower spelled = blobName digest →
      ∃ another, OtherManifest s parse manifest another ∧
        ∃ named ∈ another.digests, asciiLower named = digest

theorem length_ancestor {n : ℕ} {found : Path} (h : ancestor n path = some found) :
    found.length + n = path.length := by
  induction n generalizing path with
  | zero =>
    cases h
    rfl
  | succ n ih =>
    obtain ⟨parent, hparent, h⟩ := Option.bind_eq_some_iff.1 h
    have hlength := ih h
    unfold Path.parent at hparent
    split at hparent
    · cases hparent
    · cases hparent
    · rename_i last hlast
      cases hparent
      have hne : path ≠ [] := by
        rintro rfl
        cases hlast
      have hpos := List.length_pos_iff.2 hne
      rw [List.length_dropLast] at hlength
      omega

theorem Reading.root_eq (h : Reading s parse manifest root own dir parsed shared) :
    storeRoot manifest = some root := by
  rw [storeRoot, h.manifests, Option.bind_some, parent_join]

theorem Reading.blobPath_ne (h : Reading s parse manifest root own dir parsed shared)
    (digest : String) : blobPath root digest ≠ manifest := by
  rintro heq
  have hlength := length_ancestor h.manifests
  rw [← heq] at hlength
  simp only [blobPath, Path.join, List.length_append, List.length_singleton] at hlength
  omega

theorem Reading.otherManifest_iff (h : Reading s parse manifest root own dir parsed shared)
    {other : Manifest} :
    OtherManifest s parse manifest other ↔ ManifestUnder s parse own dir other := by
  constructor
  · rintro ⟨manifests, own', dir', hmanifests, hown, hdir, hunder⟩
    rw [h.manifests, Option.some.injEq] at hmanifests
    rw [h.ownPlace, Option.some.injEq] at hown
    subst hmanifests hown
    rw [h.dirPlace, Option.some.injEq] at hdir
    rwa [hdir]
  · exact fun hunder => ⟨_, _, _, h.manifests, h.ownPlace, h.dirPlace, hunder⟩

theorem Reading.mem_shared (h : Reading s parse manifest root own dir parsed shared) :
    digest ∈ shared ↔ ∃ other, OtherManifest s parse manifest other ∧
      ∃ named ∈ other.digests, asciiLower named = digest := by
  rw [mem_namesUnder h.names]
  refine exists_congr fun other => ?_
  rw [h.otherManifest_iff, List.mem_map]

theorem Reading.nodup_blobs (h : Reading s parse manifest root own dir parsed shared)
    (hblobs : ownBlobs s (root.join "blobs") shared parsed.digests [] = .ok blobs) :
    blobs.Nodup := by
  obtain ⟨base, hleads, -, -, -, -⟩ := h.places
  obtain ⟨-, rfl⟩ := (ownBlobs_iff hleads).1 hblobs
  refine List.Nodup.map_on ?_ ((nodup_wanted _ _ _).filter _)
  intro a ha b hb hpath
  have hnames : blobName a = blobName b := by simpa [Path.join] using hpath
  exact blobName_inj (canonical_of_wanted h (List.mem_of_mem_filter ha))
    (canonical_of_wanted h (List.mem_of_mem_filter hb)) hnames

/-- The blobs listed: those of this manifest that are there and no other names. -/
theorem Reading.mem_blobs (h : Reading s parse manifest root own dir parsed shared)
    (hblobs : ownBlobs s (root.join "blobs") shared parsed.digests [] = .ok blobs) :
    path ∈ blobs ↔ ∃ digest ∈ parsed.digests, digest ∉ shared ∧ path = blobPath root digest ∧
      ∃ content, s.symlinkMetadata path = .ok (.file (.plain content)) := by
  obtain ⟨base, hleads, -, -, -, -⟩ := h.places
  obtain ⟨-, rfl⟩ := (ownBlobs_iff hleads).1 hblobs
  rw [List.mem_map]
  constructor
  · rintro ⟨digest, hdigest, rfl⟩
    obtain ⟨hwanted, hon⟩ := List.mem_filter.1 hdigest
    obtain ⟨hmem, hshared, -⟩ := mem_wanted.1 hwanted
    rw [onDisk, Option.any_eq_true] at hon
    obtain ⟨node, hnode, hplain⟩ := hon
    obtain ⟨content, rfl⟩ := isPlainFile_iff.1 hplain
    exact ⟨digest, hmem, hshared, rfl, content, symlinkMetadata_blob hleads hnode⟩
  · rintro ⟨digest, hmem, hshared, rfl, content, hmetadata⟩
    refine ⟨digest, List.mem_filter.2 ⟨mem_wanted.2 ⟨hmem, hshared, by simp⟩, ?_⟩, rfl⟩
    rw [blobPath, Store.symlinkMetadata, hleads] at hmetadata
    obtain ⟨place, hplace, hnode⟩ := nodeOf_ok hmetadata
    cases hplace
    rw [Store.node, if_neg (by simp)] at hnode
    rw [onDisk, hnode]
    rfl

theorem Reading.ownDigest_iff (h : Reading s parse manifest root own dir parsed shared) :
    OwnDigest s parse manifest digest ↔ digest ∈ parsed.digests := by
  obtain ⟨content, hfile⟩ := h.file
  constructor
  · rintro ⟨-, parsed', hread, hmem⟩
    rw [h.read, Option.some.injEq] at hread
    rwa [hread]
  · refine fun hmem => ⟨?_, parsed, h.read, hmem⟩
    rw [hfile]
    exact nofun

theorem fileName_blobPath (root : Path) (digest : String) :
    (blobPath root digest).fileName = some (blobName digest) := fileName_join _ _

theorem blobName_blobName (digest : String) : blobName (blobName digest) = blobName digest := by
  have hsame : ∀ c ∈ (blobName digest).toList, c ≠ ':' := by
    rw [blobName, String.toList_ofList]
    intro c hc
    obtain ⟨d, -, rfl⟩ := List.mem_map.1 hc
    split
    · decide
    · assumption
  conv_lhs => rw [blobName]
  rw [show ((blobName digest).toList.map fun c => if c = ':' then '-' else c) =
      (blobName digest).toList.map id from
    List.map_congr_left fun c hc => if_neg (hsame c hc), List.map_id, String.ofList_toList]

/-- Every list of files that may be deleted, on every state of the disk and for every way to read
a manifest: nothing in it is another manifest's, each blob is one this manifest names under the
blobs of its store, no file comes twice, the manifest is last, and a delete that stopped goes on
from what is left, exactly when no other manifest alone names a blob of this one with a dash for
the colon. -/
theorem own_only_iff (s : Store) (parse : Bytes → Option Manifest) (manifest : Path)
    (files : List Path) (h : exclusiveFiles s parse manifest = .ok files) :
    OwnOnly s parse manifest files ↔ SpelledWithColon s parse manifest := by
  rcases exclusiveFiles_ok h with ⟨hgone, rfl⟩ | ⟨root, own, dir, parsed, shared, blobs, hreading,
    hblobs, rfl⟩
  · constructor
    · exact fun _ root digest content _ hown => absurd hgone hown.1
    · exact fun _ => ⟨by simp, by simp, List.nodup_nil, Or.inl ⟨hgone, rfl⟩, resumes h⟩
  have hroot := hreading.root_eq
  have hmem : ∀ path ∈ blobs ++ [manifest], path ≠ manifest → path ∈ blobs := by
    intro path hpath hne
    rcases List.mem_append.1 hpath with hpath | hpath
    · exact hpath
    · exact absurd (List.mem_singleton.1 hpath) hne
  constructor
  · intro honly root' digest content hroot' hown hmetadata other hother spelled hspelled hlower
    rw [hroot, Option.some.injEq] at hroot'
    subst hroot'
    by_contra hnone
    rw [← hreading.mem_shared] at hnone
    have hdigest := hreading.ownDigest_iff.1 hown
    -- no manifest names it with the colon, so its blob is listed
    have hlisted := (hreading.mem_blobs hblobs).2 ⟨digest, hdigest, hnone, rfl, content, hmetadata⟩
    refine honly.unnamed _ (List.mem_append_left _ hlisted) (hreading.blobPath_ne digest) other
      hother ⟨spelled, hspelled, ?_⟩
    rw [fileName_blobPath, asciiLower_blobName, hlower, blobName_blobName]
  · intro hcolon
    refine ⟨?_, ?_, ?_, Or.inr ?_, resumes h⟩
    · intro path hpath hne other hother
      rintro ⟨spelled, hspelled, hname⟩
      obtain ⟨digest, hdigest, hshared, rfl, content, hmetadata⟩ :=
        (hreading.mem_blobs hblobs).1 (hmem path hpath hne)
      rw [fileName_blobPath, Option.some.injEq, asciiLower_blobName] at hname
      rcases eq_or_eq_of_blobName (hreading.canonical digest hdigest) hname.symm with heq | heq
      · exact hshared (hreading.mem_shared.2 ⟨other, hother, spelled, hspelled, heq⟩)
      · exact hshared (hreading.mem_shared.2 (hcolon root digest content hroot
          (hreading.ownDigest_iff.2 hdigest) hmetadata other hother spelled hspelled heq))
    · intro path hpath hne
      obtain ⟨digest, hdigest, -, rfl, -⟩ := (hreading.mem_blobs hblobs).1 (hmem path hpath hne)
      exact ⟨root, digest, hroot, hreading.ownDigest_iff.2 hdigest, rfl⟩
    · rw [List.nodup_append]
      refine ⟨hreading.nodup_blobs hblobs, by simp, ?_⟩
      rintro path hpath other hother rfl
      obtain ⟨digest, -, -, heq, -⟩ := (hreading.mem_blobs hblobs).1 hpath
      rw [List.mem_singleton] at hother
      exact hreading.blobPath_ne digest (heq ▸ hother)
    · rw [List.getLast?_append_of_ne_nil _ (by simp)]
      rfl

/-! ## Two stores -/

/-- Every entry has a directory above it. -/
def wellFormed (entries : List (Place × Node String Stored)) : Bool :=
  entries.all fun entry => decide (entry.1 ≠ []) && (decide (entry.1.dropLast = []) ||
    decide ((entries.find? (·.1 = entry.1.dropLast)).map Prod.snd = some .dir))

theorem find?_mem {entries : List (Place × Node String Stored)} {place : Place}
    (h : ((entries.find? (·.1 = place)).map Prod.snd).isSome) :
    ∃ entry ∈ entries, entry.1 = place := by
  rw [Option.isSome_map] at h
  obtain ⟨entry, hentry⟩ := Option.isSome_iff_exists.1 h
  exact ⟨entry, List.mem_of_find?_eq_some hentry, by simpa using List.find?_some hentry⟩

/-- The disk of these entries. -/
def Store.ofEntries (entries : List (Place × Node String Stored))
    (h : wellFormed entries = true) : Store where
  tree place := (entries.find? (·.1 = place)).map Prod.snd
  listing dir := some (entries.filterMap fun entry =>
    if entry.1.dropLast = dir then entry.1.getLast? else none)
  cwd := []
  limit := 40
  depth := entries.foldr (fun entry depth => max entry.1.length depth) 0
  rootless := by
    rw [Option.map_eq_none_iff, List.find?_eq_none]
    intro entry hentry hempty
    have hwell := List.all_eq_true.1 h entry hentry
    rw [Bool.and_eq_true, decide_eq_true_eq] at hwell
    exact hwell.1 (of_decide_eq_true hempty)
  closed := by
    intro dir name hsome
    obtain ⟨entry, hentry, hplace⟩ := find?_mem hsome
    have hwell := List.all_eq_true.1 h entry hentry
    rw [Bool.and_eq_true, hplace, List.dropLast_concat] at hwell
    rcases Bool.or_eq_true_iff.1 hwell.2 with hempty | hdir
    · exact Or.inl (of_decide_eq_true hempty)
    · exact Or.inr (of_decide_eq_true hdir)
  listed := by
    intro dir names name hnames hsome
    cases hnames
    obtain ⟨entry, hentry, hplace⟩ := find?_mem hsome
    refine List.mem_filterMap.2 ⟨entry, hentry, ?_⟩
    rw [hplace, List.dropLast_concat, if_pos rfl, List.getLast?_concat]
  deep := by
    intro place hsome
    obtain ⟨entry, hentry, rfl⟩ := find?_mem hsome
    clear hsome h
    induction entries with
    | nil => cases hentry
    | cons first entries ih =>
      rw [List.foldr_cons]
      rcases List.mem_cons.1 hentry with rfl | hentry
      · exact le_max_left _ _
      · exact (ih hentry).trans (le_max_right _ _)

def sampleHex : String := String.ofList (List.replicate 64 'a')

def colonDigest : String := "sha256:" ++ sampleHex
def dashDigest : String := "sha256-" ++ sampleHex

/-- One byte stands for a manifest of one layer. -/
def readSample : Bytes → Option Manifest
  | [1] => some { layers := [{ digest := colonDigest }] }
  | [2] => some { layers := [{ digest := dashDigest }] }
  | _ => none

def sampleDirs : List (Place × Node String Stored) :=
  [(["m"], .dir), (["m", "blobs"], .dir), (["m", "manifests"], .dir),
    (["m", "manifests", "r"], .dir), (["m", "manifests", "r", "n"], .dir),
    (["m", "manifests", "r", "n", "a"], .dir), (["m", "manifests", "r", "n", "b"], .dir),
    (["m", "manifests", "r", "n", "a", "t"], .file (.plain (some [1]))),
    (["m", "blobs", dashDigest], .file (.plain (some [0])))]

/-- Another manifest that spells the digest with the colon. -/
def sharedStore : Store :=
  Store.ofEntries
    (sampleDirs ++ [(["m", "manifests", "r", "n", "b", "t"], .file (.plain (some [1])))])
    (by decide +kernel)

/-- Another manifest that spells the digest with a dash. -/
def dashStore : Store :=
  Store.ofEntries
    (sampleDirs ++ [(["m", "manifests", "r", "n", "b", "t"], .file (.plain (some [2])))])
    (by decide +kernel)

def sampleManifest : Path := Path.ofString "/m/manifests/r/n/a/t"

def sampleBlob : Path := (Path.ofString "/m/blobs").join dashDigest

theorem own_only_iff_shared :
    OwnOnly sharedStore readSample sampleManifest [sampleManifest] ↔
      SpelledWithColon sharedStore readSample sampleManifest :=
  own_only_iff sharedStore readSample sampleManifest _ (by decide +kernel)

/-- The blob of a manifest that spells its digest with a dash is deleted with another model. -/
theorem dash_not_seen :
    exclusiveFiles dashStore readSample sampleManifest = .ok [sampleBlob, sampleManifest] ∧
      ¬ OwnOnly dashStore readSample sampleManifest [sampleBlob, sampleManifest] := by
  refine ⟨by decide +kernel, fun honly => ?_⟩
  refine honly.unnamed sampleBlob (.head _) (by decide +kernel)
    { layers := [{ digest := dashDigest }] } ?_ ⟨dashDigest, .head _, by decide +kernel⟩
  refine ⟨Path.ofString "/m/manifests", ["m", "manifests", "r", "n", "a", "t"], ["m", "manifests"],
    by decide +kernel, by decide +kernel, by decide +kernel, ["r", "n", "b", "t"], [2],
    by decide +kernel, by decide +kernel, by decide +kernel, rfl⟩

end Hedos.Discovery.OllamaStore
