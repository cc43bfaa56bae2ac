import Hedos.Manifests.Community

/-!
# Installing and removing a community runtime, exactly

* a copy that ends well has every file of the recipe, and it ends well exactly when every entry is
  a file or a directory and no step fails (`copyEntries_ok`, `look_copyEntries`);
* nothing takes a half-made destination away again, so a call that fails after making it leaves it
  (`install_exact`);
* the destination of an id is its slug, and other ids have that slug: what lies there is removed
  under any of them (`uninstall_exact`).
-/

namespace Hedos.Manifests.Community

open DirTree (Leaf Node Seen RemoveStep)

/-! ## What is asked -/

/-- The files that make up a recipe. -/
def recipe : Node String Bytes → Tree
  | .leaf entry => .leaf manifestName entry .nil
  | .dir inside | .linkDir inside => inside

/-- Every other runtime is as it was. -/
def Spares (name : String) (before after : Runtimes) : Prop :=
  ∀ other, other ≠ name → other ≠ "" → after.destination other = before.destination other

/-- The runtime is there, with all files of its recipe. -/
def Whole (formats : Formats) (source : Node String Bytes) (name id : String) (after : Runtimes) :
    Prop :=
  ∃ inside, after.destination name = some (.dir inside) ∧ formats.isCommunity inside = true ∧
    formats.manifestId inside = some id ∧
    ∀ path, path ≠ [provenanceName] → inside.look path = (recipe source).look path

/-- A call of `install` that fails leaves `runtimes.d` as it was, and one that does not puts the
whole runtime there. -/
structure InstallExact (before : Runtimes) (source : Node String Bytes) (formats : Formats)
    (alphanumeric : Char → Bool) (result : Except ManifestError String × Runtimes) : Prop where
  err : ∀ error, result.1 = .error error → result.2 = before
  ok : ∀ id, result.1 = .ok id →
    Whole formats source (slug alphanumeric id) id result.2 ∧
      Spares (slug alphanumeric id) before result.2

/-- A call of `uninstall` takes away nothing but a community runtime with that id. -/
def UninstallExact (before : Runtimes) (formats : Formats) (alphanumeric : Char → Bool)
    (id : String) (after : Runtimes) : Prop :=
  after ≠ before →
    (∃ node inside, before.destination (slug alphanumeric id) = some node ∧
      node.inside = some inside ∧ formats.manifestId inside = some id ∧
      formats.isCommunity inside = true) ∧
    Spares (slug alphanumeric id) before after

/-! ## When it is met -/

/-- Every entry can be copied. -/
def copyable : Tree → Bool
  | .nil => true
  | .leaf _ entry rest => entry.content.isSome && copyable rest
  | .dir _ inside rest => copyable inside && copyable rest
  | .linkDir _ _ _ => false

/-- The steps of `copyEntries` that goes to the end. -/
def copySteps : Tree → Place → List Step
  | .nil, _ => []
  | .leaf name _ rest, place | .linkDir name _ rest, place =>
    .entry (place ++ [name]) :: .copy (place ++ [name]) :: copySteps rest place
  | .dir name inside rest, place =>
    .entry (place ++ [name]) :: .makeDir (place ++ [name]) :: .readDir (place ++ [name]) ::
      (copySteps inside (place ++ [name]) ++ copySteps rest place)

def recipeSteps : Node String Bytes → List Step
  | .leaf _ => [.makeDir [], .copy [manifestName]]
  | .dir inside | .linkDir inside => .makeDir [] :: .readDir [] :: copySteps inside []

def stampSteps : List Step :=
  [.provenance .parent, .provenance .create, .provenance .write, .provenance .sync,
    .provenance .rename]

/-- The call gets as far as changing `runtimes.d`: the recipe may be installed, nothing lies at its
destination, and `runtimes.d` or the destination is made. -/
def Begins (formats : Formats) (alphanumeric : Char → Bool) (reserved : Reserved) (disk : Disk)
    (runtimes : Runtimes) (source : Node String Bytes) (shown : String) : Prop :=
  ∃ manifest, loadManifest formats disk source shown = .ok manifest ∧
    requireInstallable reserved manifest = .ok () ∧
    runtimes.exists (slug alphanumeric manifest.id) = false ∧
    disk.fails .makeRuntimes = none ∧
    (runtimes = none ∨
      runtimes.destination (slug alphanumeric manifest.id) = none ∧ disk.fails (.makeDir []) = none)

/-- The recipe can be copied, no step of that or of the stamp fails, and the recipe has no file of
the name of the temporary one. -/
structure Completes (disk : Disk) (source : Node String Bytes) : Prop where
  copyable : copyable (recipe source) = true
  steps : ∀ step ∈ recipeSteps source ++ stampSteps, disk.fails step = none
  provenance : (recipe source).look [provenanceName] ≠ some .directory
  temp : (recipe source).look [disk.temp] = none

/-- Removing what lies at a name takes something away. -/
def deletes (disk : Disk) : Node String Bytes → Bool
  | .leaf _ | .linkDir _ => (disk.fails (.remove (.unlink []))).isNone
  | .dir inside => !inside.stays (fun step => disk.fails (.remove step)) []

/-- What the call deletes from holds a manifest with that id. -/
def SameId (formats : Formats) (alphanumeric : Char → Bool) (disk : Disk) (runtimes : Runtimes)
    (id : String) : Prop :=
  ∀ node inside, runtimes.destination (slug alphanumeric id) = some node →
    node.inside = some inside → formats.isCommunity inside = true → deletes disk node = true →
    formats.manifestId inside = some id

/-! ## Copying -/

section Copy

variable {disk : Disk} {formats : Formats}

theorem copyFile_ok (entry : Leaf Bytes) (place : Place) :
    (copyFile disk entry place).1 = .ok () ↔
      entry.content.isSome = true ∧ disk.fails (.copy place) = none := by
  rcases entry with bytes | ⟨_ | bytes⟩ | _ <;> cases h : disk.fails (.copy place) <;>
    simp [copyFile, Leaf.content, h]

variable {place : Place}

theorem copyFile_made {entry : Leaf Bytes} (h : (copyFile disk entry place).1 = .ok ()) :
    ∃ bytes, entry.content = some bytes ∧
      (copyFile disk entry place).2 = some (.leaf (.file bytes)) := by
  rcases entry with bytes | ⟨_ | bytes⟩ | _ <;> cases hc : disk.fails (.copy place) <;>
    simp_all [copyFile, Leaf.content]

theorem copyInto_ok (place : Place) (loop : Except String Unit × Tree) :
    (copyInto disk place loop).1 = .ok () ↔
      disk.fails (.makeDir place) = none ∧ disk.fails (.readDir place) = none ∧
        loop.1 = .ok () := by
  cases hm : disk.fails (.makeDir place) <;> cases hr : disk.fails (.readDir place) <;>
    simp [copyInto, hm, hr]

theorem copyInto_made {loop : Except String Unit × Tree}
    (h : (copyInto disk place loop).1 = .ok ()) :
    (copyInto disk place loop).2 = some (.dir loop.2) := by
  obtain ⟨hm, hr, _⟩ := (copyInto_ok place loop).1 h
  simp [copyInto, hm, hr]

theorem thenCopy_ok (place : Place) (name : String)
    (one : Except String Unit × Option (Node String Bytes)) (rest : Except String Unit × Tree) :
    (thenCopy disk place name one rest).1 = .ok () ↔
      disk.fails (.entry (place ++ [name])) = none ∧ one.1 = .ok () ∧ rest.1 = .ok () := by
  obtain ⟨_ | ⟨⟨⟩⟩, made⟩ := one <;> cases he : disk.fails (.entry (place ++ [name])) <;>
    simp [thenCopy, he]

theorem thenCopy_made {name : String} {one : Except String Unit × Option (Node String Bytes)}
    {rest : Except String Unit × Tree} (h : (thenCopy disk place name one rest).1 = .ok ()) :
    (thenCopy disk place name one rest).2 = keep name one.2 rest.2 := by
  obtain ⟨he, hone, _⟩ := (thenCopy_ok place name one rest).1 h
  obtain ⟨_ | ⟨⟨⟩⟩, made⟩ := one
  · cases hone
  · simp [thenCopy, he]

theorem copyEntries_ok (t : Tree) (place : Place) :
    (copyEntries disk t place).1 = .ok () ↔
      copyable t = true ∧ ∀ step ∈ copySteps t place, disk.fails step = none := by
  induction t generalizing place with
  | nil => simp [copyEntries, copyable, copySteps]
  | leaf name entry rest ih =>
    simp only [copyEntries, thenCopy_ok, copyFile_ok, ih, copyable, copySteps, Bool.and_eq_true,
      List.forall_mem_cons]
    tauto
  | dir name inside rest ihi ihr =>
    simp only [copyEntries, thenCopy_ok, copyInto_ok, ihi, ihr, copyable, copySteps,
      Bool.and_eq_true, List.forall_mem_cons, List.forall_mem_append]
    tauto
  | linkDir name inside rest => simp [copyEntries, thenCopy_ok, copyable]

/-- Where the copy went well, a reader finds in it what is in the source. -/
theorem look_copyEntries {t : Tree}
    (h : (copyEntries disk t place).1 = .ok ()) (path : List String) :
    (copyEntries disk t place).2.look path = t.look path := by
  induction t generalizing place path with
  | nil => rfl
  | leaf name entry rest ih =>
    obtain ⟨_, hone, hrest⟩ := (thenCopy_ok _ _ _ _).1 h
    obtain ⟨bytes, hbytes, hmade⟩ := copyFile_made hone
    rw [copyEntries, thenCopy_made h, hmade]
    cases path with
    | nil => rw [DirTree.look_nil, DirTree.look_nil]
    | cons n path =>
      simp only [keep, DirTree.Tree.cons, DirTree.Tree.look, ih hrest, hbytes, DirTree.content_file]
  | dir name inside rest ihi ihr =>
    obtain ⟨_, hone, hrest⟩ := (thenCopy_ok _ _ _ _).1 h
    obtain ⟨_, _, hloop⟩ := (copyInto_ok _ _).1 hone
    rw [copyEntries, thenCopy_made h, copyInto_made hone]
    cases path with
    | nil => rw [DirTree.look_nil, DirTree.look_nil]
    | cons n path =>
      simp only [keep, DirTree.Tree.cons, DirTree.Tree.look, ihi hloop, ihr hrest]
  | linkDir name inside rest =>
    obtain ⟨_, hone, _⟩ := (thenCopy_ok _ _ _ _).1 h
    cases hone

theorem copyRecipe_ok (source : Node String Bytes) :
    (copyRecipe disk source).1 = .ok () ↔
      copyable (recipe source) = true ∧ ∀ step ∈ recipeSteps source, disk.fails step = none := by
  have hdir (inside : Tree) : (copyDirRecursive disk inside []).1 = .ok () ↔
      copyable inside = true ∧
        ∀ step ∈ Step.makeDir [] :: .readDir [] :: copySteps inside [], disk.fails step = none := by
    simp only [copyDirRecursive, copyInto_ok, copyEntries_ok, List.forall_mem_cons]
    tauto
  cases source with
  | leaf entry =>
    have hcopy := @copyFile_ok disk entry [manifestName]
    cases hm : disk.fails (.makeDir []) <;>
      simp_all [copyRecipe, copyManifest, recipe, recipeSteps, copyable]
  | dir inside => exact hdir inside
  | linkDir inside => exact hdir inside

theorem copyRecipe_made {source : Node String Bytes} (h : (copyRecipe disk source).1 = .ok ()) :
    ∃ inside, (copyRecipe disk source).2 = some (.dir inside) ∧
      ∀ path, inside.look path = (recipe source).look path := by
  have hdir (inside : Tree) (h : (copyDirRecursive disk inside []).1 = .ok ()) :
      ∃ made, (copyDirRecursive disk inside []).2 = some (.dir made) ∧
        ∀ path, made.look path = inside.look path :=
    ⟨_, copyInto_made h, look_copyEntries ((copyInto_ok _ _).1 h).2.2⟩
  cases source with
  | leaf entry =>
    have hm : disk.fails (.makeDir []) = none :=
      ((copyRecipe_ok _).1 h).2 _ (List.mem_cons_self ..)
    simp only [copyRecipe, copyManifest, hm] at h
    obtain ⟨bytes, hbytes, hmade⟩ := copyFile_made h
    refine ⟨.leaf manifestName (.file bytes) .nil, ?_, fun path => ?_⟩
    · simp [copyRecipe, copyManifest, hm, hmade, keep, DirTree.Tree.cons]
    · cases path <;> simp [recipe, DirTree.Tree.look, hbytes]
  | dir inside => exact hdir inside h
  | linkDir inside => exact hdir inside h

/-- Once the destination could be made, something lies there. -/
theorem copyRecipe_isSome (source : Node String Bytes) :
    (copyRecipe disk source).2.isSome = true ↔ disk.fails (.makeDir []) = none := by
  cases source <;> cases hm : disk.fails (.makeDir []) <;>
    cases hr : disk.fails (.readDir []) <;>
    simp [copyRecipe, copyManifest, copyDirRecursive, copyInto, hm, hr]

end Copy

/-! ## The stamp -/

section Stamp

variable {disk : Disk} {formats : Formats}

theorem temp_ne_provenanceName : disk.temp ≠ provenanceName := fun h => by
  have := congrArg String.toList h
  simp [Disk.temp, provenanceName] at this

theorem cleanUp_error (inside : Tree) (error : String) :
    (disk.cleanUp inside error).1 = .error error := by
  unfold Disk.cleanUp
  repeat' split
  all_goals rfl

theorem writeAtomic_ok (inside : Tree) (bytes : Bytes) :
    (writeAtomic disk inside bytes).1 = .ok () ↔
      (∀ step ∈ stampSteps, disk.fails step = none) ∧
        inside.look [disk.temp] ≠ some .directory ∧
        inside.look [provenanceName] ≠ some .directory := by
  simp only [writeAtomic, stampSteps, List.forall_mem_cons, List.not_mem_nil, false_implies,
    implies_true, and_true]
  cases hparent : disk.fails (.provenance .parent) with
  | some error => simp
  | none =>
    by_cases htemp : inside.look [disk.temp] = some .directory
    · simp [htemp, cleanUp_error]
    · by_cases hprov : inside.look [provenanceName] = some .directory <;>
        cases disk.fails (.provenance .create) <;> cases disk.fails (.provenance .write) <;>
        cases disk.fails (.provenance .sync) <;> cases disk.fails (.provenance .rename) <;>
        simp [htemp, hprov, cleanUp_error]

theorem look_writeAtomic {inside : Tree} {bytes : Bytes}
    (h : (writeAtomic disk inside bytes).1 = .ok ()) (name : String) (path : List String) :
    (writeAtomic disk inside bytes).2.look (name :: path) =
      if name = provenanceName then if path = [] then some (.file bytes) else none
      else if name = disk.temp then none
      else inside.look (name :: path) := by
  obtain ⟨hsteps, htemp, hprov⟩ := (writeAtomic_ok inside bytes).1 h
  simp only [stampSteps, List.forall_mem_cons] at hsteps
  obtain ⟨hparent, hcreate, hwrite, hsync, hrename, _⟩ := hsteps
  simp only [writeAtomic, hparent, hcreate, hwrite, hsync, hrename, htemp, hprov, if_false,
    DirTree.look_put_file, DirTree.look_erase]
  grind

/-- What `fill` needs beside a recipe that can be copied. -/
theorem fill_ok (source : Node String Bytes) :
    (fill formats disk source).1 = .ok () ↔
      copyable (recipe source) = true ∧
        (∀ step ∈ recipeSteps source ++ stampSteps, disk.fails step = none) ∧
        (recipe source).look [disk.temp] ≠ some .directory ∧
        (recipe source).look [provenanceName] ≠ some .directory := by
  have hcopy := @copyRecipe_ok disk source
  rw [List.forall_mem_append]
  rcases hrecipe : copyRecipe disk source with ⟨_ | ⟨⟨⟩⟩, made⟩
  · rw [hrecipe] at hcopy
    simp only [fill, hrecipe, reduceCtorEq, false_iff] at hcopy ⊢
    tauto
  · have hok : (copyRecipe disk source).1 = .ok () := by rw [hrecipe]
    obtain ⟨inside, hmade, hlook⟩ := copyRecipe_made hok
    have hall := hcopy.1 hok
    rw [hrecipe] at hmade
    obtain rfl : made = some (.dir inside) := hmade
    have hwrite := @writeAtomic_ok disk inside (formats.community disk.now)
    rw [hlook, hlook] at hwrite
    simp only [fill, hrecipe]
    tauto

theorem fill_isSome (source : Node String Bytes) :
    (fill formats disk source).2.isSome = true ↔ disk.fails (.makeDir []) = none := by
  rw [← copyRecipe_isSome source]
  unfold fill
  split
  · rename_i h
    simp [h]
  · rfl

/-- A destination that was filled holds the recipe, less a file of the name of the temporary one,
and the provenance. -/
theorem fill_made {source : Node String Bytes} (h : (fill formats disk source).1 = .ok ()) :
    ∃ inside, (fill formats disk source).2 = some (.dir inside) ∧
      inside.look [provenanceName] = some (.file (formats.community disk.now)) ∧
      ∀ name path, name :: path ≠ [provenanceName] →
        inside.look (name :: path) =
          if name = disk.temp then none else (recipe source).look (name :: path) := by
  obtain ⟨hcopyable, hsteps, htemp, hprov⟩ := (fill_ok source).1 h
  rw [List.forall_mem_append] at hsteps
  have hok := (copyRecipe_ok source).2 ⟨hcopyable, hsteps.1⟩
  obtain ⟨inside, hmade, hlook⟩ := copyRecipe_made hok
  have hrecipe : copyRecipe disk source = (.ok (), some (.dir inside)) := Prod.ext hok hmade
  have hwrite : (writeAtomic disk inside (formats.community disk.now)).1 = .ok () :=
    (writeAtomic_ok _ _).2 ⟨hsteps.2, by rwa [hlook], by rwa [hlook]⟩
  refine ⟨(writeAtomic disk inside (formats.community disk.now)).2, by simp [fill, hrecipe], ?_,
    fun name path hne => ?_⟩
  · rw [look_writeAtomic hwrite, if_pos rfl, if_pos rfl]
  · rw [look_writeAtomic hwrite, hlook]
    by_cases hname : name = provenanceName
    · subst hname
      have hpath : path ≠ [] := fun hnil => hne (by rw [hnil])
      rw [if_pos rfl, if_neg hpath, if_neg temp_ne_provenanceName.symm,
        DirTree.look_below hprov hpath]
    · rw [if_neg hname]

end Stamp

/-! ## Installing -/

section Install

variable {formats : Formats} {alphanumeric : Char → Bool} {reserved : Reserved} {disk : Disk}
  {runtimes : Runtimes} {source : Node String Bytes} {shown : String}

theorem slug_ne_empty {id : String} (h : validId id = true) : slug alphanumeric id ≠ "" := by
  intro hslug
  have hnil : id.toList = [] := by
    have := congrArg String.toList hslug
    simpa [slug] using this
  simp [validId, hnil] at h

theorem destination_keep (node : Option (Node String Bytes)) (content : Tree) (name other : String)
    (hother : other ≠ "") :
    Runtimes.destination (some (keep name node content)) other =
      if name = other ∧ node.isSome then node else content.get? other := by
  cases node <;> simp [Runtimes.destination, hother, keep]

theorem destination_getD (runtimes : Runtimes) {name : String} (hname : name ≠ "") :
    runtimes.destination name = (runtimes.getD .nil).get? name := by
  cases runtimes <;> simp [Runtimes.destination, hname, DirTree.Tree.get?]

theorem blocked_false : disk.blocked false = disk := by
  simp [Disk.blocked]

/-- The manifest that was loaded is the one of the recipe. -/
theorem look_of_loadManifest {manifest : Manifest}
    (h : loadManifest formats disk source shown = .ok manifest) :
    ∃ bytes, (recipe source).look [manifestName] = some (.file bytes) ∧
      formats.parse bytes = .ok manifest := by
  unfold loadManifest at h
  cases hsource : manifestFile source with
  | none => simp [hsource] at h
  | some bytes =>
    refine ⟨bytes, ?_, ?_⟩
    · cases source with
      | leaf entry => simpa [recipe, manifestFile, DirTree.Tree.look] using hsource
      | dir inside | linkDir inside =>
        simp only [manifestFile] at hsource
        split at hsource
        · rename_i hlook
          rw [recipe, hlook]
          simpa using hsource
        · cases hsource
    · cases hread : disk.fails .readManifest <;> cases hparse : formats.parse bytes <;> simp_all

/-- A call that does not get as far as changing something. -/
theorem install_of_not_begins
    (h : ¬ Begins formats alphanumeric reserved disk runtimes source shown) :
    ∃ error, install formats alphanumeric reserved disk runtimes source shown =
      (.error error, runtimes) := by
  unfold install
  cases hload : loadManifest formats disk source shown with
  | error error => exact ⟨error, rfl⟩
  | ok manifest =>
    cases hreq : requireInstallable reserved manifest with
    | error error => exact ⟨error, by simp [hreq]⟩
    | ok _ =>
      simp only [hreq]
      split
      · exact ⟨_, rfl⟩
      · rename_i hexists
        cases hmake : disk.fails .makeRuntimes with
        | some error => exact ⟨_, rfl⟩
        | none =>
          -- What is left is a destination that cannot be made, below a directory that is there.
          obtain ⟨content, rfl⟩ : ∃ content, runtimes = some content := by
            refine Option.ne_none_iff_exists'.1 fun hnone => h ?_
            exact ⟨manifest, hload, hreq, by simpa using hexists, hmake, Or.inl hnone⟩
          have hname := @slug_ne_empty alphanumeric _ manifest.allowed
          have hdisk : (disk.blocked (content.get? (slug alphanumeric manifest.id)).isSome).fails
              (.makeDir []) ≠ none := by
            intro hnone
            refine h ⟨manifest, hload, hreq, by simpa using hexists, hmake, Or.inr ?_⟩
            rw [destination_getD _ hname]
            cases hget : content.get? (slug alphanumeric manifest.id) <;> simp_all [Disk.blocked]
          simp only [Option.getD_some]
          rcases hfill : fill formats (disk.blocked
              (content.get? (slug alphanumeric manifest.id)).isSome) source with ⟨result, made⟩
          have hmade : made = none := by
            have := (@fill_isSome _ formats source).not.2 hdisk
            rw [hfill] at this
            simpa using this
          rcases result with error | ⟨⟨⟩⟩
          · exact ⟨.failed error, by simp [hmade, keep]⟩
          · obtain ⟨inside, hinside, _⟩ := fill_made (by rw [hfill])
            rw [hfill, hmade] at hinside
            cases hinside

/-- A call that gets so far fills the destination, and leaves it however that ends. -/
theorem install_of_begins (h : Begins formats alphanumeric reserved disk runtimes source shown) :
    ∃ manifest, loadManifest formats disk source shown = .ok manifest ∧
      slug alphanumeric manifest.id ≠ "" ∧
      install formats alphanumeric reserved disk runtimes source shown =
        ((fill formats disk source).1.map (fun _ => manifest.id) |>.mapError .failed,
          some (keep (slug alphanumeric manifest.id) (fill formats disk source).2
            (runtimes.getD .nil))) ∧
      (runtimes.getD .nil).get? (slug alphanumeric manifest.id) = none ∧
      (runtimes = none ∨ disk.fails (.makeDir []) = none) := by
  obtain ⟨manifest, hload, hreq, hexists, hmake, hplace⟩ := h
  have hname := @slug_ne_empty alphanumeric _ manifest.allowed
  have hget : (runtimes.getD .nil).get? (slug alphanumeric manifest.id) = none := by
    rcases hplace with rfl | ⟨hnone, _⟩
    · rfl
    · rwa [destination_getD _ hname] at hnone
  refine ⟨manifest, hload, hname, ?_, hget, hplace.imp_right And.right⟩
  simp only [install, hload, hreq, hexists, hmake, hget, Option.isSome_none, blocked_false]
  rcases fill formats disk source with ⟨_ | _, made⟩ <;> rfl

/-- A runtime whose destination was filled to the end is whole just when the recipe has no file of
the name of the temporary one. -/
theorem whole_iff {manifest : Manifest} {content : Tree}
    (hload : loadManifest formats disk source shown = .ok manifest)
    (hname : slug alphanumeric manifest.id ≠ "") (hok : (fill formats disk source).1 = .ok ()) :
    Whole formats source (slug alphanumeric manifest.id) manifest.id
        (some (keep (slug alphanumeric manifest.id) (fill formats disk source).2 content)) ↔
      (recipe source).look [disk.temp] = none := by
  obtain ⟨inside, hmade, hprov, hlook⟩ := fill_made hok
  have hplace : Runtimes.destination (some (keep (slug alphanumeric manifest.id)
      (fill formats disk source).2 content)) (slug alphanumeric manifest.id) =
        some (.dir inside) := by
    rw [destination_keep _ _ _ _ hname, hmade]
    simp
  constructor
  · rintro ⟨inside', hinside', _, _, hall⟩
    obtain rfl : inside = inside' := by simpa using hplace.symm.trans hinside'
    have hne : [disk.temp] ≠ [provenanceName] := by simpa using temp_ne_provenanceName
    rw [← hall _ hne, hlook _ _ hne, if_pos rfl]
  · intro htemp
    have hall (path : List String) (hpath : path ≠ [provenanceName]) :
        inside.look path = (recipe source).look path := by
      cases path with
      | nil => simp
      | cons name path =>
        rw [hlook _ _ hpath]
        split
        · rename_i hname
          rw [hname, DirTree.look_eq_none htemp]
        · rfl
    refine ⟨inside, hplace, ?_, ?_, hall⟩
    · simp [Formats.isCommunity, Formats.provenance, hprov, formats.origin_community]
    · obtain ⟨bytes, hbytes, hparse⟩ := look_of_loadManifest hload
      have hne : [manifestName] ≠ [provenanceName] := by decide
      simp [Formats.manifestId, hall _ hne, hbytes, hparse, Except.toOption]

theorem completes_iff : Completes disk source ↔
    (fill formats disk source).1 = .ok () ∧ (recipe source).look [disk.temp] = none := by
  rw [fill_ok]
  constructor
  · rintro ⟨hcopyable, hsteps, hprov, htemp⟩
    exact ⟨⟨hcopyable, hsteps, by simp [htemp], hprov⟩, htemp⟩
  · rintro ⟨⟨hcopyable, hsteps, _, hprov⟩, htemp⟩
    exact ⟨hcopyable, hsteps, hprov, htemp⟩

theorem installExact_iff :
    InstallExact runtimes source formats alphanumeric
        (install formats alphanumeric reserved disk runtimes source shown) ↔
      (Begins formats alphanumeric reserved disk runtimes source shown →
        Completes disk source) := by
  by_cases hbegins : Begins formats alphanumeric reserved disk runtimes source shown
  · obtain ⟨manifest, hload, hname, hinstall, hget, hmake⟩ := install_of_begins hbegins
    rw [hinstall, @completes_iff formats]
    simp only [hbegins, true_implies]
    cases hfill : (fill formats disk source).1 with
    | error error =>
      -- Something was made, and it stays.
      refine iff_of_false (fun hexact => ?_) (fun h => by simp at h)
      have hsame := hexact.err (.failed error) rfl
      rcases hmake with rfl | hmake
      · simp at hsame
      · have hsome := (@fill_isSome _ formats source).2 hmake
        have hat := destination_keep (fill formats disk source).2 (runtimes.getD .nil)
          (slug alphanumeric manifest.id) _ hname
        simp only at hsame
        rw [hsame, destination_getD _ hname, hget, if_pos ⟨rfl, hsome⟩] at hat
        simp [← hat] at hsome
    | ok _ =>
      have hwhole := @whole_iff _ _ _ _ _ _ (runtimes.getD .nil) hload hname hfill
      simp only [true_and]
      rw [← hwhole]
      constructor
      · intro hexact
        exact (hexact.ok manifest.id rfl).1
      · intro h
        refine ⟨fun error herror => (by cases herror), fun id hid => ?_⟩
        obtain rfl : manifest.id = id := Except.ok.inj hid
        refine ⟨h, fun other hother hempty => ?_⟩
        rw [destination_keep _ _ _ _ hempty, if_neg fun h => hother h.1.symm,
          destination_getD _ hempty]
  · obtain ⟨error, herror⟩ := install_of_not_begins hbegins
    rw [herror]
    refine iff_of_true ⟨fun _ _ => rfl, fun id hid => ?_⟩ fun h => absurd h hbegins
    cases hid

end Install

/-! ## Uninstalling -/

section Uninstall

variable {formats : Formats} {alphanumeric : Char → Bool} {disk : Disk} {runtimes : Runtimes}
  {id : String}

theorem destination_map_erase (runtimes : Runtimes) {name other : String} (hother : other ≠ "") :
    Runtimes.destination (runtimes.map (·.erase name)) other =
      if name = other then none else runtimes.destination other := by
  cases runtimes <;> simp [Runtimes.destination, hother, DirTree.get?_erase]

theorem destination_map_replace (runtimes : Runtimes) {name other : String}
    (node : Node String Bytes) (hother : other ≠ "") :
    Runtimes.destination (runtimes.map (·.replace name node)) other =
      if name = other ∧ (runtimes.destination name).isSome then some node
      else runtimes.destination other := by
  cases runtimes with
  | none => simp [Runtimes.destination]
  | some content =>
    by_cases hname : name = other
    · simp [Runtimes.destination, hother, hname, DirTree.get?_replace]
    · simp [Runtimes.destination, hother, hname, DirTree.get?_replace]

/-- Only the name changes, and it does when something is deleted. -/
theorem removeDirAll_spec {name : String} {node : Node String Bytes} (hname : name ≠ "")
    (hnode : runtimes.destination name = some node) :
    ((removeDirAll disk runtimes name node).2 ≠ runtimes ↔ deletes disk node = true) ∧
      Spares name runtimes (removeDirAll disk runtimes name node).2 := by
  have herased : runtimes.map (·.erase name) ≠ runtimes := by
    intro h
    have := @destination_map_erase runtimes name _ hname
    rw [h, hnode, if_pos rfl] at this
    cases this
  have hspares : Spares name runtimes (runtimes.map (·.erase name)) := by
    intro other hother hempty
    rw [destination_map_erase _ hempty, if_neg hother.symm]
  cases node with
  | leaf entry | linkDir inside =>
    cases hunlink : disk.fails (.remove (.unlink [])) with
    | some error => simp [removeDirAll, deletes, hunlink, Spares]
    | none => simp [removeDirAll, deletes, hunlink, herased, hspares]
  | dir inside =>
    have hstays := @DirTree.removeAll_eq_some_self _ _ _ (fun step => disk.fails (.remove step))
      inside []
    simp only [removeDirAll, deletes, hname, if_false]
    rcases hleft : inside.removeAll (fun step => disk.fails (.remove step)) [] with
      ⟨result, _ | left⟩
    · rw [hleft] at hstays
      simp only [reduceCtorEq, false_iff, Bool.not_eq_true] at hstays
      simp [hstays, herased, hspares]
    · rw [hleft] at hstays
      simp only [Option.some.injEq] at hstays
      refine ⟨?_, fun other hother hempty => ?_⟩
      · have hreplaced : runtimes.map (·.replace name (.dir left)) = runtimes ↔ left = inside := by
          constructor
          · intro h
            have := @destination_map_replace runtimes name _ (.dir left) hname
            rw [h, hnode] at this
            simpa using this.symm
          · rintro rfl
            cases runtimes with
            | none => rfl
            | some content =>
              have hget : content.get? name = some (.dir left) := by
                simpa [Runtimes.destination, hname] using hnode
              rw [Option.map_some, DirTree.replace_self hget]
        simp only [ne_eq, hreplaced, hstays, Bool.not_eq_true', Bool.not_eq_true]
      · rw [destination_map_replace _ _ hempty, if_neg fun h => hother h.1.symm]

theorem validId_of_manifestId {inside : Tree} (h : formats.manifestId inside = some id) :
    validId id = true := by
  unfold Formats.manifestId at h
  split at h
  · rename_i bytes _
    cases hparse : formats.parse bytes with
    | error error => simp [hparse, Except.toOption] at h
    | ok manifest =>
      obtain rfl : manifest.id = id := by simpa [hparse, Except.toOption] using h
      exact manifest.allowed
  · cases h

/-- The slug of the empty id leads to `runtimes.d` itself. -/
theorem removeDirAll_empty {node : Node String Bytes}
    (hnode : runtimes.destination "" = some node) :
    (removeDirAll disk runtimes "" node).2 ≠ runtimes ↔ deletes disk node = true := by
  cases runtimes with
  | none => cases hnode
  | some content =>
    obtain rfl : .dir content = node := Option.some.inj hnode
    have hstays := @DirTree.removeAll_eq_some_self _ _ _ (fun step => disk.fails (.remove step))
      content []
    simp only [removeDirAll, deletes, if_true, Bool.not_eq_true', ← Bool.not_eq_true, ← hstays]

theorem uninstall_after {node : Node String Bytes} {inside : Tree}
    (hnode : runtimes.destination (slug alphanumeric id) = some node)
    (hinside : node.inside = some inside) (hcommunity : formats.isCommunity inside = true) :
    (uninstall formats alphanumeric disk runtimes id).2 =
      (removeDirAll disk runtimes (slug alphanumeric id) node).2 := by
  have hleads : node.leads = true := by
    rcases node with entry | _ | _
    · cases hinside
    · rfl
    · rfl
  simp only [uninstall, hnode, hleads, hinside, Option.any_some, hcommunity]
  rcases removeDirAll disk runtimes (slug alphanumeric id) node with ⟨_ | _, after⟩ <;> rfl

/-- What is refused stays. -/
theorem uninstall_refused
    (h : ∀ node inside, runtimes.destination (slug alphanumeric id) = some node →
      node.inside = some inside → formats.isCommunity inside = false) :
    (uninstall formats alphanumeric disk runtimes id).2 = runtimes := by
  unfold uninstall
  cases hnode : runtimes.destination (slug alphanumeric id) with
  | none => simp only [hnode]
  | some node =>
    have hany : node.inside.any formats.isCommunity = false := by
      cases hinside : node.inside with
      | none => rfl
      | some inside => exact h node inside hnode hinside
    simp only [hnode, hany, if_true]
    split <;> rfl

theorem uninstallExact_iff :
    UninstallExact runtimes formats alphanumeric id
        (uninstall formats alphanumeric disk runtimes id).2 ↔
      SameId formats alphanumeric disk runtimes id := by
  constructor
  · intro hexact node inside hnode hinside hcommunity hdeletes
    have hchanged : (uninstall formats alphanumeric disk runtimes id).2 ≠ runtimes := by
      rw [uninstall_after hnode hinside hcommunity]
      by_cases hname : slug alphanumeric id = ""
      · rw [hname] at hnode ⊢
        exact (removeDirAll_empty hnode).2 hdeletes
      · exact (removeDirAll_spec hname hnode).1.2 hdeletes
    obtain ⟨⟨node', inside', hnode', hinside', hid, _⟩, _⟩ := hexact hchanged
    obtain rfl : node = node' := Option.some.inj (hnode.symm.trans hnode')
    obtain rfl : inside = inside' := Option.some.inj (hinside.symm.trans hinside')
    exact hid
  · intro hsame hchanged
    obtain ⟨node, inside, hnode, hinside, hcommunity⟩ : ∃ node inside,
        runtimes.destination (slug alphanumeric id) = some node ∧ node.inside = some inside ∧
          formats.isCommunity inside = true := by
      by_contra hnot
      refine hchanged (uninstall_refused fun node inside hnode hinside => ?_)
      by_contra hcommunity
      exact hnot ⟨node, inside, hnode, hinside, by simpa using hcommunity⟩
    rw [uninstall_after hnode hinside hcommunity] at hchanged ⊢
    by_cases hname : slug alphanumeric id = ""
    · have hid := hsame node inside hnode hinside hcommunity
        ((removeDirAll_empty (hname ▸ hnode)).1 (hname ▸ hchanged))
      exact absurd hname (slug_ne_empty (validId_of_manifestId hid))
    · obtain ⟨hdeletes, hspares⟩ := @removeDirAll_spec disk _ _ _ hname hnode
      exact ⟨⟨node, inside, hnode, hinside,
        hsame node inside hnode hinside hcommunity (hdeletes.1 hchanged), hcommunity⟩, hspares⟩

end Uninstall

/-- Installing is exact but for a step that fails once something is made, and uninstalling but for a
runtime with another id and the same slug. -/
theorem community_runtimes_exact (formats : Formats) (alphanumeric : Char → Bool)
    (reserved : Reserved) (disk : Disk) (runtimes : Runtimes) (source : Node String Bytes)
    (shown id : String) :
    (InstallExact runtimes source formats alphanumeric
        (install formats alphanumeric reserved disk runtimes source shown) ↔
      (Begins formats alphanumeric reserved disk runtimes source shown → Completes disk source)) ∧
    (UninstallExact runtimes formats alphanumeric id
        (uninstall formats alphanumeric disk runtimes id).2 ↔
      SameId formats alphanumeric disk runtimes id) :=
  ⟨installExact_iff, uninstallExact_iff⟩

/-! ## A copy that fails, and two ids with one slug -/

def ascii (text : String) : Bytes := text.toList.map fun c => UInt8.ofNat c.toNat

def coolManifest (id : String) : Bytes :=
  ascii ("id = \"" ++ id ++ "\"\ncapabilities = [\"chat\"]\nexecution = \"sync\"\n" ++
    "detect.extension = \"gguf\"\n[invoke]\ncommand = \"run\"\n" ++
    "[vm]\nimage = \"ghcr.io/hedos/ubuntu@sha256:0123456789abcdef\"\n")

def communityStart : Bytes := ascii "\x7b\n  \"origin\": \"community\",\n  \"installed_at\": "

def coolFormats : Formats where
  parse bytes :=
    if bytes = coolManifest "cool.runtime" then .ok ⟨"cool.runtime", true, by decide⟩
    else if bytes = coolManifest "cool-runtime" then .ok ⟨"cool-runtime", true, by decide⟩
    else .error "manifest is missing an id"
  community now := communityStart ++ ascii (toString now ++ "\n\x7d")
  origin bytes := if communityStart.isPrefixOf bytes then some "community" else none
  origin_community now := by simp

def coolSource (id : String) : Node String Bytes :=
  .dir (.leaf "manifest.toml" (.file (coolManifest id))
    (.dir "weights" (.leaf "tokens.txt" (.file (ascii "a b")) .nil) .nil))

def goodDisk : Disk where
  fails _ := none
  left _ := none
  suffix := "7-1700000000000-0"
  now := 1700000000000

/-- The disk is full at the second file. -/
def fullDisk : Disk :=
  { goodDisk with
    fails := fun step =>
      if step = .copy ["weights", "tokens.txt"] then some "No space left on device (os error 28)"
      else none }

def coolInstall (disk : Disk) (runtimes : Runtimes) (id : String) :
    Except ManifestError String × Runtimes :=
  install coolFormats Char.isAlphanum [] disk runtimes (coolSource id) "/recipes/cool"

/-! The manifests as bytes, for what is evaluated below. -/

/-- What follows the id in a manifest. -/
def manifestRest : List UInt8 :=
  [34, 10, 99, 97, 112, 97, 98, 105, 108, 105, 116, 105, 101, 115, 32, 61, 32, 91, 34, 99, 104,
  97, 116, 34, 93, 10, 101, 120, 101, 99, 117, 116, 105, 111, 110, 32, 61, 32, 34, 115, 121, 110,
  99, 34, 10, 100, 101, 116, 101, 99, 116, 46, 101, 120, 116, 101, 110, 115, 105, 111, 110, 32,
  61, 32, 34, 103, 103, 117, 102, 34, 10, 91, 105, 110, 118, 111, 107, 101, 93, 10, 99, 111, 109,
  109, 97, 110, 100, 32, 61, 32, 34, 114, 117, 110, 34, 10, 91, 118, 109, 93, 10, 105, 109, 97,
  103, 101, 32, 61, 32, 34, 103, 104, 99, 114, 46, 105, 111, 47, 104, 101, 100, 111, 115, 47, 117,
  98, 117, 110, 116, 117, 64, 115, 104, 97, 50, 53, 54, 58, 48, 49, 50, 51, 52, 53, 54, 55, 56,
  57, 97, 98, 99, 100, 101, 102, 34, 10]

def manifestBytes (id : List UInt8) : List UInt8 :=
  [105, 100, 32, 61, 32, 34] ++ (id ++ manifestRest)

def dashed : List UInt8 := manifestBytes [99, 111, 111, 108, 45, 114, 117, 110, 116, 105, 109, 101]

def dotted : List UInt8 := manifestBytes [99, 111, 111, 108, 46, 114, 117, 110, 116, 105, 109, 101]

set_option maxRecDepth 4000 in
theorem coolManifest_eq (id : String) : coolManifest id = manifestBytes (ascii id) := by
  simp [coolManifest, ascii, manifestBytes, manifestRest]

theorem coolManifest_dash : coolManifest "cool-runtime" = dashed := by
  rw [coolManifest_eq]
  simp [ascii, dashed]

theorem coolManifest_dot : coolManifest "cool.runtime" = dotted := by
  rw [coolManifest_eq]
  simp [ascii, dotted]

theorem coolFormats_eq :
    coolFormats =
      { coolFormats with
        parse := fun bytes =>
          if bytes = dotted then .ok ⟨"cool.runtime", true, by decide⟩
          else if bytes = dashed then .ok ⟨"cool-runtime", true, by decide⟩
          else .error "manifest is missing an id" } := by
  rw [← coolManifest_dash, ← coolManifest_dot]
  rfl

theorem coolInstall_half :
    coolInstall fullDisk none "cool-runtime" =
      (.error (.failed "No space left on device (os error 28)"),
        some (.dir "cool-runtime"
          (.leaf "manifest.toml" (.file dashed) (.dir "weights" .nil .nil)) .nil)) := by
  rw [coolInstall, coolFormats_eq, coolSource, coolManifest_dash]
  decide +kernel

theorem coolInstall_whole :
    coolInstall goodDisk none "cool.runtime" =
      (.ok "cool.runtime",
        some (.dir "cool-runtime"
          (.leaf ".provenance.json" (.file (coolFormats.community goodDisk.now))
            (.leaf "manifest.toml" (.file dotted)
              (.dir "weights" (.leaf "tokens.txt" (.file (ascii "a b")) .nil) .nil))) .nil)) := by
  rw [coolInstall, coolFormats_eq, coolSource, coolManifest_dot]
  decide +kernel

/-- The half of a runtime that stays can be neither installed again nor removed, and a runtime is
removed under an id that is not its own. -/
theorem cool_runtimes_are_not_exact :
    ¬ InstallExact none (coolSource "cool-runtime") coolFormats Char.isAlphanum
        (coolInstall fullDisk none "cool-runtime") ∧
    (coolInstall goodDisk (coolInstall fullDisk none "cool-runtime").2 "cool-runtime").1 =
      .error (.failed "a runtime named cool-runtime is already installed") ∧
    (uninstall coolFormats Char.isAlphanum goodDisk
        (coolInstall fullDisk none "cool-runtime").2 "cool-runtime").1 =
      .error (.failed
        "cool-runtime was not installed by Hedos; remove it by hand from runtimes.d") ∧
    (coolInstall goodDisk none "cool.runtime").1 = .ok "cool.runtime" ∧
    uninstall coolFormats Char.isAlphanum goodDisk (coolInstall goodDisk none "cool.runtime").2
      "cool-runtime" = (.ok (), some .nil) ∧
    ¬ UninstallExact (coolInstall goodDisk none "cool.runtime").2 coolFormats Char.isAlphanum
        "cool-runtime" (uninstall coolFormats Char.isAlphanum goodDisk
          (coolInstall goodDisk none "cool.runtime").2 "cool-runtime").2 := by
  rw [coolInstall_half, coolInstall_whole]
  refine ⟨fun h => ?_, ?_, ?_, rfl, ?_, fun h => ?_⟩
  · have hsame := h.err (.failed "No space left on device (os error 28)") rfl
    exact absurd hsame (by decide +kernel)
  · rw [coolInstall, coolFormats_eq, coolSource, coolManifest_dash]
    decide +kernel
  · rw [coolFormats_eq]
    decide +kernel
  · rw [coolFormats_eq]
    decide +kernel
  · obtain ⟨⟨node, inside, hnode, hinside, hid, _⟩, _⟩ := h (by
      rw [coolFormats_eq]
      decide +kernel)
    have hother : ∀ node, Runtimes.destination (coolInstall goodDisk none "cool.runtime").2
        (slug Char.isAlphanum "cool-runtime") = some node →
        node.inside.bind coolFormats.manifestId = some "cool.runtime" := by
      intro node hnode
      have : ((Runtimes.destination (coolInstall goodDisk none "cool.runtime").2
          (slug Char.isAlphanum "cool-runtime")).bind Node.inside).bind coolFormats.manifestId =
            some "cool.runtime" := by
        rw [coolInstall_whole, coolFormats_eq]
        decide +kernel
      simpa [hnode] using this
    rw [coolInstall_whole] at hother
    have := hother node hnode
    rw [hinside, Option.bind_some, hid] at this
    exact absurd this (by decide)

end Hedos.Manifests.Community
