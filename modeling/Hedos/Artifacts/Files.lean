import Hedos.Artifacts.Store
import Mathlib.Data.List.Infix

/-!
# What the operations of the artifact store do to its files

Names first: an output with a plain extension is never named like a sidecar, and two outputs
with one name have the same contents. Then what is read after each operation
(`read_writeFiles`, `delete_eq_some`), and that new ids are fresh (`uniqueId_fresh`).
-/

namespace Hedos.Artifacts

variable {ν : Type}

/-- The extension does not give the output the name of a sidecar. -/
def PlainExtension (ext : Text) : Prop := '/' ∉ ext ∧ ¬ ".json".toList <:+ '.' :: ext

instance (ext : Text) : Decidable (PlainExtension ext) :=
  inferInstanceAs (Decidable (_ ∧ _))

/-- What the store relies on: the digest has twelve digits, and they tell the contents in `D`
apart; `serde_json` reads an artifact with parameters in `V` back; an underscore is no letter. -/
structure Env.Sound (env : Env ν) (D : Set Bytes) (V : Set ν) : Prop where
  digits : ∀ data, 12 ≤ (env.digest data).length
  collisionFree : Set.InjOn (fun data => (env.digest data).take 12) D
  roundTrip : ∀ a, a.params ∈ V → env.fromSlice (env.toVecPretty a) = some a
  underscore : env.isAlphanumeric '_' = false

/-! ## Names -/

theorem extension_eq_some {name ext : Text} (h : extension name = some ext) :
    '.' :: ext <:+ name := by
  rw [extension] at h
  split at h
  · simp at h
  · split at h
    · rename_i c d rest hdrop
      simp only [Option.some.injEq] at h
      have hdot : c = '.' := by
        have hhead := List.head?_dropWhile_not (fun c => decide (c ≠ '.')) name.reverse
        rw [hdrop] at hhead
        simpa using hhead
      have hsplit := List.takeWhile_append_dropWhile (p := fun c => decide (c ≠ '.'))
        (l := name.reverse)
      rw [hdrop, hdot] at hsplit
      refine ⟨(d :: rest).reverse, ?_⟩
      rw [← h]
      have hrev := congrArg List.reverse hsplit
      simpa using hrev
    · simp at h

/-- A sidecar has the extension the scan looks for. -/
theorem extension_append_json (name : Text) (hname : name ≠ []) :
    extension (name ++ ".json".toList) = some "json".toList := by
  obtain ⟨init, c, rfl⟩ := List.eq_nil_or_concat name |>.resolve_left hname
  have hne : init.concat c ++ ".json".toList ≠ ['.', '.'] := by
    intro h
    have hlen := congrArg List.length h
    simp at hlen
  rw [extension, if_neg hne]
  simp

/-- An output with a plain extension is not named like a sidecar. -/
theorem not_json_of_plain (slug hash : Text) {ext : Text} (h : PlainExtension ext) :
    ¬ ".json".toList <:+ outputName slug hash ext := by
  intro hsuffix
  have hext : '.' :: ext <:+ outputName slug hash ext :=
    ⟨slug ++ '_' :: hash.take 12, by simp [outputName]⟩
  rcases Nat.le_total ".json".toList.length ('.' :: ext).length with hle | hle
  · exact h.2 (List.suffix_of_suffix_length_le hsuffix hext hle)
  · -- a dot further right than the one of `.json` stands inside `json`
    have hshort := List.suffix_of_suffix_length_le hext hsuffix hle
    obtain ⟨front, hfront⟩ := hshort
    cases front with
    | nil =>
      rw [List.nil_append] at hfront
      rw [PlainExtension, hfront] at h
      exact h.2 List.suffix_rfl
    | cons c front =>
      have htail : front ++ '.' :: ext = "json".toList := by
        have := congrArg List.tail hfront
        simpa using this
      have hdot : '.' ∈ "json".toList := by
        rw [← htail]
        simp
      exact absurd hdot (by decide)

theorem slug_ne_nil (env : Env ν) (name : Text) : slug env name ≠ [] := by
  unfold slug
  simp only
  split
  · decide
  · rename_i hkept
    simpa using hkept

variable {env : Env ν}

theorem underscore_notMem_slug (h : env.isAlphanumeric '_' = false) (name : Text) :
    '_' ∉ slug env name := by
  unfold slug
  simp only
  split
  · decide
  · intro hmem
    have hkept := (List.mem_filter.1 (List.mem_of_mem_take hmem)).2
    rw [h] at hkept
    exact absurd hkept (by decide)

theorem split_at_first {a b x y : Text} {c : Char} (ha : c ∉ a) (hb : c ∉ b)
    (h : a ++ c :: x = b ++ c :: y) : a = b ∧ x = y := by
  induction a generalizing b with
  | nil =>
    cases b with
    | nil => simpa using h
    | cons d b =>
      simp only [List.nil_append, List.cons_append, List.cons.injEq] at h
      exact absurd (by simp [h.1]) hb
  | cons e a ih =>
    cases b with
    | nil =>
      simp only [List.nil_append, List.cons_append, List.cons.injEq] at h
      exact absurd (by simp [h.1]) ha
    | cons d b =>
      simp only [List.cons_append, List.cons.injEq] at h
      obtain ⟨hab, hxy⟩ := ih (fun hm => ha (.tail _ hm)) (fun hm => hb (.tail _ hm)) h.2
      exact ⟨by rw [h.1, hab], hxy⟩

/-- Two drafts with one output path have the same contents. -/
theorem data_eq_of_outputPath {D : Set Bytes} {V : Set ν} (henv : env.Sound D V)
    {draft draft' : ArtifactDraft ν} {time time' : ℤ} (hdata : draft.data ∈ D)
    (hdata' : draft'.data ∈ D) (h : outputPath env draft time = outputPath env draft' time') :
    draft.data = draft'.data := by
  have hname := congrArg Path.name h
  obtain ⟨-, hrest⟩ := split_at_first (underscore_notMem_slug henv.underscore _)
    (underscore_notMem_slug henv.underscore _) hname
  apply henv.collisionFree hdata hdata'
  have hlen : ((env.digest draft.data).take 12).length =
      ((env.digest draft'.data).take 12).length := by
    rw [List.length_take_of_le (henv.digits _), List.length_take_of_le (henv.digits _)]
  exact (List.append_inj hrest hlen).1

theorem preview_eq_of_previewPath {D : Set Bytes} {V : Set ν} (henv : env.Sound D V)
    {preview preview' : Bytes} (hmem : preview ∈ D) (hmem' : preview' ∈ D)
    (h : previewPath env preview = previewPath env preview') : preview = preview' := by
  apply henv.collisionFree hmem hmem'
  have hname : env.digest preview = env.digest preview' := congrArg Path.name h
  simp only [hname]

/-! ## Fresh ids -/

theorem numbered_injective (base : Text) : Function.Injective (numbered base) := by
  intro m n h
  have hdigits : Nat.toDigits 10 m = Nat.toDigits 10 n := by simpa [numbered] using h
  have hm := Nat.ofDigitChars_toDigits (b := 10) (n := m) (by decide) (by decide)
  have hn := Nat.ofDigitChars_toDigits (b := 10) (n := n) (by decide) (by decide)
  rw [← hm, ← hn, hdigits]

/-- The loop finds a free id unless every id it tries is taken. -/
theorem nextFree_free {taken : Text → Bool} {base : Text} {tries counter : ℕ}
    (h : ∃ k ≤ tries, taken (numbered base (counter + k)) = false) :
    taken (nextFree taken base tries counter) = false := by
  induction tries generalizing counter with
  | zero =>
    obtain ⟨k, hk, hfree⟩ := h
    obtain rfl : k = 0 := by omega
    exact hfree
  | succ tries ih =>
    rw [nextFree]
    split
    · rename_i htaken
      obtain ⟨k, hk, hfree⟩ := h
      cases k with
      | zero => simp [htaken] at hfree
      | succ k =>
        refine ih ⟨k, by omega, ?_⟩
        rw [← hfree]
        congr 2
        omega
    · rename_i hfree
      simpa using hfree

/-- There are more candidates than ids in use. -/
theorem free_of_more_candidates (taken : Text → Bool) {keys : List Text} {tries : ℕ}
    (htaken : ∀ id, taken id = true → id ∈ keys) (htries : keys.length ≤ tries) (base : Text) :
    taken (if taken base then nextFree taken base tries 2 else base) = false := by
  split
  · apply nextFree_free
    by_contra hall
    push Not at hall
    -- every candidate would be a key of its own
    have hsub : (List.range (tries + 1)).map (fun k => numbered base (2 + k)) ⊆ keys := by
      intro id hid
      obtain ⟨k, hk, rfl⟩ := List.mem_map.1 hid
      have hused := hall k (by simpa [Nat.lt_succ_iff] using hk)
      exact htaken _ (by simpa using hused)
    have hinj : Function.Injective fun k => numbered base (2 + k) := by
      intro m n h
      have hadd := numbered_injective base h
      omega
    have hnodup := List.nodup_range (n := tries + 1) |>.map hinj
    have hlen := (List.subperm_of_subset hnodup hsub).length_le
    simp only [List.length_map, List.length_range] at hlen
    omega
  · rename_i hfree
    simpa using hfree

theorem uniqueId_fresh (env : Env ν) (artifacts : AList fun _ : Text => Artifact ν)
    (slug hash jobId : Text) : uniqueId env artifacts slug hash jobId ∉ artifacts := by
  have hkeys : artifacts.keys.length ≤ artifacts.entries.length := by
    simp [AList.keys, List.keys]
  have hfree := free_of_more_candidates (fun id => (artifacts.lookup id).isSome)
    (fun id hid => AList.mem_keys.1 (AList.lookup_isSome.1 hid)) hkeys
    (slug ++ '_' :: (hash.take 12 ++ '_' :: env.toLowercase (jobId.take 8)))
  intro hmem
  have hsome : (artifacts.lookup (uniqueId env artifacts slug hash jobId)).isSome = true :=
    AList.lookup_isSome.2 hmem
  exact absurd (hsome.symm.trans hfree) (by decide)

theorem uniqueId_ne_nil (env : Env ν) (artifacts : AList fun _ : Text => Artifact ν)
    (name hash jobId : Text) : uniqueId env artifacts (slug env name) hash jobId ≠ [] := by
  have hslug := slug_ne_nil env name
  have hnext : ∀ (taken : Text → Bool) (base : Text), base ≠ [] → ∀ tries counter,
      nextFree taken base tries counter ≠ [] := by
    intro taken base hbase tries
    induction tries with
    | zero => simp [nextFree, numbered]
    | succ tries ih =>
      intro counter
      rw [nextFree]
      split
      · exact ih _
      · simp [numbered]
  unfold uniqueId
  simp only
  split
  · exact hnext _ _ (by simp) _ _
  · simp

/-! ## Reading after writing -/

namespace State

variable (s : State ν)

@[simp] theorem read_writeAtomic (path path' : Path) (bytes : Bytes) :
    (s.writeAtomic path bytes).read path' = if path' = path then some bytes else s.read path' := by
  unfold read writeAtomic
  split
  · rename_i h
    rw [h, AList.lookup_insert]
  · rename_i h
    exact AList.lookup_insert_ne h

@[simp] theorem read_removeIfPresent (path path' : Path) :
    (s.removeIfPresent path).read path' = if path' = path then none else s.read path' := by
  unfold read removeIfPresent
  split
  · rename_i h
    rw [h, AList.lookup_erase]
  · rename_i h
    exact AList.lookup_erase_ne h

theorem read_writeIfAbsent (data : Bytes) (path path' : Path) :
    (s.writeIfAbsent data path).read path' =
      if path' = path then some ((s.read path).getD data) else s.read path' := by
  unfold writeIfAbsent
  cases hread : s.read path with
  | none => simp
  | some bytes =>
    simp only [Option.isSome_some, if_true, Option.getD_some]
    split
    · rename_i h
      rw [h, hread]
    · rfl

@[simp] theorem writeIfAbsent_artifacts (data : Bytes) (path : Path) :
    (s.writeIfAbsent data path).artifacts = s.artifacts := by
  unfold writeIfAbsent
  split <;> rfl

@[simp] theorem writeIfAbsent_stored (data : Bytes) (path : Path) :
    (s.writeIfAbsent data path).stored = s.stored := by
  unfold writeIfAbsent
  split <;> rfl

@[simp] theorem writeIfAbsent_loaded (data : Bytes) (path : Path) :
    (s.writeIfAbsent data path).loaded = s.loaded := by
  unfold writeIfAbsent
  split <;> rfl

theorem mem_values {s : State ν} {a : Artifact ν} :
    a ∈ s.values ↔ ∃ id, s.artifacts.lookup id = some a := by
  unfold values
  constructor
  · intro h
    obtain ⟨entry, hentry, rfl⟩ := List.mem_map.1 h
    exact ⟨entry.1, AList.mem_lookup_iff.2 hentry⟩
  · rintro ⟨id, hid⟩
    exact List.mem_map.2 ⟨⟨id, a⟩, AList.mem_lookup_iff.1 hid, rfl⟩

end State

/-! ## The files of a draft -/

@[simp] theorem writeFiles_artifacts (env : Env ν) (draft : ArtifactDraft ν) (time : ℤ)
    (s : State ν) : (s.writeFiles env draft time).artifacts = s.artifacts := by
  unfold State.writeFiles
  cases draft.preview <;> simp

@[simp] theorem writeFiles_stored (env : Env ν) (draft : ArtifactDraft ν) (time : ℤ)
    (s : State ν) : (s.writeFiles env draft time).stored = s.stored := by
  unfold State.writeFiles
  cases draft.preview <;> simp

@[simp] theorem writeFiles_loaded (env : Env ν) (draft : ArtifactDraft ν) (time : ℤ)
    (s : State ν) : (s.writeFiles env draft time).loaded = s.loaded := by
  unfold State.writeFiles
  cases draft.preview <;> simp

/-- What is read once the files of a draft are written: what was there before stays. -/
theorem read_writeFiles (env : Env ν) (draft : ArtifactDraft ν) (time : ℤ) (s : State ν)
    (path : Path) : (s.writeFiles env draft time).read path =
      if path = outputPath env draft time then some ((s.read path).getD draft.data)
      else if draft.preview.map (previewPath env) = some path then
        some ((s.read path).getD (draft.preview.getD []))
      else s.read path := by
  have hne : ∀ preview, previewPath env preview ≠ outputPath env draft time := by
    intro preview h
    cases congrArg Path.dir h
  unfold State.writeFiles
  cases draft.preview with
  | none =>
    simp only [State.read_writeIfAbsent, Option.map_none, reduceCtorEq, if_false]
    split
    · rename_i h
      rw [h]
    · rfl
  | some preview =>
    simp only [State.read_writeIfAbsent, Option.map_some, Option.some.injEq, Option.getD_some,
      if_neg (hne preview)]
    by_cases hpath : path = previewPath env preview
    · subst hpath
      simp [hne preview]
    · rw [if_neg hpath, if_neg (Ne.symm hpath)]
      split
      · rename_i h
        rw [h]
      · rfl

theorem read_writeFiles_of_some {draft : ArtifactDraft ν} {time : ℤ} {s : State ν}
    {path : Path} {bytes : Bytes} (h : s.read path = some bytes) :
    (s.writeFiles env draft time).read path = some bytes := by
  rw [read_writeFiles, h]
  simp

/-! ## The files of a deleted artifact -/

section

variable (s : State ν) (shared : Artifact ν → Bool) (path : Path)

@[simp] theorem removeUnshared_artifacts :
    (s.removeUnshared shared path).artifacts = s.artifacts := by
  unfold State.removeUnshared
  split <;> rfl

@[simp] theorem removeUnshared_stored : (s.removeUnshared shared path).stored = s.stored := by
  unfold State.removeUnshared
  split <;> rfl

@[simp] theorem removeUnshared_loaded : (s.removeUnshared shared path).loaded = s.loaded := by
  unfold State.removeUnshared
  split <;> rfl

@[simp] theorem removeUnshared_values : (s.removeUnshared shared path).values = s.values := by
  rw [State.values, State.values, removeUnshared_artifacts]

theorem read_removeUnshared (path' : Path) : (s.removeUnshared shared path).read path' =
    if path' = path ∧ ∀ b ∈ s.values, shared b = false then none else s.read path' := by
  unfold State.removeUnshared
  by_cases hany : s.values.any shared = true
  · obtain ⟨b, hb, hshared⟩ := List.any_eq_true.1 hany
    rw [if_pos hany, if_neg]
    rintro ⟨-, hall⟩
    simp [hall b hb] at hshared
  · rw [if_neg hany, State.read_removeIfPresent]
    simp only [List.any_eq_true, not_exists, not_and, Bool.not_eq_true] at hany
    simp only [and_iff_left hany]

end

/-- Removing for one reason or another, in either order. -/
theorem ite_or_none (p q : Prop) [Decidable p] [Decidable q] (x : Option Bytes) :
    (if q then none else if p then none else x) = if p ∨ q then none else x := by
  by_cases hp : p <;> by_cases hq : q <;> simp [hp, hq]

/-- What `delete` leaves: the artifact is out of the index, and each of its files is gone
unless an artifact still in the index has it. -/
theorem delete_eq_some {s t : State ν} {id : Text} (h : s.delete id = some t) :
    ∃ a, s.artifacts.lookup id = some a ∧ t.artifacts = s.artifacts.erase id ∧
      t.stored = s.stored.filter (fun kept => kept.1.id ≠ id) ∧ t.loaded = s.loaded ∧
      ∀ path, t.read path =
        if path = sidecarPath a ∨ (path = a.path ∧ ∀ b ∈ t.values, b.path ≠ path) ∨
          (a.previewPath = some path ∧ ∀ b ∈ t.values, b.previewPath ≠ some path)
        then none else s.read path := by
  obtain ⟨a, hlookup, hrest⟩ := Option.bind_eq_some_iff.1 h
  refine ⟨a, hlookup, ?_⟩
  -- the state once the index is changed and the sidecar removed
  obtain ⟨w, hw⟩ : ∃ w : State ν, w = State.removeIfPresent { s with
      artifacts := s.artifacts.erase id
      stored := s.stored.filter fun kept => kept.1.id ≠ id } (sidecarPath a) := ⟨_, rfl⟩
  simp only [← hw] at hrest
  have hfields : w.artifacts = s.artifacts.erase id ∧
      w.stored = s.stored.filter (fun kept => kept.1.id ≠ id) ∧ w.loaded = s.loaded := by
    rw [hw]
    exact ⟨rfl, rfl, rfl⟩
  have hread : ∀ path, w.read path = if path = sidecarPath a then none else s.read path := by
    intro path
    rw [hw]
    exact State.read_removeIfPresent _ _ _
  have houtput : ∀ path, (path = a.path ∧ ∀ b ∈ w.values, (b.path == a.path) = false) ↔
      (path = a.path ∧ ∀ b ∈ w.values, b.path ≠ path) := by
    intro path
    refine and_congr_right fun hpath => ?_
    rw [hpath]
    simp
  cases hpreview : a.previewPath with
  | none =>
    simp only [hpreview, Option.some.injEq] at hrest
    subst hrest
    refine ⟨by simpa using hfields.1, by simpa using hfields.2.1, by simpa using hfields.2.2,
      fun path => ?_⟩
    rw [read_removeUnshared, hread, removeUnshared_values, if_congr (houtput path) rfl rfl]
    simp only [reduceCtorEq, false_and, or_false, ite_or_none]
  | some place =>
    simp only [hpreview, Option.some.injEq] at hrest
    subst hrest
    refine ⟨by simpa using hfields.1, by simpa using hfields.2.1, by simpa using hfields.2.2,
      fun path => ?_⟩
    have hplace : (path = place ∧ ∀ b ∈ w.values, (b.previewPath == some place) = false) ↔
        (some place = some path ∧ ∀ b ∈ w.values, b.previewPath ≠ some path) := by
      rw [Option.some.injEq, eq_comm (a := place)]
      refine and_congr_right fun hpath => ?_
      rw [hpath]
      simp
    rw [read_removeUnshared, read_removeUnshared, hread]
    simp only [removeUnshared_values]
    rw [if_congr hplace rfl rfl, if_congr (houtput path) rfl rfl]
    simp only [ite_or_none, or_assoc]

end Hedos.Artifacts
