import Hedos.Discovery.Duplicates

/-!
# Removing every copy offered loses nothing

What `find` offers is safe to remove all at once. Two files with one class number are one file
or read the same wherever they are sampled (`Numbered`); a copy is offered only in favour of one
that keeps each of its files so (`favoursAt`); and no copy is both kept and offered
(`Gathering.Sound`).
-/

namespace Hedos.Discovery

/-! ## Content classes -/

section Classes

variable (disk : Disk) (copies : List Found)

/-- The size and the digest of everything sampled. -/
def digestOf (file : StoredFile) : Option (ℕ × Bytes) :=
  advance disk file (samples file.size).length

/-- Of one size and sampled content. -/
def Alike (a b : Identity) : Prop :=
  ∃ key, (storedOf copies a).bind (digestOf disk) = some key ∧
    (storedOf copies b).bind (digestOf disk) = some key

/-- Two files of one number are one file, or alike. -/
def Numbered (classes : Classes) : Prop :=
  ∀ a b number, classes.get a = some number → classes.get b = some number →
    a = b ∨ Alike disk copies a b

variable {disk copies}

theorem Alike.symm {a b : Identity} (h : Alike disk copies a b) : Alike disk copies b a := by
  obtain ⟨key, ha, hb⟩ := h
  exact ⟨key, hb, ha⟩

theorem Alike.trans {a b c : Identity} (h : Alike disk copies a b) (h' : Alike disk copies b c) :
    Alike disk copies a c := by
  obtain ⟨key, ha, hb⟩ := h
  obtain ⟨key', hb', hc⟩ := h'
  rw [hb, Option.some.injEq] at hb'
  exact ⟨key, ha, hb' ▸ hc⟩

/-- Past its last sample a file reads no more. -/
theorem advance_eq_digestOf {file : StoredFile} {step : ℕ}
    (h : (samples file.size).length ≤ step + 1) : advance disk file step = digestOf disk file := by
  unfold digestOf advance sampled
  rw [List.take_of_length_le h, List.take_of_length_le (by omega)]

variable {members : FileMap}

theorem mem_splitClass {step : ℕ} {files : FileMap} (h : members ∈ splitClass disk step files) :
    ∃ key, ∀ entry ∈ members, entry ∈ files ∧ advance disk entry.2 step = some key := by
  obtain ⟨hmem, -⟩ := List.mem_filter.1 h
  obtain ⟨key, -, rfl⟩ := List.mem_map.1 hmem
  refine ⟨key, fun entry hentry => ?_⟩
  obtain ⟨hentry, hkey⟩ := List.mem_filter.1 hentry
  exact ⟨hentry, by simpa using hkey⟩

theorem le_foldl_max (values : List ℕ) (start : ℕ) :
    start ≤ values.foldl max start ∧ ∀ value ∈ values, value ≤ values.foldl max start := by
  induction values generalizing start with
  | nil => exact ⟨le_rfl, fun _ h => nomatch h⟩
  | cons first values ih =>
    obtain ⟨hstart, hvalues⟩ := ih (max start first)
    refine ⟨(le_max_left _ _).trans hstart, fun value hvalue => ?_⟩
    cases hvalue with
    | head => exact (le_max_right _ _).trans hstart
    | tail _ hvalue => exact hvalues value hvalue

/-- The files of one class come from the files compared and read alike all the way. -/
theorem mem_identical {files : FileMap} (h : members ∈ identical disk files) :
    ∃ key, ∀ entry ∈ members, entry ∈ files ∧ digestOf disk entry.2 = some key := by
  unfold identical at h
  simp only at h
  generalize hsteps :
    (files.map fun entry => (samples entry.2.size).length).foldl max 0 = steps at h
  have hbound : ∀ entry ∈ files, (samples entry.2.size).length ≤ steps := by
    intro entry hentry
    rw [← hsteps]
    exact (le_foldl_max _ 0).2 _ (List.mem_map.2 ⟨entry, hentry, rfl⟩)
  -- whatever the number of steps, classes are made of the files compared
  have hfrom : ∀ n, ∀ members ∈ (List.range n).foldl
      (fun classes step => classes.flatMap (splitClass disk step)) [files], members ⊆ files := by
    intro n
    induction n with
    | zero =>
      intro members hmembers
      rw [List.mem_singleton.1 hmembers]
      exact List.Subset.refl _
    | succ n ih =>
      intro members hmembers
      rw [List.range_succ, List.foldl_append] at hmembers
      obtain ⟨whole, hwhole, hsplit⟩ := List.mem_flatMap.1 hmembers
      obtain ⟨key, hkey⟩ := mem_splitClass hsplit
      exact fun entry hentry => ih whole hwhole (hkey entry hentry).1
  cases steps with
  | zero =>
    refine ⟨(0, []), fun entry hentry => ?_⟩
    have hlength := hbound entry (hfrom 0 members h hentry)
    simp [samples] at hlength
  | succ n =>
    rw [List.range_succ, List.foldl_append] at h
    obtain ⟨whole, hwhole, hsplit⟩ := List.mem_flatMap.1 h
    obtain ⟨key, hkey⟩ := mem_splitClass hsplit
    refine ⟨key, fun entry hentry => ?_⟩
    obtain ⟨hmem, hread⟩ := hkey entry hentry
    have hfile := hfrom n whole hwhole hmem
    exact ⟨hfile, (advance_eq_digestOf (hbound entry hfile)).symm.trans hread⟩

theorem Classes.get_eq_some {classes : Classes} {identity : Identity} {number : ℕ}
    (h : classes.get identity = some number) : (identity, number) ∈ classes := by
  unfold Classes.get at h
  obtain ⟨entry, hentry, rfl⟩ := Option.map_eq_some_iff.1 h
  have hid : entry.1 = identity := by simpa using List.find?_some hentry
  rw [← hid]
  exact List.mem_of_find?_eq_some hentry

theorem Classes.get_set (classes : Classes) (identity other : Identity) (number : ℕ) :
    (classes.set identity number).get other =
      if other = identity then (classes.get other).map fun _ => number else classes.get other := by
  unfold Classes.get Classes.set
  induction classes with
  | nil => simp
  | cons entry classes ih =>
    rw [List.map_cons, List.find?_cons, List.find?_cons]
    by_cases hid : entry.1 = identity
    · by_cases hother : other = identity
      · simp [hid, hother]
      · have hne : identity ≠ other := fun h => hother h.symm
        simp only [hid, if_true, decide_eq_false hne, if_neg hother] at ih ⊢
        exact ih
    · by_cases hsame : entry.1 = other
      · have hne : other ≠ identity := fun h => hid (hsame.trans h)
        simp [hsame, hne]
      · simp only [hid, if_false, decide_eq_false hsame]
        exact ih

/-- Numbers handed out in order are all different. -/
theorem ownClasses_numbered : Numbered disk copies (ownClasses copies) := by
  -- the number of an entry is its place
  have hplace : ∀ (files : FileMap) (classes : Classes),
      (∀ (k : ℕ) (entry : Identity × ℕ), classes[k]? = some entry → entry.2 = k) →
      ∀ (k : ℕ) (entry : Identity × ℕ), (files.foldl (fun classes entry =>
        if (Classes.get classes entry.1).isSome then classes
        else classes ++ [(entry.1, classes.length)]) classes)[k]? = some entry → entry.2 = k := by
    intro files
    induction files with
    | nil => exact fun _ h => h
    | cons file files ih =>
      intro classes hclasses
      rw [List.foldl_cons]
      refine ih _ ?_
      split
      · exact hclasses
      · intro k entry hentry
        rcases Nat.lt_or_ge k classes.length with hlt | hge
        · rw [List.getElem?_append_left hlt] at hentry
          exact hclasses k entry hentry
        · rw [List.getElem?_append_right hge] at hentry
          cases hk : k - classes.length with
          | zero =>
            rw [hk] at hentry
            cases hentry
            show classes.length = k
            omega
          | succ j =>
            rw [hk] at hentry
            cases hentry
  intro a b number ha hb
  obtain ⟨i, hi⟩ := List.getElem?_of_mem (Classes.get_eq_some ha)
  obtain ⟨j, hj⟩ := List.getElem?_of_mem (Classes.get_eq_some hb)
  have hnum := hplace (copies.flatMap Found.files) [] (by simp)
  have hi' : number = i := hnum i _ hi
  have hj' : number = j := hnum j _ hj
  rw [← hi'] at hi
  rw [← hj', hi, Option.some.injEq, Prod.mk.injEq] at hj
  exact .inl hj.1

theorem Classes.get_setAll (changed : FileMap) (classes : Classes) (identity : Identity)
    (number : ℕ) :
    (changed.foldl (fun classes entry => Classes.set classes entry.1 number) classes).get identity =
      if identity ∈ changed.map Prod.fst then (classes.get identity).map fun _ => number
      else classes.get identity := by
  induction changed generalizing classes with
  | nil => rfl
  | cons entry changed ih =>
    rw [List.foldl_cons, ih, Classes.get_set, List.map_cons]
    by_cases hhere : identity = entry.1
    · have hmem : identity ∈ entry.1 :: changed.map Prod.fst := hhere ▸ List.mem_cons_self
      simp only [if_pos hhere, if_pos hmem]
      split
      · rw [Option.map_map]
        rfl
      · rfl
    · have hmem : identity ∈ entry.1 :: changed.map Prod.fst ↔ identity ∈ changed.map Prod.fst := by
        rw [List.mem_cons, or_iff_right hhere]
      simp only [if_neg hhere, hmem]

/-- Joining files that are alike keeps the numbering. -/
theorem joinClass_numbered {classes : Classes} (h : Numbered disk copies classes)
    (hstored : ∀ entry ∈ members, storedOf copies entry.1 = some entry.2) {key : ℕ × Bytes}
    (halike : ∀ entry ∈ members, digestOf disk entry.2 = some key) :
    Numbered disk copies (joinClass classes members) := by
  unfold joinClass
  split
  · exact h
  · rename_i number hnumber
    obtain ⟨first, hfirst, hget⟩ := Option.bind_eq_some_iff.1 hnumber
    have hmember : ∀ identity ∈ members.map Prod.fst,
        (storedOf copies identity).bind (digestOf disk) = some key := by
      intro identity hidentity
      obtain ⟨entry, hentry, rfl⟩ := List.mem_map.1 hidentity
      rw [hstored entry hentry]
      exact halike entry hentry
    have hhead : first.1 ∈ members.map Prod.fst :=
      List.mem_map.2 ⟨first, List.mem_of_head? hfirst, rfl⟩
    intro a b joined ha hb
    rw [Classes.get_setAll] at ha hb
    by_cases hina : a ∈ members.map Prod.fst
    · by_cases hinb : b ∈ members.map Prod.fst
      · exact .inr ⟨key, hmember a hina, hmember b hinb⟩
      · -- `b` had the number of the first already
        rw [if_pos hina] at ha
        rw [if_neg hinb] at hb
        obtain ⟨-, -, hjoined⟩ := Option.map_eq_some_iff.1 ha
        rcases h first.1 b number hget (hjoined ▸ hb) with heq | hboth
        · exact absurd (heq ▸ hhead) hinb
        · exact .inr (Alike.trans ⟨key, hmember a hina, hmember _ hhead⟩ hboth)
    · rw [if_neg hina] at ha
      by_cases hinb : b ∈ members.map Prod.fst
      · rw [if_pos hinb] at hb
        obtain ⟨-, -, hjoined⟩ := Option.map_eq_some_iff.1 hb
        rcases h first.1 a number hget (hjoined ▸ ha) with heq | hboth
        · exact absurd (heq ▸ hhead) hina
        · exact .inr (Alike.trans hboth.symm ⟨key, hmember _ hhead, hmember b hinb⟩)
      · rw [if_neg hinb] at hb
        exact h a b joined ha hb

theorem contentClasses_numbered (offerable : ℕ → Bool) (keeps : ℕ → List (Identity × ℕ)) :
    Numbered disk copies (contentClasses disk copies offerable keeps) := by
  unfold contentClasses
  simp only
  generalize hclasses : List.flatMap _ _ = classes
  have hjoined : ∀ members ∈ classes,
      ∃ key, ∀ entry ∈ members, storedOf copies entry.1 = some entry.2 ∧
        digestOf disk entry.2 = some key := by
    intro members hmembers
    rw [← hclasses] at hmembers
    obtain ⟨size, -, hmembers⟩ := List.mem_flatMap.1 hmembers
    split at hmembers
    · nomatch hmembers
    · obtain ⟨key, hkey⟩ := mem_identical hmembers
      refine ⟨key, fun entry hentry => ?_⟩
      obtain ⟨hmem, hdigest⟩ := hkey entry hentry
      obtain ⟨identity, -, hstored⟩ := List.mem_filterMap.1 hmem
      obtain ⟨file, hfile, rfl⟩ := Option.map_eq_some_iff.1 hstored
      exact ⟨hfile, hdigest⟩
  clear hclasses
  suffices h : ∀ start : Classes, Numbered disk copies start →
      Numbered disk copies (classes.foldl joinClass start) from h _ ownClasses_numbered
  induction classes with
  | nil => exact fun _ h => h
  | cons members classes ih =>
    intro start hstart
    obtain ⟨key, hkey⟩ := hjoined members (.head _)
    refine ih (fun m hm => hjoined m (.tail _ hm)) _ ?_
    exact joinClass_numbered hstart (fun entry hentry => (hkey entry hentry).1)
      fun entry hentry => (hkey entry hentry).2

end Classes

/-! ## Gathering -/

/-- No copy is both kept and offered, and each goes in favour of a kept one it can go for. -/
def Gathering.Sound (favours : ℕ → List ℕ) (state : Gathering) : Prop :=
  ∀ entry ∈ state.offered, entry.1 ∉ state.kept ∧ entry.2 ∈ state.kept ∧ entry.2 ∈ favours entry.1

namespace Gathering

variable {order : List ℕ} {favours : ℕ → List ℕ} {state : Gathering}

theorem Sound.offer (h : state.Sound favours) (index : ℕ) :
    (state.offer order favours index).Sound favours := by
  unfold Gathering.offer
  split
  · rename_i hopen
    split
    · rename_i keeper hkeeper
      have hfound := List.find?_some hkeeper
      simp only [decide_eq_true_eq] at hfound
      simp only [isOpen, Bool.and_eq_true, decide_eq_true_eq] at hopen
      intro entry hentry
      rcases List.mem_append.1 hentry with hentry | hentry
      · exact h entry hentry
      · rw [List.mem_singleton.1 hentry]
        exact ⟨hopen.1, hfound⟩
    · exact h
  · exact h

variable (order) in
theorem Sound.sweep (h : state.Sound favours) : (state.sweep order favours).Sound favours := by
  unfold Gathering.sweep
  suffices hfold : ∀ indices : List ℕ, ∀ state : Gathering, state.Sound favours →
      (indices.foldl (Gathering.offer order favours) state).Sound favours from hfold order state h
  intro indices
  induction indices with
  | nil => exact fun _ h => h
  | cons index indices ih => exact fun state h => ih _ (h.offer index)

/-- One more copy is kept that was not offered. -/
theorem Sound.keep (h : state.Sound favours) {keeper : ℕ} (hopen : state.isOpen keeper = true) :
    ({ state with kept := state.kept ++ [keeper] } : Gathering).Sound favours := by
  simp only [isOpen, Bool.and_eq_true, decide_eq_true_eq] at hopen
  intro entry hentry
  obtain ⟨hnot, hkept, hfavours⟩ := h entry hentry
  refine ⟨fun hmem => ?_, List.mem_append_left _ hkept, hfavours⟩
  rcases List.mem_append.1 hmem with hmem | hmem
  · exact hnot hmem
  · rw [← List.mem_singleton.1 hmem] at hopen
    exact hopen.2 (List.mem_map_of_mem hentry)

/-- The loop keeps the gathering sound, whichever copy it keeps next. -/
theorem Sound.run (h : state.Sound favours) : (state.run order favours).Sound favours := by
  fun_induction Gathering.run order favours state with
  | case1 state hnext => exact h.sweep order
  | case2 state keeper hnext ih =>
    exact ih ((h.sweep order).keep (next_eq_some order favours hnext).2)

end Gathering

/-- What is gathered: a keeper is offered in favour of none, and can keep each copy offered in
its favour. -/
theorem gather_sound {copies : List Found} {favours : ℕ → List ℕ} {offer : ℕ × List ℕ}
    (h : offer ∈ gather copies favours) :
    (∀ index ∈ offer.2, offer.1 ∈ favours index) ∧
      ∀ other ∈ gather copies favours, offer.1 ∉ other.2 := by
  unfold gather at h ⊢
  simp only at h ⊢
  generalize hstate : Gathering.run _ favours {} = state at h ⊢
  have hsound : state.Sound favours := by
    rw [← hstate]
    exact Gathering.Sound.run fun _ hentry => nomatch hentry
  obtain ⟨keeper, hkeeper, rfl⟩ := List.mem_map.1 h
  have hoffered : ∀ {index keeper : ℕ},
      index ∈ ((state.offered.filter (·.2 = keeper)).map Prod.fst).mergeSort (· ≤ ·) →
        (index, keeper) ∈ state.offered := by
    intro index keeper hindex
    rw [List.mem_mergeSort, List.mem_map] at hindex
    obtain ⟨entry, hentry, rfl⟩ := hindex
    obtain ⟨hmem, hkeeper⟩ := List.mem_filter.1 hentry
    rwa [← of_decide_eq_true hkeeper]
  refine ⟨fun index hindex => (hsound _ (hoffered hindex)).2.2, fun other hother hmem => ?_⟩
  obtain ⟨second, -, rfl⟩ := List.mem_map.1 hother
  exact (hsound _ (hoffered hmem)).1 hkeeper

/-! ## What an offered copy leaves behind -/

variable {disk : Disk} {copies : List Found} {threshold : ℤ}

variable {index other : ℕ} {copy : Found} {keeps : ℕ → List (Identity × ℕ)}

theorem mem_indicesWhere {p : Found → Bool} :
    index ∈ indicesWhere copies p ↔ ∃ copy, copies[index]? = some copy ∧ p copy = true := by
  unfold indicesWhere
  rw [List.mem_filter, List.mem_range, Option.any_eq_true]
  constructor
  · rintro ⟨-, copy, hcopy, hp⟩
    exact ⟨copy, hcopy, hp⟩
  · rintro ⟨copy, hcopy, hp⟩
    exact ⟨(List.getElem?_eq_some_iff.1 hcopy).1, copy, hcopy, hp⟩

/-- The copy lists the directory entry. -/
def Found.Lists (copy : Found) (entry : Path) : Prop :=
  ∃ file ∈ copy.files, entry ∈ file.2.entries

/-- A symlink of the copy passes through the directory entry. -/
def Found.LeansOn (disk : Disk) (copy : Found) (entry : Path) : Prop :=
  ∃ file ∈ copy.files, ∃ link ∈ file.2.linked, entry ∈ disk.passedLinks link

/-- A model that is not one of the copy's own breaks when it goes. -/
def Found.PinnedFromOutside (copy : Found) : Prop :=
  ∃ name ∈ copy.names, ∃ id ∈ name.1.pinnedBy, ∀ other ∈ copy.names, other.1.member.id ≠ id

theorem Found.pinned_iff (copy : Found) : copy.pinned = true ↔ copy.PinnedFromOutside := by
  simp [Found.pinned, Found.PinnedFromOutside]

/-- No entry the copy lists is listed by another (a blob of two Ollama models excepted) or
leaned on by another. -/
def TakesNothing (disk : Disk) (copies : List Found) (index : ℕ) (copy : Found) : Prop :=
  ∀ file ∈ copy.files, ∀ entry ∈ file.2.entries, ∀ (other : ℕ) (another : Found),
    copies[other]? = some another → other ≠ index →
      (another.Lists entry →
        entry ∈ file.2.direct ∧ copy.onlyOllama = true ∧ another.onlyOllama = true) ∧
      ¬ another.LeansOn disk entry

/-- Each file that holds the model is in the keeper, as itself or as one alike. -/
def KeptBy (disk : Disk) (copies : List Found) (copy keeper : Found) : Prop :=
  ∀ file ∈ copy.content, ∃ kept ∈ keeper.content, kept.1 = file.1 ∨ Alike disk copies file.1 kept.1

/-- A copy that may be offered takes nothing from another and breaks nothing. -/
theorem traits_offerable (h : (traits disk copies index copy).offerable = true) :
    TakesNothing disk copies index copy ∧ ¬ copy.PinnedFromOutside := by
  simp only [traits, Bool.and_eq_true, Bool.not_eq_true', List.all_eq_true] at h
  obtain ⟨hpinned, hentries⟩ := h
  refine ⟨fun file hfile entry hentry other another hother hne => ?_, fun houtside => ?_⟩
  · have htakes := hentries file hfile entry hentry
    unfold takesAway at htakes
    simp only [Bool.or_eq_false_iff, List.any_eq_false, Bool.not_eq_false',
      List.isEmpty_iff] at htakes
    obtain ⟨hlisted, hleaned⟩ := htakes
    constructor
    · rintro ⟨held, hheld, hin⟩
      have hmem : other ∈ others (listing copies entry) index := by
        refine List.mem_filter.2 ⟨mem_indicesWhere.2 ⟨another, hother, ?_⟩, by simpa using hne⟩
        exact List.any_eq_true.2 ⟨held, hheld, by simpa using hin⟩
      have hblob := hlisted other hmem
      rw [hother] at hblob
      simpa [and_assoc] using hblob
    · rintro ⟨held, hheld, link, hlink, hpasses⟩
      have hmem : other ∈ others (leaning disk copies entry) index := by
        refine List.mem_filter.2 ⟨mem_indicesWhere.2 ⟨another, hother, ?_⟩, by simpa using hne⟩
        exact List.any_eq_true.2 ⟨held, hheld,
          List.any_eq_true.2 ⟨link, hlink, by simpa using hpasses⟩⟩
      rw [hleaned] at hmem
      nomatch hmem
  · rw [← Found.pinned_iff, hpinned] at houtside
    cases houtside

theorem mem_keptBySize {size : ℕ} {identity : Identity} :
    identity ∈ keptBySize copies keeps size ↔
      ∃ other < copies.length, (identity, size) ∈ keeps other := by
  unfold keptBySize
  simp only [List.mem_map, List.mem_filter, List.mem_flatMap, List.mem_range, decide_eq_true_eq]
  constructor
  · rintro ⟨entry, ⟨⟨other, hother, hentry⟩, rfl⟩, rfl⟩
    exact ⟨other, hother, hentry⟩
  · rintro ⟨other, hother, hentry⟩
    exact ⟨_, ⟨⟨other, hother, hentry⟩, rfl⟩, rfl⟩

theorem mem_foldl_filter {α β : Type} [DecidableEq β] (here : α → List β) (files : List α)
    (start : List β) {b : β} :
    b ∈ files.foldl (fun possible file => possible.filter (· ∈ here file)) start ↔
      b ∈ start ∧ ∀ file ∈ files, b ∈ here file := by
  induction files generalizing start with
  | nil => simp
  | cons file files ih =>
    rw [List.foldl_cons, ih, List.mem_filter, List.forall_mem_cons, decide_eq_true_eq, and_assoc]

/-- The copies that keep, for each file of `copy`, one of its size. -/
theorem mem_keepersBySize :
    other ∈ keepersBySize copies keeps index copy ↔
      copy.content ≠ [] ∧ other < copies.length ∧ other ≠ index ∧
        ∀ file ∈ copy.content, ∃ identity ∈ keptBySize copies keeps file.2.size,
          identity ∈ (keeps other).map Prod.fst := by
  unfold keepersBySize
  split
  · rename_i hnone
    simp [hnone]
  · rename_i first rest hfiles
    simp only [hfiles]
    rw [mem_foldl_filter]
    simp only [List.mem_filter, List.mem_range, Bool.and_eq_true, decide_eq_true_eq,
      List.any_eq_true, List.forall_mem_cons]
    constructor
    · rintro ⟨⟨hlt, hne, hfirst⟩, hrest⟩
      exact ⟨List.cons_ne_nil _ _, hlt, hne, hfirst, fun file hfile => (hrest file hfile).2.2⟩
    · rintro ⟨-, hlt, hne, hfirst, hrest⟩
      exact ⟨⟨hlt, hne, hfirst⟩, fun file hfile => ⟨hlt, hne, hrest file hfile⟩⟩

theorem keepersBySize_lt
    (h : other ∈ keepersBySize copies keeps index copy) : other < copies.length :=
  (mem_keepersBySize.1 h).2.1

/-- A copy goes in favour of another only when it may be offered and the other keeps it. -/
theorem mem_favoursAt (h : other ∈ favoursAt disk copies threshold index) :
    ∃ copy, copies[index]? = some copy ∧ (traits disk copies index copy).offerable = true ∧
      ∃ keeper, copies[other]? = some keeper ∧ KeptBy disk copies copy keeper := by
  obtain ⟨hpossible, hcovered⟩ := List.mem_filter.1 h
  rw [Option.any_eq_true] at hcovered
  obtain ⟨copy, hcopy, hcovered⟩ := hcovered
  have hofferable : (traitsAt disk copies threshold index).offerable = true := by
    by_contra hnot
    rw [possibleAt, if_neg hnot] at hpossible
    nomatch hpossible
  rw [possibleAt, if_pos hofferable, hcopy] at hpossible
  obtain ⟨keeper, hkeeper⟩ : ∃ keeper, copies[other]? = some keeper :=
    ⟨_, List.getElem?_eq_getElem (keepersBySize_lt hpossible)⟩
  refine ⟨copy, hcopy, ?_, keeper, hkeeper, fun file hfile => ?_⟩
  · simp only [traitsAt, hcopy, Bool.and_eq_true] at hofferable
    exact hofferable.1.1
  · unfold coveredBy at hcovered
    have hclass := List.all_eq_true.1 hcovered file hfile
    rw [Option.any_eq_true] at hclass
    obtain ⟨number, hnumber, hkept⟩ := hclass
    obtain ⟨entry, hentry, hclass⟩ := List.mem_filterMap.1 (of_decide_eq_true hkept)
    simp only [keepsAt, traitsAt, hkeeper, traits] at hentry
    obtain ⟨kept, hmem, rfl⟩ := List.mem_map.1 hentry
    refine ⟨kept, hmem, ?_⟩
    rcases contentClasses_numbered _ _ kept.1 file.1 number hclass hnumber with heq | halike
    · exact .inl heq
    · exact .inr halike.symm

/-- A reported group names one keeper and copies offered in its favour. -/
theorem groupOf_eq_some {offer : ℕ × List ℕ} {group : DuplicateGroup}
    (h : groupOf disk copies threshold offer = some group) :
    (copies[offer.1]?).bind (Found.named disk) = some group.kept ∧
      ∀ removable ∈ group.removable, ∃ index ∈ offer.2,
        (copies[index]?).bind (Found.named disk) = some removable.copy := by
  unfold groupOf at h
  obtain ⟨kept, hkept, hrest⟩ := Option.bind_eq_some_iff.1 h
  simp only at hrest
  split at hrest
  · cases hrest
  · cases hrest
    refine ⟨hkept, fun removable hremovable => ?_⟩
    rw [List.mem_mergeSort, List.mem_filterMap] at hremovable
    obtain ⟨index, hindex, hnamed⟩ := hremovable
    obtain ⟨copy, hcopy, rfl⟩ := Option.map_eq_some_iff.1 hnamed
    exact ⟨index, hindex, hcopy⟩

/-- For every shelf of copies: whatever is offered, all at once, is kept by copies that stay. -/
theorem duplicates_lossless (disk : Disk) (candidates : List DuplicateCandidate) (threshold : ℤ) :
    (∀ group ∈ (find disk threshold candidates).1,
      ∃ offer ∈ offers disk (copiesOf disk candidates) threshold,
        ((copiesOf disk candidates)[offer.1]?).bind (Found.named disk) = some group.kept ∧
        ∀ removable ∈ group.removable, ∃ index ∈ offer.2,
          ((copiesOf disk candidates)[index]?).bind (Found.named disk) = some removable.copy) ∧
    ∀ offer ∈ offers disk (copiesOf disk candidates) threshold, ∀ index ∈ offer.2,
      ∃ copy keeper, (copiesOf disk candidates)[index]? = some copy ∧
        (copiesOf disk candidates)[offer.1]? = some keeper ∧
        (∀ other ∈ offers disk (copiesOf disk candidates) threshold, offer.1 ∉ other.2) ∧
        KeptBy disk (copiesOf disk candidates) copy keeper ∧
        TakesNothing disk (copiesOf disk candidates) index copy ∧
        ¬ copy.PinnedFromOutside := by
  constructor
  · intro group hgroup
    simp only [find, List.mem_mergeSort] at hgroup
    obtain ⟨reported, hreported, rfl⟩ := List.mem_map.1 hgroup
    obtain ⟨offer, hoffer, hnamed⟩ := List.mem_filterMap.1 hreported
    obtain ⟨group, hof, rfl⟩ := Option.map_eq_some_iff.1 hnamed
    exact ⟨offer, hoffer, groupOf_eq_some hof⟩
  · intro offer hoffer index hindex
    obtain ⟨hfavours, hkept⟩ := gather_sound hoffer
    obtain ⟨copy, hcopy, hofferable, keeper, hkeeper, hkeeps⟩ :=
      mem_favoursAt (hfavours index hindex)
    obtain ⟨htakes, hpinned⟩ := traits_offerable hofferable
    exact ⟨copy, keeper, hcopy, hkeeper, hkept, hkeeps, htakes, hpinned⟩

end Hedos.Discovery
