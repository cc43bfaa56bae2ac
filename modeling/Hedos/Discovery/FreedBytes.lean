import Hedos.Lib.LastName
import Hedos.Discovery.GatherAll

/-!
# What the figures of the finder add up to

`frees` and the totals of `find` (`kernel/src/discovery/duplicates.rs`). Below the largest `i64` the
bytes a set of copies frees are the sizes of the files that lose their last name with it, each file
once (`frees_eq`), so they are what `LastName` frees, with the copies naming a file as its names.
The figures of a group and the total follow (`figures_add_up`).
-/

namespace Hedos.Discovery

/-- The bytes removing a set of copies frees. -/
def freesOf (copies : List Found) (removed : Finset ℕ) : ℤ :=
  frees copies (removed.sort (· ≤ ·))

/-- The copies that name a file directly, as a set. -/
def namersOf (copies : List Found) (identity : Identity) : Finset ℕ :=
  (namers copies identity).toFinset

/-- The files no directory entry outside the copies names. -/
def accounted (copies : List Found) : Finset Identity :=
  (((copies.flatMap Found.files).filter fun entry =>
    (namedEntries copies entry.1).eraseDups.length ≥ entry.2.links).map Prod.fst).toFinset

def sizeOf (copies : List Found) (identity : Identity) : ℕ :=
  (storedOf copies identity).elim 0 StoredFile.size

/-- The bytes of the files whose last name goes, without a largest number. -/
def freedBytes (copies : List Found) (removed : Finset ℕ) : ℕ :=
  LastName.freed (namersOf copies) (accounted copies) (sizeOf copies) removed

/-- The files of the copies removed. -/
def filesAt (copies : List Found) (removed : List ℕ) : List (Identity × StoredFile) :=
  removed.flatMap fun index => (copies[index]?).elim [] Found.files

variable {disk : Disk} {copies : List Found} {threshold : ℤ}

/-! ## One file after another -/

/-- Counting each file once adds the weights of the files not seen yet. -/
theorem foldl_counted (P : Identity × StoredFile → Prop) [DecidablePred P] (weight : Identity → ℕ)
    (files : List (Identity × StoredFile))
    (h : ∀ entry ∈ files, weight entry.1 = if P entry then entry.2.size else 0)
    (seen : List Identity) {bytes : ℤ} (hnonneg : 0 ≤ bytes) (hle : bytes ≤ maxI64) :
    (files.foldl (fun (acc : List Identity × ℤ) entry =>
      if entry.1 ∈ acc.1 then acc
      else (entry.1 :: acc.1,
        if P entry then min maxI64 (acc.2 + min maxI64 entry.2.size) else acc.2))
      (seen, bytes)).2 =
      min maxI64 (bytes + ∑ identity ∈ (files.map Prod.fst).toFinset \ seen.toFinset,
        (weight identity : ℤ)) := by
  have hmax : (0 : ℤ) ≤ maxI64 := by decide
  induction files generalizing seen bytes with
  | nil => simp [min_eq_right hle]
  | cons entry files ih =>
    obtain ⟨hentry, hfiles⟩ := List.forall_mem_cons.1 h
    rw [List.foldl_cons]
    by_cases hseen : entry.1 ∈ seen
    · rw [if_pos hseen, ih hfiles seen hnonneg hle, List.map_cons, List.toFinset_cons,
        Finset.insert_sdiff_of_mem _ (List.mem_toFinset.2 hseen)]
    · have hsplit : ∑ identity ∈ ((entry :: files).map Prod.fst).toFinset \ seen.toFinset,
          (weight identity : ℤ) = weight entry.1 +
            ∑ identity ∈ (files.map Prod.fst).toFinset \ (entry.1 :: seen).toFinset,
              (weight identity : ℤ) := by
        rw [List.map_cons, List.toFinset_cons, List.toFinset_cons,
          Finset.insert_sdiff_of_notMem _ (fun hmem => hseen (List.mem_toFinset.1 hmem)),
          Finset.sdiff_insert, ← Finset.insert_erase (Finset.mem_insert_self entry.1 _),
          Finset.sum_insert (Finset.notMem_erase _ _), Finset.erase_insert_eq_erase]
      have hsum : (0 : ℤ) ≤ ∑ identity ∈ (files.map Prod.fst).toFinset \
          (entry.1 :: seen).toFinset, (weight identity : ℤ) :=
        Finset.sum_nonneg fun _ _ => Int.natCast_nonneg _
      have hseen' : entry.1 ∉ (seen, bytes).1 := hseen
      rw [hsplit, hentry, if_neg hseen']
      by_cases hgoes : P entry
      · rw [if_pos hgoes, if_pos hgoes, ih hfiles (entry.1 :: seen) (by omega) (by omega)]
        omega
      · rw [if_neg hgoes, if_neg hgoes, ih hfiles (entry.1 :: seen) hnonneg hle]
        simp

/-! ## The files that go -/

theorem mem_namers {identity : Identity} {index : ℕ} (h : index ∈ namers copies identity) :
    ∃ copy, copies[index]? = some copy ∧ ∃ entry ∈ copy.files, entry.1 = identity := by
  obtain ⟨-, hany⟩ := List.mem_filter.1 h
  rw [Option.any_eq_true] at hany
  obtain ⟨copy, hcopy, hfiles⟩ := hany
  obtain ⟨entry, hentry, hnames⟩ := List.any_eq_true.1 hfiles
  exact ⟨copy, hcopy, entry, hentry, (of_decide_eq_true hnames).1⟩

variable {removed : List ℕ} {entry : Identity × StoredFile} {offer : ℕ × List ℕ}

theorem mem_filesAt :
    entry ∈ filesAt copies removed ↔
      ∃ index ∈ removed, ∃ copy, copies[index]? = some copy ∧ entry ∈ copy.files := by
  unfold filesAt
  rw [List.mem_flatMap]
  refine exists_congr fun index => and_congr_right fun _ => ?_
  cases copies[index]? with
  | none => simp
  | some copy => simp

theorem mem_files_of_filesAt
    (h : entry ∈ filesAt copies removed) : entry ∈ copies.flatMap Found.files := by
  obtain ⟨index, -, copy, hcopy, hentry⟩ := mem_filesAt.1 h
  exact List.mem_flatMap.2 ⟨copy, List.mem_of_getElem? hcopy, hentry⟩

theorem sizeOf_eq (hagree : Agree copies)
    (h : entry ∈ copies.flatMap Found.files) : sizeOf copies entry.1 = entry.2.size := by
  unfold sizeOf
  cases hstored : storedOf copies entry.1 with
  | none =>
    unfold storedOf at hstored
    rw [Option.map_eq_none_iff, List.find?_eq_none] at hstored
    exact absurd rfl (of_decide_eq_false (Bool.eq_false_iff.2 (hstored entry h)))
  | some stored => exact storedOf_size hagree h hstored

theorem mem_accounted (hagree : Agree copies)
    (h : entry ∈ copies.flatMap Found.files) : entry.1 ∈ accounted copies ↔
      (namedEntries copies entry.1).eraseDups.length ≥ entry.2.links := by
  unfold accounted
  rw [List.mem_toFinset, List.mem_map]
  constructor
  · rintro ⟨other, hother, hid⟩
    obtain ⟨hmem, hall⟩ := List.mem_filter.1 hother
    have hall := of_decide_eq_true hall
    rwa [hid, (hagree other hmem entry h hid).2] at hall
  · exact fun hall => ⟨entry, List.mem_filter.2 ⟨h, decide_eq_true hall⟩, rfl⟩

/-- A file that goes is a file of a copy removed. -/
theorem released_subset (removed : List ℕ) :
    LastName.released (namersOf copies) (accounted copies) removed.toFinset ⊆
      ((filesAt copies removed).map Prod.fst).toFinset := by
  intro identity h
  obtain ⟨-, ⟨index, hindex⟩, hsub⟩ := LastName.mem_released.1 h
  have hremoved := List.mem_toFinset.1 (hsub hindex)
  obtain ⟨copy, hcopy, entry, hentry, rfl⟩ := mem_namers (List.mem_toFinset.1 hindex)
  refine List.mem_toFinset.2 (List.mem_map_of_mem ?_)
  exact mem_filesAt.2 ⟨index, hremoved, copy, hcopy, hentry⟩

theorem mem_released_iff (hagree : Agree copies) (h : entry ∈ copies.flatMap Found.files) :
    entry.1 ∈ LastName.released (namersOf copies) (accounted copies) removed.toFinset ↔
      (namers copies entry.1 ≠ [] ∧ ∀ index ∈ namers copies entry.1, index ∈ removed) ∧
        (namedEntries copies entry.1).eraseDups.length ≥ entry.2.links := by
  rw [LastName.mem_released, mem_accounted hagree h, namersOf, List.toFinset_nonempty_iff, and_comm]
  refine and_congr_left fun _ => and_congr_right fun _ => ?_
  constructor
  · exact fun hsub index hindex => List.mem_toFinset.1 (hsub (List.mem_toFinset.2 hindex))
  · exact fun hall index hindex =>
      List.mem_toFinset.2 (hall index (List.mem_toFinset.1 hindex))

/-- What `frees` counts, when the copies agree on the files they share. -/
theorem frees_eq (hagree : Agree copies) (removed : List ℕ) :
    frees copies removed = min maxI64 (freedBytes copies removed.toFinset : ℤ) := by
  let goes := LastName.released (namersOf copies) (accounted copies) removed.toFinset
  let weight (identity : Identity) : ℕ := if identity ∈ goes then sizeOf copies identity else 0
  have hfold := foldl_counted (fun entry =>
      (namers copies entry.1 ≠ [] ∧ ∀ index ∈ namers copies entry.1, index ∈ removed) ∧
        (namedEntries copies entry.1).eraseDups.length ≥ entry.2.links)
    weight (filesAt copies removed) ?_ [] le_rfl (by decide)
  · refine hfold.trans ?_
    rw [zero_add, List.toFinset_nil, Finset.sdiff_empty, freedBytes, LastName.freed]
    rw [← Nat.cast_sum, Finset.sum_ite_mem, Finset.inter_eq_right.2 (released_subset removed)]
  · intro entry hentry
    have hmem := mem_files_of_filesAt hentry
    show (if entry.1 ∈ goes then sizeOf copies entry.1 else 0) = _
    rw [sizeOf_eq hagree hmem]
    exact if_congr (mem_released_iff hagree hmem) rfl rfl

theorem freesOf_eq (hagree : Agree copies) (removed : Finset ℕ) :
    freesOf copies removed = min maxI64 (freedBytes copies removed : ℤ) := by
  rw [freesOf, frees_eq hagree, Finset.sort_toFinset]

theorem freedBytes_union {a b : Finset ℕ} (h : Disjoint a b) :
    freedBytes copies a + freedBytes copies b ≤ freedBytes copies (a ∪ b) :=
  LastName.freed_union h

theorem sum_freedBytes_le {sets : List (Finset ℕ)} (h : sets.Pairwise Disjoint)
    {whole : Finset ℕ} (hwhole : ∀ s ∈ sets, s ⊆ whole) :
    (sets.map (freedBytes copies)).sum ≤ freedBytes copies whole :=
  LastName.sum_freed_le h hwhole

/-! ## The totals -/

/-- The figures of a list with some left out, each at most its bytes. -/
theorem sum_filterMap_le {α β : Type*} {report : α → Option β} (figure : β → ℤ) (bytes : α → ℕ)
    {l : List α} (h : ∀ a ∈ l, ∀ b, report a = some b → figure b ≤ bytes a) :
    ((l.filterMap report).map figure).sum ≤ ((l.map bytes).sum : ℕ) := by
  induction l with
  | nil => simp
  | cons a l ih =>
    obtain ⟨ha, hl⟩ := List.forall_mem_cons.1 h
    have hrest := ih hl
    rw [List.map_cons, List.sum_cons, List.filterMap_cons]
    cases hreport : report a with
    | none =>
      simp only
      omega
    | some b =>
      have hb := ha b hreport
      simp only [List.map_cons, List.sum_cons]
      omega

theorem traitsAt_frees_le (hagree : Agree copies) (index : ℕ) :
    (traitsAt disk copies threshold index).frees ≤ freedBytes copies {index} := by
  unfold traitsAt
  split
  · exact Int.natCast_nonneg _
  · show frees copies [index] ≤ _
    rw [frees_eq hagree]
    exact min_le_right _ _

theorem nodup_offer {favours : ℕ → List ℕ} (h : offer ∈ gather copies favours) : offer.2.Nodup := by
  rw [(mem_gather.1 h).2, (List.mergeSort_perm _ _).nodup_iff]
  exact (List.filter_sublist.map Prod.fst).nodup (once_gathered copies favours)

/-- Two keepers have no copy offered in favour of both. -/
theorem pairwise_offers (favours : ℕ → List ℕ) :
    (gather copies favours).Pairwise fun offer other =>
      Disjoint offer.2.toFinset other.2.toFinset := by
  have hkeepers : (gather copies favours).Pairwise fun offer other => offer.1 ≠ other.1 := by
    have hkept : (gathered copies favours).kept.Nodup := Gathering.nodup_kept_run List.nodup_nil
    exact List.pairwise_map.2 hkept
  refine List.Pairwise.imp_of_mem ?_ hkeepers
  intro offer other hoffer hother hne
  rw [Finset.disjoint_left]
  intro index hindex hindex'
  exact hne (gather_disjoint hoffer hother (List.mem_toFinset.1 hindex)
    (List.mem_toFinset.1 hindex'))

/-- A group frees at least what its copies would each. -/
theorem groupOf_total (hagree : Agree copies) (hnodup : offer.2.Nodup)
    {group : DuplicateGroup} (h : groupOf disk copies threshold offer = some group) :
    min maxI64 (group.removable.map RemovableCopy.reclaimableBytes).sum ≤
      group.reclaimableBytes := by
  unfold groupOf at h
  obtain ⟨kept, -, h⟩ := Option.bind_eq_some_iff.1 h
  simp only at h
  split at h
  · cases h
  · cases h
    rw [((List.mergeSort_perm _ _).map _).sum_eq, frees_eq hagree]
    refine min_le_min_left _ ((sum_filterMap_le RemovableCopy.reclaimableBytes
      (fun index => freedBytes copies {index}) ?_).trans ?_)
    · intro index _ removable hremovable
      obtain ⟨copy, -, rfl⟩ := Option.map_eq_some_iff.1 hremovable
      exact traitsAt_frees_le hagree index
    · have hsum := @sum_freedBytes_le copies (offer.2.map fun index => ({index} : Finset ℕ))
        ?_ offer.2.toFinset ?_
      · rw [List.map_map] at hsum
        exact Int.ofNat_le.2 hsum
      · refine List.pairwise_map.2 (hnodup.imp ?_)
        exact fun hne => Finset.disjoint_singleton.2 hne
      · intro s hs
        obtain ⟨index, hindex, rfl⟩ := List.mem_map.1 hs
        exact Finset.singleton_subset_iff.2 (List.mem_toFinset.2 hindex)

theorem groupOf_reclaimable (hagree : Agree copies) {group : DuplicateGroup}
    (h : groupOf disk copies threshold offer = some group) :
    group.reclaimableBytes ≤ freedBytes copies offer.2.toFinset := by
  unfold groupOf at h
  obtain ⟨kept, -, h⟩ := Option.bind_eq_some_iff.1 h
  simp only at h
  split at h
  · cases h
  · cases h
    exact (frees_eq hagree _).trans_le (min_le_right _ _)

/-- All the copies offered free at least what the groups would each. -/
theorem find_total {candidates : List DuplicateCandidate}
    (hagree : Agree (copiesOf disk candidates)) :
    min maxI64 ((find disk threshold candidates).1.map DuplicateGroup.reclaimableBytes).sum ≤
      (find disk threshold candidates).2 := by
  unfold find
  simp only
  set copies := copiesOf disk candidates
  set reported := (offers disk copies threshold).filterMap fun offer =>
    (groupOf disk copies threshold offer).map fun group => (group, offer.2) with hreported
  rw [((List.mergeSort_perm _ _).map _).sum_eq, frees_eq hagree, List.map_map]
  have hgroup : ∀ entry ∈ reported, ∃ offer, groupOf disk copies threshold offer = some entry.1 ∧
      offer.2 = entry.2 := by
    intro entry hentry
    obtain ⟨offer, -, hoffer⟩ := List.mem_filterMap.1 hentry
    obtain ⟨group, hgroup, rfl⟩ := Option.map_eq_some_iff.1 hoffer
    exact ⟨offer, hgroup, rfl⟩
  have hfigures : (reported.map (DuplicateGroup.reclaimableBytes ∘ Prod.fst)).sum ≤
      ((reported.map fun entry => freedBytes copies entry.2.toFinset).sum : ℕ) := by
    have hsum := @sum_filterMap_le _ _ (fun entry => some entry.1)
      DuplicateGroup.reclaimableBytes (fun entry => freedBytes copies entry.2.toFinset)
      reported ?_
    · rwa [show (fun entry : DuplicateGroup × List ℕ => some entry.1) = some ∘ Prod.fst from rfl,
        List.filterMap_eq_map, List.map_map] at hsum
    · rintro entry hentry group hsome
      obtain ⟨offer, hoffer, heq⟩ := hgroup entry hentry
      rw [← Option.some.inj hsome, ← heq]
      exact groupOf_reclaimable hagree hoffer
  refine min_le_min_left _ (hfigures.trans (Int.ofNat_le.2 ?_))
  have hsum := @sum_freedBytes_le copies (reported.map fun entry => entry.2.toFinset) ?_
    (((reported.flatMap Prod.snd).eraseDups).mergeSort (· ≤ ·)).toFinset ?_
  · rwa [List.map_map] at hsum
  · rw [List.pairwise_map, hreported]
    refine List.Pairwise.filterMap _ ?_ (pairwise_offers (favoursAt disk copies threshold))
    rintro offer other hdisjoint entry hentry entry' hentry'
    obtain ⟨group, -, rfl⟩ := Option.map_eq_some_iff.1 hentry
    obtain ⟨group', -, rfl⟩ := Option.map_eq_some_iff.1 hentry'
    exact hdisjoint
  · intro s hs index hindex
    obtain ⟨entry, hentry, rfl⟩ := List.mem_map.1 hs
    rw [List.mem_toFinset, List.mem_mergeSort, List.mem_eraseDups]
    exact List.mem_flatMap.2 ⟨entry, hentry, List.mem_toFinset.1 hindex⟩

/-- For every list of candidates on one state of the disk: a set of copies frees the sizes of the
files that lose their last name with it, each file once; more copies free no less, and disjoint
sets free together at least what each does; so a group's figure is at least the sum of its copies'
own, and the total at least the sum of the groups', up to the largest number. -/
theorem figures_add_up (disk : Disk) (hdisk : disk.Steady) (candidates : List DuplicateCandidate)
    (threshold : ℤ) :
    let copies := copiesOf disk candidates
    (∀ a : Finset ℕ, freesOf copies a = min maxI64
      (∑ identity ∈ LastName.released (namersOf copies) (accounted copies) a,
        (sizeOf copies identity : ℤ))) ∧
    (∀ a b : Finset ℕ, a ⊆ b → freesOf copies a ≤ freesOf copies b) ∧
    (∀ a b : Finset ℕ, Disjoint a b →
      min maxI64 (freesOf copies a + freesOf copies b) ≤ freesOf copies (a ∪ b)) ∧
    (∀ group ∈ (find disk threshold candidates).1,
      min maxI64 (group.removable.map RemovableCopy.reclaimableBytes).sum ≤
        group.reclaimableBytes) ∧
    min maxI64 ((find disk threshold candidates).1.map DuplicateGroup.reclaimableBytes).sum ≤
      (find disk threshold candidates).2 := by
  intro copies
  have hagree : Agree copies := copiesOf_agree hdisk candidates
  refine ⟨?_, ?_, ?_, ?_, find_total hagree⟩
  · intro a
    rw [freesOf_eq hagree, freedBytes, LastName.freed, Nat.cast_sum]
  · intro a b hab
    rw [freesOf_eq hagree, freesOf_eq hagree]
    exact min_le_min_left _ (Int.ofNat_le.2 (LastName.freed_mono hab))
  · intro a b hab
    have hunion := @freedBytes_union copies a b hab
    rw [freesOf_eq hagree, freesOf_eq hagree, freesOf_eq hagree]
    omega
  · intro group hgroup
    unfold find at hgroup
    rw [List.mem_mergeSort, List.mem_map] at hgroup
    obtain ⟨entry, hentry, rfl⟩ := hgroup
    obtain ⟨offer, hoffer, hmap⟩ := List.mem_filterMap.1 hentry
    obtain ⟨group, hgroup, rfl⟩ := Option.map_eq_some_iff.1 hmap
    exact groupOf_total hagree (nodup_offer hoffer) hgroup

theorem figures_add_up_twins :
    freesOf (copiesOf twinDisk twins) {0} ≤ freesOf (copiesOf twinDisk twins) {0, 1} :=
  (figures_add_up twinDisk twinDisk_steady twins 0).2.1 {0} {0, 1} (by simp)

end Hedos.Discovery
