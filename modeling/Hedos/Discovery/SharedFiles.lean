import Hedos.Discovery.Duplicates

/-!
# What the copies say of a file they share

Copies are read off one state of the disk, where a file has one size and one number of links
whichever path reaches it (`Disk.Steady`). So the copies that share a file agree on both
(`copiesOf_agree`).
-/

namespace Hedos.Discovery

/-- `stat` gives the paths of one file one size and one number of links. -/
def Disk.Steady (disk : Disk) : Prop :=
  ∀ (p q : Path) (m n : Metadata), disk.metadata p = some m → disk.metadata q = some n →
    m.identity = n.identity → m.size = n.size ∧ m.links = n.links

/-- The copies agree on the files they share. -/
def Agree (copies : List Found) : Prop :=
  ∀ a ∈ copies.flatMap Found.files, ∀ b ∈ copies.flatMap Found.files, a.1 = b.1 →
    a.2.size = b.2.size ∧ a.2.links = b.2.links

/-- The size and the links are what `stat` gives of a path of the file. -/
def Stated (disk : Disk) (entry : Identity × StoredFile) : Prop :=
  ∃ path m, disk.metadata path = some m ∧ m.identity = entry.1 ∧ m.size = entry.2.size ∧
    m.links = entry.2.links

variable {disk : Disk}

variable {files : FileMap}

theorem FileMap.forall_upsert {P : Identity × StoredFile → Prop} {identity : Identity}
    {fresh : StoredFile} {change : StoredFile → StoredFile} (hfresh : P (identity, fresh))
    (hchange : ∀ file, P (identity, file) → P (identity, change file))
    (h : ∀ entry ∈ files, P entry) : ∀ entry ∈ files.upsert identity fresh change, P entry := by
  induction files with
  | nil =>
    intro entry hentry
    rw [FileMap.upsert, List.mem_singleton] at hentry
    exact hentry ▸ hfresh
  | cons first rest ih =>
    obtain ⟨key, file⟩ := first
    obtain ⟨hfirst, hrest⟩ := List.forall_mem_cons.1 h
    rw [FileMap.upsert]
    split
    · rename_i hkey
      subst hkey
      exact List.forall_mem_cons.2 ⟨hchange file hfirst, hrest⟩
    · split
      · exact List.forall_mem_cons.2 ⟨hfresh, h⟩
      · exact List.forall_mem_cons.2 ⟨hfirst, ih hrest⟩

theorem fileOf_stated {files' : FileMap} {listed : String × Bool}
    (h : ∀ entry ∈ files, Stated disk entry) (hfile : fileOf disk files listed = some files') :
    ∀ entry ∈ files', Stated disk entry := by
  unfold fileOf at hfile
  obtain ⟨metadata, hmetadata, hfile⟩ := Option.bind_eq_some_iff.1 hfile
  obtain ⟨entry, -, hfile⟩ := Option.bind_eq_some_iff.1 hfile
  obtain ⟨hstat, -⟩ := Option.filter_eq_some_iff.1 hmetadata
  cases hfile
  refine FileMap.forall_upsert (P := Stated disk) ?_ ?_ h
  · refine ⟨_, metadata, hstat, rfl, ?_⟩
    split
    · exact ⟨rfl, rfl⟩
    · exact ⟨rfl, rfl⟩
  · rintro file ⟨path, m, hm, hid, hsize, hlinks⟩
    refine ⟨path, m, hm, hid, ?_⟩
    split
    · exact ⟨hsize, hlinks⟩
    · exact ⟨hsize, hlinks⟩

theorem filesOf_stated {candidate : DuplicateCandidate}
    (h : filesOf disk candidate = some files) : ∀ entry ∈ files, Stated disk entry := by
  unfold filesOf at h
  split at h
  · cases h
  · generalize candidate.files.map (·, false) ++ candidate.bookkeeping.map (·, true) = listed at h
    suffices hfold : ∀ start : FileMap, (∀ entry ∈ start, Stated disk entry) →
        listed.foldlM (fileOf disk) start = some files → ∀ entry ∈ files, Stated disk entry from
      hfold [] (fun _ hentry => nomatch hentry) h
    clear h
    induction listed with
    | nil =>
      intro start hstart hfold
      cases hfold
      exact hstart
    | cons first listed ih =>
      intro start hstart hfold
      rw [List.foldlM_cons] at hfold
      obtain ⟨next, hnext, hfold⟩ := Option.bind_eq_some_iff.1 hfold
      exact ih next (fileOf_stated hstart hnext) hfold

theorem Found.add_stated {copy : Found} {candidate : DuplicateCandidate} {linked : Bool}
    (hcopy : ∀ entry ∈ copy.files, Stated disk entry)
    (hfiles : ∀ entry ∈ files, Stated disk entry) :
    ∀ entry ∈ (copy.add candidate linked files).files, Stated disk entry := by
  unfold Found.add
  simp only
  generalize copy.files = known at hcopy
  induction files generalizing known with
  | nil => exact hcopy
  | cons first files ih =>
    obtain ⟨hfirst, hrest⟩ := List.forall_mem_cons.1 hfiles
    rw [List.foldl_cons]
    refine ih hrest _ (FileMap.forall_upsert (P := Stated disk) hfirst ?_ hcopy)
    exact fun _ hstated => hstated

theorem shelve_stated {shelf : Shelf} (candidate : DuplicateCandidate)
    (h : ∀ entry ∈ shelf, ∀ file ∈ entry.2.files, Stated disk file) :
    ∀ entry ∈ shelve disk shelf candidate, ∀ file ∈ entry.2.files, Stated disk file := by
  unfold shelve
  split
  · exact h
  · rename_i files hfiles
    have hstated := filesOf_stated hfiles
    simp only
    split
    · rename_i index _
      intro entry hentry
      obtain ⟨i, hi⟩ := List.mem_iff_getElem?.1 hentry
      rw [List.getElem?_modify] at hi
      obtain ⟨before, hbefore, rfl⟩ := Option.map_eq_some_iff.1 hi
      have hmem := h before (List.mem_of_getElem? hbefore)
      split
      · exact Found.add_stated hmem hstated
      · exact hmem
    · intro entry hentry
      rcases List.mem_append.1 hentry with hentry | hentry
      · exact h entry hentry
      · rw [List.mem_singleton.1 hentry]
        exact Found.add_stated (fun _ hfile => nomatch hfile) hstated

theorem copiesOf_stated (candidates : List DuplicateCandidate) :
    ∀ copy ∈ copiesOf disk candidates, ∀ file ∈ copy.files, Stated disk file := by
  unfold copiesOf
  suffices hfold : ∀ shelf : Shelf, (∀ entry ∈ shelf, ∀ file ∈ entry.2.files, Stated disk file) →
      ∀ entry ∈ candidates.foldl (shelve disk) shelf, ∀ file ∈ entry.2.files, Stated disk file by
    intro copy hcopy
    obtain ⟨entry, hentry, rfl⟩ := List.mem_map.1 hcopy
    exact hfold [] (fun _ h => nomatch h) entry hentry
  induction candidates with
  | nil => exact fun _ h => h
  | cons candidate candidates ih => exact fun shelf h => ih _ (shelve_stated candidate h)

theorem copiesOf_agree (hdisk : disk.Steady) (candidates : List DuplicateCandidate) :
    Agree (copiesOf disk candidates) := by
  intro a ha b hb hid
  obtain ⟨copyA, hcopyA, ha⟩ := List.mem_flatMap.1 ha
  obtain ⟨copyB, hcopyB, hb⟩ := List.mem_flatMap.1 hb
  obtain ⟨p, m, hm, hma, hsizeA, hlinksA⟩ := copiesOf_stated candidates copyA hcopyA a ha
  obtain ⟨q, n, hn, hnb, hsizeB, hlinksB⟩ := copiesOf_stated candidates copyB hcopyB b hb
  obtain ⟨hsize, hlinks⟩ := hdisk p q m n hm hn (by rw [hma, hnb, hid])
  exact ⟨by rw [← hsizeA, ← hsizeB, hsize], by rw [← hlinksA, ← hlinksB, hlinks]⟩

end Hedos.Discovery
