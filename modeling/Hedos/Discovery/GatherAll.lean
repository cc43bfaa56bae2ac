import Mathlib.Data.List.Nodup
import Hedos.Discovery.Lossless
import Hedos.Discovery.SharedFiles

/-!
# Every copy that can go is kept or offered

`gather` (`kernel/src/discovery/duplicates.rs`) over the copies `find` builds. The loop ends after
at most a round for each copy (`rounds_run`), each copy is kept or offered at most once, every
keeper has a copy offered in its favour, and a copy that can go in favour of another does not stay
behind (`gather_partitions`): where the one it could go for is offered itself, it can go for that
one's keeper (`favours_trans`).
-/

namespace Hedos.Discovery

namespace Gathering

variable {order : List ℕ} {favours : ℕ → List ℕ} {state : Gathering}

/-! ## The loop ends -/

/-- The loop, cut off after a number of rounds. -/
def rounds (order : List ℕ) (favours : ℕ → List ℕ) : ℕ → Gathering → Option Gathering
  | 0, _ => none
  | left + 1, state =>
    match (state.sweep order favours).next order favours with
    | none => some (state.sweep order favours)
    | some keeper =>
      rounds order favours left
        { state.sweep order favours with kept := (state.sweep order favours).kept ++ [keeper] }

/-- A round keeps one more copy of the order, so there are no more of them than copies. -/
theorem rounds_run (state : Gathering) (left : ℕ)
    (h : (order.filter (· ∉ state.kept)).length < left) :
    rounds order favours left state = some (state.run order favours) := by
  fun_induction Gathering.run order favours state generalizing left with
  | case1 state hnext =>
    obtain ⟨left, rfl⟩ := Nat.exists_eq_succ_of_ne_zero (by omega : left ≠ 0)
    rw [rounds, hnext]
  | case2 state keeper hnext ih =>
    obtain ⟨left, rfl⟩ := Nat.exists_eq_succ_of_ne_zero (by omega : left ≠ 0)
    rw [rounds, hnext]
    refine ih left ?_
    obtain ⟨hmem, hopen⟩ := next_eq_some order favours hnext
    simp only [isOpen, sweep_kept, Bool.and_eq_true, decide_eq_true_eq] at hopen
    have hfewer := length_not_kept_lt order hmem hopen.1
    show (order.filter (· ∉ (state.sweep order favours).kept ++ [keeper])).length < left
    rw [sweep_kept]
    omega

/-! ## A sweep -/

/-- A kept copy the one at `index` can go for. -/
def HasKeeper (order : List ℕ) (favours : ℕ → List ℕ) (state : Gathering) (index : ℕ) : Prop :=
  ∃ keeper ∈ order, keeper ∈ state.kept ∧ keeper ∈ favours index

theorem isOpen_iff {index : ℕ} : state.isOpen index = true ↔
    index ∉ state.kept ∧ ∀ keeper, (index, keeper) ∉ state.offered := by
  simp [isOpen]

theorem offered_offer (state : Gathering) (index : ℕ) :
    ∀ entry ∈ state.offered, entry ∈ (state.offer order favours index).offered := by
  intro entry hentry
  unfold offer
  split
  · split
    · exact List.mem_append_left _ hentry
    · exact hentry
  · exact hentry

theorem isOpen_of_offer {index other : ℕ}
    (h : (state.offer order favours index).isOpen other = true) : state.isOpen other = true := by
  rw [isOpen_iff, offer_kept] at h
  exact isOpen_iff.2 ⟨h.1, fun keeper hmem => h.2 keeper (offered_offer state index _ hmem)⟩

/-- A copy that is open after it was looked at has no keeper. -/
theorem no_keeper_of_offer {index : ℕ} (h : (state.offer order favours index).isOpen index = true) :
    ¬ HasKeeper order favours state index := by
  rintro ⟨keeper, horder, hkept, hfavours⟩
  have hopen := isOpen_of_offer h
  have hfound : (order.find? fun keeper => keeper ∈ state.kept ∧ keeper ∈ favours index).isSome :=
    List.find?_isSome.2 ⟨keeper, horder, by simpa using ⟨hkept, hfavours⟩⟩
  obtain ⟨first, hfirst⟩ := Option.isSome_iff_exists.1 hfound
  unfold offer at h
  rw [if_pos hopen, hfirst] at h
  exact (isOpen_iff.1 h).2 first (List.mem_append_right _ (.head _))

theorem foldl_offer_spec (indices : List ℕ) (state : Gathering) :
    let swept := indices.foldl (Gathering.offer order favours) state
    (∀ entry ∈ state.offered, entry ∈ swept.offered) ∧
      ∀ index ∈ indices, swept.isOpen index = true → ¬ HasKeeper order favours state index := by
  induction indices generalizing state with
  | nil => exact ⟨fun _ h => h, fun _ h => nomatch h⟩
  | cons first indices ih =>
    obtain ⟨hoffered, hindices⟩ := ih (state.offer order favours first)
    have hkept : ∀ index, HasKeeper order favours (state.offer order favours first) index ↔
        HasKeeper order favours state index := by
      intro index
      rw [HasKeeper, offer_kept]
      rfl
    refine ⟨fun entry hentry => hoffered entry (offered_offer state first entry hentry), ?_⟩
    intro index hindex hopen
    rcases List.mem_cons.1 hindex with rfl | hindex
    · refine no_keeper_of_offer ?_
      rw [isOpen_iff]
      refine ⟨?_, fun keeper hmem => (isOpen_iff.1 hopen).2 keeper (hoffered _ hmem)⟩
      have hsame : ∀ (indices : List ℕ) (state : Gathering),
          (indices.foldl (Gathering.offer order favours) state).kept = state.kept := by
        intro indices
        induction indices with
        | nil => exact fun _ => rfl
        | cons index indices ih => exact fun state => by rw [List.foldl_cons, ih, offer_kept]
      rw [← hsame indices]
      exact (isOpen_iff.1 hopen).1
    · exact fun hkeeper => hindices index hindex hopen ((hkept index).2 hkeeper)

theorem offered_sweep (order : List ℕ) (favours : ℕ → List ℕ) (state : Gathering) :
    ∀ entry ∈ state.offered, entry ∈ (state.sweep order favours).offered :=
  (foldl_offer_spec order state).1

/-- After a sweep no copy is open that a kept one could keep. -/
theorem no_keeper_of_sweep {index : ℕ} (hindex : index ∈ order)
    (h : (state.sweep order favours).isOpen index = true) :
    ¬ HasKeeper order favours (state.sweep order favours) index := by
  rw [HasKeeper, sweep_kept]
  exact (foldl_offer_spec order state).2 index hindex h

/-! ## Every keeper has a copy -/

/-- A copy that is open goes, in the next sweep, in favour of this kept one. -/
def Owed (order : List ℕ) (favours : ℕ → List ℕ) (state : Gathering) (keeper : ℕ) : Prop :=
  ∃ other ∈ order, state.isOpen other = true ∧ keeper ∈ favours other ∧
    ∀ kept ∈ state.kept, kept ∈ favours other → kept = keeper

/-- Each kept copy is one of the order, and a copy goes in its favour or is about to. -/
def Answered (order : List ℕ) (favours : ℕ → List ℕ) (state : Gathering) : Prop :=
  ∀ keeper ∈ state.kept, keeper ∈ order ∧
    ((∃ index, (index, keeper) ∈ state.offered) ∨ Owed order favours state keeper)

theorem Answered.sweep (hsound : state.Sound favours) (h : Answered order favours state) :
    ∀ keeper ∈ state.kept, keeper ∈ order ∧
      ∃ index, (index, keeper) ∈ (state.sweep order favours).offered := by
  intro keeper hkeeper
  obtain ⟨horder, hanswer⟩ := h keeper hkeeper
  refine ⟨horder, ?_⟩
  rcases hanswer with ⟨index, hindex⟩ | ⟨other, hother, hopen, hfavours, hunique⟩
  · exact ⟨index, offered_sweep order favours state _ hindex⟩
  · have hclosed : (state.sweep order favours).isOpen other ≠ true := by
      intro hstill
      refine no_keeper_of_sweep hother hstill ⟨keeper, horder, ?_, hfavours⟩
      rwa [sweep_kept]
    rw [ne_eq, isOpen_iff, sweep_kept, not_and, not_forall] at hclosed
    obtain ⟨taken, htaken⟩ := hclosed (isOpen_iff.1 hopen).1
    have htaken := not_not.1 htaken
    -- the sweep keeps to the keepers there are, and this is the only one
    obtain ⟨-, hkept, hgoes⟩ := hsound.sweep order (other, taken) htaken
    rw [sweep_kept] at hkept
    rw [hunique taken hkept hgoes] at htaken
    exact ⟨other, htaken⟩

variable {keeper : ℕ}

theorem next_spec (h : state.next order favours = some keeper) :
    keeper ∈ order ∧ state.isOpen keeper = true ∧
      ∃ other ∈ order, state.isOpen other = true ∧ keeper ∈ favours other := by
  obtain ⟨hmem, hopen⟩ := next_eq_some order favours h
  have hfind := List.find?_some h
  simp only [Bool.and_eq_true, List.any_eq_true, decide_eq_true_eq] at hfind
  exact ⟨hmem, hopen, hfind.2⟩

/-- Keeping one more copy that no copy favours itself over. -/
theorem Answered.keep (hirrefl : ∀ index, index ∉ favours index) (hsound : state.Sound favours)
    (h : Answered order favours state)
    (hnext : (state.sweep order favours).next order favours = some keeper) :
    Answered order favours { state.sweep order favours with
      kept := (state.sweep order favours).kept ++ [keeper] } := by
  obtain ⟨horder, -, other, hother, hopen, hfavours⟩ := next_spec hnext
  intro kept hkept
  rcases List.mem_append.1 hkept with hkept | hkept
  · rw [sweep_kept] at hkept
    obtain ⟨hkeptOrder, hanswer⟩ := h.sweep hsound kept hkept
    exact ⟨hkeptOrder, Or.inl hanswer⟩
  · rw [List.mem_singleton.1 hkept]
    have hne : other ≠ keeper := by
      rintro rfl
      exact hirrefl other hfavours
    refine ⟨horder, Or.inr ⟨other, hother, ?_, hfavours, ?_⟩⟩
    · rw [isOpen_iff] at hopen ⊢
      refine ⟨fun hmem => ?_, hopen.2⟩
      rcases List.mem_append.1 hmem with hmem | hmem
      · exact hopen.1 hmem
      · exact hne (List.mem_singleton.1 hmem)
    · intro earlier hearlier hgoes
      rcases List.mem_append.1 hearlier with hearlier | hearlier
      · have horderEarlier := (h earlier (by rwa [sweep_kept] at hearlier)).1
        exact absurd ⟨earlier, horderEarlier, hearlier, hgoes⟩ (no_keeper_of_sweep hother hopen)
      · exact List.mem_singleton.1 hearlier

/-! ## Where the loop ends -/

/-- Where the loop ends: after a sweep, with nothing left to keep. -/
structure Ended (order : List ℕ) (favours : ℕ → List ℕ) (state : Gathering) : Prop where
  sound : state.Sound favours
  answered : ∀ keeper ∈ state.kept, keeper ∈ order ∧ ∃ index, (index, keeper) ∈ state.offered
  swept : ∀ index ∈ order, state.isOpen index = true → ¬ HasKeeper order favours state index
  settled : state.next order favours = none

theorem ended_run (hirrefl : ∀ index, index ∉ favours index) (hsound : state.Sound favours)
    (h : Answered order favours state) : Ended order favours (state.run order favours) := by
  fun_induction Gathering.run order favours state with
  | case1 state hnext =>
    refine ⟨hsound.sweep order, ?_, fun index hindex => no_keeper_of_sweep hindex, hnext⟩
    rw [sweep_kept]
    exact h.sweep hsound
  | case2 state keeper hnext ih =>
    exact ih ((hsound.sweep order).keep (next_spec hnext).2.1) (h.keep hirrefl hsound hnext)

/-- No copy stays behind that could go: the one it could go for is kept, or goes itself to one
that could keep both. -/
theorem Ended.kept_or_offered (h : Ended order favours state)
    (htrans : ∀ a b c, b ∈ favours a → c ∈ favours b → c ≠ a → c ∈ favours a) {index : ℕ}
    (hindex : index ∈ order) (hkeeper : keeper ∈ order)
    (hfavours : keeper ∈ favours index) : state.isOpen index ≠ true := by
  intro hopen
  have hno := h.swept index hindex hopen
  by_cases hstays : state.isOpen keeper = true
  · have hfound : (state.next order favours).isSome := by
      refine List.find?_isSome.2 ⟨keeper, hkeeper, ?_⟩
      simp only [Bool.and_eq_true, List.any_eq_true, decide_eq_true_eq]
      exact ⟨hstays, index, hindex, hopen, hfavours⟩
    rw [h.settled] at hfound
    cases hfound
  · have hclosed := hstays
    rw [isOpen_iff, not_and, not_forall] at hclosed
    by_cases hkept : keeper ∈ state.kept
    · exact hno ⟨keeper, hkeeper, hkept, hfavours⟩
    · obtain ⟨last, hlast⟩ := hclosed hkept
      obtain ⟨-, hkept, hgoes⟩ := h.sound (keeper, last) (not_not.1 hlast)
      have hne : last ≠ index := by
        rintro rfl
        exact (isOpen_iff.1 hopen).1 hkept
      exact hno ⟨last, (h.answered last hkept).1, hkept, htrans _ _ _ hfavours hgoes hne⟩

/-! ## Each copy once -/

/-- Every copy is offered at most once. -/
def Once (state : Gathering) : Prop := (state.offered.map Prod.fst).Nodup

theorem Once.offer (h : state.Once) (index : ℕ) : (state.offer order favours index).Once := by
  unfold Gathering.offer
  split
  · rename_i hopen
    split
    · simp only [isOpen, Bool.and_eq_true, decide_eq_true_eq] at hopen
      rw [Once, List.map_append, List.nodup_append]
      refine ⟨h, by simp, ?_⟩
      rintro a ha b hb rfl
      rw [List.map_singleton, List.mem_singleton] at hb
      rw [hb] at ha
      exact hopen.2 ha
    · exact h
  · exact h

theorem Once.sweep (h : state.Once) : (state.sweep order favours).Once := by
  unfold Gathering.sweep
  suffices hfold : ∀ indices : List ℕ, ∀ state : Gathering, state.Once →
      (indices.foldl (Gathering.offer order favours) state).Once from hfold order state h
  intro indices
  induction indices with
  | nil => exact fun _ h => h
  | cons index indices ih => exact fun state h => ih _ (h.offer index)

theorem Once.run (h : state.Once) : (state.run order favours).Once := by
  fun_induction Gathering.run order favours state with
  | case1 state hnext => exact h.sweep
  | case2 state keeper hnext ih => exact ih h.sweep

/-- No copy is kept twice: the next to keep is open. -/
theorem nodup_kept_run (h : state.kept.Nodup) : (state.run order favours).kept.Nodup := by
  fun_induction Gathering.run order favours state with
  | case1 state hnext => rwa [sweep_kept]
  | case2 state keeper hnext ih =>
    refine ih ?_
    have hopen := (isOpen_iff.1 (next_spec hnext).2.1).1
    rw [sweep_kept] at hopen ⊢
    rw [List.nodup_append]
    refine ⟨h, by simp, ?_⟩
    rintro kept hkept other hother rfl
    rw [List.mem_singleton.1 hother] at hkept
    exact hopen hkept

end Gathering

/-! ## The order of the copies that take part -/

/-- The order `gather` goes by. -/
def gatherOrder (copies : List Found) (favours : ℕ → List ℕ) : List ℕ :=
  let copyAt (index : ℕ) : Found × Bool := ((copies[index]?).getD {}, !(favours index).isEmpty)
  ((List.range copies.length).filter fun index =>
    !(favours index).isEmpty ||
      (List.range copies.length).any fun other => decide (index ∈ favours other)).mergeSort
    fun a b => keepsBefore (copyAt a) (copyAt b)

/-- The gathering `gather` reads its groups off. -/
def gathered (copies : List Found) (favours : ℕ → List ℕ) : Gathering :=
  Gathering.run (gatherOrder copies favours) favours {}

variable {favours : ℕ → List ℕ} {index other : ℕ} {offer : ℕ × List ℕ} {copy : Found}

theorem mem_gatherOrder {copies : List Found} :
    index ∈ gatherOrder copies favours ↔ index < copies.length ∧
      (favours index ≠ [] ∨ ∃ other < copies.length, index ∈ favours other) := by
  unfold gatherOrder
  simp

theorem length_gatherOrder_le (copies : List Found) (favours : ℕ → List ℕ) :
    (gatherOrder copies favours).length ≤ copies.length := by
  unfold gatherOrder
  simp only [List.length_mergeSort]
  exact (List.length_filter_le _ _).trans (by simp)

theorem mem_gather {copies : List Found} :
    offer ∈ gather copies favours ↔ offer.1 ∈ (gathered copies favours).kept ∧
      offer.2 = ((((gathered copies favours).offered.filter (·.2 = offer.1)).map
        Prod.fst).mergeSort (· ≤ ·)) := by
  have hgather : gather copies favours = (gathered copies favours).kept.map fun keeper =>
      (keeper, ((((gathered copies favours).offered.filter (·.2 = keeper)).map
        Prod.fst).mergeSort (· ≤ ·))) := rfl
  rw [hgather, List.mem_map]
  constructor
  · rintro ⟨keeper, hkeeper, rfl⟩
    exact ⟨hkeeper, rfl⟩
  · rintro ⟨hkept, hoffered⟩
    exact ⟨offer.1, hkept, by rw [← hoffered]⟩

theorem exists_offer {copies : List Found} {keeper : ℕ}
    (h : keeper ∈ (gathered copies favours).kept) :
    ∃ offer ∈ gather copies favours, offer.1 = keeper :=
  ⟨_, List.mem_map_of_mem h, rfl⟩

theorem mem_offer {copies : List Found} (h : offer ∈ gather copies favours) :
    index ∈ offer.2 ↔ (index, offer.1) ∈ (gathered copies favours).offered := by
  rw [(mem_gather.1 h).2, List.mem_mergeSort, List.mem_map]
  constructor
  · rintro ⟨entry, hentry, rfl⟩
    obtain ⟨hmem, hkeeper⟩ := List.mem_filter.1 hentry
    rwa [← of_decide_eq_true hkeeper]
  · intro hmem
    exact ⟨_, List.mem_filter.2 ⟨hmem, by simp⟩, rfl⟩

theorem once_gathered (copies : List Found) (favours : ℕ → List ℕ) :
    (gathered copies favours).Once :=
  Gathering.Once.run List.nodup_nil

theorem gather_disjoint {copies : List Found} {other : ℕ × List ℕ}
    (hoffer : offer ∈ gather copies favours) (hother : other ∈ gather copies favours)
    (hindex : index ∈ offer.2) (hindex' : index ∈ other.2) : offer.1 = other.1 := by
  have hfirst := (mem_offer hoffer).1 hindex
  have hsecond := (mem_offer hother).1 hindex'
  have hentry := List.inj_on_of_nodup_map (once_gathered copies favours) hfirst hsecond rfl
  exact (Prod.mk.inj hentry).2

/-! ## The favours of the finder -/

variable {disk : Disk} {copies : List Found} {threshold : ℤ}

theorem keepsAt_eq (h : copies[index]? = some copy) :
    keepsAt disk copies threshold index =
      copy.content.map fun entry => (entry.1, entry.2.size) := by
  simp [keepsAt, traitsAt, h, traits]

/-- What it takes for a copy to go in favour of another. -/
theorem mem_favoursAt_iff :
    other ∈ favoursAt disk copies threshold index ↔
      (traitsAt disk copies threshold index).offerable = true ∧
        ∃ copy, copies[index]? = some copy ∧
          other ∈ keepersBySize copies (keepsAt disk copies threshold) index copy ∧
          coveredBy (shelfClasses disk copies threshold) (keepsAt disk copies threshold) copy
            other = true := by
  rw [favoursAt, List.mem_filter, possibleAt]
  cases copies[index]? with
  | none => simp
  | some copy =>
    by_cases hofferable : (traitsAt disk copies threshold index).offerable = true
    · simp [hofferable]
    · simp [hofferable]

theorem mem_coveredBy {classes : Classes} {keeps : ℕ → List (Identity × ℕ)} :
    coveredBy classes keeps copy other = true ↔
      ∀ file ∈ copy.content, ∃ number, classes.get file.1 = some number ∧
        ∃ entry ∈ keeps other, classes.get entry.1 = some number := by
  simp [coveredBy, Option.any_eq_true, List.mem_filterMap]

theorem storedOf_size (hagree : Agree copies) {identity : Identity} {file stored : StoredFile}
    (hfile : (identity, file) ∈ copies.flatMap Found.files)
    (hstored : storedOf copies identity = some stored) : stored.size = file.size := by
  obtain ⟨entry, hentry, rfl⟩ := Option.map_eq_some_iff.1 hstored
  have hid : entry.1 = identity := by simpa using List.find?_some hentry
  exact (hagree entry (List.mem_of_find?_eq_some hentry) _ hfile hid).1

/-- Files of one class have one size. -/
theorem size_eq_of_class (hagree : Agree copies) {a b : Identity × StoredFile}
    (ha : a ∈ copies.flatMap Found.files) (hb : b ∈ copies.flatMap Found.files) {number : ℕ}
    (hclassA : (shelfClasses disk copies threshold).get a.1 = some number)
    (hclassB : (shelfClasses disk copies threshold).get b.1 = some number) :
    a.2.size = b.2.size := by
  rcases contentClasses_numbered _ _ a.1 b.1 number hclassA hclassB with heq | ⟨key, hkeyA, hkeyB⟩
  · exact (hagree a ha b hb heq).1
  · obtain ⟨storedA, hstoredA, hdigestA⟩ := Option.bind_eq_some_iff.1 hkeyA
    obtain ⟨storedB, hstoredB, hdigestB⟩ := Option.bind_eq_some_iff.1 hkeyB
    have hsizeA : storedA.size = key.1 := by
      obtain ⟨bytes, -, rfl⟩ := Option.map_eq_some_iff.1 hdigestA
      rfl
    have hsizeB : storedB.size = key.1 := by
      obtain ⟨bytes, -, rfl⟩ := Option.map_eq_some_iff.1 hdigestB
      rfl
    rw [← storedOf_size hagree ha hstoredA, ← storedOf_size hagree hb hstoredB, hsizeA, hsizeB]

theorem mem_files_of_content (hcopy : copies[index]? = some copy)
    {file : Identity × StoredFile} (hfile : file ∈ copy.content) :
    file ∈ copies.flatMap Found.files :=
  List.mem_flatMap.2 ⟨copy, List.mem_of_getElem? hcopy, List.mem_of_mem_filter hfile⟩

/-- A copy that could go for one that could go for a third can go for the third. -/
theorem favours_trans (hagree : Agree copies) {a b c : ℕ}
    (hab : b ∈ favoursAt disk copies threshold a) (hbc : c ∈ favoursAt disk copies threshold b)
    (hne : c ≠ a) : c ∈ favoursAt disk copies threshold a := by
  obtain ⟨hofferable, copyA, hcopyA, hkeepersA, hcoveredA⟩ := mem_favoursAt_iff.1 hab
  obtain ⟨-, copyB, hcopyB, hkeepersB, hcoveredB⟩ := mem_favoursAt_iff.1 hbc
  obtain ⟨hfiles, -, -, -⟩ := mem_keepersBySize.1 hkeepersA
  obtain ⟨-, hlt, -, -⟩ := mem_keepersBySize.1 hkeepersB
  rw [mem_coveredBy] at hcoveredA hcoveredB
  -- a file of the first, one of its class in the second, and one of that class in the third
  have hcovered : ∀ file ∈ copyA.content, ∃ number,
      (shelfClasses disk copies threshold).get file.1 = some number ∧
        ∃ entry ∈ keepsAt disk copies threshold c,
          (shelfClasses disk copies threshold).get entry.1 = some number := by
    intro file hfile
    obtain ⟨number, hnumber, entry, hentry, hclass⟩ := hcoveredA file hfile
    rw [keepsAt_eq hcopyB, List.mem_map] at hentry
    obtain ⟨second, hsecond, rfl⟩ := hentry
    obtain ⟨number', hnumber', hthird⟩ := hcoveredB second hsecond
    rw [hclass, Option.some.injEq] at hnumber'
    exact ⟨number, hnumber, hnumber' ▸ hthird⟩
  refine mem_favoursAt_iff.2 ⟨hofferable, copyA, hcopyA, ?_, mem_coveredBy.2 hcovered⟩
  refine mem_keepersBySize.2 ⟨hfiles, hlt, hne, fun file hfile => ?_⟩
  obtain ⟨number, hnumber, entry, hentry, hclass⟩ := hcovered file hfile
  refine ⟨entry.1, mem_keptBySize.2 ⟨c, hlt, ?_⟩, List.mem_map_of_mem hentry⟩
  have hcopyC := List.getElem?_eq_getElem hlt
  have hkept := hentry
  rw [keepsAt_eq hcopyC, List.mem_map] at hkept
  obtain ⟨third, hthird, rfl⟩ := hkept
  have hsize := size_eq_of_class hagree (mem_files_of_content hcopyA hfile)
    (mem_files_of_content hcopyC hthird) hnumber hclass
  rw [hsize]
  exact hentry

theorem not_mem_favoursAt_self (index : ℕ) : index ∉ favoursAt disk copies threshold index := by
  intro h
  obtain ⟨-, copy, -, hkeepers, -⟩ := mem_favoursAt_iff.1 h
  exact (mem_keepersBySize.1 hkeepers).2.2.1 rfl

theorem lt_of_mem_favoursAt (h : other ∈ favoursAt disk copies threshold index) :
    index < copies.length ∧ other < copies.length := by
  obtain ⟨-, copy, hcopy, hkeepers, -⟩ := mem_favoursAt_iff.1 h
  exact ⟨(List.getElem?_eq_some_iff.1 hcopy).1, (mem_keepersBySize.1 hkeepers).2.1⟩

/-! ## The groups -/

theorem ended_gathered (copies : List Found) :
    Gathering.Ended (gatherOrder copies (favoursAt disk copies threshold))
      (favoursAt disk copies threshold) (gathered copies (favoursAt disk copies threshold)) :=
  Gathering.ended_run not_mem_favoursAt_self (fun _ h => nomatch h) fun _ h => nomatch h

/-- For every list of candidates on one state of the disk: gathering ends, no copy is both kept
and offered or offered twice, every keeper has a copy offered in its favour, and a copy that could
go in favour of another is kept or offered. -/
theorem gather_partitions (disk : Disk) (hdisk : disk.Steady)
    (candidates : List DuplicateCandidate) (threshold : ℤ) :
    let copies := copiesOf disk candidates
    let favours := favoursAt disk copies threshold
    (∃ left ≤ copies.length + 1,
      Gathering.rounds (gatherOrder copies favours) favours left {} =
        some (gathered copies favours)) ∧
    (∀ offer ∈ gather copies favours, ∀ other ∈ gather copies favours, offer.1 ∉ other.2) ∧
    (∀ offer ∈ gather copies favours, ∀ other ∈ gather copies favours, ∀ index ∈ offer.2,
      index ∈ other.2 → offer.1 = other.1) ∧
    (∀ offer ∈ gather copies favours, offer.2 ≠ []) ∧
    ∀ index, favours index ≠ [] → ∃ offer ∈ gather copies favours,
      offer.1 = index ∨ index ∈ offer.2 := by
  intro copies favours
  have hended := @ended_gathered disk threshold copies
  refine ⟨⟨copies.length + 1, le_rfl, ?_⟩, ?_, ?_, ?_, ?_⟩
  · refine Gathering.rounds_run {} _ ?_
    have hfilter := List.length_filter_le (fun index => decide (index ∉ ({} : Gathering).kept))
      (gatherOrder copies favours)
    have hle := length_gatherOrder_le copies favours
    omega
  · exact fun offer hoffer other hother hmem =>
      (hended.sound _ ((mem_offer hother).1 hmem)).1 (mem_gather.1 hoffer).1
  · exact fun offer hoffer other hother index hindex hindex' =>
      gather_disjoint hoffer hother hindex hindex'
  · intro offer hoffer hnone
    obtain ⟨-, index, hindex⟩ := hended.answered offer.1 (mem_gather.1 hoffer).1
    have hmem := (mem_offer hoffer).2 hindex
    rw [hnone] at hmem
    cases hmem
  · intro index hindex
    obtain ⟨keeper, hkeeper⟩ := List.exists_mem_of_ne_nil _ hindex
    obtain ⟨hlt, hltKeeper⟩ := lt_of_mem_favoursAt hkeeper
    have hclosed := hended.kept_or_offered (fun _ _ _ => favours_trans (copiesOf_agree hdisk _))
      (mem_gatherOrder.2 ⟨hlt, Or.inl hindex⟩)
      (mem_gatherOrder.2 ⟨hltKeeper, Or.inr ⟨index, hlt, hkeeper⟩⟩) hkeeper
    rw [ne_eq, Gathering.isOpen_iff, not_and, not_forall] at hclosed
    by_cases hkept : index ∈ (gathered copies favours).kept
    · obtain ⟨offer, hoffer, heq⟩ := exists_offer hkept
      exact ⟨offer, hoffer, Or.inl heq⟩
    · obtain ⟨last, hlast⟩ := hclosed hkept
      have hlast := not_not.1 hlast
      obtain ⟨offer, hoffer, rfl⟩ := exists_offer (hended.sound _ hlast).2.1
      exact ⟨offer, hoffer, Or.inr ((mem_offer hoffer).2 hlast)⟩

/-- Two files of one folder, with the same three bytes. -/
def twinDisk : Disk where
  currentDir := [.rootDir]
  metadata path :=
    if path = Path.ofString "/m/a.gguf" then some ⟨(1, 1), true, 3, 1⟩
    else if path = Path.ofString "/m/b.gguf" then some ⟨(1, 2), true, 3, 1⟩
    else none
  symlinkMetadata _ := none
  readLink _ := none
  readDir _ := none
  canonicalize path := some path
  openRegular _ := some [97, 98, 99]
  sha256 bytes := bytes

theorem twinDisk_steady : twinDisk.Steady := by
  intro p q m n hm hn hid
  simp only [twinDisk] at hm hn
  split at hm
  · split at hn
    · cases hm
      cases hn
      exact ⟨rfl, rfl⟩
    · split at hn
      · cases hm
        cases hn
        exact ⟨rfl, rfl⟩
      · cases hn
  · split at hm
    · split at hn
      · cases hm
        cases hn
        exact ⟨rfl, rfl⟩
      · split at hn
        · cases hm
          cases hn
          exact ⟨rfl, rfl⟩
        · cases hn
    · cases hm

def twins : List DuplicateCandidate :=
  [⟨⟨"a", "a", .folder, "/m/a.gguf"⟩, ["/m/a.gguf"], [], []⟩,
    ⟨⟨"b", "b", .folder, "/m/b.gguf"⟩, ["/m/b.gguf"], [], []⟩]

theorem gather_partitions_twins :
    twinDisk.Steady ∧
      (∀ offer ∈ gather (copiesOf twinDisk twins)
        (favoursAt twinDisk (copiesOf twinDisk twins) 0), offer.2 ≠ []) ∧
      ∀ index, favoursAt twinDisk (copiesOf twinDisk twins) 0 index ≠ [] →
        ∃ offer ∈ gather (copiesOf twinDisk twins)
          (favoursAt twinDisk (copiesOf twinDisk twins) 0), offer.1 = index ∨ index ∈ offer.2 :=
  ⟨twinDisk_steady, (gather_partitions twinDisk twinDisk_steady twins 0).2.2.2⟩

end Hedos.Discovery
