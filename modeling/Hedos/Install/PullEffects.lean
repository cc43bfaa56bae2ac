import Hedos.Install.PullContract

/-!
# What the operations of a pull store do to the others

For each operation that changes the store: what every other process can still rely on
(`Rely`) and that the invariant stays (`Inv`), each with what the operation needs for it. A
record is written where it has not ended (`write_effect`), a lock is let go with the cancel of
a job that has not ended in place (`release_effect`), a cancel is deleted by the holder or once
the job has ended (`clear_rely`), a job is created under its claim and alone (`create_effect`).
-/

namespace Hedos.Install

open Programs Function

variable {terms : Terms} {i j : ℕ} {w w' w'' : World}

/-! ## What each operation does -/

/-- The part of `Rely` about the files of one job. -/
structure FileRely (j : ℕ) (old new : JobFiles) (asked asked' : Prop) : Prop where
  own : new.holder = some j ↔ old.holder = some j
  held : old.holder = some j → new.record = old.record
  frozen : old.record.going = false → new.record = old.record
  readable : old.record.readable = true → new.record.readable = true
  cancel : old.holder = some j → old.record.ended = false →
    (asked → old.control = some .cancel) → asked' → new.control = some .cancel

theorem FileRely.refl (j : ℕ) (files : JobFiles) {asked asked' : Prop} (h : asked' → asked) :
    FileRely j files files asked asked' where
  own := Iff.rfl
  held _ := rfl
  frozen _ := rfl
  readable h := h
  cancel _ _ hstands hasked := hstands (h hasked)

theorem Rely.of_files
    (hfiles : ∀ path, FileRely j (w.files path) (w'.files path) (path ∈ w.asked) (path ∈ w'.asked))
    (hjobs : ∀ path job, w.job path = some job → w'.job path = some job)
    (hclock : w.clock ≤ w'.clock) (hclaims : ∀ key, w'.claims key = some j ↔ w.claims key = some j)
    (hfenced : terms.references = true → ∀ key, w.claims key = some j → Fenced key w w') :
    Rely terms j w w' where
  own path := (hfiles path).own
  held path := (hfiles path).held
  frozen path := (hfiles path).frozen
  readable path := (hfiles path).readable
  cancel path := (hfiles path).cancel
  jobs := hjobs
  clock := hclock
  claims := hclaims
  fenced := hfenced

section Modify

variable {path : String} {change : JobFiles → JobFiles} {asked : List String}

/-- A process that changes the files of one job. -/
theorem Rely.modify (hjob : (w.job path).isSome = true)
    (hasked : ∀ other, other ≠ path → (other ∈ asked ↔ other ∈ w.asked))
    (hfiles : FileRely j (w.files path) (change (w.files path)) (path ∈ w.asked) (path ∈ asked))
    (hwaits : terms.references = true → ∀ job, w.job path = some job →
      w.claims job.key = some j → ∀ t ≤ w.clock,
      StillWaits job t (w.files path) (change (w.files path))) :
    Rely terms j w { w.modify path change with asked } := by
  have hself : ({ w.modify path change with asked } : World).files path =
      change (w.files path) := World.files_modify_self hjob change
  have hother : ∀ other, other ≠ path →
      ({ w.modify path change with asked } : World).files other = w.files other :=
    fun other hne => World.files_modify_of_ne hne change
  have hjobs : ∀ other, ({ w.modify path change with asked } : World).job other = w.job other :=
    w.job_modify path change
  refine Rely.of_files (fun other => ?_) (fun other job h => (hjobs other).trans h) le_rfl
    (fun _ => Iff.rfl) (fun hterms key hclaims =>
      ⟨fun other job h _ => (hjobs other).symm.trans h, fun other job t hjob' hkey hle => ?_⟩)
  · rcases eq_or_ne other path with rfl | hne
    · rw [hself]
      exact hfiles
    · rw [hother other hne]
      exact FileRely.refl j _ (hasked other hne).1
  · rcases eq_or_ne other path with rfl | hne
    · rw [hself]
      exact hwaits hterms job hjob' (hkey ▸ hclaims) t hle
    · rw [hother other hne]
      exact StillWaits.of_eq rfl id

theorem Inv.modify (h : Inv terms w) (hjob : (w.job path).isSome = true)
    (hasked : ∀ other, other ≠ path → (other ∈ asked ↔ other ∈ w.asked))
    (hpending : (change (w.files path)).control = some .cancel →
      (change (w.files path)).record.ended = false → path ∈ asked)
    (hheeded : terms.cancels = true → path ∈ asked → Heeded (change (w.files path)))
    (hsingle : terms.references = true → (change (w.files path)).record.going = true →
      (w.record path).going = true) :
    Inv terms { w.modify path change with asked } := by
  have hself : ({ w.modify path change with asked } : World).files path =
      change (w.files path) := World.files_modify_self hjob change
  have hother : ∀ other, other ≠ path →
      ({ w.modify path change with asked } : World).files other = w.files other :=
    fun other hne => World.files_modify_of_ne hne change
  have hjobs : ∀ other, ({ w.modify path change with asked } : World).job other = w.job other :=
    w.job_modify path change
  constructor
  · intro other hmem
    rw [hjobs]
    rcases eq_or_ne other path with rfl | hne
    · exact hjob
    · exact h.known other ((hasked other hne).1 hmem)
  · intro other
    rcases eq_or_ne other path with rfl | hne
    · rw [World.control, World.record, hself]
      exact fun hcontrol hended _ => hpending hcontrol hended
    · rw [World.control, World.record, hother other hne, hjobs]
      exact fun hcontrol hended hsome =>
        (hasked other hne).2 (h.pending other hcontrol hended hsome)
  · intro hterms other hmem
    rcases eq_or_ne other path with rfl | hne
    · rw [hself]
      exact hheeded hterms hmem
    · rw [hother other hne]
      exact h.heeded hterms other ((hasked other hne).1 hmem)
  · have hgoing : terms.references = true → ∀ other,
        (({ w.modify path change with asked } : World).record other).going = true →
        (w.record other).going = true := by
      intro hterms other
      rcases eq_or_ne other path with rfl | hne
      · rw [World.record, hself]
        exact hsingle hterms
      · rw [World.record, hother other hne]
        exact id
    intro hterms p q job job' hp hq hkey hne hgp hgq
    rw [hjobs] at hp hq
    exact h.single hterms p q job job' hp hq hkey hne (hgoing hterms p hgp) (hgoing hterms q hgq)

/-- The same with no ask added; a job that is not there is not changed. -/
theorem Rely.modify_files
    (hfiles : FileRely j (w.files path) (change (w.files path)) (path ∈ w.asked) (path ∈ w.asked))
    (hwaits : terms.references = true → ∀ job, w.job path = some job →
      w.claims job.key = some j → ∀ t ≤ w.clock,
      StillWaits job t (w.files path) (change (w.files path))) :
    Rely terms j w (w.modify path change) := by
  cases hjob : w.job path with
  | none =>
    rw [World.modify_of_none hjob]
    exact Rely.refl terms j w
  | some job =>
    have hsome : (w.job path).isSome = true := by rw [hjob]; rfl
    exact Rely.modify hsome (fun _ _ => Iff.rfl) hfiles hwaits

theorem Inv.modify_files (h : Inv terms w)
    (hpending : (change (w.files path)).control = some .cancel →
      (change (w.files path)).record.ended = false → (w.job path).isSome = true → path ∈ w.asked)
    (hheeded : terms.cancels = true → path ∈ w.asked → Heeded (change (w.files path)))
    (hsingle : terms.references = true → (change (w.files path)).record.going = true →
      (w.record path).going = true) :
    Inv terms (w.modify path change) := by
  cases hjob : w.job path with
  | none =>
    rw [World.modify_of_none hjob]
    exact h
  | some job =>
    have hsome : (w.job path).isSome = true := by rw [hjob]; rfl
    exact h.modify hsome (fun _ _ => Iff.rfl) (fun hc he => hpending hc he hsome) hheeded hsingle

end Modify

section Effects

variable {path : String}

/-- Process `j` is not the one that changes the lock or the record of a job. -/
theorem FileRely.of_record (status : PullStatus) {files : JobFiles} {asked : Prop}
    (hgoing : files.record.going = true) (hstate : status.state ≠ .unreadable)
    (hholder : files.holder ≠ some j) :
    FileRely j files { files with record := .stored status } asked asked where
  own := Iff.rfl
  held h := absurd h hholder
  frozen h := by rw [hgoing] at h; exact absurd h.symm Bool.false_ne_true
  readable _ := by simpa [RecordFile.readable] using hstate
  cancel h := absurd h hholder

variable {job : PullJob} {input : Input} {refused : Bool}

theorem World.unclaimed_of_waits {t : ℤ} (hjob : w.job path = some job)
    (hwaits : (w.files path).Waits job t) (hle : t ≤ w.clock) : w.unclaimed path = true := by
  obtain ⟨dir, hfind, rfl⟩ := Option.map_eq_some_iff.1 hjob
  have hfiles : w.files path = dir.files := by simp only [World.files, PullStore.files, hfind]
  rw [hfiles] at hwaits
  rw [World.unclaimed, hfind, Option.any_some]
  exact PullStatus.unclaimed_later hwaits hle

/-- The claim of the job's reference is in another process's hands. -/
theorem World.claimedByAnother_of_claims (hjob : w.job path = some job)
    (hclaims : w.claims job.key = some j) (hne : j ≠ i) :
    w.claimedByAnother i path = true := by
  rw [World.claimedByAnother, hjob, Option.any_some, hclaims, Option.any_some]
  exact bne_iff_ne.2 hne

theorem Terms.allows_iff {op : Op} :
    terms.allows i op input w = true ↔ w.inTurn i input op = true ∧
      (terms.cancels = true → w.heedsCancel op = true) ∧
      (terms.references = true → w.guardsReference i input op = true) := by
  unfold Terms.allows
  cases terms.cancels <;> cases terms.references <;> simp [and_assoc]

/-- What a section of process `i` owes to the others, and to the invariant. -/
structure Harmless (terms : Terms) (i : ℕ) (w w' : World) : Prop where
  others : ∀ j, j ≠ i → Rely terms j w w'
  inv : Inv terms w'

theorem Harmless.refl (h : Inv terms w) : Harmless terms i w w :=
  ⟨fun j _ => Rely.refl terms j w, h⟩

/-- A record written by the process that holds the job, or by one that meets nobody there. -/
theorem write_effect {status : PullStatus} (h : Inv terms w)
    (hallows : terms.allows i (.write path status) input w = true)
    (hgoing : (w.record path).going = true) (hstate : status.state ≠ .unreadable)
    (hfree : terms.cancels = true → w.holder path = some i → path ∈ w.asked →
      status.state = .failed → w.control path = some .cancel) :
    Harmless terms i w (w.modify path fun files => { files with record := .stored status }) := by
  obtain ⟨hturn, hheeds, hguards⟩ := Terms.allows_iff.1 hallows
  have hended : (w.record path).ended = false := (RecordFile.going_iff.1 hgoing).1
  have hturn' : w.holder path = some i ∨ w.holder path = none := by
    simp only [World.inTurn, Bool.or_eq_true, beq_iff_eq, Bool.and_eq_true,
      Option.isNone_iff_eq_none] at hturn
    exact hturn.imp_right And.left
  refine ⟨fun j hne => ?_, ?_⟩
  · have hholder : w.holder path ≠ some j := by
      rcases hturn' with hheld | hfree'
      · rw [hheld]
        exact fun heq => hne (Option.some.inj heq).symm
      · rw [hfree']
        exact nofun
    refine Rely.modify_files (FileRely.of_record status hgoing hstate hholder) ?_
    intro hterms job hjob hclaims t hle hwaits
    have hguard := hguards hterms
    simp only [World.guardsReference, World.unclaimed_of_waits hjob hwaits hle,
      World.claimedByAnother_of_claims hjob hclaims hne] at hguard
    exact .inr (by simpa [RecordFile.ended] using hguard)
  · refine h.modify_files (fun hcontrol _ hsome => h.pending path hcontrol hended hsome) ?_
      (fun _ _ => hgoing)
    intro hterms hasked
    have hold := h.heeded hterms path hasked
    have hstands : w.control path = some .cancel ∨ (w.holder path).isSome = true := by
      rcases hold with hheeded | ⟨-, hstands⟩
      · have hrecord : (w.record path).ended = true := RecordFile.ended_of_heeded hheeded
        rw [hended] at hrecord
        cases hrecord
      · exact hstands
    cases hterminal : status.state.isTerminal with
    | false => exact .inr ⟨hterminal, hstands⟩
    | true =>
      -- a failure would leave the cancel unheeded
      have hnot : status.state ≠ .failed := by
        intro hfailed
        have hheed := hheeds hterms
        simp only [World.heedsCancel, hfailed, bne_self_eq_false, Bool.false_or,
          bne_iff_ne] at hheed
        rcases hturn' with hheld | hfree'
        · exact hheed (hfree hterms hheld hasked hfailed)
        · rw [hfree'] at hstands
          exact hheed (hstands.resolve_right Bool.false_ne_true)
      refine .inl ?_
      simp only [RecordFile.heeded, Bool.or_eq_true, beq_iff_eq]
      generalize status.state = state at hterminal hnot
      cases state <;> simp_all [PullState.isTerminal]

theorem World.claim_of_taken (h : (w.claim i path refused).1 = true) :
    (w.job path).isSome = true ∧ w.holder path = none ∧ refused = false ∧
      (w.claim i path refused).2 = w.modify path fun files => { files with holder := some i } := by
  unfold World.claim at h ⊢
  split at h
  · rename_i hfree
    rw [if_pos hfree]
    exact ⟨hfree.2.1, hfree.2.2, hfree.1, rfl⟩
  · cases h

theorem World.claim_of_refused (h : (w.claim i path refused).1 = false) :
    (w.claim i path refused).2 = w := by
  unfold World.claim at h ⊢
  split at h
  · exact absurd h.symm Bool.false_ne_true
  · rename_i hnot
    rw [if_neg hnot]

/-- Taking the lock of a job nobody holds. -/
theorem claim_effect {purpose : Purpose} (h : Inv terms w)
    (hallows : terms.allows i (.claim path purpose) input w = true) :
    Harmless terms i w (w.claim i path input.refused).2 := by
  cases htaken : (w.claim i path input.refused).1 with
  | false =>
    rw [World.claim_of_refused htaken]
    exact .refl h
  | true =>
    obtain ⟨hjob, hfree, hgranted, heq⟩ := World.claim_of_taken htaken
    rw [heq]
    obtain ⟨-, -, hguards⟩ := Terms.allows_iff.1 hallows
    refine ⟨fun j hne => Rely.modify_files ?_ ?_, h.modify_files (h.pending path) ?_
      (fun _ hgoing => hgoing)⟩
    · have hnot : w.holder path ≠ some j := by rw [hfree]; exact nofun
      have hnew : (some i : Option ℕ) ≠ some j := fun heq => hne (Option.some.inj heq).symm
      exact ⟨iff_of_false hnew hnot, fun hheld => absurd hheld hnot, fun _ => rfl, fun h => h,
        fun hheld => absurd hheld hnot⟩
    · intro hterms job hjob' hclaims t hle hwaits
      have hguard := hguards hterms
      simp only [World.guardsReference, World.unclaimed_of_waits hjob' hwaits hle, hgranted, hfree,
        World.claimedByAnother_of_claims hjob' hclaims hne] at hguard
      exact absurd hguard (by decide)
    · intro hterms hasked
      rcases h.heeded hterms path hasked with hheeded | ⟨hended, -⟩
      · exact .inl hheeded
      · exact .inr ⟨hended, .inr rfl⟩

/-- Letting a lock go: the cancel of a job that has not ended has to wait there. -/
theorem release_effect (h : Inv terms w)
    (hfree : terms.cancels = true → w.holder path = some i → path ∈ w.asked →
      (w.record path).ended = false → w.control path = some .cancel) :
    Harmless terms i w (w.release i path) := by
  unfold World.release
  split
  · rename_i hheld
    refine ⟨fun j hne => Rely.modify_files ?_ ?_, h.modify_files (h.pending path) ?_
      (fun _ hgoing => hgoing)⟩
    · have hnot : w.holder path ≠ some j := by
        rw [hheld]
        exact fun heq => hne (Option.some.inj heq).symm
      exact ⟨iff_of_false (nofun) hnot, fun hheld => absurd hheld hnot,
        fun _ => rfl, fun h => h, fun hheld => absurd hheld hnot⟩
    · exact fun _ _ _ _ _ _ => StillWaits.of_eq rfl fun _ => rfl
    · intro hterms hasked
      rcases h.heeded hterms path hasked with hheeded | ⟨hended, -⟩
      · exact .inl hheeded
      · exact .inr ⟨hended, .inl (hfree hterms hheld hasked hended)⟩
  · exact .refl h

/-- Deleting the control file, seen by process `j`: a cancel of a job that has not ended is only
deleted by the process that holds it. -/
theorem clear_rely {honoured : PullControl}
    (hcancel : honoured = .cancel → (w.record path).ended = true ∨ w.holder path ≠ some j) :
    Rely terms j w (w.clear path honoured).2 := by
  unfold World.clear
  split
  · rename_i hcontrol
    refine Rely.modify_files ⟨Iff.rfl, fun _ => rfl, fun _ => rfl, fun h => h, ?_⟩
      (fun _ _ _ _ _ _ => StillWaits.of_eq rfl id)
    intro hheld hgoing hstands hasked
    change w.control path = some honoured at hcontrol
    have hcancelled : honoured = .cancel := Option.some.inj (hcontrol.symm.trans (hstands hasked))
    rcases hcancel hcancelled with hended | hnot
    · change (w.record path).ended = false at hgoing
      rw [hended] at hgoing
      exact absurd hgoing.symm Bool.false_ne_true
    · exact absurd hheld hnot
  · exact Rely.refl terms j w

theorem clear_inv {honoured : PullControl} (h : Inv terms w)
    (hcancel : honoured = .cancel → (w.record path).ended = true ∨ (w.holder path).isSome = true) :
    Inv terms (w.clear path honoured).2 := by
  unfold World.clear
  split
  · rename_i hcontrol
    refine h.modify_files (nofun) ?_ (fun _ hgoing => hgoing)
    intro hterms hasked
    rcases h.heeded hterms path hasked with hheeded | ⟨hended, hstands⟩
    · exact .inl hheeded
    · refine .inr ⟨hended, .inr ?_⟩
      rcases hstands with hcancel' | hheld
      · have hcancelled : honoured = .cancel :=
          Option.some.inj (hcontrol.symm.trans hcancel')
        refine (hcancel hcancelled).resolve_left ?_
        change (w.record path).ended = false at hended
        rw [hended]
        exact Bool.false_ne_true
      · exact hheld
  · exact h

/-- Asking for a stop changes nothing that anybody relies on. -/
theorem request_effect (control : PullControl) (h : Inv terms w) :
    (∀ j, Rely terms j w (w.request path control).2) ∧ Inv terms (w.request path control).2 := by
  unfold World.request
  split
  · exact ⟨fun j => Rely.refl terms j w, h⟩
  · rename_i hbehind
    cases hjob : w.job path with
    | none =>
      have hasked : (if control = .cancel ∧ (none : Option PullJob).isSome = true ∧
          (!(w.record path).ended) = true then path :: w.asked else w.asked) = w.asked :=
        if_neg fun hand => absurd hand.2.1 (by decide)
      simp only [World.modify_of_none hjob, hasked]
      exact ⟨fun j => Rely.refl terms j w, h⟩
    | some job =>
      have hsome : (w.job path).isSome = true := by rw [hjob]; rfl
      rw [← hjob]
      have hmem : ∀ other, other ≠ path →
          (other ∈ (if control = .cancel ∧ (w.job path).isSome = true ∧
            (!(w.record path).ended) = true then path :: w.asked else w.asked) ↔
            other ∈ w.asked) := by
        intro other hne
        split
        · exact ⟨fun hmem => (List.mem_cons.1 hmem).resolve_left hne, List.mem_cons_of_mem _⟩
        · exact Iff.rfl
      have hpath : path ∈ (if control = .cancel ∧ (w.job path).isSome = true ∧
            (!(w.record path).ended) = true then path :: w.asked else w.asked) →
          control = .cancel ∨ path ∈ w.asked := by
        split
        · rename_i hand
          exact fun _ => .inl hand.1
        · exact .inr
      refine ⟨fun j => Rely.modify hsome hmem ⟨Iff.rfl, fun _ => rfl, fun _ => rfl, fun h => h, ?_⟩
        (fun _ _ _ _ _ _ => StillWaits.of_eq rfl id), h.modify hsome hmem ?_ ?_ (fun _ hg => hg)⟩
      · -- a pause is not written over the cancel that was relied on
        intro _ _ hstands hasked
        rcases hpath hasked with rfl | hasked
        · rfl
        · cases control with
          | cancel => rfl
          | pause => exact absurd ⟨rfl, hstands hasked⟩ hbehind
      · intro hcontrol hended
        have hcancel : control = .cancel := Option.some.inj hcontrol
        rw [if_pos ⟨hcancel, hsome, by
          change (!(w.files path).record.ended) = true
          rw [hended]
          rfl⟩]
        exact .head _
      · intro hterms hasked
        cases hterminal : (w.record path).ended with
        | true =>
          rw [if_neg (by rw [hterminal]; simp)] at hasked
          rcases h.heeded hterms path hasked with hheeded | ⟨hended, -⟩
          · exact .inl hheeded
          · change (w.record path).ended = false at hended
            rw [hterminal] at hended
            exact absurd hended.symm Bool.false_ne_true
        | false =>
          refine .inr ⟨hterminal, ?_⟩
          cases control with
          | cancel => exact .inl rfl
          | pause =>
            rw [if_neg (by simp)] at hasked
            rcases h.heeded hterms path hasked with hheeded | ⟨-, hcancel | hheld⟩
            · have hrecord : (w.record path).ended = true := RecordFile.ended_of_heeded hheeded
              rw [hterminal] at hrecord
              cases hrecord
            · exact absurd ⟨rfl, hcancel⟩ hbehind
            · exact .inr hheld

theorem append_effect (event : PullEvent) (h : Inv terms w) :
    (∀ j, Rely terms j w (w.modify path fun files =>
      { files with events := files.events ++ [event] })) ∧
      Inv terms (w.modify path fun files => { files with events := files.events ++ [event] }) := by
  refine ⟨fun j => Rely.modify_files ?_ (fun _ _ _ _ _ _ => StillWaits.of_eq rfl id),
    h.modify_files (h.pending path) (fun hterms hasked => h.heeded hterms path hasked)
      (fun _ hgoing => hgoing)⟩
  exact ⟨Iff.rfl, fun _ => rfl, fun _ => rfl, fun h => h, fun _ _ hstands => hstands⟩

/-- Nothing but the time and the workers on their way has changed. -/
theorem Rely.of_same (hstore : w'.store = w.store) (hclaims : w'.claims = w.claims)
    (hasked : w'.asked = w.asked) (hclock : w.clock ≤ w'.clock) : Rely terms j w w' := by
  have hfiles : ∀ path, w'.files path = w.files path := fun path => by
    rw [World.files, World.files, hstore]
  have hjobs : ∀ path, w'.job path = w.job path := fun path => by
    rw [World.job, World.job, hstore]
  refine Rely.of_files (fun path => ?_) (fun path job hjob => (hjobs path).trans hjob) hclock
    (fun key => by rw [hclaims]) (fun _ key _ => ⟨fun path job hjob _ =>
      (hjobs path).symm.trans hjob, fun path job t _ _ _ => ?_⟩)
  · rw [hfiles, hasked]
    exact FileRely.refl j _ id
  · rw [hfiles]
    exact StillWaits.of_eq rfl id

theorem Inv.of_same (h : Inv terms w) (hstore : w'.store = w.store) (hasked : w'.asked = w.asked) :
    Inv terms w' := by
  have hfiles : ∀ path, w'.files path = w.files path := fun path => by
    rw [World.files, World.files, hstore]
  have hjobs : ∀ path, w'.job path = w.job path := fun path => by
    rw [World.job, World.job, hstore]
  refine ⟨?_, ?_, ?_, ?_⟩
  · simpa only [hjobs, hasked] using h.known
  · simpa only [World.control, World.record, hfiles, hjobs, hasked] using h.pending
  · simpa only [hfiles, hasked] using h.heeded
  · simpa only [World.record, hfiles, hjobs] using h.single

/-- Taking or dropping a claim, which the others do not hold. -/
theorem Rely.of_claims {claims : ModelKey → Option ℕ}
    (hclaims : ∀ key, claims key = some j ↔ w.claims key = some j) :
    Rely terms j w { w with claims } :=
  Rely.of_files (fun _ => FileRely.refl j _ id) (fun _ _ hjob => hjob) le_rfl hclaims
    (fun _ _ _ => ⟨fun _ _ hjob _ => hjob, fun _ _ _ _ _ _ => StillWaits.of_eq rfl id⟩)

theorem claimReference_effect (key : ModelKey) (refused : Bool) (h : Inv terms w) :
    Harmless terms i w (w.claimReference i key refused).2 := by
  unfold World.claimReference
  split
  · rename_i hfree
    refine ⟨fun j hne => Rely.of_claims fun other => ?_, h.of_same rfl rfl⟩
    rcases eq_or_ne other key with rfl | hother
    · rw [update_self, hfree.2]
      exact iff_of_false (fun heq => hne (Option.some.inj heq).symm) (nofun)
    · rw [update_of_ne hother]
  · exact .refl h

theorem releaseReference_effect (key : ModelKey) (h : Inv terms w) :
    Harmless terms i w (w.releaseReference i key) := by
  unfold World.releaseReference
  split
  · rename_i hheld
    refine ⟨fun j hne => Rely.of_claims fun other => ?_, h.of_same rfl rfl⟩
    rcases eq_or_ne other key with rfl | hother
    · rw [update_self, hheld]
      exact iff_of_false (nofun) (fun heq => hne (Option.some.inj heq).symm)
    · rw [update_of_ne hother]
  · exact .refl h

theorem World.files_of_none (hjob : w.job path = none) : w.files path = { record := .missing } := by
  have hfind : w.store.find path = none := Option.map_eq_none_iff.1 hjob
  simp only [World.files, PullStore.files, hfind]

/-- A new job, under the claim of its reference and with no other of it going. -/
theorem create_effect (h : Inv terms w)
    (halone : terms.references = true → w.claims job.key = some i ∧
      ∀ q job', w.job q = some job' → job'.key = job.key → (w.record q).going = false) :
    Harmless terms i w (w.create path job refused).2 := by
  unfold World.create
  split
  · rename_i hfree
    obtain ⟨-, hnone⟩ := hfree
    have hnew : w.job path = none := Option.map_eq_none_iff.2 hnone
    generalize hw' : ({ w with store := w.store.add path job hnone } : World) = w'
    have hfiles : ∀ other, w'.files other = w.files other := by
      intro other
      rw [← hw']
      exact PullStore.files_add hnone other
    have hjobs : ∀ other, w'.job other = if other = path then some job else w.job other := by
      intro other
      rw [← hw']
      exact PullStore.job_add hnone other
    have hasked : w'.asked = w.asked := by rw [← hw']
    have hkept : ∀ other known, w.job other = some known → w'.job other = some known := by
      intro other known hknown
      have hne : other ≠ path := fun heq => by
        rw [heq, hnew] at hknown
        cases hknown
      rw [hjobs, if_neg hne, hknown]
    have hclaims : w'.claims = w.claims := by rw [← hw']
    have hclock : w'.clock = w.clock := by rw [← hw']
    refine ⟨fun j hne => ?_, ?_⟩
    · refine Rely.of_files (fun other => ?_) hkept hclock.ge (fun key => by rw [hclaims])
        (fun hterms key hkey => ⟨fun other known hknown hsame => ?_,
          fun other known t _ _ _ => ?_⟩)
      · rw [hfiles, hasked]
        exact FileRely.refl j _ id
      · rcases eq_or_ne other path with rfl | hother
        · -- the reference of the new job is claimed by its creator
          rw [hjobs, if_pos rfl, Option.some.injEq] at hknown
          rw [← hsame, ← hknown, (halone hterms).1, Option.some.injEq] at hkey
          exact absurd hkey.symm hne
        · rwa [hjobs, if_neg hother] at hknown
      · rw [hfiles]
        exact StillWaits.of_eq rfl id
    · refine ⟨fun other hmem => ?_, fun other hcontrol hended hsome => ?_, ?_, ?_⟩
      · rw [hasked] at hmem
        obtain ⟨known, hknown⟩ := Option.isSome_iff_exists.1 (h.known other hmem)
        rw [hkept other known hknown]
        rfl
      · rw [World.control, hfiles] at hcontrol
        rw [World.record, hfiles] at hended
        rcases eq_or_ne other path with rfl | hother
        · rw [World.files_of_none hnew] at hcontrol
          cases hcontrol
        · rw [hjobs, if_neg hother] at hsome
          rw [hasked]
          exact h.pending other hcontrol hended hsome
      · simpa only [hfiles, hasked] using h.heeded
      · intro hterms p q known known' hp hq hkey hne hgp hgq
        rw [World.record, hfiles] at hgp hgq
        rw [hjobs] at hp hq
        have hothers := (halone hterms).2
        split at hp <;> split at hq
        · rename_i hp' hq'
          exact absurd (hp'.trans hq'.symm) hne
        · cases hp
          have hended := hothers q known' hq hkey.symm
          rw [World.record, hgq] at hended
          exact absurd hended.symm Bool.false_ne_true
        · cases hq
          have hended := hothers p known hp hkey
          rw [World.record, hgp] at hended
          exact absurd hended.symm Bool.false_ne_true
        · exact h.single hterms p q known known' hp hq hkey hne hgp hgq
  · exact .refl h

/-- A process that dies lets go of everything. -/
theorem reap_effect (h : Inv terms w) (hspares : terms.spares i w = true) :
    Inv terms (w.reap i) ∧ ∀ j, j ≠ i → Rely terms j w (w.reap i) := by
  have hfiles : ∀ path, (w.reap i).files path =
      if (w.files path).holder = some i then { w.files path with holder := none }
      else w.files path := w.store.files_letGo i
  have hjobs : ∀ path, (w.reap i).job path = w.job path := w.store.job_letGo i
  have hrecord : ∀ path, (w.reap i).record path = w.record path := by
    intro path
    rw [World.record, hfiles]
    split <;> rfl
  have hcontrol : ∀ path, (w.reap i).control path = w.control path := by
    intro path
    rw [World.control, hfiles]
    split <;> rfl
  refine ⟨⟨fun path hmem => ?_, fun path => ?_, fun hterms path hmem => ?_, ?_⟩, fun j hne => ?_⟩
  · rw [hjobs]
    exact h.known path hmem
  · rw [hcontrol, hrecord, hjobs]
    exact h.pending path
  · rw [hfiles]
    split
    · rename_i hheld
      rcases h.heeded hterms path hmem with hheeded | ⟨hended, -⟩
      · exact .inl hheeded
      · refine .inr ⟨hended, .inl ?_⟩
        -- the process was not in between
        obtain ⟨job, hjob⟩ := Option.isSome_iff_exists.1 (h.known path hmem)
        obtain ⟨dir, hfind, -⟩ := Option.map_eq_some_iff.1 hjob
        obtain ⟨hdir, hpath⟩ := PullStore.find_eq_some hfind
        have hsame : w.files path = dir.files := by
          simp only [World.files, PullStore.files, hfind]
        have hspares' : w.sparesAsked i = true := by
          simpa [Terms.spares, hterms] using hspares
        have hdir' := List.all_eq_true.1 hspares' dir hdir
        have hcontains : w.asked.contains path = true := List.contains_iff_mem.2 hmem
        rw [← hsame, hpath, hheld, hended, hcontains] at hdir'
        simpa using hdir'
    · exact h.heeded hterms path hmem
  · simpa only [hjobs, hrecord] using h.single
  · refine Rely.of_files (fun path => ?_) (fun path job hjob => (hjobs path).trans hjob) le_rfl
      (fun key => ?_) (fun _ key _ => ⟨fun path job hjob _ => (hjobs path).symm.trans hjob,
        fun path job t _ _ _ => StillWaits.of_eq (hrecord path) ?_⟩)
    · rw [hfiles]
      split
      · rename_i hheld
        have hnot : (w.files path).holder ≠ some j := by
          rw [hheld]
          exact fun heq => hne (Option.some.inj heq).symm
        exact ⟨iff_of_false (fun heq => by cases heq) hnot, fun hheld => absurd hheld hnot,
          fun _ => rfl, fun h => h, fun hheld => absurd hheld hnot⟩
      · exact FileRely.refl j _ id
    · change (if w.claims key = some i then none else w.claims key) = some j ↔ _
      split
      · rename_i hclaim
        rw [hclaim]
        exact iff_of_false (fun heq => by cases heq) (fun heq => hne (Option.some.inj heq).symm)
      · exact Iff.rfl
    · intro hnone
      rw [hfiles]
      split
      · rfl
      · exact hnone

end Effects

/-! ## The contract -/

theorem World.launch_same {command : Command} (h : w.launch command = some w') :
    w'.store = w.store ∧ w'.claims = w.claims ∧ w'.asked = w.asked ∧ w'.clock = w.clock := by
  unfold World.launch at h
  split at h
  · split at h
    · cases h
      exact ⟨rfl, rfl, rfl, rfl⟩
    · cases h
  · cases h
    exact ⟨rfl, rfl, rfl, rfl⟩

/-- Clients and workers that keep the conditions `terms`. -/
def contract (worker : PullWorker) (terms : Terms) : Contract (machine worker) where
  inv := Inv terms
  rely := Rely terms
  fresh := Idle
  allows := terms.allows
  spares := terms.spares
  refl := Rely.refl terms
  trans := Rely.trans
  fresh_rely hrely hidle := hidle.rely hrely
  launched hlaunch hinv := by
    obtain ⟨hstore, hclaims, hasked, hclock⟩ := World.launch_same hlaunch
    exact ⟨hinv.of_same hstore hasked, fun i => Rely.of_same hstore hclaims hasked hclock.ge⟩
  drifted := by
    intro w w' later hdrift hinv
    cases hdrift
    refine ⟨hinv.of_same rfl rfl, fun i => Rely.of_same rfl rfl rfl ?_⟩
    change w.clock ≤ w.clock + later
    omega
  reaped hspares hinv := reap_effect hinv hspares

end Hedos.Install
