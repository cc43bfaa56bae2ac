import Hedos.Install.PullEffects

/-!
# The steps of a pull job under the contract

What the functions shared by clients and workers need and leave, as weakest preconditions under
`contract`. Readings are silent (`Quiet`). `updateStatus_spec` is the one rule about a record: it
is written where it has not ended, by the process that holds the job or where nobody does. A
process that holds a job is `Working` on it while the record is going; it `owes` the job its
ending once it has deleted the cancel the job was asked for. `Settled` is what it takes to let
the job go.
-/

namespace Hedos.Install

open Programs

variable {worker : PullWorker} {terms : Terms} {i : ℕ} {w w' : World}

/-! ## Silent operations -/

theorem silent_of_same {op : Op} (h : ∀ i input w, (exec i op input w).2 = w) :
    Silent (contract worker terms) op := by
  intro i input w hinv
  change Inv terms (exec i op input w).2 ∧ ∀ j, Rely terms j w (exec i op input w).2
  rw [h]
  exact ⟨hinv, fun j => Rely.refl terms j w⟩

theorem silent_now : Silent (contract worker terms) .now := silent_of_same fun _ _ _ => rfl

theorem silent_pid : Silent (contract worker terms) .pid := silent_of_same fun _ _ _ => rfl

theorem silent_jobs : Silent (contract worker terms) .jobs := silent_of_same fun _ _ _ => rfl

variable (path : String)

theorem silent_descriptor : Silent (contract worker terms) (.descriptor path) :=
  silent_of_same fun _ _ _ => rfl

theorem silent_read : Silent (contract worker terms) (.read path) :=
  silent_of_same fun _ _ _ => rfl

theorem silent_probe : Silent (contract worker terms) (.probe path) :=
  silent_of_same fun _ _ _ => rfl

theorem silent_control : Silent (contract worker terms) (.control path) :=
  silent_of_same fun _ _ _ => rfl

theorem silent_hear (question : Question) : Silent (contract worker terms) (.hear question) :=
  silent_of_same fun _ _ _ => rfl

theorem silent_append (event : PullEvent) :
    Silent (contract worker terms) (.append path event) := by
  intro i input w hinv
  obtain ⟨hrely, hinv'⟩ := append_effect event hinv
  exact ⟨hinv', hrely⟩

theorem silent_spawn : Silent (contract worker terms) (.spawn path) := by
  intro i input w hinv
  change Inv terms (exec i (.spawn path) input w).2 ∧
    ∀ j, Rely terms j w (exec i (.spawn path) input w).2
  unfold exec
  cases input.said .spawned with
  | ok pid => exact ⟨hinv.of_same rfl rfl, fun j => Rely.of_same rfl rfl rfl le_rfl⟩
  | error reason => exact ⟨hinv, fun j => Rely.refl terms j w⟩

theorem silent_request (control : PullControl) :
    Silent (contract worker terms) (.request path control) := by
  intro i input w hinv
  change Inv terms (exec i (.request path control) input w).2 ∧
    ∀ j, Rely terms j w (exec i (.request path control) input w).2
  unfold exec
  cases input.busy with
  | true => exact ⟨hinv, fun j => Rely.refl terms j w⟩
  | false => exact (request_effect control hinv).symm

/-- A pause may be deleted by anybody. -/
theorem silent_clear_pause : Silent (contract worker terms) (.clear path .pause) :=
  fun _ _ _ hinv => ⟨clear_inv hinv fun h => absurd h (by decide),
    fun _ => clear_rely fun h => absurd h (by decide)⟩

theorem silent_clearWithin_pause : Silent (contract worker terms) (.clearWithin path .pause) := by
  intro i input w hinv
  change Inv terms (exec i (.clearWithin path .pause) input w).2 ∧
    ∀ j, Rely terms j w (exec i (.clearWithin path .pause) input w).2
  unfold exec
  cases input.busy with
  | true => exact ⟨hinv, fun j => Rely.refl terms j w⟩
  | false => exact silent_clear_pause path i input w hinv

/-! ## Readings -/

section Readings

variable (dir : PullJobDir)

theorem quiet_pure {α : Type} (a : α) : Quiet (contract worker terms) (pure a : Act α) := trivial

theorem quiet_now : Quiet (contract worker terms) nowMillis := Quiet.ask silent_now

theorem quiet_jobs : Quiet (contract worker terms) jobs := Quiet.ask silent_jobs

theorem quiet_storedStatus : Quiet (contract worker terms) dir.storedStatus :=
  (Quiet.ask (silent_read dir.path)).bind fun _ => quiet_pure _

theorem quiet_storedEnded : Quiet (contract worker terms) dir.storedEnded :=
  (quiet_storedStatus dir).bind fun _ => quiet_pure _

theorem quiet_workerAlive : Quiet (contract worker terms) dir.workerAlive :=
  Quiet.ask (silent_probe dir.path)

theorem quiet_control : Quiet (contract worker terms) dir.control :=
  Quiet.ask (silent_control dir.path)

theorem quiet_heldOrEnded : Quiet (contract worker terms) dir.heldOrEnded := by
  refine (quiet_workerAlive dir).bind fun alive => ?_
  split
  · exact quiet_pure _
  · exact quiet_storedEnded dir

theorem quiet_controlIf (look : Bool) : Quiet (contract worker terms) (dir.controlIf look) := by
  unfold PullJobDir.controlIf
  split
  · exact quiet_control dir
  · exact quiet_pure _

theorem quiet_append (kind : PullEventKind) (now : ℤ) :
    Quiet (contract worker terms) (dir.append kind now) :=
  Quiet.ask (silent_append dir.path _)

theorem quiet_status : Quiet (contract worker terms) dir.status := by
  refine (quiet_storedStatus dir).bind fun stored => ?_
  split
  · exact (quiet_workerAlive dir).bind fun _ => quiet_pure _
  · exact quiet_pure _

theorem quiet_abandonedBy (status : PullStatus) (now graceMs : ℤ) :
    Quiet (contract worker terms) (dir.abandonedBy status now graceMs) := by
  unfold PullJobDir.abandonedBy
  split
  · exact (quiet_workerAlive dir).bind fun _ => quiet_pure _
  · exact quiet_pure _

variable (now : ℤ)

theorem quiet_shown : Quiet (contract worker terms) (dir.shown now) :=
  (quiet_status dir).bind fun status =>
    (quiet_abandonedBy dir status now startGraceMs).bind fun _ => quiet_pure _

theorem quiet_takesPart : Quiet (contract worker terms) (dir.takesPart now) :=
  (quiet_shown dir now).bind fun _ => quiet_pure _

theorem quiet_replacedBy (other : PullJobDir) :
    Quiet (contract worker terms) (dir.replacedBy now other) := by
  unfold PullJobDir.replacedBy
  split
  · refine (quiet_takesPart other now).bind fun going => ?_
    split
    · exact quiet_pure _
    · exact (quiet_storedStatus other).bind fun _ => quiet_pure _
  · exact quiet_pure _

theorem quiet_anyOf {p : PullJobDir → Act Bool} (h : ∀ dir, Quiet (contract worker terms) (p dir))
    (dirs : List PullJobDir) : Quiet (contract worker terms) (PullJobDir.anyOf p dirs) := by
  induction dirs with
  | nil => exact quiet_pure _
  | cons first dirs ih =>
    refine (h first).bind fun found => ?_
    split
    · exact quiet_pure _
    · exact ih

theorem quiet_pulledAgain : Quiet (contract worker terms) (dir.pulledAgain now) :=
  quiet_jobs.bind fun others => quiet_anyOf (quiet_replacedBy dir now) others

theorem quiet_reading : Quiet (contract worker terms) (dir.reading now) := by
  refine (quiet_shown dir now).bind fun shown => ?_
  split
  · exact (quiet_pulledAgain dir now).bind fun _ => quiet_pure _
  · exact quiet_pure _

theorem quiet_takenUp (pausedToo : Bool) (now : ℤ) (dirs : List PullJobDir) :
    Quiet (contract worker terms) (takenUp pausedToo now dirs) := by
  induction dirs with
  | nil => exact quiet_pure _
  | cons first dirs ih =>
    refine (quiet_reading first now).bind fun reading => ih.bind fun others => ?_
    split <;> exact quiet_pure _

theorem quiet_firstGoing (dirs : List PullJobDir) :
    Quiet (contract worker terms) (firstGoing now dirs) := by
  induction dirs with
  | nil => exact quiet_pure _
  | cons first dirs ih =>
    refine (quiet_takesPart first now).bind fun going => ?_
    split
    · exact quiet_pure _
    · exact ih

theorem quiet_underWay (plan : InstallPlan) (now : ℤ) :
    Quiet (contract worker terms) (underWay plan now) :=
  quiet_jobs.bind fun _ => quiet_firstGoing now _

end Readings

/-! ## The job in hand -/

/-- Process `i` holds the job at `path` and no other. -/
def Holds (i : ℕ) (path : String) (w : World) : Prop :=
  ∀ other, w.holder other = some i ↔ other = path

/-- Process `i` holds no job. -/
def Lockless (i : ℕ) (w : World) : Prop := ∀ path, w.holder path ≠ some i

/-- Process `i` holds the job and its record is going; unless it owes the ending, a cancel the
job was asked for still waits. -/
structure Working (terms : Terms) (i : ℕ) (path : String) (owes : Bool) (w : World) : Prop where
  held : Holds i path w
  going : (w.record path).going = true
  free : owes = false → terms.cancels = true → path ∈ w.asked → w.control path = some .cancel

/-- Process `i` holds the job and can let it go. -/
structure Settled (terms : Terms) (i : ℕ) (path : String) (w : World) : Prop where
  held : Holds i path w
  free : terms.cancels = true → path ∈ w.asked → (w.record path).ended = false →
    w.control path = some .cancel

/-- Process `i` holds the job, which has ended. -/
structure Over (i : ℕ) (path : String) (w : World) : Prop where
  held : Holds i path w
  ended : (w.record path).ended = true

section Hand

variable {path : String} {owes : Bool}

theorem Holds.self (h : Holds i path w) : w.holder path = some i := (h path).2 rfl

theorem Holds.rely (h : Holds i path w) (hrely : Rely terms i w w') : Holds i path w' :=
  fun other => (hrely.own other).trans (h other)

theorem Lockless.rely (h : Lockless i w) (hrely : Rely terms i w w') : Lockless i w' :=
  fun path hheld => h path ((hrely.own path).1 hheld)

theorem Working.rely (h : Working terms i path owes w) (hrely : Rely terms i w w') :
    Working terms i path owes w' where
  held := h.held.rely hrely
  going := (hrely.held path h.held.self).symm ▸ h.going
  free howes hterms := hrely.cancel path h.held.self (RecordFile.going_iff.1 h.going).1
    (h.free howes hterms)

theorem Working.owing (h : Working terms i path owes w) : Working terms i path true w :=
  ⟨h.held, h.going, fun hfalse => absurd hfalse (by decide)⟩

theorem Working.settled (h : Working terms i path false w) : Settled terms i path w :=
  ⟨h.held, fun hterms hasked _ => h.free rfl hterms hasked⟩

theorem Over.rely (h : Over i path w) (hrely : Rely terms i w w') : Over i path w' :=
  ⟨h.held.rely hrely, (hrely.held path h.held.self).symm ▸ h.ended⟩

theorem Over.settled (h : Over i path w) : Settled terms i path w :=
  ⟨h.held, fun _ _ hended => absurd (h.ended.symm.trans hended) (by decide)⟩

theorem Settled.rely (h : Settled terms i path w) (hrely : Rely terms i w w') :
    Settled terms i path w' := by
  refine ⟨h.held.rely hrely, fun hterms hasked hended => ?_⟩
  have hended' : (w.record path).ended = false := hrely.held path h.held.self ▸ hended
  exact hrely.cancel path h.held.self hended' (fun hasked => h.free hterms hasked hended') hasked

/-- A job that somebody holds is there. -/
theorem World.job_isSome_of_holder (h : w.holder path = some i) : (w.job path).isSome = true := by
  cases hjob : w.job path with
  | some job => rfl
  | none =>
    rw [World.holder, World.files_of_none hjob] at h
    cases h

/-- Rewriting the record of a job moves no lock. -/
theorem World.holder_write (w : World) (path other : String) (status : PullStatus) :
    (w.modify path fun files => { files with record := .stored status }).holder other =
      w.holder other := by
  rcases eq_or_ne other path with rfl | hne
  · cases hjob : w.job other with
    | none => rw [World.modify_of_none hjob]
    | some job =>
      rw [World.holder, World.files_modify_self (by rw [hjob]; rfl)]
      rfl
  · rw [World.holder, World.files_modify_of_ne hne]
    rfl

theorem Holds.write (h : Holds i path w) (status : PullStatus) :
    Holds i path (w.modify path fun files => { files with record := .stored status }) :=
  fun other => by rw [World.holder_write]; exact h other

theorem Lockless.write (h : Lockless i w) (status : PullStatus) :
    Lockless i (w.modify path fun files => { files with record := .stored status }) :=
  fun other => by rw [World.holder_write]; exact h other

theorem Working.write (h : Working terms i path owes w) {status : PullStatus}
    (hgoing : status.state.going = true) :
    Working terms i path owes
      (w.modify path fun files => { files with record := .stored status }) := by
  have hfiles := World.files_modify_self (World.job_isSome_of_holder h.held.self)
    fun files => { files with record := .stored status }
  refine ⟨h.held.write status, ?_, fun howes hterms hasked => ?_⟩
  · rw [World.record, hfiles]
    exact hgoing
  · rw [World.control, hfiles]
    exact h.free howes hterms hasked

theorem Holds.ended (h : Holds i path w) {status : PullStatus}
    (hterminal : status.state.isTerminal = true) :
    Over i path (w.modify path fun files => { files with record := .stored status }) := by
  have hfiles := World.files_modify_self (World.job_isSome_of_holder h.self)
    fun files => { files with record := .stored status }
  refine ⟨h.write status, ?_⟩
  rw [World.record, hfiles]
  exact hterminal

end Hand

/-! ## The record -/

section Record

variable {dir : PullJobDir} {now : ℤ} {change : PullStatus → PullStatus}

/-- What is read of a job's record. -/
theorem storedStatus_spec {fails : WorkerError → World → Prop} (w : World) :
    wp (contract worker terms) i dir.storedStatus
      (fun stored w' => Rely terms i w w' ∧
        stored = (w'.record dir.path).storedStatus dir.job.createdAtMs)
      fails w :=
  wp_bind (wp_silent (silent_read dir.path) fun _ hrely _ _ _ => ⟨hrely, rfl⟩)

/-- Writing a record back: by the process that holds the job, whose record has not ended, or
where nobody holds it. The world is as the others left it but for the record. -/
theorem updateStatus_spec
    (hheld : w.holder dir.path = some i → (w.record dir.path).ended = false)
    (hchange : ∀ old, old.state ≠ .unreadable → (change old).state ≠ .unreadable)
    (hfree : w.holder dir.path = some i →
      (∃ old, old.state.going = true ∧ (change old).state = .failed) →
      terms.cancels = true → dir.path ∈ w.asked → w.control dir.path = some .cancel) :
    wp (contract worker terms) i (dir.updateStatus now change)
      (fun new w' => ∃ old w₁, Rely terms i w w₁ ∧ (w₁.record dir.path).going = true ∧
        old.state ≠ .unreadable ∧ (w.holder dir.path = some i →
          old = (w.record dir.path).storedStatus dir.job.createdAtMs) ∧
        new = { change old with updatedAtMs := now } ∧
        w' = w₁.modify dir.path fun files => { files with record := .stored new })
      (fun _ w' => Rely terms i w w' ∧ (w'.record dir.path).readable = false) w := by
  refine wp_then (storedStatus_spec w) ?_
  rintro old w₁ ⟨hrely, hold⟩
  split
  · rename_i hunreadable
    rw [hold] at hunreadable
    exact ⟨hrely, RecordFile.state_eq_unreadable.1 hunreadable⟩
  · rename_i hreadable
    have hreadable' : (w₁.record dir.path).readable = true := by
      have hnot := mt RecordFile.state_eq_unreadable.2 (hold ▸ hreadable)
      simpa using hnot
    refine wp_bind (wp_ask fun w₂ hrely' hinv input hallows => ?_)
    have hrely₂ : Rely terms i w w₂ := hrely.trans hrely'
    have hgoing : (w₂.record dir.path).going = true := by
      refine RecordFile.going_iff.2 ⟨?_, hrely'.readable dir.path hreadable'⟩
      have hturn := (Terms.allows_iff.1 hallows).1
      simp only [World.inTurn, Bool.or_eq_true, beq_iff_eq, Bool.and_eq_true,
        Bool.not_eq_true'] at hturn
      rcases hturn with hmine | ⟨-, hended⟩
      · have hmine' := (hrely₂.own dir.path).1 hmine
        rw [hrely₂.held dir.path hmine']
        exact hheld hmine'
      · exact hended
    obtain ⟨hothers, hinv'⟩ := write_effect hinv hallows hgoing (hchange old hreadable) (by
      intro hterms hmine hasked hfailed
      have hmine' := (hrely₂.own dir.path).1 hmine
      have hsame : w₁.record dir.path = w₂.record dir.path :=
        (hrely'.held dir.path ((hrely.own dir.path).2 hmine')).symm
      have hgoing' : old.state.going = true := by
        rw [hold, RecordFile.going_storedStatus, hsame, hgoing]
      exact hrely₂.cancel dir.path hmine' (hheld hmine')
        (hfree hmine' ⟨old, hgoing', hfailed⟩ hterms) hasked)
    refine ⟨hothers, hinv', old, w₂, hrely₂, hgoing, hreadable, fun hmine => ?_, rfl, rfl⟩
    rw [hold, hrely.held dir.path hmine]

variable {owes : Bool} {fails : WorkerError → World → Prop}

/-- A change that keeps the state, by the process that holds the job. -/
theorem updateStatus_keeps (hkeeps : ∀ old, (change old).state = old.state)
    (h : Working terms i dir.path owes w) :
    wp (contract worker terms) i (dir.updateStatus now change)
      (fun _ => Working terms i dir.path owes) fails w := by
  obtain ⟨hended, hreadable⟩ := RecordFile.going_iff.1 h.going
  refine wp_mono (updateStatus_spec (fun _ => hended)
    (fun old hold => by rw [hkeeps]; exact hold) ?_) ?_ ?_
  · rintro - ⟨old, hgoing, hfailed⟩
    rw [hkeeps] at hfailed
    rw [hfailed] at hgoing
    exact absurd hgoing (by decide)
  · rintro new _ ⟨old, w₁, hrely, -, -, hold, rfl, rfl⟩
    refine (h.rely hrely).write ?_
    change (change old).state.going = true
    rw [hkeeps, hold h.held.self, RecordFile.going_storedStatus]
    exact h.going
  · rintro error w' ⟨hrely, hunreadable⟩
    rw [hrely.readable dir.path hreadable] at hunreadable
    exact absurd hunreadable.symm Bool.false_ne_true

/-- A change of the state, by the process that holds the job. -/
theorem updateStatus_sets {state : PullState} (hsets : ∀ old, (change old).state = state)
    (hstate : state ≠ .unreadable) (howes : state = .failed → owes = false)
    (h : Working terms i dir.path owes w) :
    wp (contract worker terms) i (dir.updateStatus now change)
      (fun _ w' => (state.isTerminal = true → Over i dir.path w') ∧
        (state.isTerminal = false → Working terms i dir.path owes w')) fails w := by
  obtain ⟨hended, hreadable⟩ := RecordFile.going_iff.1 h.going
  refine wp_mono (updateStatus_spec (fun _ => hended)
    (fun old _ => by rw [hsets]; exact hstate) ?_) ?_ ?_
  · rintro - ⟨old, -, hfailed⟩
    rw [hsets] at hfailed
    exact h.free (howes hfailed)
  · rintro new _ ⟨old, w₁, hrely, -, -, -, rfl, rfl⟩
    refine ⟨fun hterminal => (h.held.rely hrely).ended ?_, fun hgoing => (h.rely hrely).write ?_⟩
    · change (change old).state.isTerminal = true
      rw [hsets]
      exact hterminal
    · change (change old).state.going = true
      rw [hsets, PullState.going, hgoing]
      exact bne_iff_ne.2 hstate
  · rintro error w' ⟨hrely, hunreadable⟩
    rw [hrely.readable dir.path hreadable] at hunreadable
    exact absurd hunreadable.symm Bool.false_ne_true

end Record

/-! ## Locks and asks -/

section Locks

variable {dir : PullJobDir} {path : String} {owes : Bool} {fails : WorkerError → World → Prop}

/-- Taking a job's lock. What was asked of the job by then waits, unless the job has ended; a
worker finds it not ended. -/
theorem claim_spec {purpose : Purpose} (h : Lockless i w) :
    wp (contract worker terms) i (perform (.claim path purpose))
      (fun taken w' => (taken = false → Lockless i w') ∧ (taken = true → Settled terms i path w' ∧
        (purpose = .hold → (w'.record path).ended = false))) fails w := by
  refine wp_ask fun w₁ hrely hinv input hallows => ?_
  obtain ⟨hothers, hinv'⟩ := claim_effect hinv hallows
  refine ⟨hothers, hinv', fun hrefused => ?_, fun htaken => ?_⟩
  · change Lockless i (w₁.claim i path input.refused).2
    rw [World.claim_of_refused hrefused]
    exact h.rely hrely
  · obtain ⟨hjob, hfree, hrefused, heq⟩ := World.claim_of_taken htaken
    change Settled terms i path (w₁.claim i path input.refused).2 ∧
      (purpose = .hold → ((w₁.claim i path input.refused).2.record path).ended = false)
    rw [heq]
    have hfiles := World.files_modify_self hjob fun files => { files with holder := some i }
    refine ⟨⟨fun other => ?_, fun hterms hasked hended => ?_⟩, ?_⟩
    · rcases eq_or_ne other path with rfl | hne
      · rw [World.holder, hfiles]
        exact iff_of_true rfl rfl
      · rw [World.holder, World.files_modify_of_ne hne]
        exact iff_of_false (h.rely hrely other) hne
    · rw [World.record, hfiles] at hended
      rw [World.control, hfiles]
      rcases hinv.heeded hterms path hasked with hheeded | ⟨-, hcancel | hheld⟩
      · exact absurd ((RecordFile.ended_of_heeded hheeded).symm.trans hended) (by decide)
      · exact hcancel
      · change (w₁.holder path).isSome = true at hheld
        rw [hfree] at hheld
        exact absurd hheld (by decide)
    · rintro rfl
      have hturn := (Terms.allows_iff.1 hallows).1
      rw [World.record, hfiles]
      change (w₁.record path).ended = false
      simpa [World.inTurn, hrefused, hfree] using hturn

theorem release_spec (h : Settled terms i path w) :
    wp (contract worker terms) i (perform (.release path)) (fun _ => Lockless i) fails w := by
  refine wp_ask fun w₁ hrely hinv input _ => ?_
  have h₁ := h.rely hrely
  obtain ⟨hothers, hinv'⟩ := release_effect hinv fun hterms _ hasked hended =>
    h₁.free hterms hasked hended
  refine ⟨hothers, hinv', fun other => ?_⟩
  change (w₁.release i path).holder other ≠ some i
  rw [World.release, if_pos h₁.held.self]
  rcases eq_or_ne other path with rfl | hne
  · rw [World.holder, World.files_modify_self (World.job_isSome_of_holder h₁.held.self)]
    exact nofun
  · rw [World.holder, World.files_modify_of_ne hne]
    exact fun hheld => hne ((h₁.held other).1 hheld)

/-- What is done under a job's lock leaves a job that can be let go. -/
theorem whileHeld_spec {α : Type} {body : Act α}
    (h : wp (contract worker terms) i body (fun _ => Settled terms i dir.path)
      (fun _ => Settled terms i dir.path) w) :
    wp (contract worker terms) i (dir.whileHeld body) (fun _ => Lockless i)
      (fun _ => Lockless i) w :=
  wp_andThen (wp_mono h (fun _ _ hsettled => release_spec hsettled)
    (fun _ _ hsettled => release_spec hsettled))

/-- Deleting a cancel, by the process that holds the job, is a debt. -/
theorem clearControl_spec (control : PullControl) (h : Working terms i dir.path owes w) :
    wp (contract worker terms) i (dir.clearControl control)
      (fun _ => Working terms i dir.path (owes || control == .cancel)) fails w := by
  cases control with
  | pause =>
    refine wp_silent (silent_clear_pause dir.path) fun w₁ _ _ _ hrely => ?_
    rw [show (PullControl.pause == .cancel) = false from rfl, Bool.or_false]
    exact h.rely hrely
  | cancel =>
    refine wp_ask fun w₁ hrely hinv input _ => ?_
    have h₁ := h.rely hrely
    have hheld := h₁.held.self
    refine ⟨fun j hne => clear_rely fun _ => .inr ?_, clear_inv hinv fun _ => .inr ?_, ?_⟩
    · rw [hheld]
      exact fun heq => hne (Option.some.inj heq).symm
    · rw [hheld]
      rfl
    · change Working terms i dir.path _ (w₁.clear dir.path .cancel).2
      rw [show (PullControl.cancel == .cancel) = true from rfl, Bool.or_true]
      unfold World.clear
      split
      · have hfiles : ∀ other, ((w₁.modify dir.path fun files =>
            { files with control := none }).files other).holder = (w₁.files other).holder ∧
            ((w₁.modify dir.path fun files =>
              { files with control := none }).files other).record = (w₁.files other).record := by
          intro other
          rcases eq_or_ne other dir.path with rfl | hne
          · rw [World.files_modify_self (World.job_isSome_of_holder hheld)]
            exact ⟨rfl, rfl⟩
          · rw [World.files_modify_of_ne hne]
            exact ⟨rfl, rfl⟩
        refine ⟨fun other => ?_, ?_, fun hfalse => absurd hfalse (by decide)⟩
        · rw [World.holder, (hfiles other).1]
          exact h₁.held other
        · rw [World.record, (hfiles dir.path).2]
          exact h₁.going
      · exact h₁.owing

/-- Deleting a control file of a job that has ended changes nothing for anybody. -/
theorem clearControlWithin_spec (control : PullControl)
    (hended : (w.record dir.path).ended = true) :
    wp (contract worker terms) i (dir.clearControlWithin control)
      (fun _ => Rely terms i w) (fun _ => Rely terms i w) w := by
  have hfrozen : (w.record dir.path).going = false := by simp [RecordFile.going, hended]
  have hclear : wp (contract worker terms) i (perform (.clearWithin dir.path control))
      (fun _ => Rely terms i w) (fun _ => Rely terms i w) w := by
    refine wp_ask fun w₁ hrely hinv input _ => ?_
    have hended₁ : (w₁.record dir.path).ended = true := hrely.frozen dir.path hfrozen ▸ hended
    change (∀ j, j ≠ i → Rely terms j w₁ (exec i (.clearWithin dir.path control) input w₁).2) ∧
      Inv terms (exec i (.clearWithin dir.path control) input w₁).2 ∧
      Rely terms i w (exec i (.clearWithin dir.path control) input w₁).2
    unfold exec
    cases input.busy with
    | true => exact ⟨fun j _ => Rely.refl terms j w₁, hinv, hrely⟩
    | false => exact ⟨fun j _ => clear_rely fun _ => .inl hended₁,
        clear_inv hinv fun _ => .inl hended₁, hrely.trans (clear_rely fun _ => .inl hended₁)⟩
  refine wp_then hclear fun answer w₁ hrely => ?_
  cases answer with
  | none => exact hrely
  | some waiting => exact hrely

end Locks

end Hedos.Install
