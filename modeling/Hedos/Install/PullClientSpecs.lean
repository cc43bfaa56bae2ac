import Hedos.Install.PullSpecs

/-!
# Clients keep the contract

A client holds no job between its calls (`Lockless`), and takes one only for a rewrite of its
record. Each function here is shown to start and end that way, and to keep the contract with
every operation in between: `stop_spec` and `stopAndReport_spec` for asking, `restart_spec` and
`resumeAll_spec` for putting workers back, `settleSuperseded_spec` for writing a reading down.
-/

namespace Hedos.Install

open Programs

variable {worker : PullWorker} {terms : Terms} {i : ℕ} {w w' : World} {dir : PullJobDir}

/-! ## Settling without a worker -/

/-- A record written where the process holds nothing. -/
theorem updateStatus_lockless {now : ℤ} {change : PullStatus → PullStatus} {state : PullState}
    (hsets : ∀ old, (change old).state = state) (hstate : state ≠ .unreadable) (h : Lockless i w) :
    wp (contract worker terms) i (dir.updateStatus now change)
      (fun _ w' => Lockless i w' ∧ (state.isTerminal = true → (w.job dir.path).isSome = true →
        (w'.record dir.path).ended = true)) (fun _ => Lockless i) w := by
  refine wp_mono (updateStatus_spec (fun hheld => absurd hheld (h dir.path))
    (fun old _ => by rw [hsets]; exact hstate) (fun hheld => absurd hheld (h dir.path))) ?_
    (fun _ _ hfails => h.rely hfails.1)
  rintro new _ ⟨old, w₁, hrely, -, -, -, rfl, rfl⟩
  refine ⟨(h.rely hrely).write _, fun hterminal hjob => ?_⟩
  obtain ⟨job, hjob⟩ := Option.isSome_iff_exists.1 hjob
  have hjob₁ : (w₁.job dir.path).isSome = true := by rw [hrely.jobs dir.path job hjob]; rfl
  rw [World.record, World.files_modify_self hjob₁]
  change (change old).state.isTerminal = true
  rw [hsets]
  exact hterminal

theorem fail_lockless (message : String) (h : Lockless i w) :
    wp (contract worker terms) i (fail dir message) (fun _ => Lockless i) (fun _ => Lockless i)
      w := by
  refine wp_quiet_then quiet_now fun now w₁ hrely => ?_
  refine wp_then (updateStatus_lockless (fun _ => rfl) (by decide) (h.rely hrely)) ?_
  rintro _ w₂ ⟨h₂, -⟩
  exact wp_mono (wp_quiet (quiet_append dir _ _) w₂) (fun _ _ hrely => h₂.rely hrely)
    (fun _ _ h => absurd h id)

variable (control : PullControl) (now : ℤ)

/-- Settling a job where the process holds nothing. -/
theorem settleHere_lockless (h : Lockless i w) (hjob : (w.job dir.path).isSome = true) :
    wp (contract worker terms) i (settleHere dir control) (fun _ => Lockless i)
      (fun _ => Lockless i) w := by
  refine wp_quiet_then quiet_now fun now w₁ hrely₁ => ?_
  refine wp_quiet_then (quiet_storedStatus dir) fun before w₂ hrely₂ => ?_
  have hrely := hrely₁.trans hrely₂
  obtain ⟨job, hjob⟩ := Option.isSome_iff_exists.1 hjob
  have hjob₂ : (w₂.job dir.path).isSome = true := by rw [hrely.jobs dir.path job hjob]; rfl
  refine wp_then (updateStatus_lockless (fun _ => rfl) (by cases control <;> decide)
    (h.rely hrely)) ?_
  rintro _ w₃ ⟨h₃, hended₃⟩
  refine wp_quiet_then (quiet_append dir _ _) fun _ w₄ hrely₄ => ?_
  split
  · rename_i hends
    have hterminal : control.resultingState.isTerminal = true := (Bool.and_eq_true_iff.1 hends).1
    have hended := hended₃ hterminal hjob₂
    have hended₄ : (w₄.record dir.path).ended = true := by
      rw [hrely₄.frozen dir.path (by simp [RecordFile.going, hended])]
      exact hended
    refine wp_then (wp_either (clearControlWithin_spec control hended₄)) fun _ w₅ hrely₅ => ?_
    exact h₃.rely (hrely₄.trans hrely₅)
  · exact h₃.rely hrely₄

/-- Settling a job the process holds. -/
theorem settleHere_held (h : Working terms i dir.path false w)
    {fails : WorkerError → World → Prop} :
    wp (contract worker terms) i (settleHere dir control) (fun _ => Settled terms i dir.path)
      fails w := by
  refine wp_quiet_then quiet_now fun now w₁ hrely₁ => ?_
  refine wp_quiet_then (quiet_storedStatus dir) fun before w₂ hrely₂ => ?_
  refine wp_then (updateStatus_sets (fun _ => rfl) (by cases control <;> decide) (fun _ => rfl)
    ((h.rely hrely₁).rely hrely₂)) ?_
  rintro _ w₃ ⟨hover, hworking⟩
  refine wp_quiet_then (quiet_append dir _ _) fun _ w₄ hrely₄ => ?_
  split
  · rename_i hends
    have hover₄ := (hover (Bool.and_eq_true_iff.1 hends).1).rely hrely₄
    refine wp_then (wp_either (clearControlWithin_spec control hover₄.ended))
      fun _ w₅ hrely₅ => ?_
    exact (hover₄.rely hrely₅).settled
  · cases hterminal : control.resultingState.isTerminal with
    | true => exact ((hover hterminal).rely hrely₄).settled
    | false => exact ((hworking hterminal).rely hrely₄).settled

/-! ## Writing a reading down -/

/-- A job in hand that has not ended and can be read is being worked on. -/
theorem Settled.working {path : String} (h : Settled terms i path w)
    (hgoing : (w.record path).going = true) : Working terms i path false w :=
  ⟨h.held, hgoing, fun _ hterms hasked =>
    h.free hterms hasked (RecordFile.going_iff.1 hgoing).1⟩

theorem writeSuperseded_spec (h : Settled terms i dir.path w) :
    wp (contract worker terms) i (dir.writeSuperseded now) (fun _ => Settled terms i dir.path)
      (fun _ => Settled terms i dir.path) w := by
  refine wp_then (storedStatus_spec w) ?_
  rintro stored w₁ ⟨hrely₁, rfl⟩
  split
  · rename_i hunclaimed
    have hworking := (h.rely hrely₁).working (RecordFile.going_of_unclaimed hunclaimed)
    refine wp_quiet_then (quiet_pulledAgain dir now) fun pulledAgain w₂ hrely₂ => ?_
    split
    · refine wp_then (updateStatus_sets (fun _ => rfl) (by decide) (fun _ => rfl)
        (hworking.rely hrely₂)) ?_
      rintro _ w₃ ⟨hover, -⟩
      refine wp_quiet_then (quiet_append dir _ _) fun _ w₄ hrely₄ => ?_
      exact ((hover rfl).rely hrely₄).settled
    · exact (hworking.rely hrely₂).settled
  · exact h.rely hrely₁

theorem settleSuperseded_spec (h : Lockless i w) :
    wp (contract worker terms) i (dir.settleSuperseded now) (fun _ => Lockless i)
      (fun _ => Lockless i) w := by
  refine wp_quiet_then (quiet_reading dir now) fun reading w₁ hrely₁ => ?_
  split
  · refine wp_then (claim_spec (h.rely hrely₁)) ?_
    rintro held w₂ ⟨hrefused, htaken⟩
    cases held with
    | true => exact whileHeld_spec (writeSuperseded_spec now (htaken rfl).1)
    | false => exact hrefused rfl
  · exact h.rely hrely₁

theorem settleSupersededOf_spec (dirs : List PullJobDir) (h : Lockless i w) :
    wp (contract worker terms) i (settleSupersededOf now dirs) (fun _ => Lockless i)
      (fun _ => Lockless i) w := by
  induction dirs generalizing w with
  | nil => exact h
  | cons first dirs ih =>
    refine wp_then (wp_either (settleSuperseded_spec now h)) fun settled w₁ h₁ => ?_
    refine wp_then (ih h₁) fun others w₂ h₂ => ?_
    split <;> exact h₂

theorem settleAllSuperseded_spec (h : Lockless i w) :
    wp (contract worker terms) i (settleSuperseded now) (fun _ => Lockless i)
      (fun _ => Lockless i) w :=
  wp_quiet_then quiet_jobs fun listed _ hrely =>
    settleSupersededOf_spec now listed (h.rely hrely)

theorem ended_spec (reading : PullReading) (now : ℤ) (h : Lockless i w) :
    wp (contract worker terms) i (ended dir reading now) (fun _ => Lockless i)
      (fun _ => Lockless i) w := by
  unfold ended
  split
  · exact wp_then (wp_either (settleSuperseded_spec now h)) fun _ _ h => h
  · exact h

/-! ## Asking for a stop -/

variable {job : PullJob}

theorem request_spec (h : Lockless i w) (hjob : w.job dir.path = some job) :
    wp (contract worker terms) i (dir.request control)
      (fun _ w' => Lockless i w' ∧ w'.job dir.path = some job) (fun _ => Lockless i) w := by
  refine wp_bind (wp_silent (silent_request dir.path control) fun w₁ _ _ input hrely => ?_)
  split
  · exact ⟨h.rely hrely, hrely.jobs dir.path job hjob⟩
  · exact h.rely hrely

theorem stop_spec (h : Lockless i w) (hjob : w.job dir.path = some job) :
    wp (contract worker terms) i (stop dir control)
      (fun _ w' => Lockless i w' ∧ w'.job dir.path = some job)
      (fun _ w' => Lockless i w' ∧ w'.job dir.path = some job) w := by
  suffices hstop : wp (contract worker terms) i (stop dir control) (fun _ => Lockless i)
      (fun _ => Lockless i) w from
    wp_frame hstop hjob fun j w w' hrely hjob => hrely.jobs dir.path job hjob
  refine wp_quiet_then quiet_now fun now w₁ hrely₁ => ?_
  refine wp_quiet_then (quiet_reading dir now) fun reading w₂ hrely₂ => ?_
  have h₂ := h.rely (hrely₁.trans hrely₂)
  have hjob₂ := (hrely₁.trans hrely₂).jobs dir.path job hjob
  split
  · exact h₂
  · split
    · exact wp_then (ended_spec reading now h₂) fun _ _ h => h
    · split
      · exact h₂
      · refine wp_then (request_spec control h₂ hjob₂) ?_
        rintro standing w₃ ⟨h₃, hjob₃⟩
        split
        · exact h₃
        · refine wp_quiet_then (quiet_heldOrEnded dir) fun heldOrEnded w₄ hrely => ?_
          split
          · exact wp_quiet_then (quiet_status dir) fun _ _ hrely₅ => h₃.rely (hrely.trans hrely₅)
          · have hsome : (w₄.job dir.path).isSome = true := by
              rw [hrely.jobs dir.path job hjob₃]
              rfl
            exact wp_then (settleHere_lockless control (h₃.rely hrely) hsome) fun _ _ h => h

theorem awaitAnswer_spec (rounds : ℕ) (h : Lockless i w) (hjob : w.job dir.path = some job) :
    wp (contract worker terms) i (awaitAnswer dir control rounds) (fun _ => Lockless i)
      (fun _ => Lockless i) w := by
  induction rounds generalizing w with
  | zero => trivial
  | succ rounds ih =>
    -- another round, from wherever this one got to
    have hagain : ∀ w, Lockless i w → w.job dir.path = some job → wp (contract worker terms) i
        (do
          let due ← perform (.hear .due)
          if due then return none else awaitAnswer dir control rounds)
        (fun _ => Lockless i) (fun _ => Lockless i) w := by
      intro w h hjob
      refine wp_quiet_then (Quiet.ask (silent_hear .due)) fun due w₁ hrely => ?_
      split
      · exact h.rely hrely
      · exact ih (h.rely hrely) (hrely.jobs dir.path job hjob)
    refine wp_quiet_then quiet_now fun now w₁ hrely₁ => ?_
    refine wp_quiet_then (quiet_reading dir now) fun reading w₂ hrely₂ => ?_
    have hrely := hrely₁.trans hrely₂
    split
    · refine wp_quiet_then (quiet_controlIf dir _) fun waiting w₃ hrely₃ => ?_
      have hrely' := hrely.trans hrely₃
      split
      · refine wp_quiet_then (quiet_workerAlive dir) fun alive w₄ hrely₄ => ?_
        have h₄ := h.rely (hrely'.trans hrely₄)
        have hjob₄ := (hrely'.trans hrely₄).jobs dir.path job hjob
        split
        · exact hagain w₄ h₄ hjob₄
        · refine wp_then (wp_either (stop_spec control h₄ hjob₄)) ?_
          rintro stopped w₅ ⟨h₅, hjob₅⟩
          split
          · exact h₅
          · exact hagain w₅ h₅ hjob₅
          · exact hagain w₅ h₅ hjob₅
          · exact h₅
      · exact h.rely hrely'
    · exact h.rely hrely
    · exact hagain w₂ (h.rely hrely) (hrely.jobs dir.path job hjob)

theorem stopAndReport_spec (h : Lockless i w) (hjob : w.job dir.path = some job) :
    wp (contract worker terms) i (stopAndReport dir control) (fun _ => Lockless i)
      (fun _ => Lockless i) w := by
  refine wp_then (wp_mono (stop_spec control h hjob) (fun _ _ h => h) fun _ _ h => h.1) ?_
  rintro stopped w₁ ⟨h₁, hjob₁⟩
  split
  · exact h₁
  · exact wp_quiet_then (Quiet.ask (silent_hear .rounds)) fun rounds w₂ hrely =>
      awaitAnswer_spec control rounds (h₁.rely hrely) (hrely.jobs dir.path job hjob₁)

/-! ## Putting workers back -/

theorem spawnWorker_spec (h : Lockless i w) :
    wp (contract worker terms) i (spawnWorker dir) (fun _ => Lockless i) (fun _ => Lockless i)
      w := by
  refine wp_quiet_then (Quiet.ask (silent_spawn dir.path)) fun spawned w₁ hrely => ?_
  split
  · exact h.rely hrely
  · exact wp_then (fail_lockless _ (h.rely hrely)) fun _ _ h => h

/-- A restart under the job's lock: the pause is dropped, a cancel is honoured. -/
theorem requeue_spec (h : Settled terms i dir.path w) :
    wp (contract worker terms) i (requeue dir) (fun _ => Settled terms i dir.path)
      (fun _ => Settled terms i dir.path) w := by
  refine wp_then (storedStatus_spec w) ?_
  rintro stored w₁ ⟨hrely₁, rfl⟩
  split
  · exact h.rely hrely₁
  · rename_i hreadable
    split
    · exact h.rely hrely₁
    · rename_i hended
      have hgoing : (w₁.record dir.path).going = true := by
        rw [RecordFile.isTerminal_storedStatus, Bool.not_eq_true] at hended
        rw [RecordFile.state_eq_unreadable, Bool.not_eq_false] at hreadable
        exact RecordFile.going_iff.2 ⟨hended, hreadable⟩
      have hworking := (h.rely hrely₁).working hgoing
      have hclear : wp (contract worker terms) i (dir.clearControlWithin .pause)
          (fun _ => Working terms i dir.path false) (fun _ => Settled terms i dir.path) w₁ := by
        refine wp_bind (wp_silent (silent_clearWithin_pause dir.path) fun w₂ _ _ _ hrely₂ => ?_)
        split
        · exact hworking.rely hrely₂
        · exact (hworking.rely hrely₂).settled
      refine wp_then hclear fun waiting w₂ hworking₂ => ?_
      split
      · exact wp_then (settleHere_held .cancel hworking₂) fun _ _ h => h
      · have hwrite : ∀ w, Working terms i dir.path false w → wp (contract worker terms) i
            (do
              let now ← nowMillis
              let _ ← dir.updateStatus now PullStatus.requeued)
            (fun _ => Settled terms i dir.path) (fun _ => Settled terms i dir.path) w := by
          intro w hworking
          refine wp_quiet_then quiet_now fun now w₃ hrely₃ => ?_
          refine wp_then (updateStatus_sets (fun _ => rfl) (by decide) (fun _ => rfl)
            (hworking.rely hrely₃)) ?_
          rintro _ w₄ ⟨-, hworking₄⟩
          exact (hworking₄ rfl).settled
        split
        · refine wp_quiet_then quiet_now fun now w₃ hrely₃ => ?_
          refine wp_quiet_then (quiet_append dir _ _) fun _ w₄ hrely₄ => ?_
          exact hwrite w₄ (hworking₂.rely (hrely₃.trans hrely₄))
        · exact hwrite w₂ hworking₂

theorem restart_spec (h : Lockless i w) :
    wp (contract worker terms) i (restart dir) (fun _ => Lockless i) (fun _ => Lockless i) w := by
  refine wp_quiet_then quiet_now fun now w₁ hrely₁ => ?_
  refine wp_quiet_then (quiet_reading dir now) fun reading w₂ hrely₂ => ?_
  have h₂ := h.rely (hrely₁.trans hrely₂)
  split
  · exact h₂
  · split
    · exact wp_then (ended_spec reading now h₂) fun _ _ h => h
    · refine wp_then (claim_spec h₂) ?_
      rintro held w₃ ⟨hrefused, htaken⟩
      cases held with
      | true =>
        exact wp_then (whileHeld_spec (requeue_spec (htaken rfl).1)) fun _ _ h =>
          spawnWorker_spec h
      | false => exact hrefused rfl

theorem restartAll_spec (dirs : List PullJobDir) (h : Lockless i w) :
    wp (contract worker terms) i (restartAll dirs) (fun _ => Lockless i) (fun _ => Lockless i)
      w := by
  induction dirs generalizing w with
  | nil => exact h
  | cons first dirs ih =>
    refine wp_then (wp_either (restart_spec h)) fun result w₁ h₁ => ?_
    exact wp_then (ih h₁) fun _ _ h => h

theorem resumeAll_spec (pausedToo : Bool) (h : Lockless i w) :
    wp (contract worker terms) i (resumeAll pausedToo) (fun _ => Lockless i)
      (fun _ => Lockless i) w := by
  refine wp_quiet_then quiet_now fun now w₁ hrely₁ => ?_
  refine wp_then (settleAllSuperseded_spec now (h.rely hrely₁)) fun _ w₂ h₂ => ?_
  refine wp_quiet_then quiet_jobs fun listed w₃ hrely₃ => ?_
  refine wp_quiet_then (quiet_takenUp pausedToo now listed) fun stopped w₄ hrely₄ => ?_
  exact restartAll_spec stopped (h₂.rely (hrely₃.trans hrely₄))

end Hedos.Install
