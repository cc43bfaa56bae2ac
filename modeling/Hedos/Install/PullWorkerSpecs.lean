import Hedos.Install.PullClientSpecs

/-!
# Workers keep the contract

A worker takes its job up with the record not ended, works on it under its lock to the end, and
lets it go settled (`run_spec`). On the way it rewrites the record as often as it likes
(`Working`); once it has deleted a cancel it goes straight to an ending that heeds it, as
`honour_spec` and `finish_spec` show.
-/

namespace Hedos.Install

open Programs

variable {worker : PullWorker} {terms : Terms} {i : ℕ} {w w' : World} {dir : PullJobDir}
  {owes : Bool} {fails : WorkerError → World → Prop}

namespace PullWorker

/-! ## Moving the record -/

variable {state : PullState} {message : Option String}

/-- Moving the job to a state; a failure is not for a job whose ending is owed. -/
theorem settle_spec (hstate : state ≠ .unreadable)
    (howes : state = .failed → owes = false) (h : Working terms i dir.path owes w) :
    wp (contract worker terms) i (settle dir state message)
      (fun _ w' => (state.isTerminal = true → Over i dir.path w') ∧
        (state.isTerminal = false → Working terms i dir.path owes w')) fails w := by
  refine wp_quiet_then quiet_now fun now w₁ hrely₁ => ?_
  refine wp_quiet_then (Quiet.ask silent_pid) fun pid w₂ hrely₂ => ?_
  refine wp_then (updateStatus_sets (fun _ => rfl) hstate howes (h.rely (hrely₁.trans hrely₂))) ?_
  rintro _ w₃ ⟨hover, hworking⟩
  refine wp_quiet_then (quiet_append dir _ _) fun _ w₄ hrely₄ => ?_
  exact ⟨fun hterminal => (hover hterminal).rely hrely₄,
    fun hgoing => (hworking hgoing).rely hrely₄⟩

theorem mark_spec (hstate : state.going = true) (h : Working terms i dir.path owes w) :
    wp (contract worker terms) i (mark dir state message)
      (fun _ => Working terms i dir.path owes) fails w := by
  have hgoing : state.isTerminal = false ∧ state ≠ .unreadable := by
    simpa [PullState.going] using hstate
  refine wp_quiet_then (quiet_storedStatus dir) fun stored w₁ hrely₁ => ?_
  split
  · exact h.rely hrely₁
  · have hnot : state = .failed → owes = false := by
      rintro rfl
      exact absurd hstate (by decide)
    exact wp_mono (settle_spec hgoing.2 hnot (h.rely hrely₁)) (fun _ _ h => h.2 hgoing.1)
      (fun _ _ h => h)

theorem say_spec (text : String) (h : Working terms i dir.path owes w) :
    wp (contract worker terms) i (say dir text) (fun _ => Working terms i dir.path owes)
      fails w := by
  refine wp_quiet_then quiet_now fun now w₁ hrely₁ => ?_
  refine wp_quiet_then (quiet_append dir _ _) fun _ w₂ hrely₂ => ?_
  exact wp_then (updateStatus_keeps (fun _ => rfl) (h.rely (hrely₁.trans hrely₂)))
    fun _ _ h => h

/-! ## Controls -/

theorem quiet_appendLate (controls : List PullControl) :
    Quiet (contract worker terms) (appendLate dir controls) := by
  induction controls with
  | nil => exact quiet_pure _
  | cons first controls ih =>
    exact quiet_now.bind fun now => (quiet_append dir _ now).bind fun _ => ih

/-- An ask that came too late is dropped; the job still owes its ending. -/
theorem dropLateAsk_spec (control : PullControl) (h : Working terms i dir.path owes w) :
    wp (contract worker terms) i (dropLateAsk dir control)
      (fun _ => Working terms i dir.path true) fails w := by
  refine wp_then (clearControl_spec control h) fun waiting w₁ h₁ => ?_
  cases waiting with
  | some behind =>
    refine wp_then (clearControl_spec behind h₁) fun _ w₂ h₂ => ?_
    exact wp_mono (wp_quiet (quiet_appendLate _) w₂) (fun _ _ hrely => h₂.owing.rely hrely)
      (fun _ _ h => absurd h id)
  | none =>
    exact wp_mono (wp_quiet (quiet_appendLate _) w₁) (fun _ _ hrely => h₁.owing.rely hrely)
      (fun _ _ h => absurd h id)

/-- Ending a job, whatever it owes. -/
theorem settle_over
    (hstate : state = .done ∨ state = .cancelled) (h : Working terms i dir.path owes w) :
    wp (contract worker terms) i (settle dir state message) (fun _ => Over i dir.path) fails
      w := by
  have hterminal : state.isTerminal = true := by rcases hstate with rfl | rfl <;> rfl
  have hreadable : state ≠ .unreadable := by rcases hstate with rfl | rfl <;> decide
  have hnot : state = .failed → owes = false := by
    rintro rfl
    rcases hstate with h | h <;> cases h
  exact wp_mono (settle_spec hreadable hnot h) (fun _ _ h => h.1 hterminal) (fun _ _ h => h)

/-- Moving a job that owes nothing, to any state a worker writes. -/
theorem settle_settled (hstate : state ≠ .unreadable) (h : Working terms i dir.path false w) :
    wp (contract worker terms) i (settle dir state message)
      (fun _ => Settled terms i dir.path) fails w := by
  refine wp_mono (settle_spec hstate (fun _ => rfl) h) ?_ (fun _ _ h => h)
  rintro _ w₁ ⟨hover, hworking⟩
  cases hterminal : state.isTerminal with
  | true => exact (hover hterminal).settled
  | false => exact (hworking hterminal).settled

/-- Honouring a control: once a cancel is deleted the job ends cancelled. -/
theorem honour_spec (control : PullControl) (h : Working terms i dir.path false w) :
    wp (contract worker terms) i (honour dir control) (fun _ => Settled terms i dir.path) fails
      w := by
  refine wp_then (clearControl_spec control h) fun waiting w₁ h₁ => ?_
  cases control with
  | cancel =>
    cases waiting with
    | none =>
      exact wp_mono (settle_over (.inr rfl) h₁) (fun _ _ h => h.settled) (fun _ _ h => h)
    | some behind =>
      refine wp_then (clearControl_spec behind h₁) fun _ w₂ h₂ => ?_
      have hstate : (if behind = .cancel then PullState.cancelled
          else PullControl.cancel.resultingState) = .cancelled := by split <;> rfl
      exact wp_mono (settle_over (.inr hstate) h₂) (fun _ _ h => h.settled) (fun _ _ h => h)
  | pause =>
    cases waiting with
    | none => exact settle_settled (by decide) h₁
    | some behind =>
      refine wp_then (clearControl_spec behind h₁) fun _ w₂ h₂ => ?_
      cases behind with
      | cancel =>
        exact wp_mono (settle_over (.inr rfl) h₂) (fun _ _ h => h.settled) (fun _ _ h => h)
      | pause => exact settle_settled (by decide) h₂

variable (rounds : ℕ)

theorem quiet_rest : Quiet (contract worker terms) (rest dir rounds) := by
  induction rounds with
  | zero => trivial
  | succ rounds ih =>
    refine (Quiet.ask (silent_hear .due)).bind fun due => ?_
    split
    · exact quiet_pure _
    · refine (quiet_control dir).bind fun control => ?_
      split
      · exact quiet_pure _
      · exact ih

/-! ## One attempt -/

theorem flush_spec (drive : Drive) (force clearLine : Bool) (h : Working terms i dir.path owes w) :
    wp (contract worker terms) i (flush dir drive force clearLine)
      (fun _ => Working terms i dir.path owes) fails w := by
  unfold flush
  split
  · refine wp_quiet_then quiet_now fun now w₁ hrely₁ => ?_
    split
    · exact h.rely hrely₁
    · exact wp_then (updateStatus_keeps (fun _ => rfl) (h.rely hrely₁)) fun _ _ h => h
  · exact h

theorem driveEvents_spec (drive : Drive) (h : Working terms i dir.path owes w) :
    wp (contract worker terms) i (driveEvents dir rounds drive)
      (fun _ => Working terms i dir.path owes) fails w := by
  induction rounds generalizing drive w with
  | zero => trivial
  | succ rounds ih =>
    refine wp_quiet_then (Quiet.ask (silent_hear .heard)) fun heard w₁ hrely₁ => ?_
    have h₁ := h.rely hrely₁
    split
    · exact wp_then (flush_spec _ _ _ h₁) fun _ _ h₂ => ih _ h₂
    · exact wp_then (say_spec _ h₁) fun _ _ h₂ => ih _ h₂
    · exact wp_then (flush_spec _ _ _ h₁) fun _ _ h₂ => h₂
    · exact h₁
    · split <;> exact h₁
    · exact ih _ h₁
    · exact ih _ h₁
    · exact h₁
    · refine wp_quiet_then (quiet_controlIf dir _) fun polled w₂ hrely₂ => ?_
      exact wp_then (flush_spec _ _ _ (h₁.rely hrely₂)) fun _ _ h₃ => ih _ h₃

theorem quiet_resolve : Quiet (contract worker terms) (resolve dir rounds) := by
  induction rounds with
  | zero => trivial
  | succ rounds ih =>
    refine (Quiet.ask (silent_hear .planned)).bind fun planned => ?_
    split
    · exact quiet_pure _
    · refine (quiet_control dir).bind fun control => ?_
      split
      · exact quiet_pure _
      · exact ih

theorem attemptOnce_spec (h : Working terms i dir.path owes w) :
    wp (contract worker terms) i (attemptOnce dir) (fun _ => Working terms i dir.path owes)
      fails w := by
  refine wp_quiet_then (Quiet.ask (silent_hear .rounds)) fun polls w₁ hrely₁ => ?_
  refine wp_quiet_then (quiet_resolve polls) fun resolved w₂ hrely₂ => ?_
  have h₂ := h.rely (hrely₁.trans hrely₂)
  split
  · exact h₂
  · exact h₂
  · refine wp_quiet_then (Quiet.ask (silent_hear .begun)) fun begun w₃ hrely₃ => ?_
    split
    · exact h₂.rely hrely₃
    · refine wp_quiet_then (Quiet.ask (silent_hear .rounds)) fun rounds w₄ hrely₄ => ?_
      refine wp_then (driveEvents_spec rounds {} (h₂.rely (hrely₃.trans hrely₄)))
        fun outcome w₅ h₅ => ?_
      split
      · exact wp_quiet_then (Quiet.ask (silent_hear .failure)) fun _ _ hrely₆ => h₅.rely hrely₆
      · exact h₅

/-! ## The run -/

theorem waitForSlot_spec (waited : Bool) (h : Working terms i dir.path owes w) :
    wp (contract worker terms) i (waitForSlot dir rounds waited)
      (fun _ => Working terms i dir.path owes) fails w := by
  induction rounds generalizing waited w with
  | zero => trivial
  | succ rounds ih =>
    refine wp_quiet_then (quiet_control dir) fun control w₁ hrely₁ => ?_
    split
    · exact h.rely hrely₁
    · refine wp_quiet_then (Quiet.ask (silent_hear .slot)) fun free w₂ hrely₂ => ?_
      have h₂ := h.rely (hrely₁.trans hrely₂)
      split
      · exact h₂
      · refine wp_then (mark_spec (by decide) h₂) fun _ w₃ h₃ => ?_
        have hrest : ∀ w, Working terms i dir.path owes w → wp (contract worker terms) i
            (do
              let polls ← perform (.hear .rounds)
              let control ← rest dir polls
              if control.isSome then return control else waitForSlot dir rounds true)
            (fun _ => Working terms i dir.path owes) fails w := by
          intro w h
          refine wp_quiet_then (Quiet.ask (silent_hear .rounds)) fun polls w₄ hrely₄ => ?_
          refine wp_quiet_then (quiet_rest polls) fun control w₅ hrely₅ => ?_
          split
          · exact h.rely (hrely₄.trans hrely₅)
          · exact ih true (h.rely (hrely₄.trans hrely₅))
        split
        · exact wp_then (say_spec _ h₃) fun _ w₄ h₄ => hrest w₄ h₄
        · exact hrest w₃ h₃

theorem register_spec (h : Working terms i dir.path owes w) :
    wp (contract worker terms) i (register worker dir)
      (fun _ => Working terms i dir.path owes) fails w := by
  unfold register
  split
  · have hmark : wp (contract worker terms) i (markRegistering worker dir)
        (fun _ => Working terms i dir.path owes) fails w := by
      refine wp_quiet_then quiet_now fun now w₁ hrely₁ => ?_
      refine wp_quiet_then (quiet_append dir _ _) fun _ w₂ hrely₂ => ?_
      exact wp_then (updateStatus_keeps (fun _ => rfl) (h.rely (hrely₁.trans hrely₂)))
        fun _ _ h => h
    refine wp_then hmark fun _ w₁ h₁ => ?_
    refine wp_quiet_then (Quiet.ask (silent_hear .registered)) fun registered w₂ hrely₂ => ?_
    have h₂ := h₁.rely hrely₂
    split
    · exact h₂
    · exact h₂
    · refine wp_quiet_then quiet_now fun now w₃ hrely₃ => ?_
      exact wp_quiet_then (quiet_append dir _ _) fun _ _ hrely₄ =>
        h₂.rely (hrely₃.trans hrely₄)
  · exact h

/-- A pull that landed ends done, whatever it was asked for. -/
theorem finish_spec (h : Working terms i dir.path owes w) :
    wp (contract worker terms) i (finish worker dir) (fun _ => Over i dir.path) fails w := by
  refine wp_then (register_spec h) fun message w₁ h₁ => ?_
  refine wp_quiet_then (quiet_control dir) fun control w₂ hrely₂ => ?_
  split
  · exact wp_then (dropLateAsk_spec _ (h₁.rely hrely₂)) fun _ _ h₃ => settle_over (.inl rfl) h₃
  · exact settle_over (.inl rfl) (h₁.rely hrely₂)

/-- What a round of the transfer leaves: the job settled, or still in hand. -/
def RoundLeft (terms : Terms) (i : ℕ) (path : String) : PullState ⊕ Streak → World → Prop
  | .inl _, w => Settled terms i path w
  | .inr _, w => Working terms i path false w

theorem afterFailure_spec (streak : Streak) (message : String) (error : Option InstallError)
    (moved : Bool) (h : Working terms i dir.path false w) :
    wp (contract worker terms) i (afterFailure worker dir streak message error moved)
      (RoundLeft terms i dir.path) fails w := by
  unfold afterFailure
  split
  · exact wp_then (settle_settled (by decide) h) fun _ _ h => h
  · refine wp_quiet_then quiet_now fun now w₁ hrely₁ => ?_
    extract_lets began
    split
    · exact wp_then (settle_settled (by decide) (h.rely hrely₁)) fun _ _ h => h
    · refine wp_quiet_then (quiet_append dir _ _) fun _ w₂ hrely₂ => ?_
      refine wp_then (mark_spec (by decide) (h.rely (hrely₁.trans hrely₂))) fun _ w₃ h₃ => ?_
      refine wp_then (updateStatus_keeps (fun _ => rfl) h₃) fun _ w₄ h₄ => ?_
      refine wp_quiet_then (Quiet.ask (silent_hear .rounds)) fun polls w₅ hrely₅ => ?_
      refine wp_quiet_then (quiet_rest polls) fun control w₆ hrely₆ => ?_
      have h₆ := h₄.rely (hrely₅.trans hrely₆)
      split
      · exact wp_then (honour_spec _ h₆) fun _ _ h => h
      · refine wp_quiet_then quiet_now fun now w₇ hrely₇ => ?_
        exact wp_then (updateStatus_keeps (fun _ => rfl) (h₆.rely hrely₇)) fun _ _ h => h

theorem afterAttempt_spec (streak : Streak) (outcome : Outcome)
    (h : Working terms i dir.path false w) :
    wp (contract worker terms) i (afterAttempt worker dir streak outcome)
      (RoundLeft terms i dir.path) fails w := by
  unfold afterAttempt
  split
  · refine wp_then (dropLateAsk_spec _ h) fun _ w₁ h₁ => ?_
    exact wp_then (finish_spec h₁) fun _ _ h => h.settled
  · exact wp_then (finish_spec h) fun _ _ h => h.settled
  · exact wp_then (honour_spec _ h) fun _ _ h => h
  · exact wp_then (settle_over (.inr rfl) h) fun _ _ h => h.settled
  · exact wp_then (honour_spec _ h) fun _ _ h => h
  · exact afterFailure_spec streak _ _ _ h

theorem transfer_spec (streak : Streak) (h : Working terms i dir.path false w) :
    wp (contract worker terms) i (transfer worker dir rounds streak)
      (fun _ => Settled terms i dir.path) fails w := by
  induction rounds generalizing streak w with
  | zero => trivial
  | succ rounds ih =>
    refine wp_quiet_then (quiet_control dir) fun control w₁ hrely₁ => ?_
    split
    · exact honour_spec _ (h.rely hrely₁)
    · refine wp_quiet_then (Quiet.ask (silent_hear .rounds)) fun polls w₂ hrely₂ => ?_
      refine wp_then (waitForSlot_spec polls false (h.rely (hrely₁.trans hrely₂)))
        fun stopped w₃ h₃ => ?_
      split
      · exact honour_spec _ h₃
      · refine wp_then (mark_spec (by decide) h₃) fun _ w₄ h₄ => ?_
        refine wp_quiet_then quiet_now fun now w₅ hrely₅ => ?_
        refine wp_then (updateStatus_keeps (fun _ => rfl) (h₄.rely hrely₅)) fun _ w₆ h₆ => ?_
        refine wp_then (attemptOnce_spec h₆) fun outcome w₇ h₇ => ?_
        refine wp_then (afterAttempt_spec _ outcome h₇) fun next w₈ h₈ => ?_
        cases next with
        | inl state => exact h₈
        | inr streak => exact ih streak h₈

end PullWorker

/-! ## Taking the job up -/

theorem claimJob_spec (attempts : ℕ) (h : Lockless i w) :
    wp (contract worker terms) i (claimJob dir attempts)
      (fun taken w' => (taken = false → Lockless i w') ∧ (taken = true →
        Settled terms i dir.path w' ∧ (w'.record dir.path).ended = false)) fails w := by
  induction attempts generalizing w with
  | zero => exact ⟨fun _ => h, fun htrue => absurd htrue Bool.false_ne_true⟩
  | succ attempts ih =>
    refine wp_then (claim_spec h) ?_
    rintro held w₁ ⟨hrefused, htaken⟩
    cases held with
    | true =>
      obtain ⟨hsettled, hended⟩ := htaken rfl
      exact ⟨fun hfalse => absurd hfalse.symm Bool.false_ne_true, fun _ => ⟨hsettled, hended rfl⟩⟩
    | false => exact ih (hrefused rfl)

/-- Stamping a record that has not ended; one that cannot be read is left alone. -/
theorem stamp_spec (h : Settled terms i dir.path w) (hended : (w.record dir.path).ended = false) :
    wp (contract worker terms) i (stamp dir) (fun _ => Working terms i dir.path false)
      (fun _ => Settled terms i dir.path) w := by
  refine wp_quiet_then quiet_now fun now w₁ hrely₁ => ?_
  refine wp_quiet_then (Quiet.ask silent_pid) fun pid w₂ hrely₂ => ?_
  have hrely := hrely₁.trans hrely₂
  have h₂ := h.rely hrely
  have hended₂ : (w₂.record dir.path).ended = false :=
    (hrely.held dir.path h.held.self).symm ▸ hended
  refine wp_then (wp_mono (updateStatus_spec (fun _ => hended₂) 
    (fun _ _ => show PullState.queued ≠ .unreadable by decide) ?_)
    (fun _ _ h => h) (fun _ w₃ hfails => h₂.rely hfails.1)) ?_
  · rintro - ⟨old, -, hfailed⟩
    exact absurd hfailed (show PullState.queued ≠ .failed by decide)
  · rintro new _ ⟨old, w₃, hrely₃, hgoing, -, -, rfl, rfl⟩
    have hworking := ((h₂.rely hrely₃).working hgoing).write
      (show ({ PullStatus.takenUp pid old with updatedAtMs := now } : PullStatus).state.going
        = true from rfl)
    refine wp_quiet_then quiet_now fun _ w₄ hrely₄ => ?_
    exact wp_mono (wp_quiet (quiet_append dir _ _) w₄)
      (fun _ _ hrely₅ => hworking.rely (hrely₄.trans hrely₅)) (fun _ _ h => absurd h id)

theorem hold_spec (h : Lockless i w) :
    wp (contract worker terms) i (hold dir)
      (fun held w' => (held = false → Lockless i w') ∧
        (held = true → Working terms i dir.path false w')) (fun _ => Lockless i) w := by
  refine wp_then (claimJob_spec claimAttempts h) ?_
  rintro held w₁ ⟨hrefused, htaken⟩
  cases held with
  | false => exact ⟨fun _ => hrefused rfl, fun htrue => absurd htrue Bool.false_ne_true⟩
  | true =>
    obtain ⟨hsettled, hended⟩ := htaken rfl
    refine wp_bind (wp_attempt (wp_mono (stamp_spec hsettled hended) ?_ ?_))
    · exact fun _ _ hworking =>
        ⟨fun hfalse => absurd hfalse.symm Bool.false_ne_true, fun _ => hworking⟩
    · exact fun _ _ hsettled => wp_then (release_spec hsettled) fun _ _ h => h

theorem claimReference_spec (key : ModelKey) (attempts : ℕ) (h : Working terms i dir.path owes w) :
    wp (contract worker terms) i (claimReference key attempts)
      (fun _ => Working terms i dir.path owes) fails w := by
  induction attempts generalizing w with
  | zero => exact h
  | succ attempts ih =>
    have hclaim : wp (contract worker terms) i (perform (.claimReference key .transfer))
        (fun _ => Working terms i dir.path owes) fails w := by
      refine wp_ask fun w₁ hrely hinv input _ => ?_
      obtain ⟨hothers, hinv'⟩ := claimReference_effect key input.refused hinv
      refine ⟨hothers, hinv', ?_⟩
      have h₁ := h.rely hrely
      change Working terms i dir.path owes (w₁.claimReference i key input.refused).2
      unfold World.claimReference
      split
      · exact ⟨h₁.held, h₁.going, h₁.free⟩
      · exact h₁
    refine wp_then hclaim fun held w₁ h₁ => ?_
    split
    · exact h₁
    · exact ih h₁

theorem releaseReference_spec (key : ModelKey) (h : Settled terms i dir.path w) :
    wp (contract worker terms) i (perform (.releaseReference key))
      (fun _ => Settled terms i dir.path) fails w := by
  refine wp_ask fun w₁ hrely hinv input _ => ?_
  obtain ⟨hothers, hinv'⟩ := releaseReference_effect key hinv
  refine ⟨hothers, hinv', ?_⟩
  have h₁ := h.rely hrely
  change Settled terms i dir.path (w₁.releaseReference i key)
  unfold World.releaseReference
  split
  · exact ⟨h₁.held, h₁.free⟩
  · exact h₁

theorem fail_held (message : String) (h : Working terms i dir.path false w) :
    wp (contract worker terms) i (fail dir message) (fun _ => Settled terms i dir.path) fails
      w := by
  refine wp_quiet_then quiet_now fun now w₁ hrely₁ => ?_
  refine wp_then (updateStatus_sets (fun _ => rfl) (by decide) (fun _ => rfl) (h.rely hrely₁)) ?_
  rintro _ w₂ ⟨hover, -⟩
  exact wp_mono (wp_quiet (quiet_append dir _ _) w₂)
    (fun _ _ hrely => ((hover rfl).rely hrely).settled) (fun _ _ h => absurd h id)

namespace PullWorker

theorem runHeld_spec (h : Working terms i dir.path false w) :
    wp (contract worker terms) i (runHeld worker dir) (fun _ => Settled terms i dir.path)
      (fun _ => Settled terms i dir.path) w := by
  refine wp_then (claimReference_spec dir.job.key claimAttempts h) fun claimed w₁ h₁ => ?_
  split
  · refine wp_quiet_then (Quiet.ask (silent_hear .rounds)) fun rounds w₂ hrely₂ => ?_
    exact wp_andThen (wp_mono (transfer_spec rounds {} (h₁.rely hrely₂))
      (fun _ _ h => releaseReference_spec dir.job.key h)
      (fun _ _ h => releaseReference_spec dir.job.key h))
  · exact wp_then (settle_settled (by decide) h₁) fun _ _ h => h

theorem runSession_spec (h : Working terms i dir.path false w) :
    wp (contract worker terms) i (runSession worker dir) (fun _ => Settled terms i dir.path)
      (fun _ => Settled terms i dir.path) w := by
  refine wp_quiet_then (Quiet.ask (silent_hear .session)) fun session w₁ hrely₁ => ?_
  split
  · exact wp_then (fail_held _ (h.rely hrely₁)) fun _ _ h => h
  · exact runHeld_spec (h.rely hrely₁)

/-- A worker, from the moment its process starts. -/
theorem run_spec (path : String) (h : Lockless i w) :
    wp (contract worker terms) i (worker.run path) (fun _ => Lockless i) (fun _ => Lockless i)
      w := by
  refine wp_bind (wp_bind (wp_silent (silent_descriptor path) fun w₁ _ _ input hrely => ?_))
  have h₁ := h.rely hrely
  split
  · refine wp_then (hold_spec h₁) ?_
    rintro held w₂ ⟨hrefused, hworking⟩
    cases held with
    | true => exact whileHeld_spec (runSession_spec (hworking rfl))
    | false => exact hrefused rfl
  · exact h₁

end PullWorker

end Hedos.Install
