import Hedos.Jobs.Delivery

/-!
# What a subscriber observes

A job goes from `queued` over `preparing` and `running` to its end, and its progress does not go
back. A stream is given the replay of its job, and then what the scheduler sends while it holds the
sending half; `Scheduler.Sight` says what each step does to the streams, `Scheduler.Turns` what it
does to the jobs.

* a task that has not started its job's runner has its job where its counter says (`Phased`);
* what was seen of a job is no further than the job (`Stream.Within`), and so each event comes in
  order (`observed_in_order`).
-/

namespace Hedos.Jobs

open Transition SlotQueue Function

/-! ## The order of what is seen -/

/-- The place of a state on the way to the end. -/
def JobState.rank : JobState → ℕ
  | .queued => 0
  | .preparing => 1
  | .running => 2
  | .done | .failed | .cancelled => 3

/-- The state an event tells, if it tells one. -/
def JobEvent.rank? : JobEvent → Option ℕ
  | .queued _ => some 0
  | .preparing => some 1
  | .running => some 2
  | .done _ | .failed _ _ | .cancelled => some 3
  | .status _ | .progress _ | .preview _ => none

def JobEvent.fraction? : JobEvent → Option ℚ
  | .progress told => some told.fraction
  | _ => none

/-- States and progress do not go back, and an end is the last. -/
structure Stream.InOrder (stream : Stream) : Prop where
  ranks : (stream.events.filterMap JobEvent.rank?).Pairwise (· ≤ ·)
  fractions : (stream.events.filterMap JobEvent.fraction?).Pairwise (· ≤ ·)
  last : ∀ (before : List JobEvent) (event : JobEvent) (after : List JobEvent),
    stream.events = before ++ event :: after →
    event.isTerminal = true → after = []

/-- A job that is done has all of its progress, and no job has more. -/
structure Job.Capped (job : Job) : Prop where
  fraction_le : job.progress.fraction ≤ 1
  done : job.state = .done → job.progress.fraction = 1

/-- What may become of a job. -/
structure Job.Turn (job job' : Job) : Prop where
  rank : job.state.rank ≤ job'.state.rank
  fraction : job.progress.fraction ≤ job'.progress.fraction
  capped : job.Capped → job'.Capped

theorem Job.Turn.of_same {job job' : Job} (hstate : job'.state = job.state)
    (hprogress : job'.progress = job.progress) : job.Turn job' where
  rank := by rw [hstate]
  fraction := by rw [hprogress]
  capped h := ⟨hprogress ▸ h.fraction_le, fun hdone => by
    rw [hprogress]
    exact h.done (hstate ▸ hdone)⟩

theorem Job.Turn.refl (job : Job) : job.Turn job := .of_same rfl rfl

theorem JobState.rank_le (state : JobState) : state.rank ≤ 3 := by
  cases state <;> simp [JobState.rank]

variable {state : JobState}

theorem JobState.rank_of_terminal (h : state.isTerminal = true) :
    state.rank = 3 := by
  cases state <;> first | rfl | simp [JobState.isTerminal] at h

theorem JobState.rank_of_live (h : state.isTerminal = false) :
    state.rank ≤ 2 := by
  cases state <;> simp_all [JobState.isTerminal, JobState.rank]

/-! ## A stream beside its job -/

/-- Nothing that was seen is further than the job. -/
structure Stream.Within (stream : Stream) (job : Job) : Prop where
  live : ∀ event ∈ stream.events, event.isTerminal = false
  ranks : ∀ rank ∈ stream.events.filterMap JobEvent.rank?, rank ≤ job.state.rank
  fractions : ∀ fraction ∈ stream.events.filterMap JobEvent.fraction?,
    fraction ≤ job.progress.fraction

/-- The event says where the job is. -/
structure JobEvent.Tells (event : JobEvent) (job : Job) : Prop where
  live : event.isTerminal = false
  rank : ∀ rank, event.rank? = some rank → rank = job.state.rank
  fraction : ∀ fraction, event.fraction? = some fraction → fraction = job.progress.fraction

section Streams

variable {stream : Stream} {job job' : Job} {event : JobEvent} {id : String}

theorem Stream.Within.turn (h : stream.Within job) (hturn : job.Turn job') :
    stream.Within job' where
  live := h.live
  ranks rank hrank := (h.ranks rank hrank).trans hturn.rank
  fractions fraction hfraction := (h.fractions fraction hfraction).trans hturn.fraction

variable {β : Type*}

variable {α : Type*} {read : α → Option β} {bound : β}

theorem pairwise_concat_of_le [LE β] {events : List α}
    {event : α} (h : (events.filterMap read).Pairwise (· ≤ ·))
    (hbound : ∀ seen ∈ events.filterMap read, seen ≤ bound)
    (hevent : ∀ told, read event = some told → told = bound) :
    ((events ++ [event]).filterMap read).Pairwise (· ≤ ·) := by
  rw [List.filterMap_append]
  cases htold : read event with
  | none => simpa [List.filterMap_cons_none htold] using h
  | some told =>
    obtain rfl := hevent told htold
    rw [List.filterMap_cons_some htold, List.filterMap_nil, List.pairwise_append]
    refine ⟨h, List.pairwise_singleton _ _, fun seen hseen last hlast => ?_⟩
    rw [List.mem_singleton.1 hlast]
    exact hbound seen hseen

theorem mem_concat_le [Preorder β] {events : List α} {event : α}
    (hbound : ∀ seen ∈ events.filterMap read, seen ≤ bound)
    (hevent : ∀ told, read event = some told → told = bound) :
    ∀ seen ∈ (events ++ [event]).filterMap read, seen ≤ bound := by
  intro seen hseen
  obtain ⟨entry, hentry, hread⟩ := List.mem_filterMap.1 hseen
  rcases List.mem_append.1 hentry with hentry | hentry
  · exact hbound seen (List.mem_filterMap.2 ⟨entry, hentry, hread⟩)
  · obtain rfl := List.mem_singleton.1 hentry
    exact (hevent seen hread).le

/-- An event behind events that are no end leaves the order as it is. -/
theorem Stream.InOrder.concat (h : stream.InOrder) (hwithin : stream.Within job)
    (hrank : ∀ rank, event.rank? = some rank → job.state.rank ≤ rank)
    (hfraction : ∀ fraction, event.fraction? = some fraction → job.progress.fraction ≤ fraction) :
    Stream.InOrder { stream with events := stream.events ++ [event] } where
  ranks := by
    cases htold : event.rank? with
    | none => simpa [List.filterMap_append, List.filterMap_cons_none htold] using h.ranks
    | some rank =>
      exact pairwise_concat_of_le h.ranks
        (fun seen hseen => (hwithin.ranks seen hseen).trans (hrank rank htold)) (by simp [htold])
  fractions := by
    cases htold : event.fraction? with
    | none => simpa [List.filterMap_append, List.filterMap_cons_none htold] using h.fractions
    | some fraction =>
      exact pairwise_concat_of_le h.fractions
        (fun seen hseen => (hwithin.fractions seen hseen).trans (hfraction fraction htold))
        (by simp [htold])
  last before told after hevents hterminal := by
    rcases List.eq_nil_or_concat after with rfl | ⟨front, last, rfl⟩
    · rfl
    · -- the end would stand among the events that are none
      rw [List.concat_eq_append, ← List.cons_append, ← List.append_assoc] at hevents
      obtain ⟨hfront, -⟩ := List.append_inj' hevents rfl
      have hlive := hwithin.live told (hfront ▸ List.mem_append_right _ (.head _))
      rw [hlive] at hterminal
      cases hterminal

theorem Stream.Within.concat (h : stream.Within job) (htells : event.Tells job) :
    Stream.Within { stream with events := stream.events ++ [event] } job where
  live told htold := by
    rcases List.mem_append.1 htold with htold | htold
    · exact h.live told htold
    · rw [List.mem_singleton.1 htold]
      exact htells.live
  ranks := mem_concat_le h.ranks htells.rank
  fractions := mem_concat_le h.fractions htells.fraction

/-- A replay tells where its job is. -/
theorem replay_ranks {event : JobEvent} {rank : ℕ} (hevent : event ∈ replay job)
    (hrank : event.rank? = some rank) : rank = job.state.rank := by
  rcases List.mem_append.1 hevent with hevent | hevent
  · cases hstate : job.state with
    | queued | preparing | done | failed | cancelled =>
      rw [hstate] at hevent
      rw [List.mem_singleton.1 hevent] at hrank
      exact (Option.some.inj hrank).symm
    | running =>
      rw [hstate] at hevent
      rcases List.mem_cons.1 hevent with rfl | hevent
      · exact (Option.some.inj hrank).symm
      · split at hevent
        · rw [List.mem_singleton.1 hevent] at hrank
          cases hrank
        · cases hevent
  · split at hevent
    · cases hevent
    · obtain ⟨frame, -, rfl⟩ := Option.map_eq_some_iff.1 (Option.mem_toList.1 hevent)
      cases hrank

theorem replay_fractions {event : JobEvent} {fraction : ℚ} (hevent : event ∈ replay job)
    (hfraction : event.fraction? = some fraction) : fraction = job.progress.fraction := by
  rcases List.mem_append.1 hevent with hevent | hevent
  · cases hstate : job.state with
    | queued | preparing | done | failed | cancelled =>
      rw [hstate] at hevent
      rw [List.mem_singleton.1 hevent] at hfraction
      cases hfraction
    | running =>
      rw [hstate] at hevent
      rcases List.mem_cons.1 hevent with rfl | hevent
      · cases hfraction
      · split at hevent
        · rw [List.mem_singleton.1 hevent] at hfraction
          exact (Option.some.inj hfraction).symm
        · cases hevent
  · split at hevent
    · cases hevent
    · obtain ⟨frame, -, rfl⟩ := Option.map_eq_some_iff.1 (Option.mem_toList.1 hevent)
      cases hfraction

theorem pairwise_of_same [Preorder β] {told : List β} (value : β)
    (h : ∀ seen ∈ told, seen = value) : told.Pairwise (· ≤ ·) := by
  refine List.pairwise_iff_forall_sublist.2 fun {a b} hsub => ?_
  have hmem := hsub.subset
  rw [h a (hmem (by simp)), h b (hmem (by simp))]

theorem replay_inOrder (hevents : stream.events = replay job) : stream.InOrder where
  ranks := by
    rw [hevents]
    refine pairwise_of_same job.state.rank fun rank hrank => ?_
    obtain ⟨event, hevent, htold⟩ := List.mem_filterMap.1 hrank
    exact replay_ranks hevent htold
  fractions := by
    rw [hevents]
    refine pairwise_of_same job.progress.fraction fun fraction hfraction => ?_
    obtain ⟨event, hevent, htold⟩ := List.mem_filterMap.1 hfraction
    exact replay_fractions hevent htold
  last before event after hsplit hterminal := by
    rw [hevents] at hsplit
    cases hlive : job.state.isTerminal with
    | false =>
      have hevent : event ∈ replay job := hsplit ▸ List.mem_append_right _ (.head _)
      rw [replay_isTerminal hlive hevent] at hterminal
      cases hterminal
    | true =>
      -- the replay of an end is one event
      have hone : (replay job).length = 1 := by
        unfold replay
        rw [hlive, if_pos rfl, List.append_nil]
        cases hstate : job.state with
        | queued | preparing | running => simp [hstate, JobState.isTerminal] at hlive
        | done | failed | cancelled => rfl
      rw [hsplit, List.length_append, List.length_cons] at hone
      exact List.eq_nil_of_length_eq_zero (by omega)

theorem replay_within (hlive : job.state.isTerminal = false)
    (hevents : stream.events = replay job) : stream.Within job where
  live event hevent := replay_isTerminal hlive (hevents ▸ hevent)
  ranks rank hrank := by
    obtain ⟨event, hevent, htold⟩ := List.mem_filterMap.1 hrank
    exact (replay_ranks (hevents ▸ hevent) htold).le
  fractions fraction hfraction := by
    obtain ⟨event, hevent, htold⟩ := List.mem_filterMap.1 hfraction
    exact (replay_fractions (hevents ▸ hevent) htold).le

end Streams

/-! ## What a step does to jobs and streams -/

namespace Scheduler

/-- The jobs in memory go on from where they were, and new ones are capped. -/
def Turns (s t : Scheduler) : Prop :=
  ∀ id job', t.jobs id = some job' →
    (∃ job, s.jobs id = some job ∧ job.Turn job') ∨ s.jobs id = none ∧ job'.Capped

/-- What a step does to the streams. -/
inductive Sight (s t : Scheduler) : Prop
  | same (hstreams : t.streams = s.streams)
  | told (id : String) (event : JobEvent)
      (hstreams : t.streams = s.streams.map (Stream.deliver id event))
      (htells : ∀ job, t.jobs id = some job → event.Tells job)
  | opened (stream : Stream) (hstreams : t.streams = s.streams ++ [stream])
      (horder : stream.InOrder)
      (hwithin : stream.sender = .subscribed →
        ∃ job, t.jobs stream.job = some job ∧ stream.Within job)
  | lookedUp (k : ℕ) (stream : Stream)
      (hstreams : t.streams = s.streams.set k (s.lookup stream))
  | unsubscribed (k : ℕ)
      (hstreams : t.streams = s.streams.modify k fun stream => { stream with receiver := false })
  | answered (id : String) (event : JobEvent) (hterminal : event.isTerminal = true)
      (hstreams : t.streams = (s.streams.map (Stream.deliver id event)).map (Stream.close id))
  | closed (id : String) (hstreams : t.streams = s.streams.map (Stream.close id))

/-- Every stream is in order, and one that is kept within its job. -/
structure Watched (s : Scheduler) : Prop where
  ordered : ∀ stream ∈ s.streams, stream.InOrder
  within : ∀ stream ∈ s.streams, stream.sender = .subscribed →
    ∃ job, s.jobs stream.job = some job ∧ stream.Within job

section Watching

variable {s t : Scheduler} {stream : Stream} {id : String} {event : JobEvent}

theorem Turns.refl (h : t.jobs = s.jobs) : s.Turns t :=
  fun _ job' hjob => .inl ⟨job', h ▸ hjob, .refl job'⟩

theorem turns_update {changed : Option Job} (h : t.jobs = update s.jobs id changed)
    (hchanged : ∀ job', changed = some job' →
      (∃ job, s.jobs id = some job ∧ job.Turn job') ∨ s.jobs id = none ∧ job'.Capped) :
    s.Turns t := by
  intro k job' hjob
  rw [h] at hjob
  by_cases hk : k = id
  · subst hk
    rw [update_self] at hjob
    exact hchanged job' hjob
  · rw [update_of_ne hk] at hjob
    exact .inl ⟨job', hjob, .refl job'⟩

theorem turns_mutate {change : Job → Job} (h : t.jobs = update s.jobs id ((s.jobs id).map change))
    (hchange : ∀ job, s.jobs id = some job → job.Turn (change job)) : s.Turns t := by
  refine turns_update h fun job' hjob' => ?_
  obtain ⟨job, hjob, rfl⟩ := Option.map_eq_some_iff.1 hjob'
  exact .inl ⟨job, hjob, hchange job hjob⟩

theorem turns_evict (h : t.jobs = update s.jobs id none) : s.Turns t :=
  turns_update h fun _ hjob' => by cases hjob'

/-- A job that stays in memory has gone on. -/
theorem Turns.turn {job : Job} (h : s.Turns t) (hmem : t.terminal id ≠ none)
    (hjob : s.jobs id = some job) : ∃ job', t.jobs id = some job' ∧ job.Turn job' := by
  cases hjob' : t.jobs id with
  | none => exact absurd (by rw [terminal, hjob', Option.map_none]) hmem
  | some job' =>
    rcases h id job' hjob' with ⟨old, hold, hturn⟩ | ⟨hnone, -⟩
    · obtain rfl := Option.some.inj (hjob.symm.trans hold)
      exact ⟨job', rfl, hturn⟩
    · rw [hjob] at hnone
      cases hnone

/-- A stream that is still kept behind a delivery is what it was, or has the event besides. -/
theorem deliver_cases (id : String) (event : JobEvent) (stream : Stream) :
    stream.deliver id event = stream ∨
      stream.deliver id event = { stream with sender := .dropped } ∨
      stream.job = id ∧ stream.sender = .subscribed ∧
        stream.deliver id event = { stream with events := stream.events ++ [event] } := by
  unfold Stream.deliver
  split_ifs with hkept hreceiver
  · exact .inr (.inr ⟨hkept.1, hkept.2, rfl⟩)
  · exact .inr (.inl rfl)
  · exact .inl rfl

theorem close_cases (id : String) (stream : Stream) :
    stream.close id = stream ∨ stream.close id = { stream with sender := .dropped } := by
  unfold Stream.close
  split_ifs
  · exact .inr rfl
  · exact .inl rfl

variable {other : Stream}

theorem inOrder_congr (stream : Stream) (hevents : other.events = stream.events)
    (h : stream.InOrder) : other.InOrder := by
  obtain ⟨hranks, hfractions, hlast⟩ := h
  rw [← hevents] at hranks hfractions hlast
  exact ⟨hranks, hfractions, hlast⟩

theorem rank_of_answer {rank : ℕ} (h : event.isTerminal = true)
    (hrank : event.rank? = some rank) : rank = 3 := by
  cases event with
  | done | failed | cancelled => exact (Option.some.inj hrank).symm
  | queued | preparing | status | running | progress | preview => cases h

theorem fraction_of_answer (h : event.isTerminal = true) : event.fraction? = none := by
  cases event with
  | progress => cases h
  | _ => rfl

theorem lookup_inOrder (s : Scheduler) (stream : Stream) : (s.lookup stream).InOrder := by
  have hevents : (s.lookup stream).events = s.historyReplay stream.job := rfl
  unfold historyReplay at hevents
  split at hevents
  · split at hevents
    · exact replay_inOrder hevents
    · exact ⟨by simp [hevents], by simp [hevents], by simp [hevents]⟩
  · exact ⟨by simp [hevents], by simp [hevents], by simp [hevents]⟩

theorem Sight.congr {u : Scheduler} (h : s.Sight u) (hstreams : t.streams = u.streams)
    (hjobs : t.jobs = u.jobs) : s.Sight t := by
  cases h with
  | same h => exact .same (hstreams.trans h)
  | told id event h htells => exact .told id event (hstreams.trans h) (hjobs ▸ htells)
  | opened new h horder hwithin => exact .opened new (hstreams.trans h) horder (hjobs ▸ hwithin)
  | lookedUp k new h => exact .lookedUp k new (hstreams.trans h)
  | unsubscribed k h => exact .unsubscribed k (hstreams.trans h)
  | answered id event hterminal h => exact .answered id event hterminal (hstreams.trans h)
  | closed id h => exact .closed id (hstreams.trans h)

/-- A stream that a step leaves alone, or lets go. -/
theorem Watched.kept (h : s.Watched) (hturns : s.Turns t) (hsub : t.Subscribed)
    (hstream : stream ∈ s.streams) (hother : other ∈ t.streams) (hjob : other.job = stream.job)
    (hevents : other.events = stream.events)
    (hsender : other.sender = .subscribed → stream.sender = .subscribed) :
    other.InOrder ∧ (other.sender = .subscribed →
      ∃ job, t.jobs other.job = some job ∧ other.Within job) := by
  refine ⟨inOrder_congr stream hevents (h.ordered stream hstream), fun hkept => ?_⟩
  obtain ⟨job, hold, hlive, hranks, hfractions⟩ := h.within stream hstream (hsender hkept)
  obtain ⟨job', hjob', hturn⟩ := hturns.turn (hsub other hother hkept).2 (hjob ▸ hold)
  rw [← hevents] at hlive hranks hfractions
  exact ⟨job', hjob', Stream.Within.turn ⟨hlive, hranks, hfractions⟩ hturn⟩

theorem Watched.of_forall (h : ∀ stream ∈ s.streams, stream.InOrder ∧
    (stream.sender = .subscribed → ∃ job, s.jobs stream.job = some job ∧ stream.Within job)) :
    s.Watched :=
  ⟨fun stream hstream => (h stream hstream).1, fun stream hstream => (h stream hstream).2⟩

theorem Watched.step (h : s.Watched) (hsight : s.Sight t) (hturns : s.Turns t)
    (hsub : t.Subscribed) : t.Watched := by
  refine .of_forall fun stream hstream => ?_
  have hmem := hstream
  cases hsight with
  | same hstreams =>
    rw [hstreams] at hmem
    exact h.kept hturns hsub hmem hstream rfl rfl fun hsender => hsender
  | told id event hstreams htells =>
    rw [hstreams] at hmem
    obtain ⟨old, hold, rfl⟩ := List.mem_map.1 hmem
    rcases deliver_cases id event old with hsame | hdropped | ⟨hid, hsender, htold⟩
    · rw [hsame] at hstream ⊢
      exact h.kept hturns hsub hold hstream rfl rfl fun hsender => hsender
    · rw [hdropped] at hstream ⊢
      exact h.kept hturns hsub hold hstream rfl rfl nofun
    · rw [htold] at hstream ⊢
      obtain ⟨job, hjob, hwithin⟩ := h.within old hold hsender
      obtain ⟨job', hjob', hturn⟩ := hturns.turn (hsub _ hstream hsender).2 hjob
      have htells' := htells job' (hid ▸ hjob')
      have hin := hwithin.turn hturn
      refine ⟨(h.ordered old hold).concat hin (fun rank hrank => (htells'.rank rank hrank).ge)
        fun fraction hfraction => (htells'.fraction fraction hfraction).ge, fun _ => ?_⟩
      exact ⟨job', hjob', hin.concat htells'⟩
  | opened new hstreams horder hwithin =>
    rw [hstreams] at hmem
    rcases List.mem_append.1 hmem with hold | hnew
    · exact h.kept hturns hsub hold hstream rfl rfl fun hsender => hsender
    · rw [List.mem_singleton.1 hnew]
      exact ⟨horder, hwithin⟩
  | lookedUp k caller hstreams =>
    rw [hstreams] at hmem
    rcases Lists.mem_set_cases hmem with rfl | ⟨j, -, hj⟩
    · exact ⟨s.lookup_inOrder caller, nofun⟩
    · exact h.kept hturns hsub (List.mem_of_getElem? hj) hstream rfl rfl fun hsender => hsender
  | unsubscribed k hstreams =>
    rw [hstreams] at hmem
    obtain ⟨j, hj⟩ := List.mem_iff_getElem?.1 hmem
    rcases Lists.getElem?_modify_cases hj with ⟨-, old, hold, rfl⟩ | ⟨-, hold⟩
    · exact h.kept hturns hsub (List.mem_of_getElem? hold) hstream rfl rfl fun hsender => hsender
    · exact h.kept hturns hsub (List.mem_of_getElem? hold) hstream rfl rfl fun hsender => hsender
  | answered id event hterminal hstreams =>
    rw [hstreams, List.map_map] at hmem
    obtain ⟨old, hold, rfl⟩ := List.mem_map.1 hmem
    have hclosed : ∀ {kept : Stream}, kept.job = old.job → kept.events = old.events →
        (kept.sender = .subscribed → old.sender = .subscribed) → kept.close id ∈ t.streams →
        (kept.close id).InOrder ∧ ((kept.close id).sender = .subscribed →
          ∃ job, t.jobs (kept.close id).job = some job ∧ (kept.close id).Within job) := by
      intro kept hjob hevents hsender hmem
      rcases close_cases id kept with hsame | hdropped
      · rw [hsame] at hmem ⊢
        exact h.kept hturns hsub hold hmem hjob hevents hsender
      · rw [hdropped] at hmem ⊢
        exact h.kept hturns hsub hold hmem hjob hevents nofun
    simp only [comp_apply] at hstream ⊢
    rcases deliver_cases id event old with hsame | hdropped | ⟨hid, hsender, htold⟩
    · rw [hsame] at hstream ⊢
      exact hclosed rfl rfl (fun hsender => hsender) hstream
    · rw [hdropped] at hstream ⊢
      exact hclosed rfl rfl (nofun) hstream
    · -- the answer is told, and the stream let go with it
      have hclose : Stream.close id { old with events := old.events ++ [event] } =
          { old with events := old.events ++ [event], sender := .dropped } :=
        if_pos ⟨hid, hsender⟩
      obtain ⟨job, -, hwithin⟩ := h.within old hold hsender
      have horder : Stream.InOrder { old with events := old.events ++ [event] } := by
        refine (h.ordered old hold).concat hwithin (fun rank hrank => ?_)
          fun fraction hfraction => ?_
        · rw [rank_of_answer hterminal hrank]
          exact job.state.rank_le
        · rw [fraction_of_answer hterminal] at hfraction
          cases hfraction
      rw [htold, hclose]
      exact ⟨inOrder_congr { old with events := old.events ++ [event] } rfl horder, nofun⟩
  | closed id hstreams =>
    rw [hstreams] at hmem
    obtain ⟨old, hold, rfl⟩ := List.mem_map.1 hmem
    rcases close_cases id old with hsame | hdropped
    · rw [hsame] at hstream ⊢
      exact h.kept hturns hsub hold hstream rfl rfl fun hsender => hsender
    · rw [hdropped] at hstream ⊢
      exact h.kept hturns hsub hold hstream rfl rfl nofun

end Watching

end Scheduler

/-! ## Before the runner is called -/

/-- Where a job is while its task is here, up to the `Preparing` that is sent. -/
def DrivePc.rank? : DrivePc → Option ℕ
  | .start | .waitAdmission | .admitted _ | .prepare _ => some 0
  | .emitPreparing _ => some 1
  | _ => none

def TaskPc.rank? : TaskPc → Option ℕ
  | .drive pc => pc.rank?
  | _ => none

section Drive

variable {s t : Scheduler} {id : String} {effect : Effect} {pc : DrivePc} {choice : Choice}
variable {next : TaskPc}

theorem DrivePc.edge_rank {n : ℕ} (h : pc.edge id choice = some (effect, next))
    (hn : next.rank? = some n) :
    (∃ now, effect = .prepare now ∧ n = 1) ∨
      pc.rank? = some n ∧ effect ≠ .markRunning ∧ ∀ now, effect ≠ .prepare now := by
  revert h
  fun_cases DrivePc.edge id pc choice
  case case10 verdict =>
    rintro ⟨⟩
    cases verdict <;> cases hn
  case case17 event =>
    rintro ⟨⟩
    cases event <;> cases hn
  case case24 event =>
    rintro ⟨⟩
    cases event <;> cases hn
  all_goals
    rintro ⟨⟩ <;> first
      | cases hn; done
      | exact .inl ⟨_, rfl, (Option.some.inj hn).symm⟩
      | exact .inr ⟨hn, by simp, by simp⟩

variable {now : ℤ} {event : JobEvent} {job : Job} {change : Job → Job} {k : String}

theorem DrivePc.edge_prepare (h : pc.edge id choice = some (.prepare now, next)) :
    pc.rank? = some 0 := by
  generalize heffect : Effect.prepare now = effect at h
  revert h
  fun_cases DrivePc.edge id pc choice
  case case24 event =>
    rintro ⟨⟩
    cases event <;> cases heffect
  all_goals
    rintro ⟨⟩ <;> first
      | cases heffect; done
      | rfl

/-- The events that `drive` sends by itself. -/
theorem DrivePc.edge_emit (h : pc.edge id choice = some (.emit event, next)) :
    (∃ message, event = .status message) ∨ event = .preparing ∧ pc.rank? = some 1 := by
  generalize heffect : Effect.emit event = effect at h
  revert h
  fun_cases DrivePc.edge id pc choice
  case case24 received =>
    rintro ⟨⟩
    cases received with
    | status message => exact .inl ⟨message, Effect.emit.inj heffect⟩
    | started | progress | preview | result | artifacts => cases heffect
  all_goals
    rintro ⟨⟩ <;> first
      | cases heffect; done
      | exact .inr ⟨Effect.emit.inj heffect, rfl⟩
      | exact .inl ⟨_, Effect.emit.inj heffect⟩

theorem fraction_le_one (step totalSteps : ℤ) : Scheduler.fraction step totalSteps ≤ 1 := by
  unfold Scheduler.fraction
  split
  · exact max_le zero_le_one (min_le_left _ _)
  · exact zero_le_one

theorem stamp_turn {terminal : JobState} {failure : Option Failure}
    (hcapped : job.progress.fraction ≤ 1) (hterminal : terminal.isTerminal = true) :
    job.Turn (job.stamp terminal failure now) := by
  have hfraction : (job.stamp terminal failure now).progress.fraction =
      if terminal = .done then 1 else job.progress.fraction := by
    unfold Job.stamp
    simp only
    split <;> rfl
  refine ⟨?_, ?_, fun h => ⟨?_, fun hdone => ?_⟩⟩
  · exact (JobState.rank_of_terminal hterminal).symm ▸ job.state.rank_le
  · rw [hfraction]
    split
    · exact hcapped
    · exact le_refl _
  · rw [hfraction]
    split
    · exact le_refl _
    · exact hcapped
  · obtain rfl : terminal = .done := hdone
    rw [hfraction, if_pos rfl]

/-- What a section of `drive` makes of its job. -/
theorem Effect.run_turns (h : effect.run id s = some t) (hpending : s.terminal id = some false)
    (hprepare : ∀ now, effect = .prepare now → ∀ job, s.jobs id = some job → job.state.rank = 0) :
    s.Turns t := by
  have hlive : ∀ job, s.jobs id = some job → job.state.isTerminal = false :=
    fun job hjob => Scheduler.terminal_eq_some_false hjob hpending
  cases effect with
  | prepare now =>
    cases h
    refine Scheduler.turns_mutate rfl fun job hjob => ⟨?_, le_refl _, fun hcapped => ?_⟩
    · rw [hprepare now rfl job hjob]
      exact Nat.zero_le _
    · exact ⟨hcapped.fraction_le, nofun⟩
  | markRunning =>
    cases h
    unfold Scheduler.markRunning
    split
    · split
      · exact .refl rfl
      · refine Scheduler.turns_mutate rfl fun job hjob => ⟨?_, le_refl _, fun hcapped => ?_⟩
        · exact JobState.rank_of_live (hlive job hjob)
        · exact ⟨hcapped.fraction_le, nofun⟩
    · exact .refl rfl
  | markProgress step totalSteps =>
    cases h
    unfold Scheduler.markProgress
    split
    · rename_i job hjob
      split
      · exact .refl rfl
      · rename_i hforward
        refine Scheduler.turns_mutate rfl fun old hold => ?_
        obtain rfl := Option.some.inj (hjob.symm.trans hold)
        refine ⟨le_refl _, not_lt.1 hforward, fun hcapped =>
          ⟨fraction_le_one _ _, fun hdone => ?_⟩⟩
        exact le_antisymm (fraction_le_one _ _) (hcapped.done hdone ▸ not_lt.1 hforward)
    · exact .refl rfl
  | preview frame =>
    cases h
    exact Scheduler.turns_mutate rfl fun job _ => .of_same rfl rfl
  | extendResult ids =>
    cases h
    exact Scheduler.turns_mutate rfl fun job _ => .of_same rfl rfl
  | pause | emit | invoke =>
    cases h
    exact .refl rfl
  | takeRunner | cancelRequested | takePermit | inMemory | hasSink =>
    simp only [Effect.run, Option.ite_some_none_eq_some] at h
    obtain ⟨-, rfl⟩ := h
    exact .refl rfl

variable {job' : Job}

/-- A job that `change` has gone over. -/
theorem of_mutated
    (hjobs : t.jobs = update s.jobs id ((s.jobs id).map change)) (hjob : t.jobs k = some job') :
    (k = id ∧ ∃ job, s.jobs id = some job ∧ job' = change job) ∨ s.jobs k = some job' := by
  rw [hjobs] at hjob
  by_cases hk : k = id
  · rw [hk, update_self, Option.map_eq_some_iff] at hjob
    obtain ⟨job, hold, rfl⟩ := hjob
    exact .inl ⟨hk, job, hold, rfl⟩
  · rw [update_of_ne hk] at hjob
    exact .inr hjob

theorem of_mutated_self (hjob : update s.jobs id ((s.jobs id).map change) id = some job') :
    ∃ job, s.jobs id = some job ∧ job' = change job := by
  rw [update_self, Option.map_eq_some_iff] at hjob
  obtain ⟨job, hold, rfl⟩ := hjob
  exact ⟨job, hold, rfl⟩

/-- Two sections of `drive` change the state of its job, none that of another. -/
theorem Effect.run_state (h : effect.run id s = some t) (hjob : t.jobs k = some job') :
    (k = id ∧ (effect = .markRunning ∨ ∃ now, effect = .prepare now ∧ job'.state.rank = 1)) ∨
      ∃ job, s.jobs k = some job ∧ job'.state = job.state := by
  cases effect with
  | prepare now =>
    cases h
    rcases of_mutated rfl hjob with ⟨rfl, job, -, rfl⟩ | hold
    · exact .inl ⟨rfl, .inr ⟨now, rfl, rfl⟩⟩
    · exact .inr ⟨job', hold, rfl⟩
  | markRunning =>
    cases h
    by_cases hk : k = id
    · exact .inl ⟨hk, .inl rfl⟩
    · refine .inr ⟨job', ?_, rfl⟩
      unfold Scheduler.markRunning at hjob
      split at hjob
      · split at hjob
        · exact hjob
        · exact (update_of_ne hk _ _).symm.trans hjob
      · exact hjob
  | markProgress step totalSteps =>
    cases h
    unfold Scheduler.markProgress at hjob
    split at hjob
    · split at hjob
      · exact .inr ⟨job', hjob, rfl⟩
      · rcases of_mutated rfl hjob with ⟨rfl, job, hold, rfl⟩ | hold
        · exact .inr ⟨job, hold, rfl⟩
        · exact .inr ⟨job', hold, rfl⟩
    · exact .inr ⟨job', hjob, rfl⟩
  | preview frame =>
    cases h
    rcases of_mutated rfl hjob with ⟨rfl, job, hold, rfl⟩ | hold
    · exact .inr ⟨job, hold, rfl⟩
    · exact .inr ⟨job', hold, rfl⟩
  | extendResult ids =>
    cases h
    rcases of_mutated rfl hjob with ⟨rfl, job, hold, rfl⟩ | hold
    · exact .inr ⟨job, hold, rfl⟩
    · exact .inr ⟨job', hold, rfl⟩
  | pause | emit | invoke =>
    cases h
    exact .inr ⟨job', hjob, rfl⟩
  | takeRunner | cancelRequested | takePermit | inMemory | hasSink =>
    simp only [Effect.run, Option.ite_some_none_eq_some] at h
    obtain ⟨-, rfl⟩ := h
    exact .inr ⟨job', hjob, rfl⟩

theorem Effect.run_frame (h : effect.run id s = some t) :
    t.queue = s.queue ∧ t.history = s.history := by
  cases effect with
  | markRunning =>
    cases h
    unfold Scheduler.markRunning
    split
    · split <;> exact ⟨rfl, rfl⟩
    · exact ⟨rfl, rfl⟩
  | markProgress step totalSteps =>
    cases h
    unfold Scheduler.markProgress
    split
    · split <;> exact ⟨rfl, rfl⟩
    · exact ⟨rfl, rfl⟩
  | pause | emit | invoke | prepare | preview | extendResult =>
    cases h
    exact ⟨rfl, rfl⟩
  | takeRunner | cancelRequested | takePermit | inMemory | hasSink =>
    simp only [Effect.run, Option.ite_some_none_eq_some] at h
    obtain ⟨-, rfl⟩ := h
    exact ⟨rfl, rfl⟩

theorem status_tells (message : String) (job : Job) : (JobEvent.status message).Tells job :=
  ⟨rfl, fun _ h => (by cases h), fun _ h => (by cases h)⟩

theorem tells_of_rank (hlive : event.isTerminal = false)
    (hrank : event.rank? = some job.state.rank) (hfraction : event.fraction? = none) :
    event.Tells job where
  live := hlive
  rank rank h := Option.some.inj (h.symm.trans hrank)
  fraction fraction h := by
    rw [hfraction] at h
    cases h

/-- What a section of `drive` sends says where its job is. -/
theorem Effect.run_sight (h : effect.run id s = some t)
    (hemit : ∀ event, effect = .emit event → (∃ message, event = .status message) ∨
      event = .preparing ∧ ∀ job, s.jobs id = some job → job.state.rank = 1) : s.Sight t := by
  cases effect with
  | emit event =>
    cases h
    refine .told id event rfl fun job hjob => ?_
    rcases hemit event rfl with ⟨message, rfl⟩ | ⟨rfl, hrank⟩
    · exact status_tells message job
    · exact tells_of_rank rfl (congrArg some (hrank job hjob).symm) rfl
  | markRunning =>
    cases h
    unfold Scheduler.markRunning
    split
    · split
      · exact .same rfl
      · refine .told id .running rfl fun job hjob => ?_
        obtain ⟨old, -, rfl⟩ := of_mutated_self hjob
        exact tells_of_rank rfl rfl rfl
    · exact .same rfl
  | markProgress step totalSteps =>
    cases h
    unfold Scheduler.markProgress
    split
    · split
      · exact .same rfl
      · refine .told id (.progress _) rfl fun job hjob => ?_
        obtain ⟨old, -, rfl⟩ := of_mutated_self hjob
        exact ⟨rfl, fun _ h => (by cases h), fun _ h => (Option.some.inj h).symm⟩
    · exact .same rfl
  | preview frame =>
    cases h
    exact .told id (.preview frame) rfl fun job _ =>
      ⟨rfl, fun _ h => (by cases h), fun _ h => (by cases h)⟩
  | pause | invoke | prepare | extendResult =>
    cases h
    exact .same rfl
  | takeRunner | cancelRequested | takePermit | inMemory | hasSink =>
    simp only [Effect.run, Option.ite_some_none_eq_some] at h
    obtain ⟨-, rfl⟩ := h
    exact .same rfl

end Drive

namespace Scheduler

/-- Where the queue or a task has a job that is not running yet. -/
def Expects (s : Scheduler) (id : String) (n : ℕ) : Prop :=
  id ∈ s.queue ∧ n = 0 ∨ ∃ task ∈ s.tasks, task.job = id ∧ task.pc.rank? = some n

def Phased (s : Scheduler) : Prop :=
  ∀ id n job, s.Expects id n → s.jobs id = some job → job.state.rank = n

section Phases

variable {s t u : Scheduler} {id : String} {n i : ℕ} {task : Task} {pc next : TaskPc}
variable {choice : Choice}

theorem drive_of_rank (h : pc.rank? = some n) : ∃ drive, pc = .drive drive := by
  cases pc with
  | drive drive => exact ⟨drive, rfl⟩
  | _ => cases h

theorem Expects.pending (h : s.Expects id n) (horderly : s.Orderly) :
    s.terminal id = some false := by
  rcases h with ⟨hqueue, -⟩ | ⟨task, htask, rfl, hrank⟩
  · exact horderly.disciplined.queued id hqueue
  · obtain ⟨pc, hpc⟩ := drive_of_rank hrank
    obtain ⟨i, hi⟩ := List.mem_iff_getElem?.1 htask
    exact drive_pending horderly.disciplined.toSound hi hpc

/-- A job that nobody has touched is where it was. -/
theorem Phased.of_same (h : s.Phased)
    (hsame : ∀ id n job', t.Expects id n → t.jobs id = some job' →
      job'.state.rank = n ∨
        s.Expects id n ∧ ∃ job, s.jobs id = some job ∧ job'.state = job.state) : t.Phased := by
  intro id n job' hexpects hjob'
  rcases hsame id n job' hexpects hjob' with hrank | ⟨hbefore, job, hjob, hstate⟩
  · exact hrank
  · rw [hstate]
    exact h id n job hbefore hjob

theorem startNextIfIdle_jobs (s : Scheduler) : s.startNextIfIdle.jobs = s.jobs := by
  unfold startNextIfIdle
  split <;> rfl

theorem Expects.of_startNextIfIdle (h : s.startNextIfIdle.Expects id n) : s.Expects id n := by
  unfold startNextIfIdle at h
  split at h
  · rename_i first rest hidle hqueue
    rcases h with ⟨hmem, hn⟩ | ⟨task, htask, hid, hrank⟩
    · exact .inl ⟨hqueue ▸ .tail _ hmem, hn⟩
    · rcases List.mem_append.1 htask with hold | hnew
      · exact .inr ⟨task, hold, hid, hrank⟩
      · -- the first of the queue is taken
        obtain rfl := List.mem_singleton.1 hnew
        obtain rfl : first = id := hid
        exact .inl ⟨hqueue ▸ List.mem_cons_self, (Option.some.inj hrank).symm⟩
  · exact h

theorem Expects.of_goto (h : (s.goto i task next).Expects id n) (hnext : next.rank? = none) :
    s.Expects id n := by
  rcases h with hqueue | ⟨other, hother, hid, hrank⟩
  · exact .inl hqueue
  · rcases Lists.mem_set_cases hother with rfl | ⟨j, -, hj⟩
    · rw [hnext] at hrank
      cases hrank
    · exact .inr ⟨other, List.mem_of_getElem? hj, hid, hrank⟩

theorem Phased.evictAndAdvance (h : s.Phased) (id : String) : (s.evictAndAdvance id).Phased := by
  refine h.of_same fun k n job' hexpects hjob' => .inr ⟨?_, job', ?_, rfl⟩
  · exact hexpects.of_startNextIfIdle
  · have hevict : (s.evict id).jobs = update s.jobs id none := rfl
    rw [Scheduler.evictAndAdvance, startNextIfIdle_jobs, hevict] at hjob'
    have hne : k ≠ id := by
      rintro rfl
      rw [update_self] at hjob'
      cases hjob'
    exact (update_of_ne hne _ _).symm.trans hjob'

theorem Phased.goto (h : s.Phased) (hnext : next.rank? = none) : (s.goto i task next).Phased :=
  h.of_same fun _ _ job' hexpects hjob' => .inr ⟨hexpects.of_goto hnext, job', hjob', rfl⟩

/-- The one task in `drive` is the holder of the slot. -/
theorem Orderly.drive_unique (h : s.Orderly) {j : ℕ} {other : Task} {drive drive' : DrivePc}
    (hi : s.tasks[i]? = some task) (hpc : task.pc = .drive drive)
    (hj : s.tasks[j]? = some other) (hpc' : other.pc = .drive drive') : i = j := by
  have hholds : ∀ {k : ℕ} {x : Task} {pc : DrivePc}, s.tasks[k]? = some x → x.pc = .drive pc →
      x.worker.Holds := by
    intro k x pc hk hx
    have hok := h.disciplined.workers x.worker (List.mem_of_getElem? (worker_at hk))
    simp only [Ledger.WorkerOk, Task.worker, hx, TaskPc.stage] at hok
    have hexecutor : x.executor = true := by
      cases hbefore : pc.beforeInvoke with
      | true =>
        rw [hbefore, if_pos rfl] at hok
        exact hok.1
      | false =>
        rw [hbefore] at hok
        exact hok.1
    exact Task.Executing.holds ⟨hexecutor, by simp [hx], by simp [hx]⟩
  exact h.disciplined.held.unique i j _ _ (worker_at hi) (worker_at hj) (hholds hi hpc)
    (hholds hj hpc')

theorem Phased.drive (h : s.Phased) (horderly : s.Orderly) {drive : DrivePc} {effect : Effect}
    (hi : s.tasks[i]? = some task) (hpc : task.pc = .drive drive)
    (hedge : drive.edge task.job choice = some (effect, next))
    (hrun : effect.run task.job s = some u) : (u.goto i task next).Phased := by
  refine h.of_same fun k n job' hexpects hjob' => ?_
  have hstate := Effect.run_state hrun hjob'
  rcases hexpects with ⟨hqueue, hn⟩ | ⟨other, hother, hid, hrank⟩
  · -- a queued job is not the one that is driven
    have hmem : k ∈ s.queue := (Effect.run_frame hrun).1 ▸ hqueue
    refine .inr ⟨.inl ⟨hmem, hn⟩, ?_⟩
    rcases hstate with ⟨rfl, -⟩ | hold
    · refine absurd hmem (horderly.not_queued hi ?_)
      simp only [hpc, TaskPc.stage]
      split <;> simp
    · exact hold
  · have htasks : other ∈ s.tasks.set i { task with pc := next } := Effect.run_tasks hrun ▸ hother
    rcases Lists.mem_set_cases htasks with rfl | ⟨j, hij, hj⟩
    · -- the task that moved: its job was prepared, or is where it was
      rcases DrivePc.edge_rank hedge hrank with ⟨now, rfl, rfl⟩ | ⟨hbefore, hrunning, hprepare⟩
      · obtain rfl : task.job = k := hid
        cases hrun
        obtain ⟨old, -, rfl⟩ := of_mutated_self hjob'
        exact .inl rfl
      · rcases hstate with ⟨-, hrun | ⟨now, hnow, -⟩⟩ | hold
        · exact absurd hrun hrunning
        · exact absurd hnow (hprepare now)
        · exact .inr ⟨.inr ⟨task, List.mem_of_getElem? hi, hid, hpc ▸ hbefore⟩, hold⟩
    · obtain ⟨drive', hpc'⟩ := drive_of_rank hrank
      exact absurd (horderly.drive_unique hi hpc hj hpc') hij

/-- Stamping a job moves none that is expected anywhere: those are not terminal. -/
theorem Phased.of_stamped (h : s.Phased) (horderly : t.Orderly) {job : Job}
    (hterminal : job.state.isTerminal = true) (hjobs : t.jobs = update s.jobs id (some job))
    (hexpects : ∀ k n, t.Expects k n → s.Expects k n) : t.Phased := by
  refine h.of_same fun k n job' hk hjob' => .inr ⟨hexpects k n hk, job', ?_, rfl⟩
  have hne : k ≠ id := by
    rintro rfl
    have hpending := hk.pending horderly
    rw [terminal, hjobs, update_self, Option.map_some, hterminal] at hpending
    cases hpending
  rw [hjobs] at hjob'
  exact (update_of_ne hne _ _).symm.trans hjob'

theorem Phased.move (h : s.Phased) (horderly : s.Orderly) (ht : t.Orderly)
    (hi : s.tasks[i]? = some task) (hmove : s.move i task task.pc choice = some t) : t.Phased := by
  have hanswers := horderly.answers task (List.mem_of_getElem? hi)
  generalize hpc : task.pc = pc at hmove hanswers
  revert hmove
  fun_cases Scheduler.move s i task pc choice
  case case2 drive =>
    intro hmove
    obtain ⟨⟨effect, next⟩, hedge, hmove⟩ := Option.bind_eq_some_iff.1 hmove
    obtain ⟨u, hrun, rfl⟩ := Option.map_eq_some_iff.1 hmove
    exact h.drive horderly hi hpc hedge hrun
  case case4 terminal failure now job hjob hterminal recorded =>
    rintro ⟨⟩
    obtain ⟨event, hafter⟩ := afterStamp_record recorded failure hanswers
    have hjobs : ((s.goto i task (.afterStamp recorded terminal failure)).stamp task.job terminal
        failure now).jobs = update s.jobs task.job (some recorded) := by
      have hmap : (s.jobs task.job).map (fun job => job.stamp terminal failure now) =
          some recorded := by
        rw [hjob]
        rfl
      rw [← hmap]
      rfl
    have hterminal' : recorded.state.isTerminal = true := hanswers
    refine h.of_stamped ht hterminal' hjobs fun k n hk => ?_
    have hgoto : (s.goto i task (.afterStamp recorded terminal failure)).Expects k n := hk
    exact hgoto.of_goto (by rw [hafter]; rfl)
  case case9 =>
    rintro ⟨⟩
  case case1 =>
    rintro ⟨⟩
    have hgoto : (s.goto i task .done).Phased := h.goto rfl
    exact hgoto
  case case7 recorded event =>
    rintro ⟨⟩
    have hgoto : (s.goto i task (.emit event)).Phased := h.goto rfl
    exact hgoto
  case case8 event =>
    rintro ⟨⟩
    have hgoto : (s.goto i task .done).Phased := h.goto rfl
    have htold : ((s.goto i task .done).emitInto task.job event).Phased := hgoto
    exact htold.evictAndAdvance task.job
  all_goals
    rintro ⟨⟩
    have hgoto : (s.goto i task .done).Phased := h.goto rfl
    exact hgoto.evictAndAdvance task.job

theorem markWaiting_jobs {reason : String} {job' : Job} {k : String}
    (hjob : (s.markWaiting id reason).jobs k = some job') :
    ∃ job, s.jobs k = some job ∧ job'.state = job.state ∧ job'.progress = job.progress := by
  unfold markWaiting at hjob
  split at hjob
  · split at hjob
    · rcases of_mutated rfl hjob with ⟨rfl, job, hold, rfl⟩ | hold
      · exact ⟨job, hold, rfl, rfl⟩
      · exact ⟨job', hold, rfl, rfl⟩
    · exact ⟨job', hjob, rfl, rfl⟩
  · exact ⟨job', hjob, rfl, rfl⟩

theorem markWaiting_queue (s : Scheduler) (id reason : String) :
    (s.markWaiting id reason).queue = s.queue := by
  unfold markWaiting
  split
  · split <;> rfl
  · rfl

theorem Phased.submit (h : s.Phased) (horderly : s.Orderly) {now : ℤ} (hnew : id ∉ s.submitted) :
    (s.submit id now).Phased := by
  refine h.of_same fun k n job' hexpects hjob' => ?_
  have hqueued : (s.enqueue id now).Expects k n := hexpects.of_startNextIfIdle
  have hjobs : (s.enqueue id now).jobs = update s.jobs id (some (.new id now)) := rfl
  rw [Scheduler.submit, startNextIfIdle_jobs, hjobs] at hjob'
  by_cases hk : k = id
  · subst hk
    rw [update_self] at hjob'
    cases hjob'
    rcases hqueued with ⟨-, hn⟩ | htask
    · exact .inl hn.symm
    · -- no task has a job that was not submitted
      have hpending : s.terminal k = some false := Expects.pending (.inr htask) horderly
      have hsubmitted := (horderly.disciplined.memory k (by
        rw [show s.ledger.terminal k = some false from hpending]
        simp)).1
      exact absurd hsubmitted hnew
  · rw [update_of_ne hk] at hjob'
    refine .inr ⟨hqueued.imp_left ?_, job', hjob', rfl⟩
    rintro ⟨hmem, hn⟩
    rcases List.mem_append.1 hmem with hmem | hmem
    · exact ⟨hmem, hn⟩
    · exact absurd (List.mem_singleton.1 hmem) hk

theorem Phased.step {a : SchedulerAction} (h : s.Phased) (horderly : s.Orderly)
    (hst : Scheduler.step s a = some t) : t.Phased := by
  have ht := horderly.step hst
  cases a with
  | submit id now =>
    rw [Scheduler.step, Option.ite_none_left_eq_some, Option.some.injEq] at hst
    obtain ⟨hnew, rfl⟩ := hst
    exact h.submit horderly hnew
  | events id =>
    cases hst
    unfold Scheduler.events
    split <;> exact h
  | lookup k =>
    simp only [Scheduler.step] at hst
    split at hst
    · cases hst
      exact h
    · cases hst
  | unsubscribe k =>
    cases hst
    exact h
  | cancel id =>
    cases hst
    unfold Scheduler.cancel
    split
    · exact h
    · split
      · exact h
      · split
        · refine h.of_same fun k n job' hexpects hjob' => .inr ⟨?_, job', hjob', rfl⟩
          refine hexpects.imp_right ?_
          rintro ⟨task, htask, hid, hrank⟩
          rcases List.mem_append.1 htask with hold | hnew
          · exact ⟨task, hold, hid, hrank⟩
          · rw [List.mem_singleton.1 hnew] at hrank
            cases hrank
        · refine h.of_same fun k n job' hexpects hjob' => .inr ⟨?_, job', hjob', rfl⟩
          refine hexpects.imp (fun hqueue => ⟨List.mem_of_mem_filter hqueue.1, hqueue.2⟩) ?_
          rintro ⟨task, htask, hid, hrank⟩
          rcases List.mem_append.1 htask with hold | hnew
          · exact ⟨task, hold, hid, hrank⟩
          · rw [List.mem_singleton.1 hnew] at hrank
            cases hrank
  | waiting i reason =>
    simp only [Scheduler.step] at hst
    split at hst
    · rw [Option.ite_some_none_eq_some] at hst
      obtain ⟨-, rfl⟩ := hst
      refine h.of_same fun k n job' hexpects hjob' => .inr ⟨?_, ?_⟩
      · rw [Expects, markWaiting_queue, markWaiting_tasks] at hexpects
        exact hexpects
      · obtain ⟨job, hjob, hstate, -⟩ := markWaiting_jobs hjob'
        exact ⟨job, hjob, hstate⟩
    · cases hst
  | move i choice =>
    rw [Scheduler.step, Option.bind_eq_some_iff] at hst
    obtain ⟨task, hi, hmove⟩ := hst
    exact h.move horderly ht hi hmove

end Phases

/-! ## What is kept of a job -/

end Scheduler

/-- The job that `conclude` is about to record. -/
def TaskPc.recorded? : TaskPc → Option Job
  | .record recorded _ => some recorded
  | _ => none

theorem TaskPc.recorded_of_stage {pc : TaskPc} (h : pc.stage ≠ .ended) : pc.recorded? = none := by
  cases pc with
  | record => exact absurd rfl h
  | _ => rfl

theorem DrivePc.edge_recorded {id : String} {pc : DrivePc} {choice : Choice} {effect : Effect}
    {next : TaskPc} (h : pc.edge id choice = some (effect, next)) : next.recorded? = none := by
  refine TaskPc.recorded_of_stage fun hended => ?_
  rcases DrivePc.edge_stage h with ⟨-, -, hrunning⟩ | ⟨-, hsame | hending⟩
  · rw [hrunning] at hended
    cases hended
  · rw [hsame] at hended
    simp only [TaskPc.stage] at hended
    split at hended <;> cases hended
  · rw [hending] at hended
    cases hended

namespace Scheduler

/-- The jobs in memory, the ones about to be recorded, and those recorded, which are capped or
were in the history before. -/
structure Sums (history : JobHistory) (s : Scheduler) : Prop where
  memory : ∀ id job, s.jobs id = some job → job.Capped
  recorded : ∀ task ∈ s.tasks, ∀ job, task.pc.recorded? = some job → job.Capped
  kept : ∀ job ∈ s.history.jobs, job.Capped ∨ job ∈ history.jobs

section Kept

variable {s t u : Scheduler} {id : String} {i : ℕ} {task : Task} {choice : Choice}
variable {history : JobHistory} {a : SchedulerAction}

/-- The jobs that tasks are about to record are among those of before. -/
def Fewer (s t : Scheduler) : Prop :=
  ∀ task ∈ t.tasks, ∀ job, task.pc.recorded? = some job →
    ∃ old ∈ s.tasks, old.pc.recorded? = some job

theorem Turns.capped (h : s.Turns t) (hcapped : ∀ id job, s.jobs id = some job → job.Capped) :
    ∀ id job, t.jobs id = some job → job.Capped := by
  intro id job' hjob'
  rcases h id job' hjob' with ⟨job, hjob, hturn⟩ | ⟨-, hnew⟩
  · exact hturn.capped (hcapped id job hjob)
  · exact hnew

theorem Sums.of_fewer (h : s.Sums history) (hturns : s.Turns t) (hfewer : s.Fewer t)
    (hhistory : t.history = s.history) : t.Sums history where
  memory := hturns.capped h.memory
  recorded task htask job hjob := by
    obtain ⟨old, hold, hold'⟩ := hfewer task htask job hjob
    exact h.recorded old hold job hold'
  kept job hjob := h.kept job (hhistory ▸ hjob)

theorem Fewer.refl (h : t.tasks = s.tasks) : s.Fewer t :=
  fun task htask _ hjob => ⟨task, h ▸ htask, hjob⟩

variable {new : Task}

theorem Fewer.concat (h : t.tasks = s.tasks ++ [new])
    (hnew : new.pc.recorded? = none) : s.Fewer t := by
  intro task htask job hjob
  rw [h] at htask
  rcases List.mem_append.1 htask with hold | hnew'
  · exact ⟨task, hold, hjob⟩
  · rw [List.mem_singleton.1 hnew', hnew] at hjob
    cases hjob

theorem Fewer.set (h : t.tasks = s.tasks.set i new)
    (hnew : new.pc.recorded? = none) : s.Fewer t := by
  intro task htask job hjob
  rw [h] at htask
  rcases Lists.mem_set_cases htask with rfl | ⟨j, -, hj⟩
  · rw [hnew] at hjob
    cases hjob
  · exact ⟨task, List.mem_of_getElem? hj, hjob⟩

theorem Fewer.trans (h : s.Fewer u) (h' : u.Fewer t) : s.Fewer t := by
  intro task htask job hjob
  obtain ⟨old, hold, hold'⟩ := h' task htask job hjob
  exact h old hold job hold'

theorem startNextIfIdle_fewer (s : Scheduler) : s.Fewer s.startNextIfIdle := by
  unfold startNextIfIdle
  split
  · exact .concat rfl rfl
  · exact .refl rfl

theorem startNextIfIdle_history (s : Scheduler) : s.startNextIfIdle.history = s.history := by
  unfold startNextIfIdle
  split <;> rfl

theorem evictAndAdvance_turns (h : u.jobs = s.jobs) (id : String) :
    s.Turns (u.evictAndAdvance id) := by
  have hjobs : (u.evictAndAdvance id).jobs = update s.jobs id none := by
    rw [evictAndAdvance, startNextIfIdle_jobs, ← h]
    rfl
  exact turns_evict hjobs

theorem evictAndAdvance_fewer (h : s.Fewer u) (id : String) : s.Fewer (u.evictAndAdvance id) := by
  have hevict : s.Fewer (u.evict id) := h
  exact hevict.trans (u.evict id).startNextIfIdle_fewer

theorem new_capped (id : String) (now : ℤ) : (Job.new id now).Capped where
  fraction_le := zero_le_one
  done h := by cases h

/-- A recorded job, or one that was there. -/
theorem mem_record {history : JobHistory} {recorded job : Job}
    (h : job ∈ (history.record recorded).jobs) : job = recorded ∨ job ∈ history.jobs := by
  have hsorted := (List.mem_insertionSort newerFirst).1 (List.mem_of_mem_take h)
  rcases List.mem_append.1 hsorted with hold | hnew
  · exact .inr (List.mem_of_mem_filter hold)
  · exact .inl (List.mem_singleton.1 hnew)

/-- What a step makes of the jobs, of what is recorded and of the streams. -/
structure Goes (history : JobHistory) (s t : Scheduler) : Prop where
  turns : s.Turns t
  sight : s.Sight t
  sums : t.Sums history

theorem Goes.of_fewer (h : s.Sums history) (hturns : s.Turns t) (hsight : s.Sight t)
    (hfewer : s.Fewer t) (hhistory : t.history = s.history) : Goes history s t :=
  ⟨hturns, hsight, h.of_fewer hturns hfewer hhistory⟩

/-- `conclude` ends with the job evicted. -/
theorem Goes.evicted (h : s.Sums history) (hjobs : u.jobs = s.jobs) (hfewer : s.Fewer u)
    (hhistory : u.history = s.history) (hsight : s.Sight (u.evictAndAdvance id)) :
    Goes history s (u.evictAndAdvance id) :=
  .of_fewer h (evictAndAdvance_turns hjobs id) hsight (evictAndAdvance_fewer hfewer id)
    ((u.evict id).startNextIfIdle_history.trans hhistory)

theorem Goes.drive {drive : DrivePc} (h : s.Sums history) (horderly : s.Orderly)
    (hphased : s.Phased) (hi : s.tasks[i]? = some task) (hpc : task.pc = .drive drive)
    (hmove : s.move i task (.drive drive) choice = some t) : Goes history s t := by
  obtain ⟨⟨effect, next⟩, hedge, hmove⟩ := Option.bind_eq_some_iff.1 hmove
  obtain ⟨u, hrun, rfl⟩ := Option.map_eq_some_iff.1 hmove
  have hrank : ∀ {n}, drive.rank? = some n → ∀ job, s.jobs task.job = some job →
      job.state.rank = n := fun {n} hn job hjob =>
    hphased task.job n job (.inr ⟨task, List.mem_of_getElem? hi, rfl, by rw [hpc]; exact hn⟩) hjob
  have hturns : s.Turns u := by
    refine Effect.run_turns hrun (drive_pending horderly.disciplined.toSound hi hpc) ?_
    rintro now rfl
    exact hrank (DrivePc.edge_prepare hedge)
  have hsight : s.Sight u := by
    refine Effect.run_sight hrun ?_
    rintro event rfl
    exact (DrivePc.edge_emit hedge).imp_right fun ⟨hevent, hpreparing⟩ =>
      ⟨hevent, hrank hpreparing⟩
  have htasks : (u.goto i task next).tasks = s.tasks.set i { task with pc := next } :=
    congrArg (·.set i { task with pc := next }) (Effect.run_tasks hrun)
  exact .of_fewer h hturns (hsight.congr rfl rfl) (.set htasks (DrivePc.edge_recorded hedge))
    (Effect.run_frame hrun).2

theorem Goes.move (h : s.Sums history) (horderly : s.Orderly) (hphased : s.Phased)
    (hi : s.tasks[i]? = some task) (hmove : s.move i task task.pc choice = some t) :
    Goes history s t := by
  have hanswers := horderly.answers task (List.mem_of_getElem? hi)
  have hfewer : ∀ {next : TaskPc}, next.recorded? = none → s.Fewer (s.goto i task next) :=
    fun hnext => .set rfl hnext
  generalize hpc : task.pc = pc at hmove hanswers
  revert hmove
  fun_cases Scheduler.move s i task pc choice
  case case1 =>
    rintro ⟨⟩
    exact .of_fewer h (.refl rfl) (.same rfl) (hfewer rfl) rfl
  case case2 drive => exact Goes.drive h horderly hphased hi hpc
  -- `conclude` stamps its job, with a record of what it then is
  case case4 terminal failure now job hjob hterminal recorded =>
    rintro ⟨⟩
    have hcapped := h.memory task.job job hjob
    have hturn : job.Turn recorded := stamp_turn hcapped.fraction_le hanswers
    have hjobs : ((s.goto i task (.afterStamp recorded terminal failure)).stamp task.job terminal
        failure now).jobs = update s.jobs task.job
          ((s.jobs task.job).map fun job => job.stamp terminal failure now) := rfl
    have hturns : s.Turns ((s.goto i task (.afterStamp recorded terminal failure)).stamp task.job
        terminal failure now) := by
      refine turns_mutate hjobs fun old hold => ?_
      obtain rfl := Option.some.inj (hjob.symm.trans hold)
      exact hturn
    refine ⟨hturns, .same rfl, hturns.capped h.memory, fun other hother told htold => ?_, h.kept⟩
    rcases Lists.mem_set_cases hother with rfl | ⟨j, -, hj⟩
    · obtain ⟨event, hafter⟩ := afterStamp_record recorded failure hanswers
      rw [hafter] at htold
      cases htold
      exact hturn.capped hcapped
    · exact h.recorded other (List.mem_of_getElem? hj) told htold
  case case7 recorded event =>
    rintro ⟨⟩
    have hsums : (s.goto i task (.emit event)).Sums history :=
      h.of_fewer (.refl rfl) (hfewer rfl) rfl
    refine ⟨.refl rfl, .same rfl, h.memory, hsums.recorded, fun job hjob => ?_⟩
    rcases mem_record hjob with rfl | hold
    · exact .inl (h.recorded task (List.mem_of_getElem? hi) job (by rw [hpc]; rfl))
    · exact h.kept job hold
  case case8 event =>
    rintro ⟨⟩
    have hdone : s.Fewer (s.goto i task .done) := hfewer rfl
    have htold : s.Fewer ((s.goto i task .done).emitInto task.job event) := hdone
    exact .evicted h rfl htold rfl (.answered task.job event hanswers (evictAndAdvance_streams _ _))
  case case9 =>
    rintro ⟨⟩
  all_goals
    rintro ⟨⟩
    exact .evicted h rfl (hfewer rfl) rfl (.closed task.job (evictAndAdvance_streams _ _))

theorem Goes.submit (h : s.Sums history) (horderly : s.Orderly) {now : ℤ}
    (hnew : id ∉ s.submitted) : Goes history s (s.submit id now) := by
  have hjobs : (s.submit id now).jobs = update s.jobs id (some (.new id now)) :=
    startNextIfIdle_jobs _
  have hnone : s.jobs id = none := by
    -- a job in memory was submitted
    by_contra hmem
    have hterminal : s.ledger.terminal id ≠ none := fun hnone =>
      hmem (Option.map_eq_none_iff.1 hnone)
    exact hnew (horderly.disciplined.memory id hterminal).1
  have henqueue : s.Fewer (s.enqueue id now) := .refl rfl
  refine .of_fewer h (turns_update hjobs fun job' hjob' => ?_)
    (.same (startNextIfIdle_streams _)) (henqueue.trans (startNextIfIdle_fewer _))
    (startNextIfIdle_history _)
  cases hjob'
  exact .inr ⟨hnone, new_capped id now⟩

theorem Goes.events (h : s.Sums history) (id : String) : Goes history s (s.events id) := by
  unfold Scheduler.events
  split
  · rename_i job hjob
    refine .of_fewer h (.refl rfl) (.opened _ rfl (replay_inOrder rfl) fun hsender => ?_)
      (.refl rfl) rfl
    have hlive : job.state.isTerminal = false := by
      by_contra hterminal
      simp [hterminal] at hsender
    exact ⟨job, hjob, replay_within hlive rfl⟩
  · refine .of_fewer h (.refl rfl) (.opened _ rfl ?_ nofun) (.refl rfl) rfl
    exact ⟨by simp, by simp, by simp⟩

theorem Goes.cancel (h : s.Sums history) (id : String) : Goes history s (s.cancel id) := by
  unfold Scheduler.cancel
  split
  · exact .of_fewer h (.refl rfl) (.same rfl) (.refl rfl) rfl
  · split
    · exact .of_fewer h (.refl rfl) (.same rfl) (.refl rfl) rfl
    · split
      · exact .of_fewer h (.refl rfl) (.same rfl) (.concat rfl rfl) rfl
      · exact .of_fewer h (.refl rfl) (.same rfl) (.concat rfl rfl) rfl

theorem Goes.markWaiting (h : s.Sums history) (id reason : String) :
    Goes history s (s.markWaiting id reason) := by
  unfold Scheduler.markWaiting
  split
  · rename_i job hjob
    split
    · rename_i hqueued
      refine .of_fewer h (turns_mutate rfl fun old _ => .of_same rfl rfl)
        (.told id (.queued (some reason)) rfl fun job' hjob' => ?_) (.refl rfl) rfl
      obtain ⟨old, hold, rfl⟩ := of_mutated_self hjob'
      obtain rfl := Option.some.inj (hjob.symm.trans hold)
      exact tells_of_rank rfl (by rw [show JobState.rank _ = _ from congrArg _ hqueued]; rfl) rfl
    · exact .of_fewer h (.refl rfl) (.same rfl) (.refl rfl) rfl
  · exact .of_fewer h (.refl rfl) (.same rfl) (.refl rfl) rfl

theorem goes_step (h : s.Sums history) (horderly : s.Orderly) (hphased : s.Phased)
    (hst : Scheduler.step s a = some t) : Goes history s t := by
  cases a with
  | submit id now =>
    rw [Scheduler.step, Option.ite_none_left_eq_some, Option.some.injEq] at hst
    obtain ⟨hnew, rfl⟩ := hst
    exact .submit h horderly hnew
  | events id =>
    cases hst
    exact .events h id
  | lookup k =>
    simp only [Scheduler.step] at hst
    split at hst
    · cases hst
      exact .of_fewer h (.refl rfl) (.lookedUp k _ rfl) (.refl rfl) rfl
    · cases hst
  | unsubscribe k =>
    cases hst
    exact .of_fewer h (.refl rfl) (.unsubscribed k rfl) (.refl rfl) rfl
  | cancel id =>
    cases hst
    exact .cancel h id
  | waiting i reason =>
    simp only [Scheduler.step] at hst
    split at hst
    · rw [Option.ite_some_none_eq_some] at hst
      obtain ⟨-, rfl⟩ := hst
      exact .markWaiting h _ reason
    · cases hst
  | move i choice =>
    rw [Scheduler.step, Option.bind_eq_some_iff] at hst
    obtain ⟨task, hi, hmove⟩ := hst
    exact .move h horderly hphased hi hmove

end Kept

/-! ## Every run -/

/-- What every run keeps, from a history on. -/
structure Observing (history : JobHistory) (s : Scheduler) : Prop where
  serving : s.Serving
  phased : s.Phased
  sums : s.Sums history
  watched : s.Watched

theorem observing_new (history : JobHistory) (hasSink : Bool) :
    Observing history (new history hasSink) where
  serving := ⟨(new_fresh history hasSink).orderly, fun _ hstream => absurd hstream List.not_mem_nil⟩
  phased := fun _ _ _ _ hjob => (by cases hjob)
  sums := ⟨fun _ _ hjob => (by cases hjob), fun _ htask => absurd htask List.not_mem_nil,
    fun _ hjob => .inr hjob⟩
  watched := ⟨fun _ hstream => absurd hstream List.not_mem_nil,
    fun _ hstream => absurd hstream List.not_mem_nil⟩

variable {history : JobHistory} {s : Scheduler} {a : SchedulerAction}

variable {t : Scheduler}

theorem Observing.goes
    (h : Observing history s) (hst : Scheduler.step s a = some t) : Goes history s t :=
  goes_step h.sums h.serving.orderly h.phased hst

theorem Observing.step
    (h : Observing history s) (hst : Scheduler.step s a = some t) : Observing history t where
  serving := h.serving.step hst
  phased := h.phased.step h.serving.orderly hst
  sums := (h.goes hst).sums
  watched := h.watched.step (h.goes hst).sight (h.goes hst).turns (h.serving.step hst).subscribed

/-- What was seen through every stream is in order, and whoever looks at a job that is done, in
memory or among those recorded since, finds all of its progress. -/
structure Monotone (history : JobHistory) (s : Scheduler) : Prop where
  streams : ∀ stream ∈ s.streams, stream.InOrder
  memory : ∀ id job, s.jobs id = some job → job.state = .done → job.progress.fraction = 1
  recorded : ∀ job ∈ s.history.jobs, job.state = .done →
    job.progress.fraction = 1 ∨ job ∈ history.jobs

/-- The step takes no job in memory back. -/
def GoesForward (s : Scheduler) (a : SchedulerAction) : Prop :=
  ∀ t, Scheduler.step s a = some t → ∀ id job job', s.jobs id = some job → t.jobs id = some job' →
    job.state.rank ≤ job'.state.rank ∧ job.progress.fraction ≤ job'.progress.fraction

theorem Observing.monotone (h : Observing history s) : s.Monotone history where
  streams := h.watched.ordered
  memory id job hjob := (h.sums.memory id job hjob).done
  recorded job hjob hdone := (h.sums.kept job hjob).imp_left fun hcapped => hcapped.done hdone

theorem Observing.goesForward (h : Observing history s) : s.GoesForward a := by
  intro t hst id job job' hjob hjob'
  rcases (h.goes hst).turns id job' hjob' with ⟨old, hold, hturn⟩ | ⟨hnone, -⟩
  · obtain rfl := Option.some.inj (hjob.symm.trans hold)
    exact ⟨hturn.rank, hturn.fraction⟩
  · rw [hjob] at hnone
    cases hnone

/-- Along every run, whatever runners, admission and cancellations do, no job goes back and what
any subscriber has seen is in order. -/
theorem observed_in_order (history : JobHistory) (hasSink : Bool) (actions : List SchedulerAction) :
    StatesMeet Scheduler.step (Monotone history) (new history hasSink) actions ∧
      StepsMeet Scheduler.step GoesForward (new history hasSink) actions :=
  ⟨.of_invariant (I := Observing history) (fun _ _ _ h hst => h.step hst)
      (fun _ h => h.monotone) (observing_new history hasSink) actions,
    .of_invariant (I := Observing history) (fun _ _ _ h hst => h.step hst)
      (fun _ _ h => h.goesForward) (observing_new history hasSink) actions⟩

/-- Somebody listens to `a` from the start; its runner tells the first of four steps and is done. -/
def endsEarly : List SchedulerAction :=
  [.submit "a" 1, .events "a", .move 0 .yes, .move 0 (.verdict .ok), .move 0 .no,
    .move 0 (.clock 2), .move 0 .go, .move 0 .go, .move 0 .go, .move 0 .no,
    .move 0 (.event (.progress 1 4)), .move 0 .go, .move 0 .go, .move 0 .no, .move 0 .ended,
    .move 0 .no, .move 0 (.clock 3), .move 0 .go, .move 0 .go]

/-- The record says all of the progress; the listener was told a quarter of it. -/
theorem last_told_is_a_quarter :
    ((run Scheduler.step (new ⟨[], 50, by decide⟩ false) endsEarly).map fun s =>
        (s.streams, s.history.jobs.map fun job => (job.state, job.progress.fraction))) =
        some ([⟨"a", .dropped, true, true, [.queued none, .preparing, .running,
          .progress ⟨1 / 4, some 1, some 4⟩, .done []]⟩], [(.done, 1)]) ∧
      ¬ ∀ s, Reachable Scheduler.step Fresh s → ∀ stream ∈ s.streams, ∀ result,
        .done result ∈ stream.events → 1 ∈ stream.events.filterMap JobEvent.fraction? := by
  have hrun : ((run Scheduler.step (new ⟨[], 50, by decide⟩ false) endsEarly).map fun s =>
      (s.streams, s.history.jobs.map fun job => (job.state, job.progress.fraction))) =
      some ([⟨"a", .dropped, true, true, [.queued none, .preparing, .running,
        .progress ⟨1 / 4, some 1, some 4⟩, .done []]⟩], [(.done, 1)]) := by
    decide +kernel
  refine ⟨hrun, fun hall => ?_⟩
  obtain ⟨s, hs, hend⟩ := Option.map_eq_some_iff.1 hrun
  have hquarter : (1 : ℚ) ≠ 1 / 4 := by decide +kernel
  have htold := hall s (Reachable.run (.init (new_fresh _ _)) hs) _
    (by rw [(Prod.mk.inj hend).1]; exact List.mem_singleton_self _) [] (by decide)
  exact hquarter (List.mem_singleton.1 htold)

end Scheduler

end Hedos.Jobs
