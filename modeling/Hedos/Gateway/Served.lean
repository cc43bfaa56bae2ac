import Hedos.Gateway.Dispatch

/-!
# What the gateway keeps to

For every order in which the tasks of `Dispatch.lean` take their steps, cuts and panics among them.

* The counter holds the number of inference requests in their handlers, and no more than the cap
  (`inference_capped`);
* the audit log is called once for a dispatched request, with its method and path, when it is over
  (`audited_once`);
* a response is one head and the chunks behind it (`answered_once`);
* behind a token no handler runs for a dispatched request without it (`served_with_token`).
-/

namespace Hedos.Gateway.Dispatch

open Hedos.Upstream (utf8)

variable {router : GatewayRouter} {inflight : ℕ} {cutting : Bool} {task : Task} {act : Act}
  {move : Move} {s t : Server}

/-! ## The counter -/

/-- The task has the guard of a route that counts. -/
def Task.counted (task : Task) : Bool :=
  match task.phase with
  | .serving _ _ route => route.inference
  | _ => false

/-- A guard that is dropped. -/
theorem counted_released {started : ℤ} {identity : GatewayIdentity} {route : GatewayRoute}
    (hphase : task.phase = .serving started identity route) :
    (route.released = .stays ∧ task.counted = false) ∨
    (route.released = .exit ∧ task.counted = true) := by
  cases hroute : route.inference
  · exact .inl ⟨by simp [GatewayRoute.released, hroute], by simp [Task.counted, hphase, hroute]⟩
  · exact .inr ⟨by simp [GatewayRoute.released, hroute], by simp [Task.counted, hphase, hroute]⟩

/-- The counter follows the guards. -/
theorem Moves.counted (h : Moves router inflight cutting task act move) :
    (move.count = .stays ∧ move.task.counted = task.counted) ∨
    (move.count = .enter ∧ task.counted = false ∧ move.task.counted = true ∧
      inflight < router.maxConcurrentInference) ∨
    (move.count = .exit ∧ task.counted = true ∧ move.task.counted = false) := by
  cases h with
  | uncounted hphase _ hinference => exact .inl ⟨rfl, by simp [Task.counted, hphase, hinference]⟩
  | entered hphase _ hinference hroom =>
    exact .inr (.inl ⟨rfl, by simp [Task.counted, hphase], hinference, hroom⟩)
  | errorAudited hphase =>
    rename_i error
    by_cases hover : task.responder.started ∨ error.kind = .clientClosed
    · exact .inl ⟨rfl, by simp [Task.counted, hphase, hover]⟩
    · exact .inl ⟨rfl, by simp [Task.counted, hphase, hover]⟩
  | returned hphase | cut hphase | panicked hphase =>
    obtain ⟨hstays, hfalse⟩ | ⟨hexit, htrue⟩ := counted_released hphase
    · exact .inl ⟨hstays, hfalse.symm⟩
    · exact .inr (.inr ⟨hexit, htrue, rfl⟩)
  | _ hphase => exact .inl ⟨rfl, by simp [Task.counted, hphase]⟩

theorem counts (h : Reachable router s) :
    s.inflight = s.tasks.countP Task.counted ∧ s.inflight ≤ router.maxConcurrentInference := by
  refine Transition.Reachable.invariant (P := fun s : Server =>
    s.inflight = s.tasks.countP Task.counted ∧ s.inflight ≤ router.maxConcurrentInference) ?_ ?_ h
  · rintro s rfl
    exact ⟨rfl, Nat.zero_le _⟩
  · rintro s a t ⟨hcount, hcap⟩ hst
    obtain ⟨request, received, rfl⟩ | rfl | ⟨i, act, task, move, -, htask, hmoves, rfl⟩ :=
      step_cases hst
    · refine ⟨?_, hcap⟩
      have hnew : Task.counted { request, received } = false := rfl
      simpa [List.countP_append, hnew] using hcount
    · exact ⟨hcount, hcap⟩
    · have hset := Lists.countP_set_add htask Task.counted move.task
      rcases hmoves.counted with ⟨hmove, hsame⟩ | ⟨hmove, hold, hnew, hroom⟩ | ⟨hmove, hold, hnew⟩
      · rw [hsame] at hset
        simp only [hmove, Count.apply]
        exact ⟨by omega, hcap⟩
      · simp only [hold, hnew, Bool.false_eq_true, if_false, if_true] at hset
        simp only [hmove, Count.apply]
        exact ⟨by omega, by omega⟩
      · simp only [hold, hnew, Bool.false_eq_true, if_false, if_true] at hset
        simp only [hmove, Count.apply]
        exact ⟨by omega, by omega⟩

def embedRoute : GatewayRoute := ⟨"POST".toList, "/v1/embeddings".toList, true⟩

def embedRequest : GatewayRequest := ⟨"POST".toList, "/v1/embeddings".toList, [], []⟩

/-- A router with one route and room for one request. -/
def oneSlot (auth : GatewayRequest → Except Refusal GatewayIdentity) : GatewayRouter where
  routes := [embedRoute]
  auth
  maxConcurrentInference := 1
  requestedModel := fun _ => none
  toVec := fun _ => [123, 125]

/-- One request in the handler, and one more in front of it. -/
def busy : Server where
  tasks := [
    { request := embedRequest, received := 0, phase := .serving 0 localClient embedRoute },
    { request := embedRequest, received := 0, phase := .known 0 localClient }]
  inflight := 1

theorem busy_reachable : Reachable (oneSlot openAuth) busy := by
  have hrun : Transition.run (step (oneSlot openAuth)) {}
      [.arrive embedRequest 0, .arrive embedRequest 0, .act 0 (.authenticate 0),
        .act 1 (.authenticate 0), .act 0 .route] = some busy := rfl
  exact Transition.Reachable.run (.init rfl) hrun

/-- The counter is the number of inference requests in their handlers, never above the cap, and an
inference request is turned away exactly when that many are in theirs. -/
theorem inference_capped (h : Reachable router s) :
    s.inflight = s.tasks.countP Task.counted ∧ s.inflight ≤ router.maxConcurrentInference ∧
    ∀ i task started identity route, s.tasks[i]? = some task →
      task.phase = .known started identity → router.matched task.request = .ok route →
      route.inference = true →
      ((∃ t, step router s (.act i .route) = some t ∧
        t.tasks[i]? = some { task with phase := .left started identity (.error saturated) }) ↔
      s.tasks.countP Task.counted = router.maxConcurrentInference) := by
  obtain ⟨hcount, hcap⟩ := counts h
  refine ⟨hcount, hcap, fun i task started identity route htask hphase hmatched hinference => ?_⟩
  have hi : i < s.tasks.length := (List.getElem?_eq_some_iff.1 htask).1
  by_cases hroom : s.inflight < router.maxConcurrentInference
  · have hmove : advance router s.inflight s.cutting task .route = some
        { task := { task with phase := .serving started identity route }, count := .enter } := by
      simp [advance, hphase, hmatched, hinference, hroom]
    have hne : s.tasks.countP Task.counted ≠ router.maxConcurrentInference := by omega
    rw [step_act htask hmove]
    simp [hi, hne]
  · have hmove : advance router s.inflight s.cutting task .route = some
        { task := { task with phase := .left started identity (.error saturated) } } := by
      simp [advance, hphase, hmatched, hinference, hroom]
    have heq : s.tasks.countP Task.counted = router.maxConcurrentInference := by omega
    rw [step_act htask hmove]
    simp [hi, heq]

theorem second_request_is_turned_away :
    ∃ t, step (oneSlot openAuth) busy (.act 1 .route) = some t ∧
      t.tasks[1]? = some
        { request := embedRequest, received := 0
          phase := .left 0 localClient (.error saturated) } :=
  ((inference_capped busy_reachable).2.2 1 _ 0 localClient embedRoute rfl rfl rfl rfl).2 rfl

/-- The second request refused, audited and answered, with the first one still in its handler. -/
def turnedAway : Server where
  tasks := [
    { request := embedRequest, received := 0, phase := .serving 0 localClient embedRoute },
    { request := embedRequest, received := 0, phase := .ended (.error saturated),
      responder := (oneSlot openAuth).render embedRequest saturated {} }]
  inflight := 1
  log := [(1, .append (errorEntry embedRequest (some localClient) saturated 0 5))]

theorem turnedAway_reachable : Reachable (oneSlot openAuth) turnedAway := by
  have hrun : Transition.run (step (oneSlot openAuth)) busy
      [.act 1 .route, .act 1 (.audit 5), .act 1 .render] = some turnedAway := rfl
  exact busy_reachable.run hrun

/-! ## The audit log -/

/-- The request has been audited. -/
def Phase.audited : Phase → Bool
  | failed _ | stopped | ended _ => true
  | _ => false

theorem Moves.request (h : Moves router inflight cutting task act move) :
    move.task.request = task.request := by
  cases h <;> rfl

/-- A step that audits is the one that makes the phase an audited one. -/
theorem Moves.records (h : Moves router inflight cutting task act move) :
    (if task.phase.audited then 1 else 0) + move.records.length =
      (if move.task.phase.audited then 1 else 0) ∧
    ∀ record ∈ move.records, record.entry.method = task.request.method ∧
      record.entry.route = task.request.path := by
  cases h with
  | denialAudited hphase =>
    refine ⟨by simp [hphase, Phase.audited], fun record hrecord => ?_⟩
    rw [List.mem_singleton.1 hrecord, denial]
    split <;> exact ⟨rfl, rfl⟩
  | errorAudited hphase =>
    rename_i error
    refine ⟨?_, by simp [Record.entry, errorEntry]⟩
    by_cases hover : task.responder.started ∨ error.kind = .clientClosed
    · simp [hphase, hover, Phase.audited]
    · simp [hphase, hover, Phase.audited]
  | okAudited hphase => simp [hphase, Phase.audited, Record.entry, okEntry]
  | cutAudited hphase => simp [hphase, Phase.audited, Record.entry, stoppedEntry, errorEntry]
  | writes hphase _ => simp
  | _ hphase => simp [hphase, Phase.audited]

/-- The audit log is called once for a dispatched request, with its method and path, when it is
over; not before, and not at all when its handler panics. -/
theorem audited_once (h : Reachable router s) :
    ∀ i task, s.tasks[i]? = some task →
      s.log.countP (·.1 = i) = (if task.phase.audited then 1 else 0) ∧
      ∀ record, (i, record) ∈ s.log → record.entry.method = task.request.method ∧
        record.entry.route = task.request.path := by
  have hlog := Transition.Reachable.invariant (P := fun s : Server =>
    (∀ entry ∈ s.log, entry.1 < s.tasks.length) ∧
    ∀ i task, s.tasks[i]? = some task →
      s.log.countP (·.1 = i) = (if task.phase.audited then 1 else 0) ∧
      ∀ record, (i, record) ∈ s.log → record.entry.method = task.request.method ∧
        record.entry.route = task.request.path) ?_ ?_ h
  · exact hlog.2
  · rintro s rfl
    simp
  · rintro s a t ⟨hknown, hs⟩ hst
    obtain ⟨request, received, rfl⟩ | rfl | ⟨i, act, old, move, -, hold, hmoves, rfl⟩ :=
      step_cases hst
    · refine ⟨fun entry hentry => ?_, fun j task hj => ?_⟩
      · have hlt := hknown entry hentry
        simp only [List.length_append, List.length_singleton]
        omega
      · rcases Lists.getElem?_concat_cases hj with hj | ⟨rfl, rfl⟩
        · exact hs j task hj
        · -- nothing in the log is about a task that is not there yet
          have hnone : ∀ entry ∈ s.log, entry.1 ≠ s.tasks.length := fun entry hentry =>
            (hknown entry hentry).ne
          refine ⟨?_, fun record hrecord => absurd rfl (hnone _ hrecord)⟩
          simpa [Phase.audited, List.countP_eq_zero] using hnone
    · exact ⟨hknown, hs⟩
    · obtain ⟨hi, -⟩ := List.getElem?_eq_some_iff.1 hold
      refine ⟨fun entry hentry => ?_, fun j task hj => ?_⟩
      · simp only [List.length_set]
        rcases List.mem_append.1 hentry with hentry | hentry
        · exact hknown entry hentry
        · obtain ⟨record, -, rfl⟩ := List.mem_map.1 hentry
          exact hi
      · obtain ⟨hlength, hnamed⟩ := hmoves.records
        rcases Lists.getElem?_set_cases hj with ⟨rfl, rfl⟩ | ⟨hij, hj⟩
        · obtain ⟨hcount, hentries⟩ := hs i old hold
          rw [hmoves.request]
          refine ⟨?_, fun record hrecord => ?_⟩
          · have hall : (move.records.map (i, ·)).countP (·.1 = i) = move.records.length := by
              rw [List.countP_map, List.countP_eq_length.2 (by simp)]
            rw [List.countP_append, hcount, hall, hlength]
          · rcases List.mem_append.1 hrecord with hrecord | hrecord
            · exact hentries record hrecord
            · exact hnamed record (by simpa using hrecord)
        · obtain ⟨hcount, hentries⟩ := hs j task hj
          refine ⟨?_, fun record hrecord => ?_⟩
          · have hnone : (move.records.map (i, ·)).countP (·.1 = j) = 0 := by
              rw [List.countP_map]
              simp [List.countP_eq_zero, hij]
            rw [List.countP_append, hcount, hnone, Nat.add_zero]
          · rcases List.mem_append.1 hrecord with hrecord | hrecord
            · exact hentries record hrecord
            · simp [hij] at hrecord

theorem turned_away_is_audited : turnedAway.log.countP (·.1 = 1) = 1 ∧
    ∀ record, (1, record) ∈ turnedAway.log →
      record.entry.method = "POST".toList ∧ record.entry.route = "/v1/embeddings".toList :=
  audited_once turnedAway_reachable 1 _ rfl

/-! ## The responses -/

/-- A head, and chunks behind it. -/
def OneHead (parts : List ResponsePart) : Prop :=
  ∃ (status : ℕ) (headers : Headers) (chunks : List Bytes),
    parts = .head status headers :: chunks.map .chunk

/-- Nothing is sent in front of the head, and a body belongs to a response that has one. -/
structure Responder.Sound (responder : Responder) : Prop where
  unsent : responder.started = false → responder.parts = []
  sent : responder.started = true → OneHead responder.parts
  body : responder.body.isSome → responder.started = true

namespace Responder.Sound

variable {responder : Responder}

theorem new : Responder.Sound {} where
  unsent := fun _ => rfl
  sent := by simp
  body := by simp

theorem respond (h : responder.Sound) (status : ℕ) (contentType : Text) (body : Bytes)
    (extraHeaders : Headers) :
    (responder.respond status contentType body extraHeaders).Sound ∧
      (responder.respond status contentType body extraHeaders).started = true := by
  rw [Responder.respond]
  by_cases hstarted : responder.started = true
  · rw [if_pos hstarted]
    exact ⟨h, hstarted⟩
  · rw [if_neg hstarted]
    refine ⟨⟨by simp, fun _ => ?_, by simp⟩, rfl⟩
    refine ⟨status, ("Content-Type".toList, contentType) :: extraHeaders,
      if body = [] then [] else [body], ?_⟩
    rw [h.unsent (by simpa using hstarted)]
    by_cases hbody : body = []
    · simp [hbody]
    · simp [hbody]

theorem written {after : Responder} (h : responder.Sound) (hwritten : responder.Written after) :
    after.Sound := by
  cases hwritten with
  | respond => exact (h.respond _ _ _ _).1
  | beginStream status contentType =>
    rw [beginStream]
    by_cases hstarted : responder.started = true
    · rw [if_pos hstarted]
      exact h
    · rw [if_neg hstarted]
      refine ⟨by simp, fun _ => ⟨status, streamHeaders contentType, [], ?_⟩, by simp⟩
      rw [h.unsent (by simpa using hstarted)]
      rfl
  | write data =>
    rw [write]
    split
    · rename_i hopen
      have hstarted : responder.started = true := h.body (by simp [hopen.1])
      refine ⟨by simp [hstarted], fun _ => ?_, fun _ => hstarted⟩
      obtain ⟨status, headers, chunks, hparts⟩ := h.sent hstarted
      exact ⟨status, headers, chunks ++ [data], by simp [hparts]⟩
    · exact h
  | finish => exact ⟨h.unsent, h.sent, fun hbody => h.body (by simpa [finish] using hbody)⟩

end Responder.Sound

/-- What a response must hold where the task stands. -/
def Phase.answers (phase : Phase) (started : Bool) : Prop :=
  match phase with
  | arrived | known _ _ | denied _ _ | failed _ => started = false
  | ended (.error error) => error.kind ≠ .clientClosed → started = true
  | _ => True

theorem Moves.answers (h : Moves router inflight cutting task act move)
    (htask : task.responder.Sound ∧ task.phase.answers task.responder.started) :
    move.task.responder.Sound ∧ move.task.phase.answers move.task.responder.started := by
  obtain ⟨hsound, hanswers⟩ := htask
  cases h with
  | admitted hphase | denied hphase | denialAudited hphase =>
    exact ⟨hsound, by simpa [hphase, Phase.answers] using hanswers⟩
  | writes hphase hwritten => exact ⟨hsound.written hwritten, by simp [hphase, Phase.answers]⟩
  | errorAudited hphase =>
    rename_i error
    refine ⟨hsound, ?_⟩
    by_cases hstarted : task.responder.started = true
    · simp [hstarted, Phase.answers]
    · by_cases hclosed : error.kind = .clientClosed
      · simp [hclosed, Phase.answers]
      · simp [hstarted, hclosed, Phase.answers]
  | rendered | stopRendered =>
    obtain ⟨hafter, hstarted⟩ := hsound.respond _ _ _ _
    exact ⟨hafter, fun _ => hstarted⟩
  | returned | unmatched | uncounted | entered | full | okAudited | cutEarly | cut | cutAudited
    | panickedEarly | panicked => exact ⟨hsound, trivial⟩

/-- What is sent of a response is one head and the chunks behind it, whatever the handler does; a
request that ends in an error is answered, unless its client has left. -/
theorem answered_once (h : Reachable router s) {task : Task} (htask : task ∈ s.tasks) :
    (task.responder.parts = [] ∨ OneHead task.responder.parts) ∧
    ∀ error, task.phase = .ended (.error error) → error.kind ≠ .clientClosed →
      OneHead task.responder.parts := by
  obtain ⟨hsound, hanswers⟩ := task_invariant
    (P := fun task => task.responder.Sound ∧ task.phase.answers task.responder.started)
    (fun _ _ => ⟨.new, rfl⟩) (fun _ _ _ _ _ hold hmoves => hmoves.answers hold) h task htask
  refine ⟨?_, fun error hphase hkind => ?_⟩
  · cases hstarted : task.responder.started
    · exact .inl (hsound.unsent hstarted)
    · exact .inr (hsound.sent hstarted)
  · rw [hphase] at hanswers
    exact hsound.sent (hanswers hkind)

theorem turned_away_is_answered :
    OneHead ((oneSlot openAuth).render embedRequest saturated {}).parts :=
  (answered_once turnedAway_reachable (List.mem_of_getElem? (i := 1) rfl)).2 saturated rfl
    (by decide)

/-! ## Requests without the token -/

/-- Of a request that is not authenticated nothing is sent but an error of the router. -/
def Task.Unserved (router : GatewayRouter) (error : Refusal) (task : Task) : Prop :=
  match task.phase with
  | .arrived | .cutOff | .stopped | .panicked => task.responder = {}
  | .denied _ cause | .failed cause => cause = error ∧ task.responder = {}
  | .ended (.error cause) => (cause = error ∨ cause = stopping) ∧
      task.responder = router.render task.request cause {}
  | _ => False

theorem Moves.unserved {error : Refusal} (h : Moves router inflight cutting task act move)
    (hauth : router.auth task.request = .error error) (htask : task.Unserved router error) :
    move.task.Unserved router error := by
  cases h with
  | admitted _ hok =>
    rw [hauth] at hok
    cases hok
  | denied hphase hcause =>
    rw [hauth] at hcause
    cases hcause
    simpa [Task.Unserved, hphase] using htask
  | rendered hphase =>
    simp only [Task.Unserved, hphase] at htask
    obtain ⟨rfl, hresponder⟩ := htask
    simp [Task.Unserved, hresponder]
  | stopRendered hphase =>
    simp only [Task.Unserved, hphase] at htask
    simp [Task.Unserved, htask]
  | denialAudited hphase | cutEarly hphase | cutAudited hphase | panickedEarly hphase =>
    simpa [Task.Unserved, hphase] using htask
  | unmatched hphase | uncounted hphase | entered hphase | full hphase | writes hphase
    | returned hphase | okAudited hphase | errorAudited hphase | cut hphase | panicked hphase =>
    simp [Task.Unserved, hphase] at htask

theorem Task.Unserved.sent {error : Refusal} (h : task.Unserved router error) :
    task.responder = {} ∨ ∃ cause, (cause = error ∨ cause = stopping) ∧
      task.responder = router.render task.request cause {} := by
  rw [Task.Unserved] at h
  cases hphase : task.phase with
  | arrived | cutOff | stopped | panicked =>
    rw [hphase] at h
    exact .inl h
  | denied | failed =>
    rw [hphase] at h
    exact .inl h.2
  | ended result =>
    rw [hphase] at h
    cases result with
    | error cause => exact .inr ⟨cause, h⟩
    | ok => exact h.elim
  | known | serving | left =>
    rw [hphase] at h
    exact h.elim

theorem foldl_or_eq_zero (bytes : Bytes) (acc : UInt8) :
    bytes.foldl (· ||| ·) acc = 0 ↔ acc = 0 ∧ ∀ byte ∈ bytes, byte = 0 := by
  induction bytes generalizing acc with
  | nil => simp
  | cons byte bytes ih => rw [List.foldl_cons, ih, UInt8.or_eq_zero_iff, List.forall_mem_cons,
      and_assoc]

/-- Looking at every byte decides the same as comparing. -/
theorem constantTimeEq_iff (a b : Bytes) : constantTimeEq a b = true ↔ a = b := by
  rw [constantTimeEq]
  split
  · rename_i hlength
    simpa using fun heq : a = b => hlength (congrArg List.length heq)
  · rename_i hlength
    rw [beq_iff_eq, foldl_or_eq_zero]
    have hlen : a.length = b.length := not_not.1 hlength
    clear hlength
    induction a generalizing b with
    | nil => simpa using (List.length_eq_zero_iff.1 hlen.symm).symm
    | cons x a ih =>
      cases b with
      | nil => simp at hlen
      | cons y b => simpa using fun _ => ih b (by simpa using hlen)

theorem utf8_injective : Function.Injective utf8 := fun a b hab => by
  have h := congrArg Upstream.fromUtf8 hab
  rw [Upstream.fromUtf8_utf8, Upstream.fromUtf8_utf8] at h
  exact Option.some.inj h

def unauthorized : Refusal := refuse .unauthorized "missing or invalid API token"

theorem tokenAuth_of_ne {secret : Text} {request : GatewayRequest}
    (h : request.bearerToken ≠ some secret) :
    tokenAuth secret request = .error unauthorized := by
  rw [tokenAuth, if_neg, unauthorized]
  intro hany
  obtain ⟨presented, hpresented, heq⟩ := (Option.any_eq_true _ _).1 hany
  have htext := utf8_injective ((constantTimeEq_iff _ _).1 heq)
  exact h (hpresented.trans (congrArg some (String.ofList_injective htext)))

/-- Behind a token no handler runs for a dispatched request that does not carry it: all it is ever
answered is that the token is missing, or that the gateway is stopping. -/
theorem served_with_token {secret : Text} (hrouter : router.auth = tokenAuth secret)
    (h : Reachable router s) {task : Task} (htask : task ∈ s.tasks)
    (htoken : task.request.bearerToken ≠ some secret) :
    (∀ started identity route, task.phase ≠ .serving started identity route) ∧
    (task.responder.parts = [] ∨
      task.responder = router.render task.request unauthorized {} ∨
      task.responder = router.render task.request stopping {}) := by
  have hunserved := task_invariant
    (P := fun task => ∀ error, router.auth task.request = .error error → task.Unserved router error)
    (fun _ _ _ _ => rfl)
    (fun _ _ _ _ _ hold hmoves error hauth => by
      rw [hmoves.request] at hauth
      exact hmoves.unserved hauth (hold error hauth)) h task htask unauthorized
    (by rw [hrouter]; exact tokenAuth_of_ne htoken)
  refine ⟨fun started identity route hphase => ?_, ?_⟩
  · simp [Task.Unserved, hphase] at hunserved
  · obtain hnew | ⟨cause, rfl | rfl, hresponder⟩ := hunserved.sent
    · exact .inl (by rw [hnew])
    · exact .inr (.inl hresponder)
    · exact .inr (.inr hresponder)

def tokenSlot : GatewayRouter := oneSlot (tokenAuth "s3cret".toList)

/-- A request without the token, answered. -/
def turnedBack : Task where
  request := embedRequest
  received := 0
  phase := .ended (.error unauthorized)
  responder := tokenSlot.render embedRequest unauthorized {}

theorem request_without_token_is_not_served :
    turnedBack.phase ≠ .serving 0 localClient embedRoute ∧
    (turnedBack.responder.parts = [] ∨
      turnedBack.responder = tokenSlot.render embedRequest unauthorized {} ∨
      turnedBack.responder = tokenSlot.render embedRequest stopping {}) := by
  have hrun : Transition.run (step tokenSlot) {} [.arrive embedRequest 0,
      .act 0 (.authenticate 0), .act 0 (.audit 5), .act 0 .render] =
      some { tasks := [turnedBack], log := [(0, denial embedRequest unauthorized 0 5)] } := rfl
  obtain ⟨hserved, hresponder⟩ := served_with_token rfl (Transition.Reachable.run (.init rfl) hrun)
    (List.mem_singleton.2 rfl) (by decide)
  exact ⟨hserved 0 localClient embedRoute, hresponder⟩

end Hedos.Gateway.Dispatch
