import Hedos.Gateway.AuditLog
import Hedos.Gateway.Streams
import Hedos.Lib.Lists
import Hedos.Lib.Transition
import Hedos.Upstream.Ends

/-!
# Serving requests

`dispatch`, `route` and `stopped` (`gateway/src/router.rs`) as the tasks that `handle`
(`gateway/src/server.rs`) spawns, one for each request whose body is within the limit, run them;
`GatewayCounter`, `GatewayResponder` and `TokenAuth`. The 413 that `handle` gives a larger body, and
its 500 for a response with no head, are outside. Any number of tasks take their steps in any order.
A step is what a task does between two awaits, cut at each access to what the tasks share: the
counter and the audit log.

* a handler writes to its response as it likes, and returns, panics or is dropped at any step;
* `Moves` says what one step of a task can do, and `step_cases` what one step of the server can.
-/

namespace Hedos.Gateway.Dispatch

open Hedos.Kernel (JsonValue)
open Hedos.Kernel.Time (splitOnce)
open Hedos.Upstream (trim utf8)
open Audit (GatewayAuditEntry)

abbrev Headers := List (Text × Text)

/-! ## Requests -/

structure GatewayRequest where
  method : Text
  path : Text
  headers : Headers
  body : Bytes

namespace GatewayRequest

def header (request : GatewayRequest) (name : Text) : Option Text :=
  (request.headers.find? fun entry => eqIgnoreAsciiCase entry.1 name).map Prod.snd

/-- The token behind `Bearer`, else the key of `x-api-key`. -/
def bearerToken (request : GatewayRequest) : Option Text :=
  let bearer := (request.header "Authorization".toList).bind fun authorization =>
    (splitOnce ' ' authorization).bind fun (scheme, token) =>
      if eqIgnoreAsciiCase scheme "Bearer".toList ∧ token ≠ [] then some (trim token) else none
  bearer.or ((request.header "x-api-key".toList).map trim)

end GatewayRequest

/-- `GatewaySurface::for_path`. -/
def forPath (path : Text) : GatewaySurface :=
  if "/api".toList <+: path then .ollama
  else if "/v1/messages".toList <+: path then .anthropic
  else .openAI

/-! ## Errors -/

def status : GatewayErrorKind → ℕ
  | .badRequest => 400
  | .unauthorized => 401
  | .forbidden => 403
  | .notFound => 404
  | .methodNotAllowed => 405
  | .notSupported => 501
  | .overloaded => 503
  | .timeout => 504
  | .serverError => 500
  | .clientClosed => 499

def auditOutcome : GatewayErrorKind → Text
  | .badRequest | .methodNotAllowed => "bad_request".toList
  | .unauthorized => "unauthorized".toList
  | .forbidden => "forbidden".toList
  | .notFound => "not_found".toList
  | .notSupported => "not_supported".toList
  | .overloaded => "saturated".toList
  | .timeout => "timeout".toList
  | .serverError => "error".toList
  | .clientClosed => "cancelled".toList

/-- A gateway error with what it says about a retry. -/
structure Refusal extends GatewayError where
  retryAfterSeconds : Option ℕ

def refuse (kind : GatewayErrorKind) (message : String) : Refusal where
  kind
  message
  code := none
  retryAfterSeconds := none

/-! ## Authentication -/

structure GatewayIdentity where
  clientId : Text
  name : Text
deriving DecidableEq

def localClient : GatewayIdentity := ⟨"local".toList, "local".toList⟩

def constantTimeEq (a b : Bytes) : Bool :=
  if a.length ≠ b.length then false
  else (List.zipWith (· ^^^ ·) a b).foldl (· ||| ·) 0 == 0

/-- `TokenAuth`. -/
def tokenAuth (secret : Text) (request : GatewayRequest) : Except Refusal GatewayIdentity :=
  if request.bearerToken.any fun presented =>
      constantTimeEq (utf8 (String.ofList presented)) (utf8 (String.ofList secret)) then
    .ok localClient
  else .error (refuse .unauthorized "missing or invalid API token")

/-- `OpenAuth`. -/
def openAuth (_ : GatewayRequest) : Except Refusal GatewayIdentity := .ok localClient

/-! ## Responses -/

inductive ResponsePart
  | head (status : ℕ) (headers : Headers)
  | chunk (data : Bytes)
deriving DecidableEq

/-- `GatewayResponder` with what it has sent, and the `GatewayStreamBody` it gave away, if it gave
one: whether that was ended. -/
structure Responder where
  started : Bool := false
  parts : List ResponsePart := []
  body : Option Bool := none

namespace Responder

def respond (responder : Responder) (status : ℕ) (contentType : Text) (body : Bytes)
    (extraHeaders : Headers) : Responder :=
  if responder.started then responder
  else { responder with
    started := true
    parts := responder.parts ++
      .head status (("Content-Type".toList, contentType) :: extraHeaders) ::
        if body = [] then [] else [.chunk body] }

def streamHeaders (contentType : Text) : Headers :=
  [("Content-Type".toList, contentType), ("Cache-Control".toList, "no-cache".toList)]

/-- Of a response that has started there is no body. -/
def beginStream (responder : Responder) (status : ℕ) (contentType : Text) : Responder :=
  if responder.started then responder
  else { responder with
    started := true
    parts := responder.parts ++ [.head status (streamHeaders contentType)]
    body := some false }

def write (responder : Responder) (data : Bytes) : Responder :=
  if responder.body = some false ∧ data ≠ [] then
    { responder with parts := responder.parts ++ [.chunk data] }
  else responder

/-- `GatewayStreamBody::end`. -/
def finish (responder : Responder) : Responder :=
  { responder with body := responder.body.map fun _ => true }

end Responder

/-! ## The router -/

structure GatewayRoute where
  method : Text
  path : Text
  inference : Bool
deriving DecidableEq

structure GatewayOutcome where
  status : ℕ
  outcome : Text
  model : Option Text
  capability : Option Text

/-- The router, with what reads the model a body names and what writes JSON. -/
structure GatewayRouter where
  routes : List GatewayRoute
  auth : GatewayRequest → Except Refusal GatewayIdentity
  maxConcurrentInference : ℕ
  requestedModel : GatewayRequest → Option Text
  toVec : JsonValue → Bytes

def noRoute (path : Text) : Refusal := refuse .notFound ("no route for " ++ String.ofList path)

def notAllowed (method path : Text) : Refusal :=
  refuse .methodNotAllowed (String.ofList method ++ " not allowed on " ++ String.ofList path)

def saturated : Refusal :=
  { refuse .overloaded "too many requests are already running — retry shortly" with
    retryAfterSeconds := some 1 }

def stopping : Refusal := refuse .overloaded "the gateway is stopping"

namespace GatewayRouter

/-- The route of a request. -/
def matched (router : GatewayRouter) (request : GatewayRequest) : Except Refusal GatewayRoute :=
  match router.routes.filter (·.path = request.path) with
  | [] => .error (noRoute request.path)
  | routes =>
    match routes.find? (·.method = request.method) with
    | some route => .ok route
    | none => .error (notAllowed request.method request.path)

def render (router : GatewayRouter) (request : GatewayRequest) (error : Refusal)
    (responder : Responder) : Responder :=
  responder.respond (status error.kind) "application/json".toList
    (router.toVec (error.body (forPath request.path)))
    (error.retryAfterSeconds.toList.map fun seconds =>
      ("Retry-After".toList, Nat.toDigits 10 seconds))

end GatewayRouter

def okEntry (request : GatewayRequest) (identity : GatewayIdentity) (outcome : GatewayOutcome)
    (started now : ℤ) : GatewayAuditEntry where
  ts := now
  client := some identity.clientId
  clientName := some identity.name
  method := request.method
  route := request.path
  model := outcome.model
  capability := outcome.capability
  outcome := outcome.outcome
  status := outcome.status
  durationMs := now - started
  detail := none

def errorEntry (request : GatewayRequest) (identity : Option GatewayIdentity) (error : Refusal)
    (started now : ℤ) : GatewayAuditEntry where
  ts := now
  client := identity.map GatewayIdentity.clientId
  clientName := identity.map GatewayIdentity.name
  method := request.method
  route := request.path
  model := none
  capability := none
  outcome := auditOutcome error.kind
  status := status error.kind
  durationMs := now - started
  detail :=
    if error.kind = .serverError ∨ error.kind = .clientClosed then some error.message.toList
    else none

/-! ## Tasks -/

/-- Where the task of a request stands. -/
inductive Phase
  /-- Spawned; what it awaits first is the authentication. -/
  | arrived
  | known (started : ℤ) (identity : GatewayIdentity)
  /-- In the handler of a route, with the guard of one that counts. -/
  | serving (started : ℤ) (identity : GatewayIdentity) (route : GatewayRoute)
  /-- Authentication failed. -/
  | denied (started : ℤ) (error : Refusal)
  /-- `route` has returned, and its guard is dropped. -/
  | left (started : ℤ) (identity : GatewayIdentity) (result : Except Refusal GatewayOutcome)
  /-- Audited; the error is not rendered yet, whether or not the answer has started. -/
  | failed (error : Refusal)
  /-- A cut has dropped `dispatch`. -/
  | cutOff
  /-- Audited by `stopped`. -/
  | stopped
  | ended (result : Except Refusal GatewayOutcome)
  | panicked

structure Task where
  request : GatewayRequest
  /-- When `handle` spawned it. -/
  received : ℤ
  responder : Responder := {}
  phase : Phase := .arrived

/-- A call to the audit log. -/
inductive Record
  | append (entry : GatewayAuditEntry)
  | appendUnauthorized (entry : GatewayAuditEntry)

def Record.entry : Record → GatewayAuditEntry
  | append entry | appendUnauthorized entry => entry

/-- What a step does to the counter. -/
inductive Count
  | stays
  | enter
  | exit
deriving DecidableEq

structure Move where
  task : Task
  count : Count := .stays
  records : List Record := []

/-- A step of one task, with the choices it has. -/
inductive Act
  | authenticate (now : ℤ)
  | route
  | respond (status : ℕ) (contentType : Text) (body : Bytes) (extraHeaders : Headers)
  | beginStream (status : ℕ) (contentType : Text)
  | write (data : Bytes)
  | endStream
  | returns (result : Except Refusal GatewayOutcome)
  | audit (now : ℤ)
  | render
  | drop
  | panic

/-- The guard of a route. -/
def GatewayRoute.released (route : GatewayRoute) : Count :=
  if route.inference then .exit else .stays

/-- The records of `dispatch` for an authentication that failed. -/
def denial (request : GatewayRequest) (error : Refusal) (started now : ℤ) : Record :=
  let entry := errorEntry request none error started now
  if status error.kind = 401 then .appendUnauthorized entry else .append entry

def stoppedEntry (router : GatewayRouter) (task : Task) (now : ℤ) : GatewayAuditEntry :=
  { errorEntry task.request (router.auth task.request).toOption stopping task.received now with
    model := router.requestedModel task.request
    detail := some stopping.message.toList }

/-- One step of a task, given the counter and whether the requests have been cut. -/
def advance (router : GatewayRouter) (inflight : ℕ) (cutting : Bool) (task : Task) (act : Act) :
    Option Move :=
  match act, task.phase with
  | .authenticate now, .arrived =>
    match router.auth task.request with
    | .ok identity => some { task := { task with phase := .known now identity } }
    | .error error => some { task := { task with phase := .denied now error } }
  | .route, .known started identity =>
    match router.matched task.request with
    | .error error => some { task := { task with phase := .left started identity (.error error) } }
    | .ok route =>
      if ¬ route.inference then
        some { task := { task with phase := .serving started identity route } }
      else if inflight < router.maxConcurrentInference then
        some { task := { task with phase := .serving started identity route }, count := .enter }
      else some { task := { task with phase := .left started identity (.error saturated) } }
  | .respond status contentType body extraHeaders, .serving .. =>
    some { task := { task with
      responder := task.responder.respond status contentType body extraHeaders } }
  | .beginStream status contentType, .serving .. =>
    some { task := { task with responder := task.responder.beginStream status contentType } }
  | .write data, .serving .. =>
    some { task := { task with responder := task.responder.write data } }
  | .endStream, .serving .. => some { task := { task with responder := task.responder.finish } }
  | .returns result, .serving started identity route =>
    some { task := { task with phase := .left started identity result }, count := route.released }
  | .audit now, .denied started error =>
    some { task := { task with phase := .failed error }
           records := [denial task.request error started now] }
  | .audit now, .left started identity (.ok outcome) =>
    some { task := { task with phase := .ended (.ok outcome) }
           records := [.append (okEntry task.request identity outcome started now)] }
  | .audit now, .left started identity (.error error) =>
    some { task := { task with
             phase := if task.responder.started ∨ error.kind = .clientClosed
               then .ended (.error error) else .failed error }
           records := [.append (errorEntry task.request (some identity) error started now)] }
  | .render, .failed error =>
    some { task := { task with
      responder := router.render task.request error task.responder
      phase := .ended (.error error) } }
  | .drop, .arrived => if cutting then some { task := { task with phase := .cutOff } } else none
  | .drop, .serving _ _ route =>
    if cutting then some { task := { task with phase := .cutOff }, count := route.released }
    else none
  | .audit now, .cutOff =>
    some { task := { task with phase := .stopped }
           records := [.append (stoppedEntry router task now)] }
  | .render, .stopped =>
    some { task := { task with
      responder := router.render task.request stopping task.responder
      phase := .ended (.error stopping) } }
  | .panic, .arrived => some { task := { task with phase := .panicked } }
  | .panic, .serving _ _ route =>
    some { task := { task with phase := .panicked }, count := route.released }
  | _, _ => none

/-! ## The gateway -/

structure Server where
  tasks : List Task := []
  /-- `GatewayCounter`. -/
  inflight : ℕ := 0
  cutting : Bool := false
  /-- The calls to the audit log, with the tasks that made them. -/
  log : List (ℕ × Record) := []

def Count.apply : Count → ℕ → ℕ
  | stays, n => n
  | enter, n => n + 1
  | exit, n => n - 1

inductive Action
  | arrive (request : GatewayRequest) (received : ℤ)
  | cut
  | act (i : ℕ) (act : Act)

def step (router : GatewayRouter) (s : Server) : Action → Option Server
  | .arrive request received => some { s with tasks := s.tasks ++ [{ request, received }] }
  | .cut => some { s with cutting := true }
  | .act i act => do
    let task ← s.tasks[i]?
    let move ← advance router s.inflight s.cutting task act
    return { s with
      tasks := s.tasks.set i move.task
      inflight := move.count.apply s.inflight
      log := s.log ++ move.records.map (i, ·) }

def Reachable (router : GatewayRouter) : Server → Prop :=
  Transition.Reachable (step router) (· = {})

/-! ## What a step does -/

/-- What a handler can do to its response. -/
inductive Responder.Written (responder : Responder) : Responder → Prop
  | respond (status : ℕ) (contentType : Text) (body : Bytes) (extraHeaders : Headers) :
      Written responder (responder.respond status contentType body extraHeaders)
  | beginStream (status : ℕ) (contentType : Text) :
      Written responder (responder.beginStream status contentType)
  | write (data : Bytes) : Written responder (responder.write data)
  | finish : Written responder responder.finish

section Moves

variable (router : GatewayRouter) (inflight : ℕ) (cutting : Bool) (task : Task)

/-- What a step of a task can do. -/
inductive Moves : Act → Move → Prop
  | admitted {now : ℤ} {identity : GatewayIdentity} (hphase : task.phase = .arrived)
      (hauth : router.auth task.request = .ok identity) :
      Moves (.authenticate now) { task := { task with phase := .known now identity } }
  | denied {now : ℤ} {error : Refusal} (hphase : task.phase = .arrived)
      (hauth : router.auth task.request = .error error) :
      Moves (.authenticate now) { task := { task with phase := .denied now error } }
  | unmatched {started : ℤ} {identity : GatewayIdentity} {error : Refusal}
      (hphase : task.phase = .known started identity)
      (hmatched : router.matched task.request = .error error) :
      Moves .route { task := { task with phase := .left started identity (.error error) } }
  | uncounted {started : ℤ} {identity : GatewayIdentity} {route : GatewayRoute}
      (hphase : task.phase = .known started identity)
      (hmatched : router.matched task.request = .ok route) (hinference : route.inference = false) :
      Moves .route { task := { task with phase := .serving started identity route } }
  | entered {started : ℤ} {identity : GatewayIdentity} {route : GatewayRoute}
      (hphase : task.phase = .known started identity)
      (hmatched : router.matched task.request = .ok route) (hinference : route.inference = true)
      (hroom : inflight < router.maxConcurrentInference) :
      Moves .route
        { task := { task with phase := .serving started identity route }, count := .enter }
  | full {started : ℤ} {identity : GatewayIdentity} {route : GatewayRoute}
      (hphase : task.phase = .known started identity)
      (hmatched : router.matched task.request = .ok route) (hinference : route.inference = true)
      (hfull : router.maxConcurrentInference ≤ inflight) :
      Moves .route { task := { task with phase := .left started identity (.error saturated) } }
  | writes {act : Act} {started : ℤ} {identity : GatewayIdentity} {route : GatewayRoute}
      {responder : Responder} (hphase : task.phase = .serving started identity route)
      (hwritten : task.responder.Written responder) :
      Moves act { task := { task with responder } }
  | returned {started : ℤ} {identity : GatewayIdentity} {route : GatewayRoute}
      {result : Except Refusal GatewayOutcome}
      (hphase : task.phase = .serving started identity route) :
      Moves (.returns result)
        { task := { task with phase := .left started identity result }, count := route.released }
  | denialAudited {now started : ℤ} {error : Refusal}
      (hphase : task.phase = .denied started error) :
      Moves (.audit now)
        { task := { task with phase := .failed error }
          records := [denial task.request error started now] }
  | okAudited {now started : ℤ} {identity : GatewayIdentity} {outcome : GatewayOutcome}
      (hphase : task.phase = .left started identity (.ok outcome)) :
      Moves (.audit now)
        { task := { task with phase := .ended (.ok outcome) }
          records := [.append (okEntry task.request identity outcome started now)] }
  | errorAudited {now started : ℤ} {identity : GatewayIdentity} {error : Refusal}
      (hphase : task.phase = .left started identity (.error error)) :
      Moves (.audit now)
        { task := { task with
            phase := if task.responder.started ∨ error.kind = .clientClosed
              then .ended (.error error) else .failed error }
          records := [.append (errorEntry task.request (some identity) error started now)] }
  | rendered {error : Refusal} (hphase : task.phase = .failed error) :
      Moves .render
        { task := { task with
            responder := router.render task.request error task.responder
            phase := .ended (.error error) } }
  | cutEarly (hphase : task.phase = .arrived) (hcut : cutting = true) :
      Moves .drop { task := { task with phase := .cutOff } }
  | cut {started : ℤ} {identity : GatewayIdentity} {route : GatewayRoute}
      (hphase : task.phase = .serving started identity route) (hcut : cutting = true) :
      Moves .drop { task := { task with phase := .cutOff }, count := route.released }
  | cutAudited {now : ℤ} (hphase : task.phase = .cutOff) :
      Moves (.audit now)
        { task := { task with phase := .stopped }
          records := [.append (stoppedEntry router task now)] }
  | stopRendered (hphase : task.phase = .stopped) :
      Moves .render
        { task := { task with
            responder := router.render task.request stopping task.responder
            phase := .ended (.error stopping) } }
  | panickedEarly (hphase : task.phase = .arrived) :
      Moves .panic { task := { task with phase := .panicked } }
  | panicked {started : ℤ} {identity : GatewayIdentity} {route : GatewayRoute}
      (hphase : task.phase = .serving started identity route) :
      Moves .panic { task := { task with phase := .panicked }, count := route.released }

end Moves

variable {router : GatewayRouter} {inflight : ℕ} {cutting : Bool} {task : Task} {act : Act}
  {move : Move} {s t : Server}

theorem moves_of_advance (h : advance router inflight cutting task act = some move) :
    Moves router inflight cutting task act move := by
  unfold advance at h
  split at h <;> rename_i hphase
  · split at h
    · rename_i hauth
      exact Option.some.inj h ▸ .admitted hphase hauth
    · rename_i hauth
      exact Option.some.inj h ▸ .denied hphase hauth
  · split at h
    · rename_i hmatched
      exact Option.some.inj h ▸ .unmatched hphase hmatched
    · rename_i hmatched
      split at h
      · rename_i hinference
        exact Option.some.inj h ▸ .uncounted hphase hmatched (by simpa using hinference)
      · rename_i hinference
        split at h
        · rename_i hroom
          exact Option.some.inj h ▸ .entered hphase hmatched (by simpa using hinference) hroom
        · rename_i hfull
          exact Option.some.inj h ▸
            .full hphase hmatched (by simpa using hinference) (not_lt.1 hfull)
  · exact Option.some.inj h ▸ .writes hphase (.respond ..)
  · exact Option.some.inj h ▸ .writes hphase (.beginStream ..)
  · exact Option.some.inj h ▸ .writes hphase (.write _)
  · exact Option.some.inj h ▸ .writes hphase .finish
  · exact Option.some.inj h ▸ .returned hphase
  · exact Option.some.inj h ▸ .denialAudited hphase
  · exact Option.some.inj h ▸ .okAudited hphase
  · exact Option.some.inj h ▸ .errorAudited hphase
  · exact Option.some.inj h ▸ .rendered hphase
  · split at h
    · rename_i hcut
      exact Option.some.inj h ▸ .cutEarly hphase hcut
    · cases h
  · split at h
    · rename_i hcut
      exact Option.some.inj h ▸ .cut hphase hcut
    · cases h
  · exact Option.some.inj h ▸ .cutAudited hphase
  · exact Option.some.inj h ▸ .stopRendered hphase
  · exact Option.some.inj h ▸ .panickedEarly hphase
  · exact Option.some.inj h ▸ .panicked hphase
  · cases h

theorem step_act {i : ℕ} (htask : s.tasks[i]? = some task)
    (hmove : advance router s.inflight s.cutting task act = some move) :
    step router s (.act i act) = some { s with
      tasks := s.tasks.set i move.task
      inflight := move.count.apply s.inflight
      log := s.log ++ move.records.map (i, ·) } := by
  simp only [step, htask, hmove, Option.bind_eq_bind, Option.bind_some, Option.pure_def]

/-- A step of the server is a new request, a cut, or a step of one task. -/
theorem step_cases {a : Action} (h : step router s a = some t) :
    (∃ request received, t = { s with tasks := s.tasks ++ [{ request, received }] }) ∨
    t = { s with cutting := true } ∨
    ∃ i act task move, a = .act i act ∧ s.tasks[i]? = some task ∧
      Moves router s.inflight s.cutting task act move ∧
      t = { s with
        tasks := s.tasks.set i move.task
        inflight := move.count.apply s.inflight
        log := s.log ++ move.records.map (i, ·) } := by
  cases a with
  | arrive request received => exact .inl ⟨request, received, (Option.some.inj h).symm⟩
  | cut => exact .inr (.inl (Option.some.inj h).symm)
  | act i act =>
    simp only [step, Option.bind_eq_bind, Option.bind_eq_some_iff] at h
    obtain ⟨task, htask, move, hmove, ht⟩ := h
    exact .inr (.inr ⟨i, act, task, move, rfl, htask, moves_of_advance hmove,
      (Option.some.inj ht).symm⟩)

/-- What a new task has and every step of a task keeps, every task of a reachable state has. -/
theorem task_invariant {P : Task → Prop}
    (hnew : ∀ request received, P { request, received })
    (hmove : ∀ inflight cutting task act move, P task →
      Moves router inflight cutting task act move → P move.task)
    (h : Reachable router s) : ∀ task ∈ s.tasks, P task := by
  refine Transition.Reachable.invariant (P := fun s => ∀ task ∈ s.tasks, P task) ?_ ?_ h
  · rintro s rfl task htask
    cases htask
  · intro s a t hs hst task htask
    obtain ⟨request, received, rfl⟩ | rfl | ⟨i, act, old, move, -, hold, hmoves, rfl⟩ :=
      step_cases hst
    · rcases List.mem_append.1 htask with htask | htask
      · exact hs task htask
      · rw [List.mem_singleton.1 htask]
        exact hnew request received
    · exact hs task htask
    · rcases Lists.mem_set_cases htask with rfl | ⟨j, -, hj⟩
      · exact hmove _ _ _ _ _ (hs old (List.mem_of_getElem? hold)) hmoves
      · exact hs task (List.mem_of_getElem? hj)

end Hedos.Gateway.Dispatch
