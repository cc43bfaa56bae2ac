import Hedos.Governor.Policy
import Hedos.Lib.Transition
import Mathlib.Algebra.Ring.Nat

/-!
# The GPU gate

`runtime/src/governor/gate.rs`: a fair, mostly exclusive lock. `GateState` and the
functions on it are the code's own lock sections; `Gate` adds what lives outside the
mutex, so that every interleaving can be run:

* `guards`: the guards in the hands of their callers that still hold the gate;
* `sent`: grants in a oneshot channel, sent and not yet received;
* `waiting`: the `acquire` calls whose receiver is still alive;
* `releases`: the `release` loops in progress, each with its `pending` producers and the
  grants it has collected and not yet sent.

A call of `acquire` is told apart by its number, which is also its place in the order of
arrival; `admitted` and `handed` record the order in which calls were admitted and in
which collected grants were handed over.
-/

namespace Hedos.Governor

/-! ## The state behind the mutex -/

/-- A queued `acquire`: its producer and the sending half of its channel. -/
structure Waiter where
  producer : GpuProducer
  sender : ℕ
deriving DecidableEq

/-- `GateState`. The code counts `holders` in a `u32`; every holder is a live task. -/
structure GateState where
  holder : Option GpuProducer
  holders : ℕ
  waiters : List Waiter
deriving DecidableEq

/-- A guard whose `held` flag is set. A guard that is not held does nothing on drop. -/
structure GateGuard where
  producer : GpuProducer
deriving DecidableEq

def admits (state : GateState) (producer : GpuProducer) : Bool :=
  match state.holder with
  | none => true
  | some holder => decide (holder = producer) && producer.shares

/-- The loop of `collect_admissions`: admit from the front of the queue for as long as
the front is admissible, counting each admission at once. -/
def collectFrom (holder : Option GpuProducer) (holders : ℕ) :
    List Waiter → GateState × List (ℕ × GateGuard)
  | [] => (⟨holder, holders, []⟩, [])
  | waiter :: waiters =>
    if admits ⟨holder, holders, waiter :: waiters⟩ waiter.producer then
      let rest := collectFrom (some waiter.producer) (holders + 1) waiters
      (rest.1, (waiter.sender, ⟨waiter.producer⟩) :: rest.2)
    else (⟨holder, holders, waiter :: waiters⟩, [])

def collectAdmissions (state : GateState) : GateState × List (ℕ × GateGuard) :=
  collectFrom state.holder state.holders state.waiters

/-- One iteration of `release` under the lock. A release that finds another holder, or
no count to give back, is the unbalanced case: it changes nothing. -/
def releaseSection (state : GateState) (producer : GpuProducer) :
    GateState × List (ℕ × GateGuard) :=
  if state.holder = some producer ∧ state.holders > 0 then
    if state.holders - 1 > 0 then ({ state with holders := state.holders - 1 }, [])
    else collectAdmissions { state with holder := none, holders := state.holders - 1 }
  else (state, [])

/-! ## The gate with its callers -/

/-- A `release` loop in progress. `pending` is the code's stack, its top first. -/
structure Release where
  pending : List GpuProducer
  grants : List (ℕ × GateGuard)
deriving DecidableEq

structure Gate where
  state : GateState
  guards : List GateGuard
  sent : List (ℕ × GateGuard)
  waiting : List ℕ
  releases : List Release
  calls : ℕ
  admitted : List ℕ
  handed : List ℕ
deriving DecidableEq

/-- `GpuGate::new`. -/
def Gate.new : Gate := ⟨⟨none, 0, []⟩, [], [], [], [], 0, [], []⟩

inductive GateAction
  /-- `acquire`, up to its first await. -/
  | acquire (producer : GpuProducer)
  /-- A waiting call is polled and takes the grant out of its channel. -/
  | receive (call : ℕ) (guard : GateGuard)
  /-- The future of a waiting call is dropped, and its receiver with it. -/
  | cancel (call : ℕ)
  /-- A guard is dropped by its caller. -/
  | drop (guard : GateGuard)
  /-- A release loop sends its next grant. -/
  | send (release : ℕ)
  /-- A release loop pops its next pending producer. -/
  | pop (release : ℕ)
deriving DecidableEq

/-- `acquire` under the lock: enter at once, or queue a waiter. -/
def Gate.acquire (s : Gate) (producer : GpuProducer) : Gate :=
  if s.state.waiters = [] ∧ admits s.state producer = true then
    { s with
      state := { s.state with holder := some producer, holders := s.state.holders + 1 }
      guards := ⟨producer⟩ :: s.guards
      calls := s.calls + 1
      admitted := s.admitted ++ [s.calls] }
  else
    { s with
      state := { s.state with waiters := s.state.waiters ++ [⟨producer, s.calls⟩] }
      waiting := s.calls :: s.waiting
      calls := s.calls + 1 }

/-- `Drop for GateGuard`: clear `held` and run the first iteration of `release`. No other
task reads the guard, so nothing is observed between the two. -/
def Gate.dropGuard (s : Gate) (guard : GateGuard) : Gate :=
  let freed := releaseSection s.state guard.producer
  { s with
    state := freed.1
    releases := s.releases ++ [⟨[], freed.2⟩]
    admitted := s.admitted ++ freed.2.map Prod.fst }

/-- `sender.send(guard)`: a grant whose receiver is gone comes back and is queued again
for release. -/
def Gate.send (s : Gate) (i : ℕ) (r : Release) (grant : ℕ × GateGuard)
    (grants : List (ℕ × GateGuard)) : Gate :=
  if grant.1 ∈ s.waiting then
    { s with
      sent := grant :: s.sent
      releases := s.releases.set i ⟨r.pending, grants⟩
      handed := s.handed ++ [grant.1] }
  else
    { s with
      releases := s.releases.set i ⟨grant.2.producer :: r.pending, grants⟩
      handed := s.handed ++ [grant.1] }

/-- A further iteration of a release loop. -/
def Gate.pop (s : Gate) (i : ℕ) (producer : GpuProducer) (pending : List GpuProducer) : Gate :=
  let freed := releaseSection s.state producer
  { s with
    state := freed.1
    releases := s.releases.set i ⟨pending, freed.2⟩
    admitted := s.admitted ++ freed.2.map Prod.fst }

/-- One step of the gate and its callers. -/
def Gate.step (s : Gate) : GateAction → Option Gate
  | .acquire producer => some (s.acquire producer)
  | .receive call guard =>
    if call ∈ s.waiting ∧ (call, guard) ∈ s.sent then
      some { s with
        sent := s.sent.erase (call, guard)
        waiting := s.waiting.erase call
        guards := guard :: s.guards }
    else none
  | .cancel call =>
    if call ∈ s.waiting then
      match s.sent.lookup call with
      | none => some { s with waiting := s.waiting.erase call }
      | some guard =>
        some ({ s with
          waiting := s.waiting.erase call
          sent := s.sent.erase (call, guard) }.dropGuard guard)
    else none
  | .drop guard =>
    if guard ∈ s.guards then some ({ s with guards := s.guards.erase guard }.dropGuard guard)
    else none
  | .send i =>
    match s.releases[i]? with
    | some ⟨pending, grant :: grants⟩ => some (s.send i ⟨pending, grant :: grants⟩ grant grants)
    | _ => none
  | .pop i =>
    match s.releases[i]? with
    | some ⟨producer :: pending, []⟩ => some (s.pop i producer pending)
    | _ => none

/-- The grants that are counted in `holders` and not yet in a caller's hands: sent and
not received, collected and not sent, and bounced ones waiting to be released again. -/
def Gate.inFlight (s : Gate) : ℕ :=
  s.sent.length + (s.releases.map fun r => r.pending.length + r.grants.length).sum

end Hedos.Governor
