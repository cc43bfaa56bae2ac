import Hedos.Sidecar.BadFrames
import Hedos.Lib.Transition

/-!
# The frames of a sidecar and the calls they go to

`next_frame`, `expire_waiter`, `ingest`, `mark_eof` and `deliver` of
`runtime/src/sidecar/supervisor.rs` on the process of one generation, with the calls of
`next_frame` made on it one after another: a call may be dropped while it waits, also when its frame
is on the way already.

* `Pipe` adds the calls and the frames that arrived to the supervisor, and `step` is what chunks,
  calls and timers do to them;
* `Linked` ties the calls to the oneshot channels, and `Kept` says that what arrived was sent to the
  calls in order or is in the buffer;
* over every run no frame goes to two calls, frames come out in the order they arrived, and only a
  dropped call can take one with it (`frames_reach_calls`).
-/

namespace Hedos.Sidecar

open Function

variable {ν : Type}

/-- A call of `next_frame`; it waits on a oneshot channel or is over. -/
inductive Call (ν : Type)
  | waiting (receiver : ℕ)
  | returned (frame : Option (Frame ν))
  | dropped (receiver : ℕ)

def Call.receiver : Call ν → Option ℕ
  | waiting w | dropped w => some w
  | returned _ => none

def Call.isWaiting : Call ν → Bool
  | waiting _ => true
  | _ => false

/-- The frame the call came back with. -/
def Call.result : Call ν → Option (Frame ν)
  | returned frame => frame
  | _ => none

/-- The frame the call was sent, whether it has read it, will read it or was dropped before. -/
def Call.frame (s : Supervisor ν) : Call ν → Option (Frame ν)
  | waiting w | dropped w => (s.answers w).join
  | returned frame => frame

/-- A sidecar with the calls made so far, in order, and the frames that arrived so far. -/
structure Pipe (ν : Type) where
  supervisor : Supervisor ν
  calls : List (Call ν) := []
  arrived : List (Frame ν) := []

namespace Pipe

/-- What was sent to the calls, in the order they were made. -/
def sent (p : Pipe ν) : List (Frame ν) := p.calls.filterMap (Call.frame p.supervisor)

/-- What the calls came back with. -/
def received (p : Pipe ν) : List (Frame ν) := p.calls.filterMap Call.result

inductive Action
  /-- Bytes from the reader. -/
  | chunk (bytes : Bytes)
  | eof
  /-- `next_frame` is called. -/
  | call
  /-- The call takes its answer from the channel. -/
  | read
  /-- The call is dropped while it waits. -/
  | drop
  /-- The wait for `ready` is over. -/
  | expire
  /-- The frame watchdog of a session wakes up. -/
  | watchdog (session : ℕ)
  | kill
deriving DecidableEq

/-- The frames a chunk completes; none when one of them is bad, and the reader kills the sidecar. -/
def decoded (json : Json ν) (s : Supervisor ν) (id : String) (generation : ℕ) (bytes : Bytes) :
    List (Frame ν) :=
  match s.processes id with
  | none => []
  | some process =>
    if process.generation ≠ generation then []
    else
      match process.decoder.append json bytes with
      | (_, .ok frames) => frames
      | (_, .error _) => []

/-- The call that waits, if there is one, comes to its end; it is the last one made. -/
def endCall (p : Pipe ν) (supervisor : Supervisor ν) (call : Call ν) : Pipe ν :=
  { p with supervisor, calls := p.calls.dropLast ++ [call] }

/-- One step on the sidecar of a generation; a call is made when no other waits. -/
def step (json : Json ν) (id : String) (generation : ℕ) (p : Pipe ν) : Action → Option (Pipe ν)
  | .chunk bytes =>
    some { p with
      supervisor := (p.supervisor.ingest json id generation bytes).1
      arrived := p.arrived ++ decoded json p.supervisor id generation bytes }
  | .eof => some { p with supervisor := p.supervisor.markEof id generation }
  | .call =>
    if p.calls.any Call.isWaiting then none
    else
      match p.supervisor.nextFrame id with
      | (supervisor, .frame frame) =>
        some { p with supervisor, calls := p.calls ++ [Call.returned (some frame)] }
      | (supervisor, .nothing) =>
        some { p with supervisor, calls := p.calls ++ [Call.returned none] }
      | (supervisor, .wait w) => some { p with supervisor, calls := p.calls ++ [Call.waiting w] }
  | .read =>
    match p.calls.getLast? with
    | some (.waiting w) => (p.supervisor.answers w).map fun answer =>
        p.endCall p.supervisor (.returned answer)
    | _ => none
  | .drop =>
    match p.calls.getLast? with
    | some (.waiting w) =>
      some (p.endCall { p.supervisor with
        receiverGone := update p.supervisor.receiverGone w true } (.dropped w))
    | _ => none
  | .expire => some { p with supervisor := p.supervisor.expireWaiter id }
  | .watchdog session => some { p with supervisor := p.supervisor.frameTimeout id session }
  | .kill => some { p with supervisor := p.supervisor.kill id }

/-- The sidecar has just been spawned. -/
def start (id : String) : Pipe ν := { supervisor := ({} : Supervisor ν).spawn id }

end Pipe

/-! ## What is kept -/

/-- The calls and the oneshot channels. -/
structure Linked (s : Supervisor ν) (calls : List (Call ν)) : Prop where
  older : ∀ call ∈ calls, ∀ w, call.receiver = some w → w < s.nextId
  fresh : ∀ w, s.nextId ≤ w → s.answers w = none ∧ s.receiverGone w = false
  distinct : (calls.filterMap Call.receiver).Nodup
  alone : ∀ call ∈ calls.dropLast, call.isWaiting = false
  gone : ∀ w, Call.dropped w ∈ calls → s.receiverGone w = true

/-- A registered sidecar: what arrived was sent to the calls in order or is in the buffer, and a
waiter is that of the last call, which was sent nothing yet. -/
structure Kept (s : Supervisor ν) (process : Process ν) (calls : List (Call ν))
    (arrived : List (Frame ν)) : Prop where
  accounted : calls.filterMap (Call.frame s) ++ process.buffered = arrived
  waiter : ∀ w, process.waiter = some w → process.buffered = [] ∧ s.answers w = none ∧
    ∃ (front : List (Call ν)) (call : Call ν), calls = front ++ [call] ∧ call.receiver = some w
  eof : process.eof = true → process.waiter = none
  pending : process.pending = []

section

variable {s t : Supervisor ν} {process : Process ν} {calls : List (Call ν)}
  {arrived : List (Frame ν)}

/-- Only what came through the channels counts. -/
theorem Call.frame_congr (h : t.answers = s.answers) : Call.frame t = Call.frame s := by
  funext call
  cases call <;> simp [Call.frame, h]

theorem Linked.congr (h : Linked s calls) (hanswers : t.answers = s.answers)
    (hgone : t.receiverGone = s.receiverGone) (hnext : t.nextId = s.nextId) :
    Linked t calls :=
  ⟨by rw [hnext]; exact h.older, by rw [hanswers, hgone, hnext]; exact h.fresh, h.distinct,
    h.alone, by rw [hgone]; exact h.gone⟩

theorem answer_self (w : ℕ) (value : Option (Frame ν)) :
    (s.answer [w] value).answers w = some value := by
  simp [Supervisor.answer]

variable {w : ℕ}

theorem answer_of_ne {w' : ℕ} (h : w' ≠ w) (value : Option (Frame ν)) :
    (s.answer [w] value).answers w' = s.answers w' := by
  simp [Supervisor.answer, h]

theorem answer_nil (value : Option (Frame ν)) : s.answer [] value = s := by
  simp [Supervisor.answer]

/-- An answer to a call already made leaves the channels in order. -/
theorem Linked.answer (h : Linked s calls) (hw : w < s.nextId)
    (value : Option (Frame ν)) : Linked (s.answer [w] value) calls := by
  refine ⟨h.older, fun w' hw' => ?_, h.distinct, h.alone, h.gone⟩
  have hne : w' ≠ w := by
    have hle : s.nextId ≤ w' := hw'
    omega
  rw [answer_of_ne hne]
  exact h.fresh w' hw'

/-- It does not concern the calls of other channels. -/
theorem frames_answer (value : Option (Frame ν)) (h : ∀ call ∈ calls, call.receiver ≠ some w) :
    calls.filterMap (Call.frame (s.answer [w] value)) = calls.filterMap (Call.frame s) := by
  refine List.filterMap_congr fun call hcall => ?_
  have hne := h call hcall
  cases call with
  | returned frame => rfl
  | waiting w' | dropped w' =>
    have hother : w' ≠ w := fun heq => hne (by rw [heq]; rfl)
    simp only [Call.frame, answer_of_ne hother]

theorem Linked.front {front : List (Call ν)} {call : Call ν}
    (h : Linked s (front ++ [call])) (hw : call.receiver = some w) :
    ∀ other ∈ front, other.receiver ≠ some w := by
  intro other hother heq
  have hnodup := h.distinct
  rw [List.filterMap_append, List.nodup_append] at hnodup
  refine hnodup.2.2 w (List.mem_filterMap.2 ⟨other, hother, heq⟩) w ?_ rfl
  simp [hw]

/-- Answering the last call with nothing changes nothing for what was sent. -/
theorem frames_answer_none {front : List (Call ν)} {call : Call ν}
    (h : Linked s (front ++ [call])) (hw : call.receiver = some w) (hanswer : s.answers w = none) :
    (front ++ [call]).filterMap (Call.frame (s.answer [w] none)) =
      (front ++ [call]).filterMap (Call.frame s) := by
  rw [List.filterMap_append, List.filterMap_append, frames_answer none (h.front hw)]
  cases call with
  | returned frame => cases hw
  | waiting w' | dropped w' =>
    cases hw
    simp [Call.frame, answer_self, hanswer]

theorem Kept.congr (h : Kept s process calls arrived) (hanswers : t.answers = s.answers) :
    Kept t process calls arrived :=
  ⟨by rw [Call.frame_congr hanswers]; exact h.accounted, by rw [hanswers]; exact h.waiter, h.eof,
    h.pending⟩

/-- The waiter is let go with nothing. -/
theorem Kept.release (h : Kept s process calls arrived) (hlinked : Linked s calls)
    (next : Process ν) (hbuffered : next.buffered = process.buffered) (hwaiter : next.waiter = none)
    (hpending : next.pending = []) :
    Linked (s.answer process.waiter.toList none) calls ∧
      Kept (s.answer process.waiter.toList none) next calls arrived := by
  cases hw : process.waiter with
  | none =>
    rw [Option.toList_none, answer_nil]
    exact ⟨hlinked, by rw [hbuffered]; exact h.accounted, by simp [hwaiter], fun _ => hwaiter,
      hpending⟩
  | some w =>
    obtain ⟨-, hanswer, front, call, rfl, hreceiver⟩ := h.waiter w hw
    have hold : w < s.nextId := hlinked.older call (by simp) w hreceiver
    refine ⟨hlinked.answer hold none, ?_, by simp [hwaiter], fun _ => hwaiter, hpending⟩
    rw [Option.toList_some, frames_answer_none hlinked hreceiver hanswer, hbuffered]
    exact h.accounted

/-- A frame goes to the last call, which waits for it, or into the buffer. -/
theorem Kept.deliver (h : Kept s process calls arrived) (hlinked : Linked s calls)
    (frame : Frame ν) :
    Linked (s.deliver process frame).1 calls ∧
      Kept (s.deliver process frame).1 (s.deliver process frame).2 calls (arrived ++ [frame]) := by
  have haccounted := h.accounted
  unfold Supervisor.deliver
  cases hw : process.waiter with
  | none =>
    simp only
    refine ⟨hlinked, ?_, by simp, fun _ => rfl, h.pending⟩
    rw [← haccounted, List.append_assoc]
  | some w =>
    obtain ⟨hempty, hanswer, front, call, rfl, hreceiver⟩ := h.waiter w hw
    rw [hempty, List.append_nil] at haccounted
    simp only
    by_cases hgone : s.receiverGone w = true
    · rw [if_pos hgone]
      refine ⟨hlinked, ?_, by simp, fun _ => rfl, h.pending⟩
      simp only
      rw [hempty, List.nil_append, haccounted]
    · rw [if_neg hgone]
      have hold : w < s.nextId := hlinked.older call (by simp) w hreceiver
      refine ⟨hlinked.answer hold _, ?_, by simp, fun _ => rfl, h.pending⟩
      have hwaits : call = .waiting w := by
        cases call with
        | returned frame => cases hreceiver
        | waiting w' => rw [Option.some.inj hreceiver]
        | dropped w' =>
          obtain rfl := Option.some.inj hreceiver
          exact absurd (hlinked.gone w' (by simp)) hgone
      simp only
      rw [hempty, List.append_nil, List.filterMap_append, frames_answer _ (hlinked.front hreceiver),
        ← haccounted, List.filterMap_append, hwaits]
      simp [Call.frame, answer_self, hanswer]

theorem Kept.deliverAll (frames : List (Frame ν)) (h : Kept s process calls arrived)
    (hlinked : Linked s calls) :
    Linked (s.deliverAll process frames).1 calls ∧
      Kept (s.deliverAll process frames).1 (s.deliverAll process frames).2 calls
        (arrived ++ frames) := by
  induction frames generalizing s process arrived with
  | nil =>
    rw [List.append_nil]
    exact ⟨hlinked, h⟩
  | cons frame frames ih =>
    obtain ⟨hlinked', hkept⟩ := h.deliver hlinked frame
    have hrest := ih hkept hlinked'
    rwa [List.append_assoc, List.singleton_append] at hrest

end

theorem Linked.returned {s : Supervisor ν} {front : List (Call ν)} {w : ℕ}
    (h : Linked s (front ++ [Call.waiting w])) (frame : Option (Frame ν)) :
    Linked s (front ++ [Call.returned frame]) := by
  refine ⟨fun call hcall w' hw' => ?_, h.fresh, ?_, ?_, fun w' hw' => h.gone w' ?_⟩
  · rcases List.mem_append.1 hcall with hcall | hcall
    · exact h.older call (List.mem_append_left _ hcall) w' hw'
    · rw [List.mem_singleton.1 hcall] at hw'
      cases hw'
  · have hdistinct := h.distinct
    rw [List.filterMap_append] at hdistinct ⊢
    show (front.filterMap Call.receiver ++ []).Nodup
    rw [List.append_nil]
    exact (List.nodup_append.1 hdistinct).1
  · have halone := h.alone
    rwa [List.dropLast_concat] at halone ⊢
  · simpa using hw'

theorem Linked.dropped {s : Supervisor ν} {front : List (Call ν)} {w : ℕ}
    (h : Linked s (front ++ [Call.waiting w])) :
    Linked { s with receiverGone := update s.receiverGone w true } (front ++ [Call.dropped w]) := by
  have hold : w < s.nextId := h.older (.waiting w) (by simp) w rfl
  refine ⟨fun call hcall w' hw' => ?_, fun w' hw' => ?_, ?_, ?_, fun w' hw' => ?_⟩
  · rcases List.mem_append.1 hcall with hcall | hcall
    · exact h.older call (List.mem_append_left _ hcall) w' hw'
    · rw [List.mem_singleton.1 hcall] at hw'
      rwa [← Option.some.inj hw']
  · have hne : w' ≠ w := by
      have hle : s.nextId ≤ w' := hw'
      omega
    have hother : update s.receiverGone w true w' = s.receiverGone w' :=
      update_of_ne hne ..
    exact ⟨(h.fresh w' hw').1, hother.trans (h.fresh w' hw').2⟩
  · have hdistinct := h.distinct
    rwa [List.filterMap_append] at hdistinct ⊢
  · have halone := h.alone
    rwa [List.dropLast_concat] at halone ⊢
  · by_cases heq : w' = w
    · subst heq
      exact update_self ..
    · have hother : update s.receiverGone w true w' = s.receiverGone w' :=
        update_of_ne heq ..
      exact hother.trans (h.gone w' (by simpa [heq] using hw'))

/-! ## Every step -/

namespace Pipe

variable {json : Json ν} {id : String} {generation : ℕ}

structure Inv (id : String) (p : Pipe ν) : Prop where
  linked : Linked p.supervisor p.calls
  isPrefix : p.sent <+: p.arrived
  kept : ∀ process, p.supervisor.processes id = some process →
    Kept p.supervisor process p.calls p.arrived

theorem inv_start (id : String) : Inv id (start id : Pipe ν) := by
  refine ⟨⟨by simp [start], fun w hw => ⟨rfl, rfl⟩, by simp [start], by simp [start],
    by simp [start]⟩, List.prefix_rfl, fun process hprocess => ?_⟩
  have hspawned : process = { generation := 1 } := by
    simpa [start, Supervisor.spawn, Supervisor.setProcess, eq_comm] using hprocess
  subst hspawned
  exact ⟨rfl, by simp, by simp, rfl⟩

variable {p q : Pipe ν} {s : Supervisor ν} {process : Process ν}

/-- The supervisor after a section on the sidecar, which is still registered. -/
theorem Inv.of_kept (hprocess : s.processes id = some process) (hlinked : Linked s p.calls)
    (hkept : Kept s process p.calls p.arrived) : Inv id { p with supervisor := s } := by
  refine ⟨hlinked, ?_, fun other hother => ?_⟩
  · rw [← hkept.accounted]
    exact List.prefix_append _ _
  · obtain rfl := Option.some.inj (hprocess.symm.trans hother)
    exact hkept

/-- A section that leaves no sidecar registered and the calls alone. -/
theorem Inv.of_none (h : Inv id p) (hnone : s.processes id = none) (hlinked : Linked s p.calls)
    (hframes : p.calls.filterMap (Call.frame s) = p.sent) : Inv id { p with supervisor := s } := by
  refine ⟨hlinked, ?_, fun process hprocess => ?_⟩
  · show p.calls.filterMap (Call.frame s) <+: p.arrived
    rw [hframes]
    exact h.isPrefix
  · rw [hnone] at hprocess
    cases hprocess

theorem inv_chunk (h : Inv id p) (bytes : Bytes) :
    Inv id { p with
      supervisor := (p.supervisor.ingest json id generation bytes).1
      arrived := p.arrived ++ decoded json p.supervisor id generation bytes } := by
  simp only [Supervisor.ingest, decoded]
  cases hprocess : p.supervisor.processes id with
  | none => simpa using h
  | some process =>
    simp only
    by_cases hgeneration : process.generation ≠ generation
    · simpa only [if_pos hgeneration, List.append_nil] using h
    · simp only [if_neg hgeneration]
      have hkept := h.kept process hprocess
      rcases happend : process.decoder.append json bytes with ⟨decoder, error | frames⟩
      · simp only [List.append_nil]
        refine Inv.of_kept (by simp [Supervisor.setProcess] : _ = some { process with decoder })
          (h.linked.congr rfl rfl rfl) ?_
        exact Kept.congr ⟨hkept.accounted, hkept.waiter, hkept.eof, hkept.pending⟩ rfl
      · have hnext : Kept p.supervisor { process with decoder } p.calls p.arrived :=
          ⟨hkept.accounted, hkept.waiter, hkept.eof, hkept.pending⟩
        obtain ⟨hlinked, hdelivered⟩ := hnext.deliverAll frames h.linked
        exact Inv.of_kept (p := { p with arrived := p.arrived ++ frames })
          (by simp [Supervisor.setProcess]) (hlinked.congr rfl rfl rfl) (hdelivered.congr rfl)

theorem inv_expire (h : Inv id p) :
    Inv id { p with supervisor := p.supervisor.expireWaiter id } := by
  unfold Supervisor.expireWaiter
  cases hprocess : p.supervisor.processes id with
  | none => exact h
  | some process =>
    have hkept := h.kept process hprocess
    obtain ⟨hlinked, hreleased⟩ := hkept.release h.linked { process with waiter := none }
      rfl rfl hkept.pending
    exact Inv.of_kept (by simp [Supervisor.setProcess, Supervisor.answer])
      (hlinked.congr rfl rfl rfl) (hreleased.congr rfl)

theorem inv_eof (h : Inv id p) :
    Inv id { p with supervisor := p.supervisor.markEof id generation } := by
  unfold Supervisor.markEof
  cases hprocess : p.supervisor.processes id with
  | none => exact h
  | some process =>
    simp only
    by_cases hgeneration : process.generation ≠ generation
    · rw [if_pos hgeneration]
      exact h
    · rw [if_neg hgeneration]
      have hkept := h.kept process hprocess
      obtain ⟨hlinked, hreleased⟩ := hkept.release h.linked
        { process with eof := true, waiter := none, pending := [] } rfl rfl rfl
      rw [hkept.pending, List.append_nil]
      exact Inv.of_kept (by simp [Supervisor.setProcess, Supervisor.answer])
        (hlinked.congr rfl rfl rfl) (hreleased.congr rfl)

theorem inv_kill (h : Inv id p) : Inv id { p with supervisor := p.supervisor.kill id } := by
  unfold Supervisor.kill
  cases hprocess : p.supervisor.processes id with
  | none => exact h
  | some process =>
    have hkept := h.kept process hprocess
    obtain ⟨hlinked, hreleased⟩ := hkept.release h.linked { process with waiter := none }
      rfl rfl hkept.pending
    simp only
    rw [hkept.pending, List.append_nil]
    refine h.of_none (by simp [Supervisor.setProcess, Supervisor.answer])
      (hlinked.congr rfl rfl rfl) ?_
    -- the same frames as before, since both make up what arrived with the same buffer
    have hsame := hreleased.accounted.trans hkept.accounted.symm
    rw [List.append_cancel_right_eq] at hsame
    rw [← Call.frame_congr rfl] at hsame
    exact hsame

/-- A call is added that is over at once, or waits on a fresh channel. -/
theorem Linked.call {t : Supervisor ν} {calls : List (Call ν)} (h : Linked s calls)
    (hnone : calls.any Call.isWaiting = false) {call : Call ν} (hle : s.nextId ≤ t.nextId)
    (hfresh : ∀ w, t.nextId ≤ w → t.answers w = none ∧ t.receiverGone w = false)
    (hgone : t.receiverGone = s.receiverGone)
    (hcall : (∃ frame, call = .returned frame) ∨
      call = .waiting s.nextId ∧ s.nextId < t.nextId) : Linked t (calls ++ [call]) := by
  refine ⟨fun other hother w hw => ?_, hfresh, ?_, ?_, fun w hw => ?_⟩
  · rcases List.mem_append.1 hother with hother | hother
    · exact (h.older other hother w hw).trans_le hle
    · rw [List.mem_singleton.1 hother] at hw
      rcases hcall with ⟨frame, rfl⟩ | ⟨rfl, hlt⟩
      · cases hw
      · rwa [← Option.some.inj hw]
  · rw [List.filterMap_append]
    rcases hcall with ⟨frame, rfl⟩ | ⟨rfl, hlt⟩
    · show (calls.filterMap Call.receiver ++ []).Nodup
      rw [List.append_nil]
      exact h.distinct
    · show (calls.filterMap Call.receiver ++ [s.nextId]).Nodup
      rw [List.nodup_append]
      refine ⟨h.distinct, by simp, fun w hw w' hw' heq => ?_⟩
      obtain ⟨other, hother, hreceiver⟩ := List.mem_filterMap.1 hw
      have hlast := List.mem_singleton.1 hw'
      have hold := h.older other hother w hreceiver
      omega
  · rw [List.dropLast_concat]
    intro other hother
    exact Bool.eq_false_of_not_eq_true (List.any_eq_false.1 hnone other hother)
  · rw [hgone]
    rcases List.mem_append.1 hw with hw | hw
    · exact h.gone w hw
    · rcases hcall with ⟨frame, rfl⟩ | ⟨rfl, -⟩ <;> simp at hw

theorem frames_returned (s : Supervisor ν) (calls : List (Call ν)) (frame : Option (Frame ν)) :
    (calls ++ [Call.returned frame]).filterMap (Call.frame s) =
      calls.filterMap (Call.frame s) ++ frame.toList := by
  rw [List.filterMap_append]
  cases frame <;> rfl

/-- The call found no sidecar. -/
theorem inv_call_none (h : Inv id p) (hnone : p.calls.any Call.isWaiting = false)
    (hprocess : p.supervisor.processes id = none) :
    Inv id { p with calls := p.calls ++ [Call.returned none] } := by
  refine ⟨Linked.call h.linked hnone le_rfl h.linked.fresh rfl (.inl ⟨_, rfl⟩), ?_,
    fun process hother => ?_⟩
  · have hsame := frames_returned p.supervisor p.calls none
    rw [Option.toList_none, List.append_nil] at hsame
    show List.filterMap _ _ <+: p.arrived
    rw [hsame]
    exact h.isPrefix
  · rw [hprocess] at hother
    cases hother

/-- The call took a frame, or nothing, from the sidecar. -/
theorem inv_call_over {next : Process ν} (h : Inv id p) (hnone : p.calls.any Call.isWaiting = false)
    (hprocess : p.supervisor.processes id = some process) (hnext : s.processes id = some next)
    (hanswers : s.answers = p.supervisor.answers)
    (hgone : s.receiverGone = p.supervisor.receiverGone) (hid : s.nextId = p.supervisor.nextId)
    (frame : Option (Frame ν)) (hbuffered : process.buffered = frame.toList ++ next.buffered)
    (hwaiter : next.waiter = none) (hpending : next.pending = []) :
    Inv id { p with supervisor := s, calls := p.calls ++ [Call.returned frame] } := by
  have hkept := h.kept process hprocess
  have hover : Kept p.supervisor next (p.calls ++ [Call.returned frame]) p.arrived := by
    refine ⟨?_, by simp [hwaiter], fun _ => hwaiter, hpending⟩
    rw [frames_returned, List.append_assoc, ← hbuffered]
    exact hkept.accounted
  have hlinked := Linked.call h.linked hnone le_rfl h.linked.fresh rfl (.inl ⟨frame, rfl⟩)
  exact Inv.of_kept (p := { p with calls := p.calls ++ [Call.returned frame] }) hnext
    (hlinked.congr hanswers hgone hid) (hover.congr hanswers)

/-- The call waits on a fresh channel; a waiter still there was that of a dropped call. -/
theorem inv_call_waits {next : Process ν} (h : Inv id p)
    (hnone : p.calls.any Call.isWaiting = false)
    (hprocess : p.supervisor.processes id = some process) (hbuffered : process.buffered = [])
    (hwaiter : next.waiter = some p.supervisor.nextId) (hempty : next.buffered = [])
    (heof : next.eof = false) (hpending : next.pending = []) :
    Inv id { p with
      supervisor := ((p.supervisor.setProcess id (some next)).answer
        process.waiter.toList none).fresh
      calls := p.calls ++ [Call.waiting p.supervisor.nextId] } := by
  have hkept := h.kept process hprocess
  obtain ⟨hlinked, hreleased⟩ := hkept.release h.linked { process with waiter := none }
    rfl rfl hkept.pending
  set s := p.supervisor.answer process.waiter.toList none
  have hfresh : s.answers p.supervisor.nextId = none := (hlinked.fresh _ le_rfl).1
  have hwaits : Kept s next (p.calls ++ [Call.waiting p.supervisor.nextId]) p.arrived := by
    refine ⟨?_, fun w hw => ?_, by simp [heof], hpending⟩
    · have haccounted := hreleased.accounted
      rw [List.filterMap_append, hempty, ← haccounted]
      simp [Call.frame, hfresh, hbuffered]
    · obtain rfl := Option.some.inj (hwaiter.symm.trans hw)
      exact ⟨hempty, hfresh, p.calls, _, rfl, rfl⟩
  refine Inv.of_kept (p := { p with calls := p.calls ++ [Call.waiting p.supervisor.nextId] })
    (by simp [Supervisor.setProcess, Supervisor.answer, Supervisor.fresh]) ?_ (hwaits.congr rfl)
  refine Linked.call hlinked hnone (Nat.le_succ _) (fun w hw => ?_) rfl
    (.inr ⟨rfl, Nat.lt_succ_self _⟩)
  exact hlinked.fresh w ((Nat.le_succ _).trans hw)

theorem inv_call (h : Inv id p) (hstep : step json id generation p .call = some q) :
    Inv id q := by
  simp only [step] at hstep
  cases hnone : p.calls.any Call.isWaiting with
  | true => simp [hnone] at hstep
  | false =>
    simp only [hnone, Bool.false_eq_true, if_false] at hstep
    unfold Supervisor.nextFrame at hstep
    cases hprocess : p.supervisor.processes id with
    | none =>
      simp only [hprocess, Option.some.injEq] at hstep
      subst hstep
      exact inv_call_none h hnone hprocess
    | some process =>
      have hkept := h.kept process hprocess
      simp only [hprocess] at hstep
      cases hbuffered : process.buffered with
      | cons frame buffered =>
        simp only [hbuffered, Option.some.injEq] at hstep
        subst hstep
        have hwaiter : process.waiter = none := by
          cases hw : process.waiter with
          | none => rfl
          | some w => simp [(hkept.waiter w hw).1] at hbuffered
        have hnext : (p.supervisor.setProcess id (some { process with buffered })).processes id =
            some { process with buffered } := update_self ..
        exact inv_call_over h hnone hprocess hnext rfl rfl rfl (some frame) hbuffered hwaiter
          hkept.pending
      | nil =>
        simp only [hbuffered] at hstep
        cases heof : process.eof with
        | true =>
          simp only [heof, if_true, Option.some.injEq] at hstep
          subst hstep
          exact inv_call_over h hnone hprocess hprocess rfl rfl rfl none rfl (hkept.eof heof)
            hkept.pending
        | false =>
          simp only [heof, Bool.false_eq_true, if_false, Option.some.injEq] at hstep
          subst hstep
          exact inv_call_waits h hnone hprocess hbuffered rfl rfl rfl hkept.pending

/-- The waiting call is over, and was sent what it was sent. -/
theorem inv_endCall (h : Inv id p) {front : List (Call ν)} {w : ℕ}
    (hcalls : p.calls = front ++ [Call.waiting w]) {call : Call ν}
    (hprocesses : s.processes = p.supervisor.processes)
    (hanswers : s.answers = p.supervisor.answers) (hlinked : Linked s (front ++ [call]))
    (hframe : call.frame s = (Call.waiting w).frame p.supervisor)
    (hcall : call.receiver = some w ∨ p.supervisor.answers w ≠ none) :
    Inv id { p with supervisor := s, calls := front ++ [call] } := by
  have hsame : (front ++ [call]).filterMap (Call.frame s) = p.sent := by
    rw [sent, hcalls, List.filterMap_append, List.filterMap_append, Call.frame_congr hanswers]
    rw [Call.frame_congr hanswers] at hframe
    congr 1
    simp only [List.filterMap_cons, hframe]
  refine ⟨hlinked, ?_, fun process hprocess => ?_⟩
  · show (front ++ [call]).filterMap (Call.frame s) <+: p.arrived
    rw [hsame]
    exact h.isPrefix
  · rw [hprocesses] at hprocess
    have hkept := h.kept process hprocess
    refine ⟨?_, fun w' hw' => ?_, hkept.eof, hkept.pending⟩
    · rw [hsame]
      exact hkept.accounted
    · obtain ⟨hempty, hanswer, before, last, hlast, hreceiver⟩ := hkept.waiter w' hw'
      obtain ⟨rfl, heq⟩ := List.append_inj' (hcalls.symm.trans hlast) rfl
      obtain rfl : Call.waiting w = last := List.cons.inj heq |>.1
      cases hreceiver
      refine ⟨hempty, by rwa [hanswers], front, call, rfl, ?_⟩
      exact hcall.resolve_right fun hne => hne hanswer

theorem inv_watchdog (h : Inv id p) (session : ℕ) :
    Inv id { p with supervisor := p.supervisor.frameTimeout id session } := by
  unfold Supervisor.frameTimeout
  cases p.supervisor.processes id with
  | none => exact h
  | some process =>
    simp only
    split
    · exact inv_expire h
    · exact h

theorem inv_read (h : Inv id p) (hstep : step json id generation p .read = some q) :
    Inv id q := by
  simp only [step] at hstep
  split at hstep
  · rename_i w hlast
    obtain ⟨front, hcalls⟩ := List.getLast?_eq_some_iff.1 hlast
    obtain ⟨answer, hanswer, rfl⟩ := Option.map_eq_some_iff.1 hstep
    simp only [endCall, hcalls, List.dropLast_concat]
    have hlinked := h.linked
    rw [hcalls] at hlinked
    exact inv_endCall h hcalls rfl rfl (hlinked.returned answer) (by simp [Call.frame, hanswer])
      (.inr (by simp [hanswer]))
  · cases hstep

theorem inv_drop (h : Inv id p) (hstep : step json id generation p .drop = some q) :
    Inv id q := by
  simp only [step] at hstep
  split at hstep
  · rename_i w hlast
    obtain ⟨front, hcalls⟩ := List.getLast?_eq_some_iff.1 hlast
    cases hstep
    simp only [endCall, hcalls, List.dropLast_concat]
    have hlinked := h.linked
    rw [hcalls] at hlinked
    exact inv_endCall h hcalls rfl rfl hlinked.dropped rfl (.inl rfl)
  · cases hstep

theorem Inv.step {action : Action} (h : Inv id p)
    (hstep : step json id generation p action = some q) : Inv id q := by
  cases action with
  | chunk bytes => exact Option.some.inj hstep ▸ inv_chunk h bytes
  | eof => exact Option.some.inj hstep ▸ inv_eof h
  | call => exact inv_call h hstep
  | read => exact inv_read h hstep
  | drop => exact inv_drop h hstep
  | expire => exact Option.some.inj hstep ▸ inv_expire h
  | watchdog session => exact Option.some.inj hstep ▸ inv_watchdog h session
  | kill => exact Option.some.inj hstep ▸ inv_kill h

theorem received_sublist_sent (p : Pipe ν) : p.received.Sublist p.sent := by
  rw [received, sent]
  induction p.calls with
  | nil => exact List.Sublist.slnil
  | cons call calls ih =>
    cases call with
    | returned frame =>
      cases frame with
      | none => exact ih
      | some frame => exact ih.cons_cons frame
    | waiting w | dropped w =>
      rw [List.filterMap_cons_none rfl, List.filterMap_cons]
      split
      · exact ih
      · exact ih.cons _

end Pipe

/-- Over every run: what was sent to the calls, in the order they were made and one frame a call at
most, is a first part of what arrived, and the rest is in the buffer while the sidecar stays
registered; what the calls came back with is in the order it arrived; and a call that was sent a
frame came back with it, is about to, or was dropped while it waited. -/
theorem frames_reach_calls (json : Json ν) (id : String) {p : Pipe ν}
    (h : Transition.Reachable (Pipe.step json id 1) (· = Pipe.start id) p) :
    p.sent <+: p.arrived ∧
      (∀ process, p.supervisor.processes id = some process →
        p.sent ++ process.buffered = p.arrived) ∧
      p.received.Sublist p.arrived ∧
      ∀ call ∈ p.calls, ∀ frame, call.frame p.supervisor = some frame →
        call = .returned (some frame) ∨
          ∃ w, (call = .waiting w ∨ call = .dropped w) ∧
            p.supervisor.answers w = some (some frame) := by
  have hinv : Pipe.Inv id p := Transition.Reachable.invariant
    (fun q hq => hq ▸ Pipe.inv_start id) (fun _ _ _ hq hstep => hq.step hstep) h
  refine ⟨hinv.isPrefix, fun process hprocess => (hinv.kept process hprocess).accounted,
    p.received_sublist_sent.trans hinv.isPrefix.sublist, fun call hcall frame hframe => ?_⟩
  cases call with
  | returned result => exact .inl (by rw [show result = some frame from hframe])
  | waiting w => exact .inr ⟨w, .inl rfl, Option.join_eq_some_iff.1 hframe⟩
  | dropped w => exact .inr ⟨w, .inr rfl, Option.join_eq_some_iff.1 hframe⟩

/-- A call is dropped, and its waiter is still there when the next one is made. -/
theorem frames_reach_second_call :
    ∃ p : Pipe Bool, Transition.run (Pipe.step boolJson "kokoro" 1) (Pipe.start "kokoro")
        [.call, .drop, .call, .chunk [2, 0, 0, 0, 2, 7]] = some p ∧
      ∀ process, p.supervisor.processes "kokoro" = some process →
        p.sent ++ process.buffered = p.arrived := by
  obtain ⟨p, hrun⟩ : ∃ p, Transition.run (Pipe.step boolJson "kokoro" 1)
      (Pipe.start "kokoro") [.call, .drop, .call, .chunk [2, 0, 0, 0, 2, 7]] = some p := ⟨_, rfl⟩
  have hreach : Transition.Reachable (Pipe.step boolJson "kokoro" 1) (· = Pipe.start "kokoro") p :=
    Transition.Reachable.run (.init rfl) hrun
  exact ⟨p, hrun, (frames_reach_calls boolJson "kokoro" hreach).2.1⟩

end Hedos.Sidecar
