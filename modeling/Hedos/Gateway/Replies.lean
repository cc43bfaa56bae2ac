import Hedos.Gateway.Streams
import Hedos.Lib.Transition

/-!
# Every streamed reply is a complete sentence

What a client has to find in a reply (`IsComplete`, and `Blocks` for the messages endpoint), and
which replies have it.

* a loop that writes content frames and closes with the dialect's terminator (`Loop.Speaks`) gives
  a complete reply through `drain_bounded` (`drainBounded_complete`), also when the stream stalls
  (`drainBoundedStalled_complete`);
* on its own it does unless the stream has an error in it (`drain_complete_iff`);
* the block indices of the messages endpoint follow the machine of `Blocks` whatever the order of
  the chunks (`anthropic_blocks`).
-/

namespace Hedos.Gateway

open Hedos.Kernel (JsonValue GenerationStats ToolCall CapabilityChunk RuntimeError)

/-! ## Sentences -/

/-- A frame that is no part of an ending. -/
def Frame.IsContent : GatewaySurface → Frame → Prop
  | .openAI, .data value => value.get "error" = none
  | .ollama, .line value => value.get "done" = some (.bool false) ∧ value.get "error" = none
  | .anthropic, .event name _ => name ≠ "message_stop" ∧ name ≠ "error"
  | _, _ => False

/-- The dialect's terminator. -/
def IsNormalEnding : GatewaySurface → List Frame → Prop
  | .openAI, [.sseDone] => True
  | .ollama, [.line value] => value.get "done" = some (.bool true) ∧ value.get "error" = none
  | .anthropic, [.event name _] => name = "message_stop"
  | _, _ => False

/-- The dialect's error in band, with its message. -/
def IsErrorEnding (message : String) : GatewaySurface → List Frame → Prop
  | .openAI, [.data value, .sseDone] =>
    ((value.get "error").bind fun error => error.get "message") = some (.string message)
  | .ollama, [.line value] => value.get "error" = some (.string message)
  | .anthropic, [.event name value] =>
    name = "error" ∧
      ((value.get "error").bind fun error => error.get "message") = some (.string message)
  | _, _ => False

/-- The ending for a stream that failed with the message, or did not fail. -/
def IsEnding (surface : GatewaySurface) : Option String → List Frame → Prop
  | none => IsNormalEnding surface
  | some message => IsErrorEnding message surface

/-- Content frames, then one ending. -/
def IsComplete (surface : GatewaySurface) (failure : Option String) (body : Body) : Prop :=
  ∃ content ending, body.sent = content ++ ending ∧
    (∀ frame ∈ content, frame.IsContent surface) ∧ IsEnding surface failure ending

/-- The error a stream ends with. -/
def failure : List Item → Option RuntimeError
  | [] => none
  | .error error :: _ => some error
  | .ok _ :: rest => failure rest

theorem failure_eq_none_iff {items : List Item} :
    failure items = none ↔ ∀ item ∈ items, ∃ chunk, item = .ok chunk := by
  induction items with
  | nil => simp [failure]
  | cons item items ih =>
    cases item with
    | error error => simp [failure]
    | ok chunk => simpa [failure] using ih

/-! ## Loops -/

theorem Body.writeAll_eq {body : Body} (h : body.ended = false) (frames : List Frame) :
    body.writeAll frames = { body with sent := body.sent ++ frames } := by
  induction frames generalizing body with
  | nil => simp [Body.writeAll]
  | cons frame frames ih =>
    have hwrite : body.write frame = { body with sent := body.sent ++ [frame] } := by
      rw [Body.write, h]
      rfl
    have hopen : (body.write frame).ended = false := by rw [hwrite, h]
    have hrest := ih hopen
    rw [Body.writeAll, List.foldl_cons, ← Body.writeAll, hrest, hwrite]
    simp

/-- The loop's state and frames over the items up to the first error. -/
def Loop.written {σ : Type} (loop : Loop σ) : σ → List Item → σ × List Frame
  | state, [] => (state, [])
  | state, .error _ :: _ => (state, [])
  | state, .ok chunk :: rest =>
    let (state, frames) := loop.chunk state chunk
    let (last, more) := loop.written state rest
    (last, frames ++ more)

section

variable {σ : Type} {loop : Loop σ} {surface : GatewaySurface}

theorem Loop.drainFrom_eq (state : σ) (items : List Item) {body : Body} (h : body.ended = false) :
    loop.drainFrom state items body =
      ((failure items).elim (.ok (loop.written state items).1)
          fun error => .error (runtimeFailed error),
        { body with sent := body.sent ++ (loop.written state items).2 }) := by
  induction items generalizing state body with
  | nil => simp [drainFrom, written, failure]
  | cons item items ih =>
    cases item with
    | error error => simp [drainFrom, written, failure]
    | ok chunk =>
      simp only [drainFrom, written, failure]
      rw [Body.writeAll_eq h, ih _ (by simpa using h)]
      simp

/-- All that is written in front of the ending. -/
def Loop.content (loop : Loop σ) (items : List Item) : List Frame :=
  loop.opening ++ (loop.written loop.start items).2

theorem Loop.drainFrom_start (items : List Item) :
    loop.drainFrom loop.start items (({} : Body).writeAll loop.opening) =
      ((failure items).elim (.ok (loop.written loop.start items).1)
          fun error => .error (runtimeFailed error),
        { sent := loop.content items, ended := false }) := by
  rw [Body.writeAll_eq rfl, Loop.drainFrom_eq _ _ rfl]
  simp [Loop.content]

variable {items : List Item}

theorem Loop.drain_ok (h : failure items = none) :
    loop.drain items =
      (.ok (), ⟨loop.content items ++ loop.closing (loop.written loop.start items).1, true⟩) := by
  rw [Loop.drain, Loop.drainFrom_start, h]
  simp only [Option.elim_none]
  rw [Body.writeAll_eq rfl]
  rfl

theorem Loop.drain_error {error : RuntimeError} (h : failure items = some error) :
    loop.drain items = (.error (runtimeFailed error),
      { sent := loop.content items, ended := false }) := by
  rw [Loop.drain, Loop.drainFrom_start, h]
  rfl

/-- The loop writes content frames, and closes with the terminator. -/
structure Loop.Speaks (loop : Loop σ) (surface : GatewaySurface) : Prop where
  opening : ∀ frame ∈ loop.opening, frame.IsContent surface
  chunk : ∀ state chunk, ∀ frame ∈ (loop.chunk state chunk).2, frame.IsContent surface
  closing : ∀ state, ∃ content ending, loop.closing state = content ++ ending ∧
    (∀ frame ∈ content, frame.IsContent surface) ∧ IsNormalEnding surface ending

theorem Loop.Speaks.written (h : loop.Speaks surface) (state : σ) (items : List Item) :
    ∀ frame ∈ (loop.written state items).2, frame.IsContent surface := by
  induction items generalizing state with
  | nil => simp [Loop.written]
  | cons item items ih =>
    cases item with
    | error error => simp [Loop.written]
    | ok chunk =>
      intro frame hframe
      simp only [Loop.written, List.mem_append] at hframe
      rcases hframe with hnow | hlater
      · exact h.chunk state chunk frame hnow
      · exact ih _ frame hlater

theorem Loop.Speaks.content (h : loop.Speaks surface) (items : List Item) :
    ∀ frame ∈ loop.content items, frame.IsContent surface := by
  intro frame hframe
  rcases List.mem_append.1 hframe with hfirst | hlater
  · exact h.opening frame hfirst
  · exact h.written _ items frame hlater

theorem drain_complete (h : loop.Speaks surface)
    (hnone : failure items = none) : IsComplete surface none (loop.drain items).2 := by
  obtain ⟨content, ending, hclosing, hcontent, hending⟩ :=
    h.closing (loop.written loop.start items).1
  rw [Loop.drain_ok hnone]
  refine ⟨loop.content items ++ content, ending, by simp [hclosing], ?_, hending⟩
  intro frame hframe
  rcases List.mem_append.1 hframe with hbody | hclose
  · exact h.content items frame hbody
  · exact hcontent frame hclose

/-- `write_failure` behind content frames is the error ending. -/
theorem writeFailure_complete {content : List Frame}
    (h : ∀ frame ∈ content, frame.IsContent surface) (error : GatewayError) :
    IsComplete surface (some error.message)
      (writeFailure surface { sent := content, ended := false } error) := by
  cases surface with
  | openAI => exact ⟨content, _, List.append_assoc _ _ _, h, rfl⟩
  | ollama => exact ⟨content, _, rfl, h, rfl⟩
  | anthropic => exact ⟨content, _, rfl, h, rfl, rfl⟩

theorem writeTimeout_complete {content : List Frame}
    (h : ∀ frame ∈ content, frame.IsContent surface) (seconds : ℕ) :
    IsComplete surface (some (timeoutMessage seconds))
      (writeTimeout surface { sent := content, ended := false } seconds) := by
  cases surface with
  | openAI => exact ⟨content, _, List.append_assoc _ _ _, h, rfl⟩
  | ollama => exact ⟨content, _, rfl, h, rfl⟩
  | anthropic => exact ⟨content, _, rfl, h, rfl, rfl⟩

/-- Through `drain_bounded` a reply is complete. -/
theorem drainBounded_complete (h : loop.Speaks surface) (items : List Item) :
    IsComplete surface ((failure items).map fun error => (runtimeFailed error).message)
      (drainBounded surface loop items).2 := by
  cases hfailure : failure items with
  | none =>
    have hcomplete := drain_complete h hfailure
    rw [Loop.drain_ok hfailure] at hcomplete
    rw [drainBounded, Loop.drain_ok hfailure]
    exact hcomplete
  | some error =>
    rw [drainBounded, Loop.drain_error hfailure]
    exact writeFailure_complete (h.content items) _

/-- And so it is when the stream stalls. -/
theorem drainBoundedStalled_complete (h : loop.Speaks surface) (seconds : ℕ) (items : List Item) :
    IsComplete surface
      (some ((failure items).elim (timeoutMessage seconds) fun error =>
        (runtimeFailed error).message))
      (drainBoundedStalled surface seconds loop items).2 := by
  rw [drainBoundedStalled, Loop.drainStalled, Loop.drainFrom_start]
  cases failure items with
  | none => exact writeTimeout_complete (h.content items) seconds
  | some error => exact writeFailure_complete (h.content items) _

/-- An ending has a frame in it that is no content. -/
theorem IsEnding.exists_not_content {message : Option String} {ending : List Frame}
    (h : IsEnding surface message ending) : ∃ frame ∈ ending, ¬ frame.IsContent surface := by
  cases message with
  | none =>
    change IsNormalEnding surface ending at h
    unfold IsNormalEnding at h
    split at h
    · exact ⟨_, List.mem_singleton_self _, fun hcontent => hcontent⟩
    · refine ⟨_, List.mem_singleton_self _, fun hcontent => ?_⟩
      have hdone := hcontent.1.symm.trans h.1
      cases hdone
    · exact ⟨_, List.mem_singleton_self _, fun hcontent => hcontent.1 h⟩
    · exact h.elim
  | some message =>
    change IsErrorEnding message surface ending at h
    unfold IsErrorEnding at h
    split at h
    · exact ⟨.sseDone, by simp, fun hcontent => hcontent⟩
    · refine ⟨_, List.mem_singleton_self _, fun hcontent => ?_⟩
      have herror := hcontent.2.symm.trans h
      cases herror
    · exact ⟨_, List.mem_singleton_self _, fun hcontent => hcontent.2 h.1⟩
    · exact h.elim

/-- Content frames alone are no complete reply. -/
theorem not_isComplete_of_content {body : Body}
    (h : ∀ frame ∈ body.sent, frame.IsContent surface) (message : Option String) :
    ¬ IsComplete surface message body := by
  rintro ⟨content, ending, hsent, -, hending⟩
  obtain ⟨frame, hframe, hnot⟩ := hending.exists_not_content
  exact hnot (h frame (by rw [hsent]; exact List.mem_append_right _ hframe))

/-- On its own a loop gives a complete reply unless the stream has an error in it. -/
theorem drain_complete_iff (h : loop.Speaks surface) (items : List Item) :
    IsComplete surface ((failure items).map fun error => (runtimeFailed error).message)
      (loop.drain items).2 ↔ failure items = none := by
  cases hfailure : failure items with
  | none => exact iff_of_true (drain_complete h hfailure) rfl
  | some error =>
    refine iff_of_false (not_isComplete_of_content ?_ _) (by simp)
    rw [Loop.drain_error hfailure]
    exact h.content items

end

/-! ## The five loops -/

theorem Ollama.lookup_statsFields (stats : Option GenerationStats) :
    (Ollama.statsFields stats).lookup "error" = none := by
  unfold Ollama.statsFields
  cases stats.bind (·.durationMs) <;> cases stats.bind (·.promptTokens) <;>
    cases stats.bind (·.completionTokens) <;> rfl

theorem Ollama.finalFrame_error (model createdAt : String) (stats : GenerationStats) :
    (Ollama.finalFrame model createdAt stats).get "error" = none :=
  Ollama.lookup_statsFields (some stats)

theorem Ollama.generateFinal_error (model createdAt : String) (stats : Option GenerationStats) :
    (Ollama.generateFinal model createdAt stats).get "error" = none :=
  Ollama.lookup_statsFields stats

/-- The last chunk, and the usage if it was asked for. -/
theorem openAI_closing_content {last usage : JsonValue} (hlast : last.get "error" = none)
    (husage : usage.get "error" = none) (includeUsage : Bool) :
    ∀ frame ∈ [Frame.data last] ++ (if includeUsage then [Frame.data usage] else []),
      frame.IsContent .openAI := by
  cases includeUsage with
  | false => simpa [Frame.IsContent] using hlast
  | true => simpa [Frame.IsContent] using ⟨hlast, husage⟩

section

variable (toText : JsonValue → String)

theorem openAIChat_speaks (id : String) (created : ℤ) (served : String) (includeUsage : Bool) :
    (openAIChat toText id created served includeUsage).Speaks .openAI := by
  refine ⟨by simp [openAIChat], fun state chunk frame hframe => ?_, fun state => ?_⟩
  · cases chunk with
    | text text | thinking text | toolCall call =>
      simp only [openAIChat, List.mem_singleton] at hframe
      subst hframe
      rfl
    | done stats | segment text startMs endMs | audio data | vector values | status message =>
      simp [openAIChat] at hframe
  · exact ⟨_, [.sseDone], rfl, openAI_closing_content rfl rfl includeUsage, trivial⟩

theorem openAICompletions_speaks (id : String) (created : ℤ) (model : String)
    (includeUsage : Bool) : (openAICompletions id created model includeUsage).Speaks .openAI := by
  refine ⟨by simp [openAICompletions], fun state chunk frame hframe => ?_, fun state => ?_⟩
  · cases chunk with
    | text text =>
      simp only [openAICompletions, List.mem_singleton] at hframe
      subst hframe
      rfl
    | thinking thought | toolCall call | done stats | segment text startMs endMs | audio data
    | vector values | status message =>
      simp [openAICompletions] at hframe
  · exact ⟨_, [.sseDone], rfl, openAI_closing_content rfl rfl includeUsage, trivial⟩

theorem ollamaChat_speaks (served : String) (now : ℕ → String) :
    (ollamaChat served now).Speaks .ollama := by
  refine ⟨by simp [ollamaChat], fun state chunk frame hframe => ?_, fun state => ?_⟩
  · cases chunk with
    | text text | thinking text | toolCall call =>
      simp only [ollamaChat, List.mem_singleton] at hframe
      subst hframe
      exact ⟨rfl, rfl⟩
    | done stats | segment text startMs endMs | audio data | vector values | status message =>
      simp [ollamaChat] at hframe
  · exact ⟨[], _, rfl, by simp, rfl, Ollama.finalFrame_error _ _ _⟩

theorem ollamaGenerate_speaks (model : String) (now : ℕ → String) :
    (ollamaGenerate model now).Speaks .ollama := by
  refine ⟨by simp [ollamaGenerate], fun state chunk frame hframe => ?_, fun state => ?_⟩
  · cases chunk with
    | text text =>
      simp only [ollamaGenerate, List.mem_singleton] at hframe
      subst hframe
      exact ⟨rfl, rfl⟩
    | thinking thought | toolCall call | done stats | segment text startMs endMs | audio data
    | vector values | status message =>
      simp [ollamaGenerate] at hframe
  · exact ⟨[], _, rfl, by simp, rfl, Ollama.generateFinal_error _ _ _⟩

theorem anthropicMessages_speaks (id served : String) :
    (anthropicMessages toText id served).Speaks .anthropic := by
  have hframe : ∀ name fields, name ≠ "message_stop" → name ≠ "error" →
      (Anthropic.frame name fields).IsContent .anthropic := fun _ _ hstop herror => ⟨hstop, herror⟩
  refine ⟨?_, fun state chunk => ?_, fun state => ?_⟩
  · simp only [anthropicMessages, List.mem_singleton, forall_eq]
    exact hframe _ _ (by decide) (by decide)
  · cases chunk with
    | text text =>
      simp only [anthropicMessages, List.mem_append, List.mem_singleton, or_imp, forall_and,
        forall_eq]
      refine ⟨?_, hframe _ _ (by decide) (by decide)⟩
      split
      · simp
      · simp only [List.mem_singleton, forall_eq]
        exact hframe _ _ (by decide) (by decide)
    | toolCall call =>
      simp only [anthropicMessages, List.mem_append, List.mem_cons, List.not_mem_nil, or_false,
        or_imp, forall_and, forall_eq]
      refine ⟨?_, hframe _ _ (by decide) (by decide), hframe _ _ (by decide) (by decide),
        hframe _ _ (by decide) (by decide)⟩
      split
      · simp only [List.mem_singleton, forall_eq]
        exact hframe _ _ (by decide) (by decide)
      · simp
    | thinking thought | done stats | segment text startMs endMs | audio data | vector values
    | status message =>
      simp [anthropicMessages]
  · refine ⟨(if state.textOpen then [Anthropic.blockStop state.index] else []) ++
      [Anthropic.messageDelta state.toolCalls state.finalStats], [Anthropic.messageStop],
      by simp [anthropicMessages], ?_, rfl⟩
    simp only [List.mem_append, List.mem_singleton, or_imp, forall_and, forall_eq]
    refine ⟨?_, hframe _ _ (by decide) (by decide)⟩
    split
    · simp only [List.mem_singleton, forall_eq]
      exact hframe _ _ (by decide) (by decide)
    · simp

end

/-! ## The blocks of a message -/

/-- The content blocks seen so far: how many are closed, and whether the next one is open. -/
structure Blocks where
  closed : ℕ := 0
  isOpen : Bool := false
deriving DecidableEq

/-- What a frame does to the blocks: one is opened with the next index and none other open, its
deltas and its stop carry that index, and the message stops with every block closed. -/
def Blocks.step (blocks : Blocks) : Frame → Option Blocks
  | .event name value =>
    let index := (value.get "index").bind JsonValue.asI64
    if name = "content_block_start" then
      if blocks.isOpen = false ∧ index = some (blocks.closed : ℤ) then
        some { blocks with isOpen := true }
      else none
    else if name = "content_block_delta" then
      if blocks.isOpen = true ∧ index = some (blocks.closed : ℤ) then some blocks else none
    else if name = "content_block_stop" then
      if blocks.isOpen = true ∧ index = some (blocks.closed : ℤ) then
        some { closed := blocks.closed + 1, isOpen := false }
      else none
    else if name = "message_stop" then
      if blocks.isOpen = false then some blocks else none
    else some blocks
  | _ => none

/-- The frames keep to the machine. -/
def WellBlocked (frames : List Frame) : Prop :=
  (Transition.run Blocks.step {} frames).isSome = true

section

variable (toText : JsonValue → String)

/-- The blocks as the handler's variables have them. -/
def MessageState.blocks (state : MessageState) : Blocks :=
  { closed := state.index, isOpen := state.textOpen }

attribute [local simp] Blocks.step Anthropic.frame JsonValue.get JsonValue.asObject
  JsonValue.asI64 in
theorem step_textDelta (n : ℕ) (text : String) :
    Blocks.step ⟨n, true⟩ (Anthropic.textDelta n text) = some ⟨n, true⟩ := by
  simp [Anthropic.textDelta, List.lookup_cons]

theorem step_textBlockStart (n : ℕ) :
    Blocks.step ⟨n, false⟩ (Anthropic.textBlockStart n) = some ⟨n, true⟩ := by
  simp [Blocks.step, Anthropic.textBlockStart, Anthropic.frame, JsonValue.get, JsonValue.asObject,
    JsonValue.asI64, List.lookup_cons]

theorem step_toolBlockStart (n : ℕ) (call : ToolCall) :
    Blocks.step ⟨n, false⟩ (Anthropic.toolBlockStart n call) = some ⟨n, true⟩ := by
  simp [Blocks.step, Anthropic.toolBlockStart, Anthropic.frame, JsonValue.get, JsonValue.asObject,
    JsonValue.asI64, List.lookup_cons]

theorem step_toolInputDelta (n : ℕ) (call : ToolCall) :
    Blocks.step ⟨n, true⟩ (Anthropic.toolInputDelta toText n call) = some ⟨n, true⟩ := by
  simp [Blocks.step, Anthropic.toolInputDelta, Anthropic.frame, JsonValue.get, JsonValue.asObject,
    JsonValue.asI64, List.lookup_cons]

theorem step_blockStop (n : ℕ) :
    Blocks.step ⟨n, true⟩ (Anthropic.blockStop n) = some ⟨n + 1, false⟩ := by
  simp [Blocks.step, Anthropic.blockStop, Anthropic.frame, JsonValue.get, JsonValue.asObject,
    JsonValue.asI64, List.lookup_cons]

/-- A chunk's frames move the blocks as the chunk moves the variables. -/
theorem blocks_chunk (id served : String) (state : MessageState) (chunk : CapabilityChunk) :
    Transition.run Blocks.step state.blocks
        ((anthropicMessages toText id served).chunk state chunk).2 =
      some ((anthropicMessages toText id served).chunk state chunk).1.blocks := by
  obtain ⟨index, textOpen, toolCalls, finalStats⟩ := state
  cases chunk with
  | text text =>
    cases textOpen <;>
      simp [anthropicMessages, MessageState.blocks, step_textDelta, step_textBlockStart]
  | toolCall call =>
    cases textOpen <;>
      simp [anthropicMessages, MessageState.blocks, step_toolBlockStart, step_toolInputDelta,
        step_blockStop]
  | thinking thought | done stats | segment text startMs endMs | audio data | vector values
  | status message => rfl

theorem blocks_written (id served : String) (state : MessageState) (items : List Item) :
    Transition.run Blocks.step state.blocks
        ((anthropicMessages toText id served).written state items).2 =
      some ((anthropicMessages toText id served).written state items).1.blocks := by
  induction items generalizing state with
  | nil => rfl
  | cons item items ih =>
    cases item with
    | error error => rfl
    | ok chunk =>
      simp only [Loop.written]
      rw [Transition.run_append, blocks_chunk, Option.bind_some, ih]

theorem blocks_content (id served : String) (items : List Item) :
    Transition.run Blocks.step {} ((anthropicMessages toText id served).content items) =
      some ((anthropicMessages toText id served).written {} items).1.blocks := by
  have hstart : Blocks.step {} (Anthropic.messageStart id served none) = some {} := rfl
  have hwritten := blocks_written toText id served {} items
  rw [Loop.content, Transition.run_append]
  simp only [anthropicMessages, Transition.run_cons, hstart, Option.bind_some, Transition.run_nil]
  exact hwritten

theorem blocks_closing (id served : String) (state : MessageState) :
    (Transition.run Blocks.step state.blocks
      ((anthropicMessages toText id served).closing state)).isSome = true := by
  obtain ⟨index, textOpen, toolCalls, finalStats⟩ := state
  have hdelta : ∀ n, Blocks.step ⟨n, false⟩ (Anthropic.messageDelta toolCalls finalStats) =
      some ⟨n, false⟩ := fun _ => rfl
  have hstop : ∀ n, Blocks.step ⟨n, false⟩ Anthropic.messageStop = some ⟨n, false⟩ := fun _ => rfl
  cases textOpen <;>
    simp [anthropicMessages, MessageState.blocks, step_blockStop, hdelta, hstop]

/-- The blocks of the messages endpoint are well formed, for every order of the chunks. -/
theorem anthropic_blocks (id served : String) (items : List Item) :
    WellBlocked (drainBounded .anthropic (anthropicMessages toText id served) items).2.sent := by
  have hcontent := blocks_content toText id served items
  rw [WellBlocked, drainBounded]
  cases hfailure : failure items with
  | none =>
    rw [Loop.drain_ok hfailure]
    simp only
    rw [Transition.run_append, hcontent, Option.bind_some]
    exact blocks_closing toText id served _
  | some error =>
    rw [Loop.drain_error hfailure]
    simp only [writeFailure, Body.finish, Body.write]
    rw [if_neg (by simp), Transition.run_append, hcontent]
    rfl

end

/-! ## Every endpoint -/

/-- The endpoints whose drain `drain_bounded` ends. -/
def Endpoint.isBounded : Endpoint → Bool
  | .openAICompletions .. | .ollamaGenerate .. => false
  | _ => true

/-- The reply is complete in its dialect, and its blocks, if it has them, are well formed. -/
def Endpoint.AnswersWhole (toText : JsonValue → String) (endpoint : Endpoint)
    (items : List Item) : Prop :=
  IsComplete endpoint.surface ((failure items).map fun error => (runtimeFailed error).message)
      (endpoint.reply toText items) ∧
    (endpoint.surface = .anthropic → WellBlocked (endpoint.reply toText items).sent)

/-- Whatever a stream gives, the reply is a complete sentence exactly when the endpoint goes through
`drain_bounded` or the stream has no error in it. -/
theorem streamed_reply_complete_iff (toText : JsonValue → String) (endpoint : Endpoint)
    (items : List Item) :
    endpoint.AnswersWhole toText items ↔
      (endpoint.isBounded = true ∨ ∀ item ∈ items, ∃ chunk, item = .ok chunk) := by
  rw [← failure_eq_none_iff]
  cases endpoint with
  | openAIChat id created served includeUsage =>
    refine iff_of_true ⟨drainBounded_complete (openAIChat_speaks ..) items, ?_⟩ (.inl rfl)
    rintro ⟨⟩
  | openAICompletions id created model includeUsage =>
    have hiff := drain_complete_iff (openAICompletions_speaks id created model includeUsage) items
    refine ⟨fun h => .inr (hiff.1 h.1), fun h => ⟨hiff.2 ?_, by rintro ⟨⟩⟩⟩
    exact h.resolve_left Bool.false_ne_true
  | ollamaChat served now =>
    refine iff_of_true ⟨drainBounded_complete (ollamaChat_speaks ..) items, ?_⟩ (.inl rfl)
    rintro ⟨⟩
  | ollamaGenerate model now =>
    have hiff := drain_complete_iff (ollamaGenerate_speaks model now) items
    refine ⟨fun h => .inr (hiff.1 h.1), fun h => ⟨hiff.2 ?_, by rintro ⟨⟩⟩⟩
    exact h.resolve_left Bool.false_ne_true
  | anthropicMessages id served =>
    refine iff_of_true ⟨drainBounded_complete (anthropicMessages_speaks ..) items, ?_⟩ (.inl rfl)
    exact fun _ => anthropic_blocks toText id served items

/-- A reply that `drain_bounded` ends is complete when its stream stalls, too. -/
theorem stalled_reply_complete (toText : JsonValue → String) (seconds : ℕ) {endpoint : Endpoint}
    (h : endpoint.isBounded = true) (items : List Item) :
    IsComplete endpoint.surface
      (some ((failure items).elim (timeoutMessage seconds) fun error =>
        (runtimeFailed error).message)) (endpoint.stalledReply toText seconds items) := by
  cases endpoint with
  | openAIChat id created served includeUsage =>
    exact drainBoundedStalled_complete (openAIChat_speaks ..) seconds items
  | ollamaChat served now =>
    exact drainBoundedStalled_complete (ollamaChat_speaks ..) seconds items
  | anthropicMessages id served =>
    exact drainBoundedStalled_complete (anthropicMessages_speaks ..) seconds items
  | openAICompletions id created model includeUsage | ollamaGenerate model now => cases h

theorem stalled_chat_is_complete :
    IsComplete .ollama (some (timeoutMessage 30))
      ((Endpoint.ollamaChat "m" fun _ => "").stalledReply (fun _ => "") 30 [.ok (.text "a")]) :=
  stalled_reply_complete (fun _ => "") 30 rfl [.ok (.text "a")]

/-- A completion whose runtime fails behind its first word: the client gets the word, and no
ending. -/
theorem failed_completion_has_no_ending :
    ∃ (toText : JsonValue → String) (endpoint : Endpoint) (items : List Item),
      (endpoint.reply toText items).sent =
          [.data (OpenAI.textCompletionChunk "cmpl-0" 1700000000 "llama" "Once" none)] ∧
        ¬ endpoint.AnswersWhole toText items := by
  refine ⟨fun _ => "", .openAICompletions "cmpl-0" 1700000000 "llama" false,
    [.ok (.text "Once"), .error (.failed "out of memory")], rfl, fun h => ?_⟩
  refine not_isComplete_of_content (fun frame hframe => ?_) _ h.1
  obtain rfl := List.mem_singleton.1 hframe
  rfl

end Hedos.Gateway
