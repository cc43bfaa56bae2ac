import Hedos.Kernel.Values

/-!
# The gateway's streamed replies

The streaming branches of the five text handlers (`gateway/src/handlers/chat.rs`, `generate.rs`,
`messages.rs`), `drain_bounded`, `write_failure` and `write_timeout`
(`gateway/src/handlers/stream.rs`), and the frames they write (`gateway/src/wire`).

A frame is what one `write` takes: its JSON value and how it is framed. The text of a value is a
parameter, as are the times a frame carries.
-/

namespace Hedos.Gateway

open Hedos.Kernel (JsonValue GenerationStats ToolCall CapabilityChunk RuntimeError)

/-! ## Errors -/

inductive GatewaySurface
  | openAI
  | ollama
  | anthropic
deriving DecidableEq

inductive GatewayErrorKind
  | badRequest
  | unauthorized
  | forbidden
  | notFound
  | methodNotAllowed
  | notSupported
  | overloaded
  | timeout
  | serverError
  | clientClosed
deriving DecidableEq

namespace GatewayErrorKind

def anthropicType : GatewayErrorKind → String
  | badRequest | methodNotAllowed | notSupported => "invalid_request_error"
  | unauthorized => "authentication_error"
  | forbidden => "permission_error"
  | notFound => "not_found_error"
  | overloaded => "overloaded_error"
  | timeout | serverError | clientClosed => "api_error"

def wireType : GatewayErrorKind → String
  | badRequest | methodNotAllowed => "invalid_request_error"
  | unauthorized => "authentication_error"
  | forbidden => "permission_error"
  | notFound => "not_found_error"
  | notSupported | overloaded | timeout | serverError | clientClosed => "api_error"

def defaultWireCode : GatewayErrorKind → Option String
  | methodNotAllowed => some "method_not_allowed"
  | notSupported => some "capability_unsupported"
  | timeout => some "timeout"
  | overloaded => some "overloaded"
  | _ => none

end GatewayErrorKind

structure GatewayError where
  kind : GatewayErrorKind
  message : String
  code : Option String
deriving DecidableEq

def GatewayError.wireCode (error : GatewayError) : Option String :=
  error.code <|> error.kind.defaultWireCode

def GatewayError.body (error : GatewayError) : GatewaySurface → JsonValue
  | .ollama => .object [("error", .string error.message)]
  | .anthropic =>
    .object [("type", .string "error"), ("error", .object
      [("type", .string error.kind.anthropicType), ("message", .string error.message)])]
  | .openAI =>
    .object [("error", .object
      ([("message", .string error.message), ("type", .string error.kind.wireType)] ++
        (error.wireCode.map fun code => ("code", JsonValue.string code)).toList))]

def runtimeFailed (error : RuntimeError) : GatewayError where
  kind :=
    match error with
    | .rejected _ => .badRequest
    | _ => .serverError
  message := error.text
  code := none

/-! ## Frames -/

/-- What one `recv` gives. -/
abbrev Item := Except RuntimeError CapabilityChunk

inductive Frame
  /-- `openai::sse_frame`. -/
  | data (value : JsonValue)
  /-- `openai::SSE_DONE`. -/
  | sseDone
  /-- `ollama::line`. -/
  | line (value : JsonValue)
  /-- `anthropic::sse_frame`. -/
  | event (name : String) (value : JsonValue)

/-- The bytes of a frame, as text, given the text of its value. -/
def Frame.render (toText : JsonValue → String) : Frame → String
  | data value => "data: " ++ toText value ++ "\n\n"
  | sseDone => "data: [DONE]\n\n"
  | line value => toText value ++ "\n"
  | event name value => "event: " ++ name ++ "\ndata: " ++ toText value ++ "\n\n"

/-- `GatewayStreamBody`: what has been sent, and whether `end` was called. -/
structure Body where
  sent : List Frame := []
  ended : Bool := false

/-- Writes after the end are dropped. (So are empty ones; no frame is empty.) -/
def Body.write (body : Body) (frame : Frame) : Body :=
  if body.ended then body else { body with sent := body.sent ++ [frame] }

def Body.writeAll (body : Body) (frames : List Frame) : Body := frames.foldl Body.write body

def Body.finish (body : Body) : Body := { body with ended := true }

def optional (value : Option String) : JsonValue :=
  match value with
  | some text => .string text
  | none => .null

namespace OpenAI

structure StreamChunk where
  id : String
  created : ℤ
  model : String
  content : Option String := none
  reasoning : Option String := none
  toolCall : Option ToolCall := none
  toolCallIndex : ℕ := 0
  finishReason : Option String := none
  role : Bool := false

def toolCallWire (toText : JsonValue → String) (call : ToolCall) (index : ℕ) : JsonValue :=
  .object [("index", .int index), ("id", .string call.id), ("type", .string "function"),
    ("function", .object
      [("name", .string call.name), ("arguments", .string (toText call.arguments))])]

def StreamChunk.toValue (toText : JsonValue → String) (chunk : StreamChunk) : JsonValue :=
  let delta :=
    (if chunk.role then [("role", JsonValue.string "assistant")] else []) ++
    (chunk.content.map fun content => ("content", JsonValue.string content)).toList ++
    (chunk.reasoning.map fun thought => ("reasoning_content", JsonValue.string thought)).toList ++
    (chunk.toolCall.map fun call =>
      ("tool_calls", JsonValue.array [toolCallWire toText call chunk.toolCallIndex])).toList
  .object [("id", .string chunk.id), ("object", .string "chat.completion.chunk"),
    ("created", .int chunk.created), ("model", .string chunk.model),
    ("choices", .array [.object [("index", .int 0), ("delta", .object delta),
      ("finish_reason", optional chunk.finishReason)]])]

def usage (stats : Option GenerationStats) : JsonValue :=
  let prompt := (stats.bind (·.promptTokens)).getD 0
  let completion := (stats.bind (·.completionTokens)).getD 0
  .object [("prompt_tokens", .int prompt), ("completion_tokens", .int completion),
    ("total_tokens", .int (wrapI64 (prompt + completion)))]

def usageFrame (id : String) (created : ℤ) (model object : String)
    (stats : Option GenerationStats) : JsonValue :=
  .object [("id", .string id), ("object", .string object), ("created", .int created),
    ("model", .string model), ("choices", .array []), ("usage", usage stats)]

def textCompletionChunk (id : String) (created : ℤ) (model text : String)
    (finishReason : Option String) : JsonValue :=
  .object [("id", .string id), ("object", .string "text_completion"), ("created", .int created),
    ("model", .string model),
    ("choices", .array [.object [("text", .string text), ("index", .int 0), ("logprobs", .null),
      ("finish_reason", optional finishReason)]])]

end OpenAI

namespace Ollama

def toolCallEntry (call : ToolCall) : JsonValue :=
  .object [("function", .object [("name", .string call.name), ("arguments", call.arguments)])]

def delta (model createdAt : String) (content thinking : Option String)
    (toolCall : Option ToolCall) : JsonValue :=
  let message :=
    [("role", JsonValue.string "assistant"), ("content", .string (content.getD ""))] ++
    (thinking.map fun thought => ("thinking", JsonValue.string thought)).toList ++
    (toolCall.map fun call => ("tool_calls", JsonValue.array [toolCallEntry call])).toList
  .object [("model", .string model), ("created_at", .string createdAt),
    ("message", .object message), ("done", .bool false)]

/-- `insert_stats`. -/
def statsFields (stats : Option GenerationStats) : List (String × JsonValue) :=
  ((stats.bind (·.durationMs)).map fun ms =>
    ("total_duration", JsonValue.int (wrapI64 (ms * 1000000)))).toList ++
  ((stats.bind (·.promptTokens)).map fun n => ("prompt_eval_count", JsonValue.int n)).toList ++
  ((stats.bind (·.completionTokens)).map fun n => ("eval_count", JsonValue.int n)).toList

/-- `final_frame` without tool calls, as the stream's last line has none. -/
def finalFrame (model createdAt : String) (stats : GenerationStats) : JsonValue :=
  let doneReason :=
    if stats.finishReason = some "tool_calls" then "stop" else stats.finishReason.getD "stop"
  .object ([("model", JsonValue.string model), ("created_at", JsonValue.string createdAt),
    ("message", JsonValue.object [("role", .string "assistant"), ("content", .string "")]),
    ("done", JsonValue.bool true), ("done_reason", JsonValue.string doneReason)] ++
    statsFields (some stats))

def generateDelta (model createdAt response : String) : JsonValue :=
  .object [("model", .string model), ("created_at", .string createdAt),
    ("response", .string response), ("done", .bool false)]

def generateFinal (model createdAt : String) (stats : Option GenerationStats) : JsonValue :=
  let doneReason := (stats.bind (·.finishReason)).getD "stop"
  .object ([("model", JsonValue.string model), ("created_at", JsonValue.string createdAt),
    ("response", JsonValue.string ""), ("done", JsonValue.bool true),
    ("done_reason", JsonValue.string doneReason)] ++ statsFields stats)

end Ollama

namespace Anthropic

def stopReason (toolCalls : ℕ) (stats : Option GenerationStats) : String :=
  if toolCalls > 0 then "tool_use"
  else
    match stats.bind (·.finishReason) with
    | some "length" => "max_tokens"
    | some "stop_sequence" => "stop_sequence"
    | _ => "end_turn"

def usage (stats : Option GenerationStats) : JsonValue :=
  .object [("input_tokens", .int ((stats.bind (·.promptTokens)).getD 0)),
    ("output_tokens", .int ((stats.bind (·.completionTokens)).getD 0))]

/-- An event, which its value names too. -/
def frame (event : String) (fields : List (String × JsonValue)) : Frame :=
  .event event (.object (("type", .string event) :: fields))

def messageStart (id model : String) (stats : Option GenerationStats) : Frame :=
  frame "message_start" [("message", .object
    [("id", .string id), ("type", .string "message"), ("role", .string "assistant"),
      ("model", .string model), ("content", .array []), ("stop_reason", .null),
      ("stop_sequence", .null), ("usage", usage stats)])]

def textBlockStart (index : ℕ) : Frame :=
  frame "content_block_start" [("index", .int index),
    ("content_block", .object [("type", .string "text"), ("text", .string "")])]

def textDelta (index : ℕ) (text : String) : Frame :=
  frame "content_block_delta" [("index", .int index),
    ("delta", .object [("type", .string "text_delta"), ("text", .string text)])]

def toolBlockStart (index : ℕ) (call : ToolCall) : Frame :=
  frame "content_block_start" [("index", .int index),
    ("content_block", .object [("type", .string "tool_use"), ("id", .string call.id),
      ("name", .string call.name), ("input", .object [])])]

def toolInputDelta (toText : JsonValue → String) (index : ℕ) (call : ToolCall) : Frame :=
  frame "content_block_delta" [("index", .int index),
    ("delta", .object [("type", .string "input_json_delta"),
      ("partial_json", .string (toText call.arguments))])]

def blockStop (index : ℕ) : Frame := frame "content_block_stop" [("index", .int index)]

def messageDelta (toolCalls : ℕ) (stats : Option GenerationStats) : Frame :=
  frame "message_delta"
    [("delta", .object [("stop_reason", .string (stopReason toolCalls stats)),
      ("stop_sequence", .null)]),
    ("usage", .object [("output_tokens", .int ((stats.bind (·.completionTokens)).getD 0))])]

def messageStop : Frame := frame "message_stop" []

def errorFrame (kind : GatewayErrorKind) (message : String) : Frame :=
  frame "error" [("error", .object [("type", .string kind.anthropicType),
    ("message", .string message)])]

end Anthropic

/-! ## The endings in band -/

def writeFailure (surface : GatewaySurface) (body : Body) (error : GatewayError) : Body :=
  match surface with
  | .openAI => ((body.write (.data (error.body .openAI))).write .sseDone).finish
  | .ollama => (body.write (.line (error.body .ollama))).finish
  | .anthropic => (body.write (Anthropic.errorFrame error.kind error.message)).finish

def timeoutMessage (seconds : ℕ) : String :=
  "the request timed out after " ++ toString seconds ++ "s"

def writeTimeout (surface : GatewaySurface) (body : Body) (seconds : ℕ) : Body :=
  let message := timeoutMessage seconds
  match surface with
  | .openAI =>
    let frame := .object [("error", .object [("message", .string message),
      ("type", .string "timeout_error"), ("code", .string "timeout")])]
    ((body.write (.data frame)).write .sseDone).finish
  | .ollama => (body.write (.line (.object [("error", .string message)]))).finish
  | .anthropic => (body.write (Anthropic.errorFrame .timeout message)).finish

/-! ## The handlers' loops -/

/-- What a handler does with its stream: the frames in front, for each chunk and behind the last,
and what it keeps in between. -/
structure Loop (σ : Type) where
  start : σ
  opening : List Frame
  chunk : σ → CapabilityChunk → σ × List Frame
  closing : σ → List Frame

/-- The loop over what `recv` gives, an error leaving it as it stands. -/
def Loop.drainFrom {σ : Type} (loop : Loop σ) : σ → List Item → Body → Except GatewayError σ × Body
  | state, [], body => (.ok state, body)
  | _, .error error :: _, body => (.error (runtimeFailed error), body)
  | state, .ok chunk :: rest, body =>
    let (state, frames) := loop.chunk state chunk
    loop.drainFrom state rest (body.writeAll frames)

/-- The whole drain of a stream that closes behind its items. -/
def Loop.drain {σ : Type} (loop : Loop σ) (items : List Item) : Except GatewayError Unit × Body :=
  match loop.drainFrom loop.start items (({} : Body).writeAll loop.opening) with
  | (.error error, body) => (.error error, body)
  | (.ok state, body) => (.ok (), (body.writeAll (loop.closing state)).finish)

/-- The drain of a stream that gives nothing behind its items until the deadline has passed: it is
dropped at that `recv`, unless an error came before. -/
def Loop.drainStalled {σ : Type} (loop : Loop σ) (items : List Item) : Option GatewayError × Body :=
  match loop.drainFrom loop.start items (({} : Body).writeAll loop.opening) with
  | (.error error, body) => (some error, body)
  | (.ok _, body) => (none, body)

/-- `drain_bounded`, for a stream that closes in time. -/
def drainBounded {σ : Type} (surface : GatewaySurface) (loop : Loop σ) (items : List Item) :
    Except GatewayError Unit × Body :=
  match loop.drain items with
  | (.ok (), body) => (.ok (), body)
  | (.error error, body) => (.error error, writeFailure surface body error)

/-- `drain_bounded`, for a stream that stalls. -/
def drainBoundedStalled {σ : Type} (surface : GatewaySurface) (seconds : ℕ) (loop : Loop σ)
    (items : List Item) : Except GatewayError Unit × Body :=
  match loop.drainStalled items with
  | (none, body) => (.ok (), writeTimeout surface body seconds)
  | (some error, body) => (.error error, writeFailure surface body error)

/-! ## The handlers -/

section

variable (toText : JsonValue → String)

structure ChatState where
  first : Bool := true
  finalStats : Option GenerationStats := none
  toolCalls : ℕ := 0

def openAIChat (id : String) (created : ℤ) (served : String) (includeUsage : Bool) :
    Loop ChatState where
  start := {}
  opening := []
  chunk state chunk :=
    let header : OpenAI.StreamChunk := { id, created, model := served, role := state.first }
    match chunk with
    | .text text =>
      ({ state with first := false }, [.data ({ header with content := some text }.toValue toText)])
    | .thinking thought =>
      ({ state with first := false },
        [.data ({ header with reasoning := some thought }.toValue toText)])
    | .toolCall call =>
      ({ state with first := false, toolCalls := state.toolCalls + 1 },
        [.data ({ header with toolCall := some call
                              toolCallIndex := state.toolCalls }.toValue toText)])
    | .done stats => ({ state with finalStats := stats }, [])
    | _ => (state, [])
  closing state :=
    let finish :=
      if state.toolCalls > 0 then "tool_calls"
      else (state.finalStats.bind (·.finishReason)).getD "stop"
    let last : OpenAI.StreamChunk := { id, created, model := served, finishReason := some finish }
    [.data (last.toValue toText)] ++
      (if includeUsage then
        [.data (OpenAI.usageFrame id created served "chat.completion.chunk" state.finalStats)]
      else []) ++ [.sseDone]

def openAICompletions (id : String) (created : ℤ) (model : String) (includeUsage : Bool) :
    Loop (Option GenerationStats) where
  start := none
  opening := []
  chunk finalStats chunk :=
    match chunk with
    | .text text => (finalStats, [.data (OpenAI.textCompletionChunk id created model text none)])
    | .done stats => (stats, [])
    | _ => (finalStats, [])
  closing finalStats :=
    let finish := (finalStats.bind (·.finishReason)).getD "stop"
    [.data (OpenAI.textCompletionChunk id created model "" (some finish))] ++
      (if includeUsage then
        [.data (OpenAI.usageFrame id created model "text_completion" finalStats)]
      else []) ++ [.sseDone]

structure OllamaState where
  finalStats : Option GenerationStats := none
  sawToolCall : Bool := false
  /-- How often the time was asked for. -/
  frames : ℕ := 0

def ollamaChat (served : String) (now : ℕ → String) : Loop OllamaState where
  start := {}
  opening := []
  chunk state chunk :=
    let next := { state with frames := state.frames + 1 }
    match chunk with
    | .text text =>
      (next, [.line (Ollama.delta served (now state.frames) (some text) none none)])
    | .thinking thought =>
      (next, [.line (Ollama.delta served (now state.frames) none (some thought) none)])
    | .toolCall call =>
      ({ next with sawToolCall := true },
        [.line (Ollama.delta served (now state.frames) none none (some call))])
    | .done stats => ({ state with finalStats := stats }, [])
    | _ => (state, [])
  closing state :=
    let stats := state.finalStats.getD {}
    let stats := if state.sawToolCall then { stats with finishReason := some "stop" } else stats
    [.line (Ollama.finalFrame served (now state.frames) stats)]

structure GenerateState where
  finalStats : Option GenerationStats := none
  frames : ℕ := 0

def ollamaGenerate (model : String) (now : ℕ → String) : Loop GenerateState where
  start := {}
  opening := []
  chunk state chunk :=
    match chunk with
    | .text text =>
      ({ state with frames := state.frames + 1 },
        [.line (Ollama.generateDelta model (now state.frames) text)])
    | .done stats => ({ state with finalStats := stats }, [])
    | _ => (state, [])
  closing state := [.line (Ollama.generateFinal model (now state.frames) state.finalStats)]

structure MessageState where
  index : ℕ := 0
  textOpen : Bool := false
  toolCalls : ℕ := 0
  finalStats : Option GenerationStats := none

def anthropicMessages (id served : String) : Loop MessageState where
  start := {}
  opening := [Anthropic.messageStart id served none]
  chunk state chunk :=
    match chunk with
    | .text text =>
      ({ state with textOpen := true },
        (if state.textOpen then [] else [Anthropic.textBlockStart state.index]) ++
          [Anthropic.textDelta state.index text])
    | .toolCall call =>
      let index := if state.textOpen then state.index + 1 else state.index
      ({ state with index := index + 1, textOpen := false, toolCalls := state.toolCalls + 1 },
        (if state.textOpen then [Anthropic.blockStop state.index] else []) ++
          [Anthropic.toolBlockStart index call, Anthropic.toolInputDelta toText index call,
            Anthropic.blockStop index])
    | .done stats => ({ state with finalStats := stats }, [])
    | _ => (state, [])
  closing state :=
    (if state.textOpen then [Anthropic.blockStop state.index] else []) ++
      [Anthropic.messageDelta state.toolCalls state.finalStats, Anthropic.messageStop]

end

/-! ## The endpoints -/

/-- A streaming endpoint with what a request fixes for its frames. -/
inductive Endpoint
  | openAIChat (id : String) (created : ℤ) (served : String) (includeUsage : Bool)
  | openAICompletions (id : String) (created : ℤ) (model : String) (includeUsage : Bool)
  | ollamaChat (served : String) (now : ℕ → String)
  | ollamaGenerate (model : String) (now : ℕ → String)
  | anthropicMessages (id served : String)

namespace Endpoint

def surface : Endpoint → GatewaySurface
  | openAIChat .. | openAICompletions .. => .openAI
  | ollamaChat .. | ollamaGenerate .. => .ollama
  | anthropicMessages .. => .anthropic

/-- What the endpoint writes for a stream that closes behind its items: the two prompt endpoints
drain it themselves, the others through `drain_bounded`. -/
def reply (toText : JsonValue → String) (endpoint : Endpoint) (items : List Item) : Body :=
  match endpoint with
  | openAIChat id created served includeUsage =>
    (drainBounded .openAI (Gateway.openAIChat toText id created served includeUsage) items).2
  | openAICompletions id created model includeUsage =>
    (Loop.drain (Gateway.openAICompletions id created model includeUsage) items).2
  | ollamaChat served now =>
    (drainBounded .ollama (Gateway.ollamaChat served now) items).2
  | ollamaGenerate model now => (Loop.drain (Gateway.ollamaGenerate model now) items).2
  | anthropicMessages id served =>
    (drainBounded .anthropic (Gateway.anthropicMessages toText id served) items).2

/-- What it writes for a stream that stalls behind its items until the deadline; the prompt
endpoints have none, and wait. -/
def stalledReply (toText : JsonValue → String) (seconds : ℕ) (endpoint : Endpoint)
    (items : List Item) : Body :=
  match endpoint with
  | openAIChat id created served includeUsage =>
    (drainBoundedStalled .openAI seconds
      (Gateway.openAIChat toText id created served includeUsage) items).2
  | openAICompletions id created model includeUsage =>
    (Loop.drainStalled (Gateway.openAICompletions id created model includeUsage) items).2
  | ollamaChat served now =>
    (drainBoundedStalled .ollama seconds (Gateway.ollamaChat served now) items).2
  | ollamaGenerate model now => (Loop.drainStalled (Gateway.ollamaGenerate model now) items).2
  | anthropicMessages id served =>
    (drainBoundedStalled .anthropic seconds (Gateway.anthropicMessages toText id served) items).2

end Endpoint

end Hedos.Gateway
