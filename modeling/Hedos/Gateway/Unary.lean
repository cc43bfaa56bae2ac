import Hedos.Gateway.Replies

/-!
# Streamed and collected replies

The other branch of the five text handlers: `collect_completion`
(`gateway/src/handlers/mod.rs`) and the bodies built from what it collects
(`gateway/src/wire`). And a client of either branch: what it reads out of a body, and what it makes
of a stream by folding the frames.

A client reads the same reply from both (`streamed_agrees_with_unary`), but for the token count of
an OpenAI stream that was not asked for it.
-/

namespace Hedos.Gateway

open Hedos.Kernel (JsonValue GenerationStats ToolCall CapabilityChunk RuntimeError)

/-! ## Collecting a run -/

/-- What `collect_completion` accumulates. -/
structure Completion where
  text : String := ""
  toolCalls : List ToolCall := []
  stats : Option GenerationStats := none

def Completion.add (completion : Completion) : CapabilityChunk → Completion
  | .text text => { completion with text := completion.text ++ text }
  | .toolCall call => { completion with toolCalls := completion.toolCalls ++ [call] }
  | .done stats => { completion with stats := stats }
  | _ => completion

/-- The loop of `collect_completion`. -/
def collectFrom : Completion → List Item → Except GatewayError Completion
  | completion, [] => .ok completion
  | _, .error error :: _ => .error (runtimeFailed error)
  | completion, .ok chunk :: rest => collectFrom (completion.add chunk) rest

def collectCompletion (items : List Item) : Except GatewayError Completion := collectFrom {} items

/-! ## The bodies -/

namespace OpenAI

def completion (toText : JsonValue → String) (id : String) (created : ℤ) (model content : String)
    (stats : Option GenerationStats) (toolCalls : List ToolCall) : JsonValue :=
  let calls := toolCalls.mapIdx fun index call => toolCallWire toText call index
  let message :=
    if toolCalls.isEmpty then [("role", JsonValue.string "assistant"), ("content", .string content)]
    else
      -- with tool calls and no text, the content is null
      [("role", .string "assistant"),
        ("content", if content.isEmpty then .null else .string content),
        ("tool_calls", .array calls)]
  let finishReason :=
    if toolCalls.isEmpty then (stats.bind (·.finishReason)).getD "stop" else "tool_calls"
  .object [("id", .string id), ("object", .string "chat.completion"), ("created", .int created),
    ("model", .string model),
    ("choices", .array [.object [("index", .int 0), ("message", .object message),
      ("finish_reason", .string finishReason)]]), ("usage", usage stats)]

def textCompletion (id : String) (created : ℤ) (model text : String)
    (stats : Option GenerationStats) : JsonValue :=
  .object [("id", .string id), ("object", .string "text_completion"), ("created", .int created),
    ("model", .string model),
    ("choices", .array [.object [("text", .string text), ("index", .int 0), ("logprobs", .null),
      ("finish_reason", .string ((stats.bind (·.finishReason)).getD "stop"))]]),
    ("usage", usage stats)]

end OpenAI

namespace Ollama

/-- `final_frame`, with whatever content, stats and tool calls. -/
def finalReply (model createdAt content : String) (stats : Option GenerationStats)
    (toolCalls : List ToolCall) : JsonValue :=
  let message :=
    [("role", JsonValue.string "assistant"), ("content", .string content)] ++
      if toolCalls.isEmpty then [] else [("tool_calls", .array (toolCalls.map toolCallEntry))]
  let finish := stats.bind (·.finishReason)
  let doneReason :=
    if !toolCalls.isEmpty ∨ finish = some "tool_calls" then "stop" else finish.getD "stop"
  .object ([("model", .string model), ("created_at", .string createdAt),
    ("message", .object message), ("done", .bool true), ("done_reason", .string doneReason)] ++
    statsFields stats)

/-- The body of `/api/generate`: the terminal frame with its `response` put in. -/
def generateReply (model createdAt response : String) (stats : Option GenerationStats) :
    JsonValue :=
  let doneReason := (stats.bind (·.finishReason)).getD "stop"
  .object ([("model", .string model), ("created_at", .string createdAt),
    ("response", .string response), ("done", .bool true), ("done_reason", .string doneReason)] ++
    statsFields stats)

end Ollama

namespace Anthropic

def toolUseBlock (call : ToolCall) : JsonValue :=
  .object [("type", .string "tool_use"), ("id", .string call.id), ("name", .string call.name),
    ("input", call.arguments)]

def contentBlocks (text : String) (toolCalls : List ToolCall) : List JsonValue :=
  (if text.isEmpty then []
    else [.object [("type", .string "text"), ("text", .string text)]]) ++
    toolCalls.map toolUseBlock

def message (id model text : String) (toolCalls : List ToolCall)
    (stats : Option GenerationStats) : JsonValue :=
  .object [("id", .string id), ("type", .string "message"), ("role", .string "assistant"),
    ("model", .string model), ("content", .array (contentBlocks text toolCalls)),
    ("stop_reason", .string (stopReason toolCalls.length stats)), ("stop_sequence", .null),
    ("usage", usage stats)]

end Anthropic

/-- The body an endpoint makes of a run it has collected. -/
def Endpoint.body (toText : JsonValue → String) (endpoint : Endpoint) (completion : Completion) :
    JsonValue :=
  let { text, toolCalls, stats } := completion
  match endpoint with
  | openAIChat id created served _ =>
    OpenAI.completion toText id created served text stats toolCalls
  | openAICompletions id created model _ => OpenAI.textCompletion id created model text stats
  | ollamaChat served now => Ollama.finalReply served (now 0) text stats toolCalls
  | ollamaGenerate model now => Ollama.generateReply model (now 0) text stats
  | anthropicMessages id served => Anthropic.message id served text toolCalls stats

/-- What an endpoint answers when it is not asked to stream. -/
def Endpoint.unary (toText : JsonValue → String) (endpoint : Endpoint) (items : List Item) :
    Except GatewayError JsonValue :=
  (collectCompletion items).map (endpoint.body toText)

/-! ## A client -/

/-- A tool call as a client reads it: the arguments are the text of a JSON value. -/
structure ReadCall where
  id : Option String
  name : String
  arguments : String
deriving DecidableEq

/-- What a client has read so far: the tool calls in the order of their indices. -/
structure Draft where
  text : String := ""
  calls : List (ℕ × ReadCall) := []
  finish : Option String := none
  completionTokens : Option ℤ := none
deriving DecidableEq

/-- A reply as a client has read it. -/
structure ReadReply where
  text : String
  calls : List ReadCall
  finish : Option String
  completionTokens : Option ℤ
deriving DecidableEq

def Draft.reply (draft : Draft) : ReadReply where
  text := draft.text
  calls := draft.calls.map Prod.snd
  finish := draft.finish
  completionTokens := draft.completionTokens

/-- A further piece of a call. -/
def ReadCall.extend (call piece : ReadCall) : ReadCall where
  id := call.id <|> piece.id
  name := if call.name.isEmpty then piece.name else call.name
  arguments := call.arguments ++ piece.arguments

/-- A piece goes to the call of its index. -/
def mergeCall : List (ℕ × ReadCall) → ℕ → ReadCall → List (ℕ × ReadCall)
  | [], index, piece => [(index, piece)]
  | (i, call) :: rest, index, piece =>
    if index < i then (index, piece) :: (i, call) :: rest
    else if index = i then (i, call.extend piece) :: rest
    else (i, call) :: mergeCall rest index piece

def strField (value : JsonValue) (key : String) : Option String :=
  (value.get key).bind JsonValue.asStr

def intField (value : JsonValue) (key : String) : Option ℤ := (value.get key).bind JsonValue.asI64

def arrayField (value : JsonValue) (key : String) : List JsonValue :=
  ((value.get key).bind JsonValue.asArray).getD []

namespace OpenAI

def readCall (calls : List (ℕ × ReadCall)) (entry : JsonValue) : List (ℕ × ReadCall) :=
  let function := (entry.get "function").getD .null
  mergeCall calls ((intField entry "index").getD 0).toNat
    { id := strField entry "id"
      name := (strField function "name").getD ""
      arguments := (strField function "arguments").getD "" }

/-- A chunk of a chat stream, whose choice has a `delta`, or a whole reply, whose choice has a
`message`. -/
def readChat (field : String) (draft : Draft) (value : JsonValue) : Draft :=
  let choice := (arrayField value "choices").head?.getD .null
  let message := (choice.get field).getD .null
  { text := draft.text ++ (strField message "content").getD ""
    calls := (arrayField message "tool_calls").foldl readCall draft.calls
    finish := strField choice "finish_reason" <|> draft.finish
    completionTokens :=
      intField ((value.get "usage").getD .null) "completion_tokens" <|> draft.completionTokens }

def readText (draft : Draft) (value : JsonValue) : Draft :=
  let choice := (arrayField value "choices").head?.getD .null
  { draft with
    text := draft.text ++ (strField choice "text").getD ""
    finish := strField choice "finish_reason" <|> draft.finish
    completionTokens :=
      intField ((value.get "usage").getD .null) "completion_tokens" <|> draft.completionTokens }

end OpenAI

namespace Ollama

/-- The calls of this dialect have no index and come in order. -/
def readCall (toText : JsonValue → String) (calls : List (ℕ × ReadCall)) (entry : JsonValue) :
    List (ℕ × ReadCall) :=
  let function := (entry.get "function").getD .null
  mergeCall calls calls.length
    { id := none
      name := (strField function "name").getD ""
      arguments := ((function.get "arguments").map toText).getD "" }

def readChat (toText : JsonValue → String) (draft : Draft) (value : JsonValue) : Draft :=
  let message := (value.get "message").getD .null
  { text := draft.text ++ (strField message "content").getD ""
    calls := (arrayField message "tool_calls").foldl (readCall toText) draft.calls
    finish := strField value "done_reason" <|> draft.finish
    completionTokens := intField value "eval_count" <|> draft.completionTokens }

def readGenerate (draft : Draft) (value : JsonValue) : Draft :=
  { draft with
    text := draft.text ++ (strField value "response").getD ""
    finish := strField value "done_reason" <|> draft.finish
    completionTokens := intField value "eval_count" <|> draft.completionTokens }

end Ollama

namespace Anthropic

/-- An event: a tool call is opened with its id and name, its input comes in pieces of text. -/
def readEvent (draft : Draft) (name : String) (value : JsonValue) : Draft :=
  let index := ((intField value "index").getD 0).toNat
  let block := (value.get "content_block").getD .null
  let delta := (value.get "delta").getD .null
  if name = "content_block_start" then
    if strField block "type" = some "tool_use" then
      { draft with
        calls := mergeCall draft.calls index
          { id := strField block "id", name := (strField block "name").getD "", arguments := "" } }
    else { draft with text := draft.text ++ (strField block "text").getD "" }
  else if name = "content_block_delta" then
    if strField delta "type" = some "input_json_delta" then
      { draft with
        calls := mergeCall draft.calls index
          { id := none, name := "", arguments := (strField delta "partial_json").getD "" } }
    else { draft with text := draft.text ++ (strField delta "text").getD "" }
  else if name = "message_delta" then
    { draft with
      finish := strField delta "stop_reason" <|> draft.finish
      completionTokens :=
        intField ((value.get "usage").getD .null) "output_tokens" <|> draft.completionTokens }
  else draft

/-- A content block of a whole reply. -/
def readBlock (toText : JsonValue → String) (draft : Draft) (block : JsonValue) : Draft :=
  if strField block "type" = some "tool_use" then
    { draft with
      calls := mergeCall draft.calls draft.calls.length
        { id := strField block "id"
          name := (strField block "name").getD ""
          arguments := ((block.get "input").map toText).getD "" } }
  else { draft with text := draft.text ++ (strField block "text").getD "" }

def readMessage (toText : JsonValue → String) (value : JsonValue) : Draft :=
  let draft := (arrayField value "content").foldl (readBlock toText) {}
  { draft with
    finish := strField value "stop_reason"
    completionTokens := intField ((value.get "usage").getD .null) "output_tokens" }

end Anthropic

namespace Endpoint

/-- A frame of the endpoint's stream. -/
def readFrame (toText : JsonValue → String) (endpoint : Endpoint) (draft : Draft) : Frame → Draft
  | .data value =>
    match endpoint with
    | openAIChat .. => OpenAI.readChat "delta" draft value
    | openAICompletions .. => OpenAI.readText draft value
    | _ => draft
  | .line value =>
    match endpoint with
    | ollamaChat .. => Ollama.readChat toText draft value
    | ollamaGenerate .. => Ollama.readGenerate draft value
    | _ => draft
  | .event name value =>
    match endpoint with
    | anthropicMessages .. => Anthropic.readEvent draft name value
    | _ => draft
  | .sseDone => draft

def readStream (toText : JsonValue → String) (endpoint : Endpoint) (frames : List Frame) :
    ReadReply :=
  (frames.foldl (endpoint.readFrame toText) {}).reply

def readBody (toText : JsonValue → String) (endpoint : Endpoint) (value : JsonValue) : ReadReply :=
  match endpoint with
  | openAIChat .. => (OpenAI.readChat "message" {} value).reply
  | openAICompletions .. => (OpenAI.readText {} value).reply
  | ollamaChat .. => (Ollama.readChat toText {} value).reply
  | ollamaGenerate .. => (Ollama.readGenerate {} value).reply
  | anthropicMessages .. => (Anthropic.readMessage toText value).reply

/-- Whether a stream carries the token count: an OpenAI stream has to be asked for it. -/
def countsTokens : Endpoint → Bool
  | openAIChat _ _ _ includeUsage | openAICompletions _ _ _ includeUsage => includeUsage
  | _ => true

end Endpoint

end Hedos.Gateway
