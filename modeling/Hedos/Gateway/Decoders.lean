import Hedos.Kernel.ChatWire
import Hedos.Gateway.Streams
import Mathlib.Data.List.Destutter

/-!
# Decoding chat requests

The three chat decoders (`gateway/src/wire/openai.rs`, `ollama.rs`, `anthropic.rs`) with what they
share (`param_decoding.rs`): a request body becomes a conversation, and the conversation a payload.

A body is an object of JSON; the entropy of the ids that are made up is by message and call.
-/

namespace Hedos.Gateway

open Hedos.Kernel Results

def badRequest (message : String) : GatewayError where
  kind := .badRequest
  message := message
  code := none

def unsupportedParameter (message : String) : GatewayError :=
  { badRequest message with code := some "unsupported_parameter" }

/-! ## Shared decoding -/

namespace ParamDecoding

def invalidType (key expected : String) : GatewayError :=
  { badRequest (key ++ " must be " ++ expected) with code := some "invalid_type" }

/-- An `i64` as a double, which has 53 bits for it: the nearest one, the even one of two. -/
def toDouble (n : ℤ) : ℤ :=
  let m := n.natAbs
  let shift := m.log2 - 52
  let quotient := m / 2 ^ shift
  let rest := m % 2 ^ shift
  let up := 2 * rest > 2 ^ shift ∨ 2 * rest = 2 ^ shift ∧ quotient % 2 = 1
  let rounded := (if up then quotient + 1 else quotient) * 2 ^ shift
  n.sign * rounded

/-- A double as an `i64`, which saturates. -/
def saturate (n : ℤ) : ℤ := max (-(2 ^ 63)) (min (2 ^ 63 - 1) n)

def numberParam (body : Fields) (key : String) : Except GatewayError (Option ℚ) :=
  match body.lookup key with
  | none => .ok none
  | some (.int value) =>
    if saturate (toDouble value) = value then .ok (some (toDouble value))
    else .error (invalidType key "a number")
  | some (.double value) => .ok (some value)
  | some _ => .error (invalidType key "a number")

/-- A double that is an `i64`. -/
def integral (value : ℚ) : Option ℤ :=
  if value.den = 1 ∧ -2 ^ 63 ≤ value ∧ value < 2 ^ 63 then some value.num else none

def intParam (body : Fields) (key : String) : Except GatewayError (Option ℤ) :=
  match body.lookup key with
  | none => .ok none
  | some (.int value) => .ok (some value)
  | some (.double value) =>
    match integral value with
    | some n => .ok (some n)
    | none => .error (invalidType key "an integer")
  | some _ => .error (invalidType key "an integer")

def stop (raw : Option JsonValue) (maxCount : Option ℕ) : Except GatewayError (Option JsonValue) :=
  match raw with
  | none => .ok none
  | some (.string single) => .ok (some (.array [.string single]))
  | some (.array list) =>
    match maxCount.filter (list.length > ·) with
    | some max =>
      .error (unsupportedParameter ("stop accepts at most " ++ toString max ++ " sequences"))
    | none =>
      if list.all (·.asStr.isSome) then .ok (some (.array list))
      else .error (badRequest "stop must be a string or array of strings")
  | some _ => .error (badRequest "stop must be a string or array of strings")

def rejectUnknownKeys (body : Fields) (honored : List String) (label : String) :
    Except GatewayError Unit :=
  match body.find? fun entry => !honored.contains entry.1 with
  | some entry =>
    .error (unsupportedParameter
      ("the " ++ label ++ " '" ++ entry.1 ++ "' is not supported"))
  | none => .ok ()

end ParamDecoding

def decodeModel (body : Fields) : Except GatewayError String :=
  match (Fields.str body "model").filter (!·.isEmpty) with
  | some model => .ok model
  | none => .error (badRequest "model is required")

/-- The messages of a body, of which there have to be some. -/
def decodeMessageObjects (body : Fields) : Except GatewayError (List Fields) :=
  match (objectArray (body.lookup "messages")).filter (!·.isEmpty) with
  | some messages => .ok messages
  | none => .error (badRequest "messages is required")

/-- A flag of the body. -/
def flag (body : Fields) (key : String) (fallback : Bool) : Bool :=
  ((body.lookup key).bind JsonValue.asBool).getD fallback

/-- One entry of `tool_calls`. An id that is there is taken as it is. -/
def decodeToolCall (arguments : Option JsonValue → Except GatewayError JsonValue)
    (entropy : List UInt8) (entry : Fields) : Except GatewayError ToolCall :=
  let function := (entry.lookup "function").bind JsonValue.asObject
  match function.bind fun function =>
      ((Fields.str function "name").filter (!·.isEmpty)).map fun name => (function, name) with
  | none => .error (badRequest "each tool call must carry function.name")
  | some (function, name) =>
    (arguments (function.lookup "arguments")).map fun arguments =>
      { id := (Fields.str entry "id").getD (newCallId entropy), name, arguments }

def decodeToolCallsWith (arguments : Option JsonValue → Except GatewayError JsonValue)
    (entropy : CallEntropy) (raw : Option JsonValue) : Except GatewayError (List ToolCall) :=
  if raw.isNone then .ok []
  else
    match objectArray raw with
    | none => .error (badRequest "tool_calls must be an array")
    | some entries =>
      collect (entries.zipIdx.map fun entry => decodeToolCall arguments (entropy entry.2) entry.1)

def decodeSpecs (body : Fields) : Except GatewayError (List ToolSpec) :=
  (decodeToolSpecs (body.lookup "tools")).mapError fun error => badRequest error.message

/-- `BTreeMap::insert`. -/
def insertField (fields : Fields) (entry : String × JsonValue) : Fields :=
  entry :: fields.filter (·.1 ≠ entry.1)

/-- A chat request, as far as its dialect has the parts. -/
structure ChatRequest where
  model : String
  messages : List ChatMessage
  stream : Bool
  includeUsage : Bool := false
  /-- The sampling parameters, or the options. -/
  sampling : Fields
  tools : List ToolSpec
  toolChoice : Option JsonValue := none

/-- The payload of a conversation, with the sampling parameters merged in. -/
def payloadOf (codecs : Codecs) (request : ChatRequest) (toolChoice : Option JsonValue) :
    JsonValue :=
  .object (request.sampling.foldl insertField
    ([("messages", .array (request.messages.map (ChatMessage.payloadValue codecs)))] ++
      (if request.tools.isEmpty then []
        else [("tools", .array (request.tools.map ToolSpec.payloadValue))]) ++
      (toolChoice.map fun choice => ("tool_choice", choice)).toList))

/-- A parameter that was given. -/
def given (key : String) (value : Option JsonValue) : Fields :=
  (value.map fun value => (key, value)).toList

/-! ## OpenAI -/

namespace OpenAI

def honoredKeys : List String :=
  ["model", "messages", "stream", "stream_options", "temperature", "top_p", "max_tokens",
    "max_completion_tokens", "stop", "seed", "n", "frequency_penalty", "presence_penalty",
    "response_format", "tools", "tool_choice", "user"]

/-- The newer name of the limit counts where the older is not given. -/
def maxTokensParam (body : Fields) : Except GatewayError (Option ℤ) :=
  (ParamDecoding.intParam body "max_tokens").bind fun maxTokens =>
    if maxTokens.isSome then .ok maxTokens
    else ParamDecoding.intParam body "max_completion_tokens"

def decodeSampling (body : Fields) : Except GatewayError Fields := do
  let temperature ← ParamDecoding.numberParam body "temperature"
  let topP ← ParamDecoding.numberParam body "top_p"
  let maxTokens ← maxTokensParam body
  let stop ← ParamDecoding.stop (body.lookup "stop") (some 4)
  let seed ← ParamDecoding.intParam body "seed"
  let n ← ParamDecoding.intParam body "n"
  if n.any (· ≠ 1) then
    .error (unsupportedParameter "n greater than 1 is not supported")
  else
    let frequencyPenalty ← ParamDecoding.numberParam body "frequency_penalty"
    let presencePenalty ← ParamDecoding.numberParam body "presence_penalty"
    .ok (given "temperature" (temperature.map .double) ++ given "top_p" (topP.map .double) ++
      given "max_tokens" (maxTokens.map .int) ++ given "stop" stop ++
      given "seed" (seed.map .int) ++
      given "frequency_penalty" (frequencyPenalty.map .double) ++
      given "presence_penalty" (presencePenalty.map .double))

def decodeResponseFormat (raw : Option JsonValue) : Except GatewayError (Option JsonValue) :=
  match raw with
  | none => .ok none
  | some raw =>
    match raw.asObject.bind (Fields.str · "type") with
    | none => .error (badRequest "response_format must be an object with a type")
    | some formatType =>
      if formatType = "text" then .ok none
      else if formatType = "json_object" ∨ formatType = "json_schema" then .ok (some raw)
      else .error (unsupportedParameter
        ("response_format type '" ++ formatType ++ "' is not supported"))

/-- The text holds the other. -/
def containsText (text pattern : List Char) : Bool := text.tails.any pattern.isPrefixOf

def malformedUri : GatewayError := badRequest "malformed image data: URI"

/-- Only `data:` URIs are taken: the gateway fetches nothing. -/
def decodeImageDataUri (codecs : Codecs) (url : String) : Except GatewayError ChatAttachment :=
  match url.toList with
  | 'd' :: 'a' :: 't' :: 'a' :: ':' :: body =>
    if ¬ body.contains ',' then .error malformedUri
    else
      let info := body.takeWhile (· ≠ ',')
      let encoded := (body.dropWhile (· ≠ ',')).drop 1
      match codecs.base64Decode (String.ofList encoded) with
      | none => .error (badRequest "image data: URI must carry base64 content")
      | some data =>
        if ¬ containsText info "base64".toList then
          .error (badRequest "image data: URI must carry base64 content")
        else
          let mediatype := String.ofList (info.takeWhile (· ≠ ';'))
          .ok { kind := .image, data, name := none
                mimeType :=
                  if mediatype = "" ∨ mediatype = "base64" then "image/png" else mediatype }
  | _ => .error (badRequest
      "image urls must be data: URIs — this gateway fetches nothing off this machine")

/-- A call's arguments: the text of an object, an object, or none. -/
def decodeToolArguments (codecs : Codecs) (raw : Option JsonValue) :
    Except GatewayError JsonValue :=
  match raw with
  | some (.string encoded) =>
    match codecs.fromText encoded with
    | some (.object fields) => .ok (.object fields)
    | _ => .error (badRequest "tool call arguments must be a JSON-encoded object")
  | some (.object fields) => .ok (.object fields)
  | _ => .ok (.object [])

def decodeToolCalls (codecs : Codecs) : CallEntropy → Option JsonValue →
    Except GatewayError (List ToolCall) :=
  decodeToolCallsWith (decodeToolArguments codecs)

/-- The texts of the content parts, joined, and the images. -/
def decodeParts (codecs : Codecs) : List Fields → Except GatewayError (String × List ChatAttachment)
  | [] => .ok ("", [])
  | part :: parts =>
    match Fields.str part "type" with
    | some "text" =>
      match Fields.str part "text" with
      | none => .error (badRequest "text content part is missing its text")
      | some text => (decodeParts codecs parts).map fun rest => (text ++ rest.1, rest.2)
    | some "image_url" =>
      match ((part.lookup "image_url").bind JsonValue.asObject).bind (Fields.str · "url") with
      | none => .error (badRequest "image_url content part is missing its url")
      | some url => (decodeImageDataUri codecs url).bind fun image =>
        (decodeParts codecs parts).map fun rest => (rest.1, image :: rest.2)
    | _ => .error (badRequest "only text and image_url content parts are supported")

def decodeRole (raw : String) : Option ChatRole :=
  if raw = "developer" then some .system else ChatRole.fromValue raw

def decodeMessage (codecs : Codecs) (entropy : CallEntropy) (raw : Fields) :
    Except GatewayError ChatMessage :=
  let rawRole := (Fields.str raw "role").getD ""
  match decodeRole rawRole with
  | none => .error (badRequest ("unsupported message role " ++ rawRole))
  | some .tool =>
    match (Fields.str raw "tool_call_id").filter (!·.isEmpty) with
    | none => .error (badRequest "tool messages require tool_call_id")
    | some callId => .ok {
        role := .tool
        content := (Fields.str raw "content").getD ""
        toolCallId := some callId
        toolName := Fields.str raw "name" }
  | some role =>
    (decodeToolCalls codecs entropy (raw.lookup "tool_calls")).bind fun toolCalls =>
      match Fields.str raw "content" with
      | some content => .ok { role, content, toolCalls }
      | none =>
        match objectArray (raw.lookup "content") with
        | some parts => (decodeParts codecs parts).map fun content =>
            { role, content := content.1, toolCalls, attachments := content.2 }
        | none =>
          if role = .assistant ∧ !toolCalls.isEmpty then
            .ok { role := .assistant, content := "", toolCalls }
          else .error (badRequest "message content must be a string or text parts")

def decodeToolChoice (raw : Option JsonValue) : Except GatewayError (Option JsonValue) :=
  match raw with
  | none => .ok none
  | some (.string choice) => .ok (some (.string choice))
  | some (.object choice) => .ok (some (.object choice))
  | some _ => .error (badRequest "tool_choice must be a string or object")

/-- An empty bias is let pass. -/
def withoutEmptyBias (body : Fields) : Fields :=
  match body.lookup "logit_bias" with
  | some (.object []) => body.filter (·.1 ≠ "logit_bias")
  | _ => body

def decodeChatRequest (codecs : Codecs) (entropy : ℕ → CallEntropy) (body : Fields) :
    Except GatewayError ChatRequest := do
  let body := withoutEmptyBias body
  let model ← decodeModel body
  let raw ← decodeMessageObjects body
  ParamDecoding.rejectUnknownKeys body honoredKeys "parameter"
  let messages ← collect (raw.zipIdx.map fun entry =>
    decodeMessage codecs (entropy entry.2) entry.1)
  let sampling ← decodeSampling body
  let options := ((body.lookup "stream_options").bind JsonValue.asObject).getD []
  let responseFormat ← decodeResponseFormat (body.lookup "response_format")
  let tools ← decodeSpecs body
  let toolChoice ← decodeToolChoice (body.lookup "tool_choice")
  .ok { model, messages, tools, toolChoice
        stream := flag body "stream" false
        includeUsage := flag options "include_usage" false
        sampling := sampling ++ given "response_format" responseFormat }

def chatPayload (codecs : Codecs) (request : ChatRequest) : JsonValue :=
  payloadOf codecs request request.toolChoice

end OpenAI

/-! ## Ollama -/

namespace Ollama

def honoredKeys : List String :=
  ["model", "messages", "stream", "think", "options", "format", "tools", "keep_alive"]

def optionPayload (key : String) : Option String :=
  if key ∈ ["temperature", "top_p", "top_k", "min_p", "seed", "repeat_penalty",
      "frequency_penalty", "presence_penalty"] then some key
  else if key = "num_predict" then some "max_tokens"
  else if key = "num_ctx" then some "context_length"
  else none

def optionNumber (key : String) (value : JsonValue) : Except GatewayError JsonValue :=
  match value with
  | .int number => .ok (.int number)
  | .double number => .ok (((ParamDecoding.integral number).map .int).getD (.double number))
  | _ => .error (unsupportedParameter ("the option '" ++ key ++ "' must be a number"))

def decodeOption (entry : String × JsonValue) : Except GatewayError Fields :=
  if entry.1 = "stop" then
    (ParamDecoding.stop (some entry.2) none).map (given "stop")
  else
    match optionPayload entry.1 with
    | none => .error (unsupportedParameter ("the option '" ++ entry.1 ++ "' is not supported"))
    | some payload => (optionNumber entry.1 entry.2).map fun number => [(payload, number)]

def decodeFormat (raw : Option JsonValue) : Except GatewayError (Option JsonValue) :=
  let invalid := badRequest "format must be \"json\" or a JSON schema object"
  match raw with
  | none => .ok none
  | some (.string text) =>
    if text ≠ "json" then .error invalid
    else .ok (some (.object [("type", .string "json_object")]))
  | some (.object schema) => .ok (some (.object [("type", .string "json_schema"),
      ("json_schema", .object [("schema", .object schema)])]))
  | some _ => .error invalid

def decodeOptions (body : Fields) : Except GatewayError Fields := do
  let raw := ((body.lookup "options").bind JsonValue.asObject).getD []
  let options ← collect (raw.map decodeOption)
  let think := (body.lookup "think").bind JsonValue.asBool
  let format ← decodeFormat (body.lookup "format")
  .ok (options.flatten ++ given "thinking" (think.map .bool) ++ given "response_format" format)

/-- A call's arguments: an object, or none. -/
def decodeToolArguments (raw : Option JsonValue) : Except GatewayError JsonValue :=
  match raw with
  | some (.object fields) => .ok (.object fields)
  | _ => .ok (.object [])

def decodeToolCalls : CallEntropy → Option JsonValue → Except GatewayError (List ToolCall) :=
  decodeToolCallsWith decodeToolArguments

def decodeImage (codecs : Codecs) (image : JsonValue) : Except GatewayError ChatAttachment :=
  match image.asStr.bind codecs.base64Decode with
  | some data => .ok { kind := .image, data, mimeType := "image/png", name := none }
  | none => .error (badRequest "each image must be a base64-encoded string")

def decodeMessage (codecs : Codecs) (entropy : CallEntropy) (raw : Fields) :
    Except GatewayError ChatMessage :=
  let rawRole := (Fields.str raw "role").getD ""
  match ChatRole.fromValue rawRole with
  | none => .error (badRequest ("unsupported message role " ++ rawRole))
  | some role =>
    let images := ((raw.lookup "images").bind JsonValue.asArray).getD []
    (collect (images.map (decodeImage codecs))).bind fun attachments =>
      (decodeToolCalls entropy (raw.lookup "tool_calls")).bind fun toolCalls =>
        let content := Fields.str raw "content"
        if role = .tool then
          .ok { role := .tool
                content := content.getD ""
                toolCallId := Fields.str raw "tool_call_id"
                toolName := Fields.str raw "tool_name" }
        else if role = .assistant ∧ !toolCalls.isEmpty then
          .ok { role := .assistant, content := content.getD "", toolCalls }
        else
          match content with
          | some content => .ok { role, content, attachments }
          | none => .error (badRequest "message content must be a string")

def decodeChatRequest (codecs : Codecs) (entropy : ℕ → CallEntropy) (body : Fields) :
    Except GatewayError ChatRequest := do
  let model ← decodeModel body
  let raw ← decodeMessageObjects body
  ParamDecoding.rejectUnknownKeys body honoredKeys "parameter"
  let messages ← collect (raw.zipIdx.map fun entry =>
    decodeMessage codecs (entropy entry.2) entry.1)
  let sampling ← decodeOptions body
  let tools ← decodeSpecs body
  .ok { model, messages, sampling, tools, stream := flag body "stream" true }

def chatPayload (codecs : Codecs) (request : ChatRequest) : JsonValue :=
  payloadOf codecs request none

end Ollama

/-! ## Anthropic -/

namespace Anthropic

/-- The `text` of the objects among some values. -/
def texts (blocks : List JsonValue) : List String :=
  blocks.filterMap fun block => block.asObject.bind (Fields.str · "text")

def systemText (value : Option JsonValue) : Option String :=
  match value with
  | some (.string text) => if text.isEmpty then none else some text
  | some (.array blocks) =>
    let joined := "\n\n".intercalate (texts blocks)
    if joined.isEmpty then none else some joined
  | _ => none

/-- A `tool_use` block; its input is taken as it is. -/
def decodeToolUse (fields : Fields) : Option ToolCall :=
  (Fields.str fields "id").bind fun id =>
    (Fields.str fields "name").map fun name =>
      { id, name, arguments := (fields.lookup "input").getD (.object []) }

/-- A `tool_result` block, as the id of its call and its text. -/
def decodeToolResult (fields : Fields) : String × String :=
  let id := (Fields.str fields "tool_use_id").getD ""
  let body :=
    match fields.lookup "content" with
    | some (.string text) => text
    | some (.array blocks) => "\n".intercalate (texts blocks)
    | _ => ""
  (id, body)

/-- The turn of a tool's result. -/
def toolTurn (result : String × String) : ChatMessage :=
  { role := .tool, content := result.2, toolCallId := some result.1 }

def hasType (name : String) (fields : Fields) : Bool := Fields.str fields "type" == some name

def droppedType (fields : Fields) : Option String :=
  (Fields.str fields "type").filter fun name =>
    !(["text", "tool_use", "tool_result", "thinking", "redacted_thinking"].contains name)

/-- The turn of a message made of blocks, if it has one. -/
def decodeTurn (role : ChatRole) (blocks : List Fields) : List ChatMessage :=
  let text := String.join ((blocks.filter (hasType "text")).filterMap (Fields.str · "text"))
  let toolCalls := (blocks.filter (hasType "tool_use")).filterMap decodeToolUse
  let dropped := blocks.filterMap droppedType
  if !text.isEmpty ∨ !toolCalls.isEmpty then [{ role, content := text, toolCalls }]
  else if (blocks.filter (hasType "tool_result")).isEmpty ∧ !dropped.isEmpty then
    -- the turn stays, and says what it held
    [{ role, content := "[unsupported content: " ++
        ", ".intercalate (dropped.destutter (· ≠ ·)) ++ "]" }]
  else []

/-- One message of the wire may become several: the results of tools are turns of their own. -/
def decodeMessage (value : JsonValue) : Except GatewayError (List ChatMessage) :=
  match value.asObject with
  | none => .error (badRequest "each message must be an object")
  | some fields =>
    match (Fields.str fields "role").bind ChatRole.fromValue with
    | none => .error (badRequest "each message needs a role of \"user\" or \"assistant\"")
    | some role =>
      match fields.lookup "content" with
      | some (.string text) => .ok [{ role, content := text }]
      | some (.array content) =>
        let blocks := content.filterMap JsonValue.asObject
        let results := (blocks.filter (hasType "tool_result")).map decodeToolResult
        .ok (decodeTurn role blocks ++ results.map toolTurn)
      | _ => .error (badRequest "message content must be a string or an array")

def decodeTools (value : Option JsonValue) : List ToolSpec :=
  let entries := ((value.bind JsonValue.asArray).getD []).filterMap JsonValue.asObject
  entries.filterMap fun fields => (Fields.str fields "name").map fun name =>
    { name, description := (Fields.str fields "description").getD ""
      parameters := (fields.lookup "input_schema").getD (.object []) }

/-- The tools that are left and the choice among them, in the kernel's form. -/
def decodeToolChoice (value : Option JsonValue) (tools : List ToolSpec) :
    List ToolSpec × Option JsonValue :=
  let fields := (value.bind JsonValue.asObject).getD []
  match Fields.str fields "type" with
  | some "none" => ([], none)
  | some "any" => (tools, some (.string "required"))
  | some "tool" => (tools, (Fields.str fields "name").map fun name =>
      .object [("type", .string "function"), ("function", .object [("name", .string name)])])
  | _ => (tools, none)

/-- A parameter of the wrong type is passed over. -/
def lenient {α : Type} (result : Except GatewayError (Option α)) : Option α :=
  (result.toOption).join

def decodeSampling (body : Fields) : Except GatewayError Fields := do
  let stop ← ParamDecoding.stop (body.lookup "stop_sequences") none
  .ok (["max_tokens", "top_k"].flatMap (fun key =>
      given key ((lenient (ParamDecoding.intParam body key)).map .int)) ++
    ["temperature", "top_p"].flatMap (fun key =>
      given key ((lenient (ParamDecoding.numberParam body key)).map .double)) ++
    given "stop" stop)

/-- The messages of a body, whatever they are. -/
def decodeMessageValues (body : Fields) : Except GatewayError (List JsonValue) :=
  match ((body.lookup "messages").bind JsonValue.asArray).filter (!·.isEmpty) with
  | some raw => .ok raw
  | none => .error (badRequest "messages is required")

def decodeMessagesRequest (body : Fields) : Except GatewayError ChatRequest := do
  let model ← decodeModel body
  let raw ← decodeMessageValues body
  let system := (systemText (body.lookup "system")).map fun text =>
    ({ role := .system, content := text } : ChatMessage)
  let decoded ← collect (raw.map decodeMessage)
  let choice := decodeToolChoice (body.lookup "tool_choice") (decodeTools (body.lookup "tools"))
  let sampling ← decodeSampling body
  .ok { model, sampling
        messages := system.toList ++ decoded.flatten
        tools := choice.1
        toolChoice := choice.2
        stream := flag body "stream" false }

def messagesPayload (codecs : Codecs) (request : ChatRequest) : JsonValue :=
  payloadOf codecs request (if request.tools.isEmpty then none else request.toolChoice)

end Anthropic

/-! ## The three surfaces -/

def GatewaySurface.decode (surface : GatewaySurface) (codecs : Codecs)
    (entropy : ℕ → CallEntropy) (body : Fields) : Except GatewayError ChatRequest :=
  match surface with
  | .openAI => OpenAI.decodeChatRequest codecs entropy body
  | .ollama => Ollama.decodeChatRequest codecs entropy body
  | .anthropic => Anthropic.decodeMessagesRequest body

def GatewaySurface.payload (surface : GatewaySurface) (codecs : Codecs) (request : ChatRequest) :
    JsonValue :=
  match surface with
  | .openAI => OpenAI.chatPayload codecs request
  | .ollama => Ollama.chatPayload codecs request
  | .anthropic => Anthropic.messagesPayload codecs request

end Hedos.Gateway
