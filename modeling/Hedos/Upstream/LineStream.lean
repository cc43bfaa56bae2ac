import Hedos.Kernel.Values

/-!
# Answers that arrive line by line

`read_lines` and `drain_lines` of `runtime/src/adapters/line_stream.rs`, `stream_completions`,
`forward_line` and `OpenAiStreamParser` of `openai.rs`, `stream_chat` and `forward_line` of
`ollama.rs`, behind a 200 head and with a consumer that stays.

What is outside the crate is a parameter (`Foreign`): the JSON reader, the rounding of floating
point numbers, fresh ids and the clock.
-/

namespace Hedos.Upstream

open Hedos.Kernel (JsonValue GenerationStats ToolCall CapabilityChunk RuntimeError)

/-- What the adapter sends. -/
abbrev Sent := Except RuntimeError CapabilityChunk

/-! ## The reader -/

def maxResponseBytes : ℕ := 32 * 1024 * 1024

def maxLineBytes : ℕ := 2 * 1024 * 1024

/-- How the response ends behind its chunks. -/
inductive Ending
  | closed
  | transport (reason : String)
deriving DecidableEq

/-- `on_line`: what it keeps, what it sends, and whether to go on. -/
abbrev OnLine (σ : Type) := σ → Bytes → σ × List Sent × Bool

/-- The `\n`-terminated lines of a buffer, and the bytes behind them. -/
def splitLines : Bytes → List Bytes × Bytes
  | [] => ([], [])
  | byte :: rest =>
    if byte = 10 then
      let (lines, tail) := splitLines rest
      ([byte] :: lines, tail)
    else
      match splitLines rest with
      | ([], tail) => ([], byte :: tail)
      | (line :: lines, tail) => ((byte :: line) :: lines, tail)

/-- The calls for the lines of a buffer, up to one that stops. -/
def feed {σ : Type} (onLine : OnLine σ) : σ → List Bytes → σ × List Sent × Bool
  | state, [] => (state, [], true)
  | state, line :: lines =>
    match onLine state line with
    | (state, sent, false) => (state, sent, false)
    | (state, sent, true) =>
      let (state, more, goesOn) := feed onLine state lines
      (state, sent ++ more, goesOn)

/-- `drain_lines`, with what is left in the buffer. -/
def drainLines {σ : Type} (onLine : OnLine σ) (state : σ) (buffer : Bytes) :
    (σ × List Sent × Bool) × Bytes :=
  let (lines, rest) := splitLines buffer
  (feed onLine state lines, rest)

def oversizedResponse : RuntimeError := .failed "the server sent an oversized response"

def oversizedLine : RuntimeError := .failed "the server sent an oversized line"

def readLines {σ : Type} (errorPrefix : String) (onLine : OnLine σ) :
    σ → Bytes → ℕ → List Bytes → Ending → List Sent
  | state, buffer, _, [], .closed => (onLine state buffer).2.1
  | _, _, _, [], .transport reason => [.error (.failed (errorPrefix ++ ": " ++ reason))]
  | state, buffer, total, bytes :: chunks, ending =>
    let total := total + bytes.length
    if total > maxResponseBytes then [.error oversizedResponse]
    else
      match drainLines onLine state (buffer ++ bytes) with
      | ((_, sent, false), _) => sent
      | ((state, sent, true), rest) =>
        if rest.length > maxLineBytes then sent ++ [.error oversizedLine]
        else sent ++ readLines errorPrefix onLine state rest total chunks ending

/-! ## Text -/

structure Foreign where
  /-- `serde_json::from_str`. -/
  fromStr : String → Option JsonValue
  /-- `serde_json::from_slice`. -/
  fromSlice : Bytes → Option JsonValue
  /-- `as_f64`, rounded, as an `i64`. -/
  roundMs : JsonValue → Option ℤ
  /-- `(ns as f64 / 1_000_000.0).round() as i64`. -/
  nanosToMs : ℤ → ℤ
  /-- The fresh id of the `n`-th call. -/
  newCallId : ℕ → String
  /-- The time from the start of the answer to its end. -/
  elapsedMs : ℤ

def fromUtf8 (bytes : Bytes) : Option String := String.fromUTF8? ⟨bytes.toArray⟩

/-- `char::is_whitespace`. -/
def isWhitespace (c : Char) : Bool :=
  let n := c.toNat
  (9 ≤ n && n ≤ 13) || n == 0x20 || n == 0x85 || n == 0xA0 || n == 0x1680 ||
    (0x2000 ≤ n && n ≤ 0x200A) || n == 0x2028 || n == 0x2029 || n == 0x202F || n == 0x205F ||
    n == 0x3000

def trim (text : List Char) : List Char :=
  ((text.dropWhile isWhitespace).reverse.dropWhile isWhitespace).reverse

/-- A string that is there and not empty. -/
def nonEmpty (value : Option JsonValue) : Option String :=
  (value.bind JsonValue.asStr).filter fun text => !text.isEmpty

/-! ## OpenAI -/

structure ToolFragment where
  id : Option String := none
  name : String := ""
  arguments : String := ""
deriving DecidableEq

structure OpenAiStreamParser where
  promptTokens : Option ℤ := none
  completionTokens : Option ℤ := none
  promptMs : Option ℤ := none
  evalMs : Option ℤ := none
  timingsPromptTokens : Option ℤ := none
  timingsCompletionTokens : Option ℤ := none
  finishReason : Option String := none
  /-- By index, in order. -/
  toolFragments : List (ℤ × ToolFragment) := []
  /-- How many ids were made. -/
  ids : ℕ := 0

/-- What follows `data:` on a line of text. -/
def payload (line : String) : Option String :=
  let trimmed := trim line.toList
  if "data:".toList.isPrefixOf trimmed then some (String.ofList (trim (trimmed.drop 5))) else none

def parseToolArguments (f : Foreign) (raw : String) : JsonValue :=
  match f.fromStr raw with
  | some (.object fields) => .object fields
  | _ => if trim raw.toList = [] then .object [] else .object [("_raw", .string raw)]

/-- The calls of the fragments that have a name, and how many ids were made then. -/
def callsOf (f : Foreign) : ℕ → List ToolFragment → ℕ × List CapabilityChunk
  | ids, [] => (ids, [])
  | ids, fragment :: rest =>
    if fragment.name.isEmpty then callsOf f ids rest
    else
      let arguments := parseToolArguments f fragment.arguments
      match fragment.id with
      | some id =>
        let (last, chunks) := callsOf f ids rest
        (last, .toolCall { id, name := fragment.name, arguments } :: chunks)
      | none =>
        let (last, chunks) := callsOf f (ids + 1) rest
        (last, .toolCall { id := f.newCallId ids, name := fragment.name, arguments } :: chunks)

namespace OpenAiStreamParser

def flushToolCalls (f : Foreign) (parser : OpenAiStreamParser) :
    OpenAiStreamParser × List CapabilityChunk :=
  let (ids, chunks) := callsOf f parser.ids (parser.toolFragments.map Prod.snd)
  ({ parser with toolFragments := [], ids }, chunks)

def takeTimings (f : Foreign) (parser : OpenAiStreamParser) (timings : JsonValue) :
    OpenAiStreamParser :=
  { parser with
    promptMs := ((timings.get "prompt_ms").bind f.roundMs) <|> parser.promptMs
    evalMs := ((timings.get "predicted_ms").bind f.roundMs) <|> parser.evalMs
    timingsPromptTokens :=
      ((timings.get "prompt_n").bind JsonValue.asI64) <|> parser.timingsPromptTokens
    timingsCompletionTokens :=
      ((timings.get "predicted_n").bind JsonValue.asI64) <|> parser.timingsCompletionTokens }

def takeUsage (parser : OpenAiStreamParser) (usage : JsonValue) : OpenAiStreamParser :=
  { parser with
    promptTokens := ((usage.get "prompt_tokens").bind JsonValue.asI64) <|> parser.promptTokens
    completionTokens :=
      ((usage.get "completion_tokens").bind JsonValue.asI64) <|> parser.completionTokens }

/-- Changes the fragment at an index, made if it is not there. -/
def upsert (index : ℤ) (change : ToolFragment → ToolFragment) :
    List (ℤ × ToolFragment) → List (ℤ × ToolFragment)
  | [] => [(index, change {})]
  | (i, fragment) :: rest =>
    if i = index then (i, change fragment) :: rest
    else if index < i then (index, change {}) :: (i, fragment) :: rest
    else (i, fragment) :: upsert index change rest

def accumulate (parser : OpenAiStreamParser) (entry : JsonValue) : OpenAiStreamParser :=
  match entry with
  | .object _ =>
    let index := ((entry.get "index").bind JsonValue.asI64).getD 0
    let function := (entry.get "function").filter fun value => value.asObject.isSome
    let change (fragment : ToolFragment) : ToolFragment :=
      { id := (nonEmpty (entry.get "id")) <|> fragment.id
        name := fragment.name ++ (nonEmpty (function.bind (·.get "name"))).getD ""
        arguments := fragment.arguments ++
          ((function.bind (·.get "arguments")).bind JsonValue.asStr).getD "" }
    { parser with toolFragments := upsert index change parser.toolFragments }
  | _ => parser

/-- The stats at the end of the answer. -/
def stats (f : Foreign) (parser : OpenAiStreamParser) : GenerationStats :=
  { promptTokens := parser.promptTokens <|> parser.timingsPromptTokens
    completionTokens := parser.completionTokens <|> parser.timingsCompletionTokens
    durationMs := some f.elapsedMs
    promptMs := parser.promptMs
    evalMs := parser.evalMs
    finishReason := parser.finishReason }

end OpenAiStreamParser

/-- The object in the field, if it is one. -/
def objectField (value : JsonValue) (key : String) : Option JsonValue :=
  (value.get key).filter fun inner => inner.asObject.isSome

/-- The first choice of a chunk. -/
def firstChoice (object : JsonValue) : Option JsonValue :=
  (((object.get "choices").bind JsonValue.asArray).bind List.head?).filter fun choice =>
    choice.asObject.isSome

/-- The thinking and the text of a choice. -/
def deltaChunks (choice : JsonValue) : List CapabilityChunk :=
  let delta := objectField choice "delta"
  ((nonEmpty (delta.bind (·.get "reasoning_content"))).map CapabilityChunk.thinking).toList ++
    ((nonEmpty (delta.bind (·.get "content"))).map CapabilityChunk.text).toList

namespace OpenAiStreamParser

/-- `parse`, of a chunk that is an object. -/
def parseObject (f : Foreign) (parser : OpenAiStreamParser) (object : JsonValue) :
    OpenAiStreamParser × List CapabilityChunk :=
  let parser := (objectField object "usage").elim parser parser.takeUsage
  let parser := (objectField object "timings").elim parser (parser.takeTimings f)
  match firstChoice object with
  | none => (parser, [])
  | some choice =>
    let entries := ((objectField choice "delta").bind (·.get "tool_calls")).bind JsonValue.asArray
    let parser := (entries.getD []).foldl accumulate parser
    match nonEmpty (choice.get "finish_reason") with
    | none => (parser, deltaChunks choice)
    | some reason =>
      let (parser, calls) := flushToolCalls f { parser with finishReason := some reason }
      (parser, deltaChunks choice ++ calls)

def parse (f : Foreign) (parser : OpenAiStreamParser) (line : String) :
    OpenAiStreamParser × List CapabilityChunk :=
  match payload line with
  | none => (parser, [])
  | some text =>
    if text = "[DONE]" then
      let (flushed, calls) := parser.flushToolCalls f
      (flushed, calls ++ [.done (some (flushed.stats f))])
    else
      match f.fromStr text with
      | some (.object fields) => parser.parseObject f (.object fields)
      | _ => (parser, [])

end OpenAiStreamParser

def isDone : CapabilityChunk → Bool
  | .done _ => true
  | _ => false

/-- The chunks sent of those parsed: all of them, or up to a `Done`. -/
def sendChunks : List CapabilityChunk → List Sent × Bool
  | [] => ([], true)
  | chunk :: rest =>
    if isDone chunk then ([.ok chunk], false)
    else
      let (sent, goesOn) := sendChunks rest
      (.ok chunk :: sent, goesOn)

/-- `forward_line` of the OpenAI adapter. -/
def forwardOpenAI (f : Foreign) : OnLine OpenAiStreamParser := fun parser line =>
  match fromUtf8 line with
  | none => (parser, [], true)
  | some text =>
    let (parser, chunks) := parser.parse f text
    (parser, sendChunks chunks)

/-! ## Ollama -/

def ollamaCall (f : Foreign) (ids : ℕ) (entry : JsonValue) : Option CapabilityChunk := do
  let function ← objectField entry "function"
  let name ← nonEmpty (function.get "name")
  some (.toolCall { id := f.newCallId ids, name
                    arguments := (objectField function "arguments").getD (.object []) })

/-- The calls of a line, and how many ids were made then. -/
def ollamaCalls (f : Foreign) : ℕ → List JsonValue → ℕ × List CapabilityChunk
  | ids, [] => (ids, [])
  | ids, entry :: rest =>
    match ollamaCall f ids entry with
    | none => ollamaCalls f ids rest
    | some call =>
      let (last, calls) := ollamaCalls f (ids + 1) rest
      (last, call :: calls)

def doneStats (f : Foreign) (object : JsonValue) : GenerationStats :=
  let millis (key : String) := ((object.get key).bind JsonValue.asI64).map f.nanosToMs
  { promptTokens := (object.get "prompt_eval_count").bind JsonValue.asI64
    completionTokens := (object.get "eval_count").bind JsonValue.asI64
    durationMs := millis "total_duration"
    loadMs := millis "load_duration"
    promptMs := millis "prompt_eval_duration"
    evalMs := millis "eval_duration"
    finishReason := (object.get "done_reason").bind JsonValue.asStr }

/-- The thinking and the text of a line's message. -/
def messageChunks (object : JsonValue) : List CapabilityChunk :=
  let message := objectField object "message"
  ((nonEmpty (message.bind (·.get "thinking"))).map CapabilityChunk.thinking).toList ++
    ((nonEmpty (message.bind (·.get "content"))).map CapabilityChunk.text).toList

/-- `forward_line` of the Ollama adapter, of a line that is an object. -/
def forwardObject (f : Foreign) (ids : ℕ) (object : JsonValue) : ℕ × List Sent × Bool :=
  match nonEmpty (object.get "error") with
  | some message => (ids, [.error (.failed ("ollama: " ++ message))], false)
  | none =>
    let entries := ((objectField object "message").bind (·.get "tool_calls")).bind JsonValue.asArray
    let (ids, calls) := ollamaCalls f ids (entries.getD [])
    if (object.get "done").bind JsonValue.asBool = some true then
      (ids, calls.map Except.ok ++ [.ok (.done (some (doneStats f object)))], false)
    else (ids, (calls ++ messageChunks object).map Except.ok, true)

def forwardOllama (f : Foreign) : OnLine ℕ := fun ids line =>
  match f.fromSlice line with
  | some (.object fields) => forwardObject f ids (.object fields)
  | _ => (ids, [], true)

/-! ## The adapters -/

inductive Server
  /-- An OpenAI-compatible server, and `llama-server`. -/
  | openAI
  | ollama
deriving DecidableEq

/-- All that is sent for a response. -/
def answer (f : Foreign) (chunks : List Bytes) (ending : Ending) : Server → List Sent
  | .openAI => readLines "endpoint" (forwardOpenAI f) {} [] 0 chunks ending
  | .ollama => readLines "ollama" (forwardOllama f) 0 [] 0 chunks ending

end Hedos.Upstream
