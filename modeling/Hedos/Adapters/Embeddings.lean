import Hedos.Kernel.Time
import Hedos.Lib.Search

/-!
# Batches of embeddings

`invoke_embed` of `runtime/src/adapters/llama_server.rs` with `embed_inputs`, `chunked`,
`EmbeddingServer` and `refused`, and what it uses of `openai.rs` and `mod.rs`: `embeddings_body`,
`post_embeddings`, `post_capped`, `capped_body`, `parse_embeddings`, `ErrorBody` and
`tokens_before`. The consumer stays.

What is outside the crate is a parameter (`Outside`): the JSON reader and writer, the rounding of an
integer to a double, and what comes back for each request.
-/

namespace Hedos.Embeddings

open Hedos.Kernel (JsonValue GenerationStats CapabilityChunk RuntimeError)
open Hedos.Kernel.Time (readDigits)
open Hedos.Upstream (Ending Sent isWhitespace trim)

/-! ## Requests -/

structure Response where
  status : ℕ
  chunks : List Bytes
  ending : Ending

/-- What comes of a request that is sent. -/
inductive Posted
  /-- The connection fails or times out. -/
  | unreachable
  | stopped
  | answered (response : Response)

structure Outside where
  /-- `serde_json::from_slice`. -/
  fromSlice : Bytes → Option JsonValue
  /-- `serde_json::to_vec`. -/
  toVec : JsonValue → Except String Bytes
  /-- `i64 as f64`. -/
  asDouble : ℤ → ℚ
  /-- What comes of the `n`-th request. -/
  post : ℕ → Bytes → Posted

/-- What `ErrorBody::read` finds. -/
structure ErrorBody where
  message : Option String := none
  kind : Option String := none

inductive PostFailure
  | answered (status : ℕ) (body : ErrorBody)
  | runtime (error : RuntimeError)

def maxJsonBodyBytes : ℕ := 32 * 1024 * 1024

def maxErrorBytes : ℕ := 64 * 1024

def label : String := "llama-server"

def cappedBody (cap : ℕ) : Bytes → List Bytes → Ending → Except RuntimeError Bytes
  | bytes, [], .closed => .ok bytes
  | _, [], .transport reason => .error (.failed (label ++ ": " ++ reason))
  | bytes, chunk :: chunks, ending =>
    let bytes := bytes ++ chunk
    if bytes.length > cap then
      .error (.failed (label ++ " sent a response larger than " ++ toString cap ++ " bytes"))
    else cappedBody cap bytes chunks ending

/-- A string that is not blank, trimmed. -/
def errorText (value : Option JsonValue) : Option String :=
  ((value.bind JsonValue.asStr).map fun text => String.ofList (trim text.toList)).filter
    fun text => !text.isEmpty

def ErrorBody.read (w : Outside) (body : Bytes) : ErrorBody :=
  match (w.fromSlice body).bind (·.get "error") with
  | none => {}
  | some (.object fields) =>
    let error := JsonValue.object fields
    { message := errorText (error.get "message"), kind := errorText (error.get "type") }
  | some error => { message := errorText (some error) }

def postCapped (w : Outside) (n : ℕ) (body : Bytes) (cap : ℕ) : Except PostFailure Bytes :=
  match w.post n body with
  | .unreachable => .error (.runtime (.unavailable (label ++ " isn't reachable")))
  | .stopped => .error (.runtime (.failed (label ++ " stopped before answering")))
  | .answered response =>
    if response.status = 200 then
      match cappedBody cap [] response.chunks response.ending with
      | .ok bytes => .ok bytes
      | .error error => .error (.runtime error)
    else
      let body := match cappedBody maxErrorBytes [] response.chunks response.ending with
        | .ok bytes => bytes
        | .error _ => []
      .error (.answered response.status (ErrorBody.read w body))

/-! ## Rows -/

/-- The `data` of a response, if there is any. -/
def dataRows (value : JsonValue) : Option (List JsonValue) :=
  ((value.get "data").bind JsonValue.asArray).filter fun rows => !rows.isEmpty

/-- `usize::try_from` of the `index` of a row. -/
def rowIndex (row : JsonValue) : Option ℕ :=
  ((row.get "index").bind JsonValue.asI64).bind fun index =>
    if 0 ≤ index then some index.toNat else none

def asF64 (w : Outside) : JsonValue → Option ℚ
  | .double value => some value
  | .int value => some (w.asDouble value)
  | _ => none

def rowVector (w : Outside) (row : JsonValue) : Option (List ℚ) :=
  ((row.get "embedding").bind JsonValue.asArray).bind (·.mapM (asF64 w))

/-- A row in its slot, unless there is no such slot or it is taken. -/
def placeRow (w : Outside) (ordered : List (Option (List ℚ))) (row : JsonValue) :
    Option (List (Option (List ℚ))) := do
  let index ← rowIndex row
  let vector ← rowVector w row
  let slot ← ordered[index]?
  if slot.isSome then none else some (ordered.set index (some vector))

def orderRows (w : Outside) (rows : List JsonValue) : Option (List (List ℚ)) := do
  let ordered ← rows.foldlM (placeRow w) (List.replicate rows.length none)
  ordered.mapM id

def promptTokensOf (value : JsonValue) : Option ℤ :=
  ((value.get "usage").bind (·.get "prompt_tokens")).bind JsonValue.asI64

/-- The vectors of a response in order, and its prompt tokens. -/
abbrev Embedded := List (List ℚ) × Option ℤ

def understood : RuntimeError := .failed "the embeddings response was not understood"

def parseEmbeddings (w : Outside) (bytes : Bytes) : Except RuntimeError Embedded :=
  match w.fromSlice bytes with
  | none => .error understood
  | some value =>
    match (dataRows value).bind (orderRows w) with
    | none => .error understood
    | some vectors => .ok (vectors, promptTokensOf value)

def postEmbeddings (w : Outside) (n : ℕ) (body : Bytes) : Except PostFailure Embedded :=
  match postCapped w n body maxJsonBodyBytes with
  | .error failure => .error failure
  | .ok bytes =>
    match parseEmbeddings w bytes with
    | .ok embedded => .ok embedded
    | .error error => .error (.runtime error)

def embeddingsBody (w : Outside) (model : String) (inputs : List JsonValue) :
    Except RuntimeError Bytes :=
  match w.toVec (.object
      [("encoding_format", .string "float"), ("input", .array inputs),
        ("model", .string model)]) with
  | .ok body => .ok body
  | .error reason => .error (.failed ("encoding request: " ++ reason))

/-! ## Refusals -/

structure TooLong where
  tokens : Option ℕ
  most : ℤ
deriving DecidableEq

inductive Refused
  | tooLong (tooLong : TooLong)
  | failed (error : RuntimeError)

/-- `TooLong::rejected`. -/
def TooLong.rejected (tooLong : TooLong) (index : Option ℕ) : RuntimeError :=
  let subject := match index with
    | some index => "input " ++ toString index
    | none => "the input"
  .rejected (match tooLong.tokens with
    | some tokens =>
      subject ++ " is " ++ toString tokens ++ " tokens, more than the " ++ toString tooLong.most ++
        " this model embeds at once"
    | none =>
      subject ++ " is more than the " ++ toString tooLong.most ++
        " tokens this model embeds at once")

/-- `str::parse::<u64>`. -/
def parseU64 (text : Text) : Option ℕ :=
  let value := match text with
    | '+' :: digits => readDigits digits
    | digits => readDigits digits
  value.filter (· < 2 ^ 64)

/-- `str::split_once`, by a text. -/
def splitOnce (pattern text : Text) : Option (Text × Text) :=
  (Search.firstAt pattern text).map fun i => (text.take i, text.drop (i + pattern.length))

def tokensBefore (message : String) (lead verdict : String) : Option (Option ℕ) :=
  if lead.toList.isPrefixOf message.toList then
    match splitOnce " tokens)".toList (message.toList.drop lead.toList.length) with
    | none => none
    | some (count, rest) =>
      if verdict.toList.isPrefixOf (rest.dropWhile isWhitespace) then some (parseU64 count)
      else none
  else none

/-- What a server answered that is not about the length of an input. -/
def otherwiseRefused (status : ℕ) (body : ErrorBody) (name : String) : Refused :=
  if "Pooling type 'none'".toList.isPrefixOf (body.message.getD "").toList then
    .failed (.failed (name ++ " pools nothing into one vector, so it cannot embed"))
  else
    .failed (.failed (body.message.getD (label ++ " answered with HTTP " ++ toString status)))

def refused (failure : PostFailure) (window : ℤ) (name : String) : Refused :=
  match failure with
  | .runtime error => .failed error
  | .answered status body =>
    let message := body.message.getD ""
    if status = 500 then
      match tokensBefore message "input (" "is too large to process" with
      | some tokens => .tooLong { tokens, most := window }
      | none => otherwiseRefused status body name
    else if status = 400 ∧ body.kind = some "exceed_context_size_error" then
      .tooLong
        { tokens :=
            (tokensBefore message "request (" "exceeds the available context size").getD none
          most := window - 1 }
    else otherwiseRefused status body name

/-! ## Chunks -/

def usizeMax : ℕ := 2 ^ 64 - 1

def embeddingChunkInputs : ℕ := 64

def embeddingChunkBytesPerToken : ℕ := 4

structure Range where
  start : ℕ
  stop : ℕ
deriving DecidableEq

def Range.slice {α : Type} (range : Range) (items : List α) : List α :=
  (items.drop range.start).take (range.stop - range.start)

/-- `usize::saturating_add`. -/
def saturatingAdd (a b : ℕ) : ℕ := min usizeMax (a + b)

def textLen (input : JsonValue) : ℕ := input.asStr.elim 0 String.utf8ByteSize

def budget (window : ℤ) : ℕ := min usizeMax (window.toNat * embeddingChunkBytesPerToken)

/-- The loop of `chunked`, at `index`. -/
def chunkedFrom (budget : ℕ) : List JsonValue → ℕ → ℕ → ℕ → List Range
  | [], index, start, _ => if start < index then [⟨start, index⟩] else []
  | input :: inputs, index, start, bytes =>
    let size := textLen input
    if index - start = embeddingChunkInputs ∨
        (start < index ∧ budget < saturatingAdd bytes size) then
      ⟨start, index⟩ :: chunkedFrom budget inputs (index + 1) index (saturatingAdd 0 size)
    else chunkedFrom budget inputs (index + 1) start (saturatingAdd bytes size)

def chunked (inputs : List JsonValue) (window : ℤ) : List Range :=
  chunkedFrom (budget window) inputs 0 0 0

/-! ## The adapter -/

structure EmbeddingServer where
  model : String
  name : String
  window : ℤ

def embed (w : Outside) (server : EmbeddingServer) (n : ℕ) (inputs : List JsonValue) :
    Except Refused Embedded :=
  match embeddingsBody w server.model inputs with
  | .error error => .error (.failed error)
  | .ok body =>
    match postEmbeddings w n body with
    | .ok embedded => .ok embedded
    | .error failure => .error (refused failure server.window server.name)

/-- What was asked for, and what came of it. -/
structure Exchange where
  inputs : List JsonValue
  result : Except Refused Embedded

/-- `locate`, with its exchanges. -/
def locate (w : Outside) (server : EmbeddingServer) (tooLong : TooLong) :
    ℕ → ℕ → List JsonValue → List Exchange × RuntimeError
  | _, _, [] => ([], tooLong.rejected none)
  | n, index, input :: chunk =>
    let exchange : Exchange := ⟨[input], embed w server n [input]⟩
    match exchange.result with
    | .ok _ =>
      let (exchanges, error) := locate w server tooLong (n + 1) (index + 1) chunk
      (exchange :: exchanges, error)
    | .error (.tooLong found) => ([exchange], found.rejected (some index))
    | .error (.failed error) => ([exchange], error)

/-- A total is reported only when every chunk reported its count. -/
def addTokens (sum tokens : Option ℤ) : Option ℤ :=
  match sum, tokens with
  | some sum, some tokens => some (saturatingAddI64 sum tokens)
  | _, _ => none

def countMismatch (vectors inputs : ℕ) : RuntimeError :=
  .failed (label ++ " returned " ++ toString vectors ++ " embeddings for " ++ toString inputs ++
    " inputs")

structure Run where
  exchanges : List Exchange
  sent : List Sent

/-- The loop over the ranges. -/
def embedChunks (w : Outside) (server : EmbeddingServer) (inputs : List JsonValue) :
    ℕ → List Range → Option ℤ → Run
  | _, [], promptTokens => ⟨[], [.ok (.done (some { promptTokens }))]⟩
  | n, range :: ranges, promptTokens =>
    let chunk := range.slice inputs
    let exchange : Exchange := ⟨chunk, embed w server n chunk⟩
    match exchange.result with
    | .ok (vectors, tokens) =>
      if vectors.length = chunk.length then
        let run := embedChunks w server inputs (n + 1) ranges (addTokens promptTokens tokens)
        ⟨exchange :: run.exchanges, vectors.map (fun v => .ok (.vector v)) ++ run.sent⟩
      else ⟨[exchange], [.error (countMismatch vectors.length chunk.length)]⟩
    | .error (.tooLong tooLong) =>
      if inputs.length > 1 then
        if chunk.length = 1 then ⟨[exchange], [.error (tooLong.rejected (some range.start))]⟩
        else
          let (exchanges, error) := locate w server tooLong (n + 1) range.start chunk
          ⟨exchange :: exchanges, [.error error]⟩
      else ⟨[exchange], [.error (tooLong.rejected none)]⟩
    | .error (.failed error) => ⟨[exchange], [.error error]⟩

def embedInputs (payload : JsonValue) : Except RuntimeError (List JsonValue) :=
  match payload.get "input" with
  | some (.string input) => .ok [.string input]
  | some (.array (input :: inputs)) => .ok (input :: inputs)
  | _ => .error (.failed "embed payload must carry an input")

/-- `invoke_embed`, with how the server's start ended. -/
def invokeEmbed (w : Outside) (server : EmbeddingServer) (started : Except RuntimeError Unit)
    (payload : JsonValue) : Run :=
  match embedInputs payload with
  | .error error => ⟨[], [.error error]⟩
  | .ok inputs =>
    match started with
    | .error error => ⟨[], [.error error]⟩
    | .ok _ => embedChunks w server inputs 0 (chunked inputs server.window) (some 0)

end Hedos.Embeddings
