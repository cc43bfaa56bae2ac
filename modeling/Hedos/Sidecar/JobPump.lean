import Hedos.Kernel.Values
import Hedos.Sidecar.FrameCodec

/-!
# A job's events

`pump_job`, `result_bytes` and `next_binary_frame` of `runtime/src/sidecar/supervisor.rs`, and what
the bundled runtimes write for a finished piece: `send_result` of
`runtime/runtimes/python-audio/audio_output.py` for a song, `main` of
`runtime/runtimes/python-diffusers/main.py` for a picture.

The frames a job's pump takes are a list; behind its end `next_frame` gives nothing. Memory for a
result is there.
-/

namespace Hedos.Sidecar

open Hedos.Kernel (JsonValue)

/-! ## Control values -/

abbrev ControlObject := Option (List (String × JsonValue))

def controlEvent (value : JsonValue) : Option String :=
  (value.asObject.bind fun fields => fields.lookup "event").bind JsonValue.asStr

def stringField (object : ControlObject) (key : String) : String :=
  ((object.bind fun fields => fields.lookup key).bind JsonValue.asStr).getD ""

def intField (object : ControlObject) (key : String) : Option ℤ :=
  (object.bind fun fields => fields.lookup key).bind JsonValue.asI64

/-! ## The pump -/

/-- The largest artifact a job may return in one `result`. -/
def maxResultBytes : ℕ := 1 <<< 30

inductive JobRuntimeEvent
  | started
  | progress (step totalSteps : ℤ)
  | preview (data : Bytes)
  | result (data : Bytes) (fileExtension : String)
  | status (message : String)
deriving DecidableEq

inductive SidecarError
  | sidecarDied (runtimeId detail : String)
  | runtimeFailed (message : String)
  | rejected (message : String)
  | cancelled
deriving DecidableEq

def errorMessage (object : ControlObject) : String :=
  ((object.bind fun fields => fields.lookup "message").bind JsonValue.asStr).getD "sidecar error"

def reportedError (object : ControlObject) : SidecarError :=
  if (object.bind fun fields => fields.lookup "fault").bind JsonValue.asStr = some "request" then
    .rejected (errorMessage object)
  else .runtimeFailed (errorMessage object)

/-- The sidecar is killed, and what it did is said. -/
def outOfStep (id what : String) : SidecarError := .runtimeFailed (id ++ " " ++ what)

abbrev JobFrame := Frame JsonValue

/-- The loop of `result_bytes`: the frames up to `expected` bytes, and what is behind them. -/
def readResult (id : String) (expected : ℕ) (data : Bytes) :
    List JobFrame → Except SidecarError Bytes × List JobFrame
  | [] =>
    if expected ≤ data.length then (.ok data, [])
    else
      (.error (outOfStep id ("sent " ++ toString data.length ++ " of the " ++ toString expected ++
        " bytes of its result")), [])
  | frame :: rest =>
    if expected ≤ data.length then (.ok data, frame :: rest)
    else
      match frame with
      | .binary chunk =>
        if chunk.length > expected - data.length then
          (.error (outOfStep id ("sent more of its result than the " ++ toString expected ++
            " bytes it announced")), rest)
        else readResult id expected (data ++ chunk) rest
      | .control _ =>
        (.error (outOfStep id ("sent " ++ toString data.length ++ " of the " ++
          toString expected ++ " bytes of its result")), rest)

/-- The artifact a `result` event announces. -/
def resultBytes (id : String) (object : ControlObject) (frames : List JobFrame) :
    Except SidecarError Bytes × List JobFrame :=
  match (intField object "bytes").filter fun bytes : ℤ => 1 ≤ bytes ∧ bytes ≤ maxResultBytes with
  | some expected => readResult id expected.toNat [] frames
  | none =>
    (.error (outOfStep id ("announced a result without a size from 1 to " ++
      toString maxResultBytes ++ " bytes")), frames)

/-- `next_binary_frame`: a control frame in its place is taken all the same. -/
def nextBinaryFrame : List JobFrame → Option Bytes × List JobFrame
  | .binary data :: rest => (some data, rest)
  | _ :: rest => (none, rest)
  | [] => (none, [])

/-- The events the pump sends, and how it ends. -/
abbrev Pumped := List JobRuntimeEvent × Except SidecarError Unit

def Pumped.after (event : JobRuntimeEvent) (pumped : Pumped) : Pumped :=
  (event :: pumped.1, pumped.2)

/-- The loop of `pump_job`, with a round for each frame it takes in hand; `exitError` is what
`frame_loop_exit_error` gives once there is none. -/
def pumpFrom (id : String) (exitError : SidecarError) : ℕ → List JobFrame → Pumped
  | 0, _ => ([], .error exitError)
  | _ + 1, [] => ([], .error exitError)
  | _ + 1, .binary _ :: _ => ([], .error (outOfStep id "sent bytes no event announced"))
  | rounds + 1, .control value :: rest =>
    let object := value.asObject
    match controlEvent value with
    | some "begin" => (pumpFrom id exitError rounds rest).after .started
    | some "step" =>
      (pumpFrom id exitError rounds rest).after
        (.progress ((intField object "n").getD 0) ((intField object "total").getD 0))
    | some "preview" =>
      let (data, rest) := nextBinaryFrame rest
      match data with
      | some data => (pumpFrom id exitError rounds rest).after (.preview data)
      | none => pumpFrom id exitError rounds rest
    | some "image" =>
      let format :=
        ((object.bind fun fields => fields.lookup "format").bind JsonValue.asStr).getD "png"
      let (data, rest) := nextBinaryFrame rest
      match data with
      | some data => (pumpFrom id exitError rounds rest).after (.result data format)
      | none => pumpFrom id exitError rounds rest
    | some "result" =>
      match resultBytes id object rest with
      | (.error error, _) => ([], .error error)
      | (.ok data, rest) =>
        let format := stringField object "format"
        (pumpFrom id exitError rounds rest).after
          (.result data (if format.isEmpty then "bin" else format))
    | some "status" =>
      let message := stringField object "message"
      if message.isEmpty then pumpFrom id exitError rounds rest
      else (pumpFrom id exitError rounds rest).after (.status message)
    | some "done" => ([], .ok ())
    | some "cancelled" => ([], .error .cancelled)
    | some "error" => ([], .error (reportedError object))
    | _ => pumpFrom id exitError rounds rest

/-- `pump_job`. Each round takes a frame, so there are enough of them. -/
def pumpJob (id : String) (exitError : SidecarError) (frames : List JobFrame) : Pumped :=
  pumpFrom id exitError (frames.length + 1) frames

/-- The `Result` events. -/
def Pumped.results (pumped : Pumped) : List (Bytes × String) :=
  pumped.1.filterMap fun event =>
    match event with
    | .result data fileExtension => some (data, fileExtension)
    | _ => none

/-! ## The decoder in front of it -/

/-- The frames that reach the pump: at a refusal `ingest` kills the sidecar, and what the same
read decoded is gone with it. -/
def received (json : Json JsonValue) (decoder : Decoder) : List Bytes → List JobFrame
  | [] => []
  | chunk :: chunks =>
    match decoder.append json chunk with
    | (_, .error _) => []
    | (decoder, .ok frames) => frames ++ received json decoder chunks

/-! ## What a runtime writes -/

/-- How a runtime writes a control value and the supervisor reads one. -/
structure Wire where
  /-- `json.dumps(value).encode()`. -/
  dumps : JsonValue → Bytes
  /-- `serde_json::from_slice`. -/
  fromSlice : Bytes → Option JsonValue

def Wire.json (w : Wire) : Json JsonValue where
  toVec value := some (w.dumps value)
  fromSlice := w.fromSlice

/-- `send`, which sets no limit. -/
def send (frameType : UInt8) (payload : Bytes) : Bytes :=
  toLeBytes (UInt32.ofNat (payload.length + 1)) ++ frameType :: payload

def sendJson (w : Wire) (value : JsonValue) : Bytes := send 1 (w.dumps value)

/-- `RESULT_CHUNK`. -/
def resultChunk : ℕ := 8 * 1024 * 1024

/-- `FORMATS`. -/
inductive AudioFormat
  | flac
  | wav
deriving DecidableEq

def AudioFormat.name : AudioFormat → String
  | flac => "flac"
  | wav => "wav"

/-- `[data[start : start + chunk] for start in range(0, len(data), chunk)]`. -/
def slices (chunk : ℕ) (data : Bytes) : List Bytes :=
  (List.range ((data.length + chunk - 1) / chunk)).map fun i => (data.drop (i * chunk)).take chunk

/-- A finished piece. -/
inductive Finished
  | song (data : Bytes) (format : AudioFormat) (sampleRate channels : ℤ) (seconds : ℚ)
  | picture (data : Bytes)

namespace Finished

def data : Finished → Bytes
  | song data _ _ _ _ => data
  | picture data => data

def format : Finished → String
  | song _ format _ _ _ => format.name
  | picture _ => "png"

/-- The event in front of the bytes. -/
def announcement : Finished → JsonValue
  | song data format sampleRate channels seconds =>
    .object [("event", .string "result"), ("format", .string format.name),
      ("bytes", .int data.length), ("sample_rate", .int sampleRate),
      ("channels", .int channels), ("seconds", .double seconds)]
  | picture _ =>
    .object [("event", .string "image"), ("format", .string "png"), ("index", .int 0),
      ("count", .int 1)]

/-- The binary payloads behind it. -/
def payloads : Finished → List Bytes
  | song data _ _ _ _ => slices resultChunk data
  | picture data => [data]

end Finished

/-- The event a runtime ends a job with. -/
def doneEvent (seconds : ℚ) : JsonValue :=
  .object [("event", .string "done"), ("seconds", .double seconds)]

/-- All a runtime writes for a finished piece. -/
def Finished.writes (piece : Finished) (w : Wire) (seconds : ℚ) : List Bytes :=
  sendJson w piece.announcement :: piece.payloads.map (send 2) ++ [sendJson w (doneEvent seconds)]

end Hedos.Sidecar
