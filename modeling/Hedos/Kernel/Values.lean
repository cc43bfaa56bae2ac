import Hedos.Lib.Primitives
import Mathlib.Data.Rat.Floor

/-!
# Values that pass between the crates

`JsonValue` (`kernel/src/records/json_value.rs`), the chunks of a capability stream
(`kernel/src/capabilities/chunk.rs`, `tools.rs`) and the errors a runtime's stream may end with
(`runtime/src/adapters/mod.rs`).
-/

namespace Hedos.Kernel

/-- A finite double is a rational number. -/
inductive JsonValue
  | null
  | bool (value : Bool)
  | int (value : ℤ)
  | double (value : ℚ)
  | string (value : String)
  | array (items : List JsonValue)
  | object (fields : List (String × JsonValue))

namespace JsonValue

def asObject : JsonValue → Option (List (String × JsonValue))
  | object fields => some fields
  | _ => none

def asArray : JsonValue → Option (List JsonValue)
  | array items => some items
  | _ => none

def asStr : JsonValue → Option String
  | string value => some value
  | _ => none

def asBool : JsonValue → Option Bool
  | bool value => some value
  | _ => none

/-- A double in range is cut towards zero. -/
def asI64 : JsonValue → Option ℤ
  | int value => some value
  | double value =>
    if -2 ^ 63 ≤ value ∧ value < 2 ^ 63 then some (value.num.tdiv value.den) else none
  | _ => none

/-- The field of an object. -/
def get (value : JsonValue) (key : String) : Option JsonValue :=
  value.asObject.bind fun fields => fields.lookup key

end JsonValue

structure GenerationStats where
  promptTokens : Option ℤ := none
  completionTokens : Option ℤ := none
  durationMs : Option ℤ := none
  ttftMs : Option ℤ := none
  loadMs : Option ℤ := none
  promptMs : Option ℤ := none
  evalMs : Option ℤ := none
  finishReason : Option String := none
  tokenCountsEstimated : Bool := false
deriving DecidableEq

structure ToolCall where
  id : String
  name : String
  arguments : JsonValue

inductive CapabilityChunk
  | text (text : String)
  | thinking (thought : String)
  | segment (text : String) (startMs endMs : ℤ)
  | audio (data : List UInt8)
  | vector (values : List ℚ)
  | toolCall (call : ToolCall)
  | status (message : String)
  | done (stats : Option GenerationStats)

inductive RuntimeError
  | cancelled
  | failed (message : String)
  | rejected (message : String)
  | unavailable (message : String)
  | wrongExecutionMode
deriving DecidableEq

def RuntimeError.text : RuntimeError → String
  | cancelled => "cancelled"
  | failed message | rejected message | unavailable message => message
  | wrongExecutionMode => "this runtime runs jobs, not streaming requests"

end Hedos.Kernel
