import Hedos.Kernel.Values
import Hedos.Lib.Results

/-!
# The chat wire

`kernel/src/capabilities/chat.rs` and `tools.rs`: a conversation as the payload a request is
dispatched with, and the strict parser that reads it back.

Text and bytes that other crates convert (`from_utf8_lossy`, base64, `serde_json`) are parameters,
and so is the entropy a fresh call id is made from.
-/

namespace Hedos.Kernel

open Results

abbrev Fields := List (String × JsonValue)

/-- The conversions of other crates. -/
structure Codecs where
  utf8Lossy : List UInt8 → String
  base64Encode : List UInt8 → String
  base64Decode : String → Option (List UInt8)
  /-- `serde_json::from_str`. -/
  fromText : String → Option JsonValue

def Fields.str (fields : Fields) (key : String) : Option String :=
  (fields.lookup key).bind JsonValue.asStr

/-! ## Tools -/

structure ToolSpec where
  name : String
  description : String
  parameters : JsonValue

def ToolSpec.payloadValue (spec : ToolSpec) : JsonValue :=
  .object [("name", .string spec.name), ("description", .string spec.description),
    ("parameters", spec.parameters)]

def hexEncode (bytes : List UInt8) : String :=
  String.ofList (bytes.flatMap fun byte =>
    [Nat.digitChar (byte.toNat / 16), Nat.digitChar (byte.toNat % 16)])

def newCallId (entropy : List UInt8) : String := "call_" ++ hexEncode entropy

def ToolCall.payloadValue (call : ToolCall) : JsonValue :=
  .object [("id", .string call.id), ("name", .string call.name), ("arguments", call.arguments)]

/-- A call needs a name and an object for its arguments; an id that is missing or empty is made
up. -/
def ToolCall.fromPayload (entropy : List UInt8) (value : JsonValue) : Option ToolCall :=
  value.asObject.bind fun fields =>
    (Fields.str fields "name").bind fun name =>
      let arguments := (fields.lookup "arguments").getD (.object [])
      if arguments.asObject.isNone then none
      else
        let id := (Fields.str fields "id").filter (!·.isEmpty)
        some { id := id.getD (newCallId entropy), name, arguments }

/-! ## Messages -/

inductive ChatRole
  | system
  | user
  | assistant
  | tool
deriving DecidableEq

namespace ChatRole

def asStr : ChatRole → String
  | system => "system"
  | user => "user"
  | assistant => "assistant"
  | tool => "tool"

def fromValue (value : String) : Option ChatRole :=
  if value = "system" then some system
  else if value = "user" then some user
  else if value = "assistant" then some assistant
  else if value = "tool" then some tool
  else none

@[simp] theorem fromValue_asStr (role : ChatRole) : fromValue role.asStr = some role := by
  cases role <;> decide

theorem fromValue_eq_some_iff {value : String} {role : ChatRole} :
    fromValue value = some role ↔ value = role.asStr := by
  constructor
  · intro h
    unfold fromValue at h
    split_ifs at h <;>
    · cases h
      assumption
  · rintro rfl
    exact fromValue_asStr role

end ChatRole

inductive AttachmentKind
  | image
  | document
deriving DecidableEq

structure ChatAttachment where
  kind : AttachmentKind
  data : List UInt8
  mimeType : String
  name : Option String
deriving DecidableEq

/-- The block a document is inlined as. -/
def ChatAttachment.inlineBlock (codecs : Codecs) (attachment : ChatAttachment) : Option String :=
  if attachment.kind ≠ .document then none
  else
    let opening :=
      match attachment.name with
      | some name => "<attached-file name=\"" ++ name ++ "\">"
      | none => "<attached-file>"
    some (opening ++ "\n" ++ codecs.utf8Lossy attachment.data ++ "\n</attached-file>")

structure ChatMessage where
  role : ChatRole
  content : String
  toolCalls : List ToolCall := []
  toolCallId : Option String := none
  toolName : Option String := none
  attachments : List ChatAttachment := []
  attachmentRefs : List String := []

/-- The payload form: documents in front of the content, images beside it. -/
def ChatMessage.payloadValue (codecs : Codecs) (message : ChatMessage) : JsonValue :=
  let parts := message.attachments.filterMap (·.inlineBlock codecs) ++ [message.content]
  let body := "\n\n".intercalate (parts.filter (!·.isEmpty))
  let images := (message.attachments.filter (·.kind == .image)).map fun attachment =>
    JsonValue.string (codecs.base64Encode attachment.data)
  .object
    ([("role", .string message.role.asStr), ("content", .string body)] ++
      (if message.toolCalls.isEmpty then []
        else [("tool_calls", .array (message.toolCalls.map ToolCall.payloadValue))]) ++
      (message.toolCallId.map fun id => ("tool_call_id", JsonValue.string id)).toList ++
      (message.toolName.map fun name => ("tool_name", JsonValue.string name)).toList ++
      if images.isEmpty then [] else [("images", .array images)])

/-- `ChatWireError`, with its message. -/
structure ChatWireError where
  message : String
deriving DecidableEq

/-- The entropy for the calls of a message, by their places. -/
abbrev CallEntropy := ℕ → List UInt8

def parseToolCalls (entropy : CallEntropy) : Option JsonValue → List ToolCall
  | some (.array calls) =>
    calls.zipIdx.filterMap fun entry => ToolCall.fromPayload (entropy entry.2) entry.1
  | _ => []

def ChatMessage.parseStrict (entropy : CallEntropy) (value : JsonValue) (index : ℕ) :
    Except ChatWireError ChatMessage :=
  match value with
  | .object fields =>
    match (Fields.str fields "role").bind ChatRole.fromValue with
    | none => .error ⟨"message at index " ++ toString index ++ " has a missing or unknown role"⟩
    | some role =>
      let content : Except ChatWireError String :=
        match fields.lookup "content" with
        | none | some .null => .ok ""
        | some (.string text) => .ok text
        | some _ => .error ⟨"message at index " ++ toString index ++ " has non-string content"⟩
      content.map fun content =>
        { role, content
          toolCalls := parseToolCalls entropy (fields.lookup "tool_calls")
          toolCallId := Fields.str fields "tool_call_id"
          toolName := Fields.str fields "tool_name" }
  | _ => .error ⟨"message at index " ++ toString index ++ " is not an object"⟩

def noMessagesHint : String := "chat payload must carry a messages array or a prompt"

/-- `parse_all`; `entropy` is by message and call. -/
def ChatMessage.parseAll (entropy : ℕ → CallEntropy) (payload : JsonValue) :
    Except ChatWireError (List ChatMessage) :=
  match payload with
  | .object fields =>
    match fields.lookup "messages" with
    | some (.array messages) =>
      collect (messages.zipIdx.map fun entry =>
        ChatMessage.parseStrict (entropy entry.2) entry.1 entry.2)
    | _ =>
      match fields.lookup "prompt" with
      | some (.string prompt) => .ok [{ role := .user, content := prompt }]
      | _ => .error ⟨noMessagesHint⟩
  | _ => .error ⟨noMessagesHint⟩

/-! ## Tool specs -/

def toolShapeHint : String := "each tool must be \x7btype: \"function\", function: \x7bname\x7d\x7d"
def toolsArrayHint : String := "tools must be an array of function tools"

def decodeToolSpec (fields : Fields) : Except ChatWireError ToolSpec :=
  let kind := (Fields.str fields "type").getD "function"
  match (fields.lookup "function").bind JsonValue.asObject with
  | none => .error ⟨toolShapeHint⟩
  | some function =>
    match (Fields.str function "name").filter (!·.isEmpty) with
    | none => .error ⟨toolShapeHint⟩
    | some name =>
      if kind ≠ "function" then .error ⟨toolShapeHint⟩
      else
        let parameters := ((function.lookup "parameters").bind JsonValue.asObject).getD []
        .ok { name, description := (Fields.str function "description").getD ""
              parameters := .object parameters }

/-- The objects of an array, if they all are. -/
def objectArray (value : Option JsonValue) : Option (List Fields) :=
  (value.bind JsonValue.asArray).bind fun items =>
    if items.all (·.asObject.isSome) then some (items.filterMap JsonValue.asObject) else none

/-- `decode_tool_specs`: a request without tools has none. -/
def decodeToolSpecs (value : Option JsonValue) : Except ChatWireError (List ToolSpec) :=
  if value.isNone then .ok []
  else
    match objectArray value with
    | none => .error ⟨toolsArrayHint⟩
    | some entries => collect (entries.map decodeToolSpec)

/-! ## There and back -/

/-- A call that the payload form carries: it has an id, and an object for its arguments. -/
def ToolCall.Kept (call : ToolCall) : Prop :=
  call.id ≠ "" ∧ call.arguments.asObject.isSome = true

theorem newCallId_ne_empty (entropy : List UInt8) : newCallId entropy ≠ "" := by
  intro h
  have htext := congrArg String.toList h
  simp [newCallId] at htext

theorem ToolCall.fromPayload_payloadValue_iff (entropy : List UInt8) (call : ToolCall) :
    fromPayload entropy call.payloadValue = some call ↔ call.Kept := by
  obtain ⟨id, name, arguments⟩ := call
  have hread : fromPayload entropy (payloadValue ⟨id, name, arguments⟩) =
      if arguments.asObject.isNone then none
      else some ⟨((some id).filter (!·.isEmpty)).getD (newCallId entropy), name, arguments⟩ := rfl
  rw [hread]
  unfold Kept
  cases arguments.asObject with
  | none => simp
  | some fields =>
    by_cases hid : id = ""
    · simp [hid, Option.filter_some, newCallId_ne_empty]
    · simp [hid, Option.filter_some]

/-- The calls come back as they went exactly when each of them is carried. -/
theorem parseToolCalls_map_iff (entropy : CallEntropy) (calls : List ToolCall) :
    parseToolCalls entropy (some (.array (calls.map ToolCall.payloadValue))) = calls ↔
      ∀ call ∈ calls, call.Kept := by
  have hmap : calls = calls.zipIdx.map Prod.fst := by simp
  have hparse : parseToolCalls entropy (some (.array (calls.map ToolCall.payloadValue))) =
      calls.zipIdx.filterMap fun entry =>
        ToolCall.fromPayload (entropy entry.2) entry.1.payloadValue := by
    rw [parseToolCalls, List.zipIdx_map, List.filterMap_map]
    rfl
  rw [hparse]
  conv_lhs => rhs; rw [hmap]
  rw [filterMap_eq_map_iff]
  constructor
  · intro h call hcall
    rw [hmap] at hcall
    obtain ⟨entry, hentry, rfl⟩ := List.mem_map.1 hcall
    exact (ToolCall.fromPayload_payloadValue_iff _ _).1 (h entry hentry)
  · intro h entry hentry
    have hcall : entry.1 ∈ calls := by
      rw [hmap]
      exact List.mem_map_of_mem hentry
    exact (ToolCall.fromPayload_payloadValue_iff _ _).2 (h entry.1 hcall)

namespace ChatMessage

/-- A turn without what is attached to it. -/
def turn (message : ChatMessage) : ChatMessage :=
  { message with attachments := [], attachmentRefs := [] }

def NoDocuments (message : ChatMessage) : Prop :=
  ∀ attachment ∈ message.attachments, attachment.kind ≠ .document

variable {message : ChatMessage}
variable (codecs : Codecs)

theorem body_of_noDocuments (h : message.NoDocuments) :
    "\n\n".intercalate (((message.attachments.filterMap (·.inlineBlock codecs)) ++
      [message.content]).filter (!·.isEmpty)) = message.content := by
  have hblocks : message.attachments.filterMap (·.inlineBlock codecs) = [] :=
    List.filterMap_eq_nil_iff.2 fun attachment hattachment =>
      if_pos (h attachment hattachment)
  rw [hblocks, List.nil_append]
  cases hempty : message.content.isEmpty with
  | true =>
    rw [String.isEmpty_iff.1 hempty]
    decide
  | false => simp [hempty]

/-- What the strict parser makes of a payload: the turn, with the calls it reads. -/
theorem parseStrict_payloadValue (entropy : CallEntropy) (h : message.NoDocuments) (index : ℕ) :
    parseStrict entropy (message.payloadValue codecs) index =
      .ok { message.turn with
        toolCalls := parseToolCalls entropy
          (some (.array (message.toolCalls.map ToolCall.payloadValue))) } := by
  have hbody := body_of_noDocuments codecs h
  obtain ⟨role, content, toolCalls, toolCallId, toolName, attachments, refs⟩ := message
  simp only at hbody
  unfold payloadValue
  simp only [hbody]
  -- what the object holds for a key depends on which of the optional fields it has
  cases (attachments.filter (·.kind == .image)).map fun attachment =>
      JsonValue.string (codecs.base64Encode attachment.data) <;>
    cases toolCalls <;> cases toolCallId <;> cases toolName <;> cases role <;> rfl

theorem turn_eq_iff {calls : List ToolCall} :
    { message.turn with toolCalls := calls } = message.turn ↔ calls = message.toolCalls := by
  constructor
  · exact fun h => congrArg toolCalls h
  · rintro rfl
    rfl

/-- The conversation of a payload is read back as it was exactly when every call is carried. -/
theorem parseAll_iff (entropy : ℕ → CallEntropy) {messages : List ChatMessage}
    (h : ∀ message ∈ messages, message.NoDocuments) {fields : Fields}
    (hfields : fields.lookup "messages" =
      some (.array (messages.map (payloadValue codecs)))) :
    ∃ parsed, parseAll entropy (.object fields) = .ok parsed ∧
      (parsed = messages.map turn ↔
        ∀ message ∈ messages, ∀ call ∈ message.toolCalls, call.Kept) := by
  have hparse : parseAll entropy (.object fields) = .ok (messages.zipIdx.map fun entry =>
      { entry.1.turn with
        toolCalls := parseToolCalls (entropy entry.2)
          (some (.array (entry.1.toolCalls.map ToolCall.payloadValue))) }) := by
    unfold parseAll
    simp only [hfields]
    rw [collect_eq_ok_iff, List.zipIdx_map, List.map_map, List.map_map]
    refine List.map_congr_left fun entry hentry => ?_
    exact parseStrict_payloadValue codecs (entropy entry.2)
      (h entry.1 (List.fst_mem_of_mem_zipIdx hentry)) entry.2
  refine ⟨_, hparse, ?_⟩
  have hmap : messages.map turn = messages.zipIdx.map fun entry => entry.1.turn := by
    conv_lhs => rw [← List.zipIdx_map_fst 0 messages, List.map_map]
    rfl
  rw [hmap, List.map_inj_left]
  constructor
  · intro hsame message hmessage
    obtain ⟨index, hindex⟩ := List.mem_iff_getElem?.1 hmessage
    have hentry : (message, index) ∈ messages.zipIdx :=
      List.mk_mem_zipIdx_iff_getElem?.2 hindex
    exact (parseToolCalls_map_iff _ _).1 (turn_eq_iff.1 (hsame _ hentry))
  · intro hkept entry hentry
    exact turn_eq_iff.2 ((parseToolCalls_map_iff _ _).2
      (hkept entry.1 (List.fst_mem_of_mem_zipIdx hentry)))

end ChatMessage

end Hedos.Kernel
