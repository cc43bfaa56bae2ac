import Hedos.Gateway.Decoders

/-!
# A decoded conversation on its way to the kernel

The payload of a decoded request is read back by `ChatMessage::parse_all`. The turns come back as
they were decoded, tool calls included, exactly when no call of the request has an empty id and, on
the messages surface, none an input that is no object (`conversation_whole_iff`).

* a decoder attaches images only, and no sampling parameter is called `messages`;
* `decodeToolCall` makes a call that is carried out of an entry exactly when the entry has no empty
  id; the messages surface takes any input (`decodeToolUse_kept_iff`).
-/

namespace Hedos.Gateway

open Hedos.Kernel Results

/-! ## What is lost -/

/-- The messages of a body that are objects. -/
def rawMessages (body : Fields) : List Fields :=
  (((body.lookup "messages").bind JsonValue.asArray).getD []).filterMap JsonValue.asObject

/-- The entries of a message that its surface decodes into tool calls. -/
def GatewaySurface.callEntries (surface : GatewaySurface) (raw : Fields) : List Fields :=
  match surface with
  | .openAI =>
    if Fields.str raw "role" = some "tool" then []
    else (objectArray (raw.lookup "tool_calls")).getD []
  | .ollama =>
    if Fields.str raw "role" = some "assistant" then
      (objectArray (raw.lookup "tool_calls")).getD []
    else []
  | .anthropic =>
    let blocks := (((raw.lookup "content").bind JsonValue.asArray).getD []).filterMap
      JsonValue.asObject
    blocks.filter fun block => Anthropic.hasType "tool_use" block &&
      (Fields.str block "id").isSome && (Fields.str block "name").isSome

/-- The entry has no empty id, and its input is an object or missing where any is taken. -/
def GatewaySurface.EntryKept (surface : GatewaySurface) (entry : Fields) : Prop :=
  Fields.str entry "id" ≠ some "" ∧
    (surface = .anthropic → ∀ input, entry.lookup "input" = some input →
      input.asObject.isSome = true)

/-- Every tool call of the request is one the payload carries. -/
def GatewaySurface.CallsKept (surface : GatewaySurface) (body : Fields) : Prop :=
  ∀ raw ∈ rawMessages body, ∀ entry ∈ surface.callEntries raw, surface.EntryKept entry

/-- The payload is read back as the turns it was made of. -/
def GatewaySurface.ReachesWhole (surface : GatewaySurface) (codecs : Codecs)
    (fresh : ℕ → CallEntropy) (request : ChatRequest) : Prop :=
  ChatMessage.parseAll fresh (surface.payload codecs request) =
    .ok (request.messages.map ChatMessage.turn)

/-! ## Tool calls -/

section

variable {arguments : Option JsonValue → Except GatewayError JsonValue}
  (harguments : ∀ raw value, arguments raw = .ok value → value.asObject.isSome = true)

include harguments

theorem decodeToolCall_kept_iff {entropy : List UInt8} {entry : Fields} {call : ToolCall}
    (h : decodeToolCall arguments entropy entry = .ok call) :
    call.Kept ↔ Fields.str entry "id" ≠ some "" := by
  unfold decodeToolCall at h
  simp only at h
  split at h
  · cases h
  · rename_i function name hfunction
    cases hvalue : arguments (function.lookup "arguments") with
    | error e =>
      rw [hvalue] at h
      cases h
    | ok value =>
      rw [hvalue] at h
      cases h
      refine (and_iff_left (harguments _ _ hvalue)).trans ?_
      cases hid : Fields.str entry "id" with
      | none => simpa using newCallId_ne_empty entropy
      | some id => simp

theorem decodeToolCallsWith_kept_iff {entropy : CallEntropy} {raw : Option JsonValue}
    {calls : List ToolCall} (h : decodeToolCallsWith arguments entropy raw = .ok calls) :
    (∀ call ∈ calls, call.Kept) ↔
      ∀ entry ∈ (objectArray raw).getD [], Fields.str entry "id" ≠ some "" := by
  unfold decodeToolCallsWith at h
  split at h
  · rename_i hnone
    obtain rfl := Option.isNone_iff_eq_none.1 hnone
    cases h
    simp [objectArray]
  · split at h
    · cases h
    · rename_i entries hentries
      rw [hentries, Option.getD_some]
      have hcalls : List.Forall₂ (fun entry call =>
          decodeToolCall arguments (entropy entry.2) entry.1 = .ok call) entries.zipIdx calls :=
        forall₂_of_collect h
      have hentry : ∀ (entry : Fields × ℕ) (call : ToolCall),
          decodeToolCall arguments (entropy entry.2) entry.1 = .ok call →
            (call.Kept ↔ Fields.str entry.1 "id" ≠ some "") :=
        fun _ _ hcall => decodeToolCall_kept_iff harguments hcall
      have hentries : (∀ entry ∈ entries.zipIdx, Fields.str entry.1 "id" ≠ some "") ↔
          ∀ entry ∈ entries, Fields.str entry "id" ≠ some "" :=
        @forall_mem_zipIdx_fst _ entries (Fields.str · "id" ≠ some "")
      exact (forall_iff_of_forall₂ hentry hcalls).trans hentries

end

theorem GatewaySurface.entryKept_iff {surface : GatewaySurface} (h : surface ≠ .anthropic)
    {entry : Fields} : surface.EntryKept entry ↔ Fields.str entry "id" ≠ some "" :=
  and_iff_left fun hsurface => absurd hsurface h

theorem openAI_ne_anthropic : GatewaySurface.openAI ≠ .anthropic := by decide

theorem ollama_ne_anthropic : GatewaySurface.ollama ≠ .anthropic := by decide

theorem OpenAI.decodeToolArguments_object (codecs : Codecs) (raw : Option JsonValue)
    (value : JsonValue) (h : OpenAI.decodeToolArguments codecs raw = .ok value) :
    value.asObject.isSome = true := by
  unfold OpenAI.decodeToolArguments at h
  split at h
  · split at h
    · cases h
      rfl
    · cases h
  · cases h
    rfl
  · cases h
    rfl

theorem Ollama.decodeToolArguments_object (raw : Option JsonValue) (value : JsonValue)
    (h : Ollama.decodeToolArguments raw = .ok value) : value.asObject.isSome = true := by
  unfold Ollama.decodeToolArguments at h
  split at h <;>
  · cases h
    rfl

/-- A block with an id and a name is a call, carried when it has an id that is not empty and no
input but an object. -/
theorem Anthropic.decodeToolUse_kept_iff {block : Fields} {call : ToolCall}
    (h : Anthropic.decodeToolUse block = some call) :
    call.Kept ↔ GatewaySurface.anthropic.EntryKept block := by
  unfold Anthropic.decodeToolUse at h
  obtain ⟨id, hid, h⟩ := Option.bind_eq_some_iff.1 h
  obtain ⟨name, -, rfl⟩ := Option.map_eq_some_iff.1 h
  unfold ToolCall.Kept GatewaySurface.EntryKept
  rw [hid]
  refine and_congr (by simp) ?_
  cases block.lookup "input" with
  | none => simp [JsonValue.asObject]
  | some input => simp

/-! ## Messages -/

/-- A message whose attachments are images, and whose calls are carried when the entries are. -/
def GatewaySurface.Faithful (surface : GatewaySurface) (raw : Fields) (message : ChatMessage) :
    Prop :=
  message.NoDocuments ∧
    ((∀ call ∈ message.toolCalls, call.Kept) ↔
      ∀ entry ∈ surface.callEntries raw, surface.EntryKept entry)

namespace OpenAI

theorem decodeImageDataUri_kind {codecs : Codecs} {url : String} {image : ChatAttachment}
    (h : decodeImageDataUri codecs url = .ok image) : image.kind = .image := by
  unfold decodeImageDataUri at h
  split at h
  · split at h
    · cases h
    · simp only at h
      split at h
      · cases h
      · split at h
        · cases h
        · cases h
          rfl
  · cases h

theorem decodeParts_images {codecs : Codecs} {parts : List Fields}
    {content : String × List ChatAttachment} (h : decodeParts codecs parts = .ok content) :
    ∀ attachment ∈ content.2, attachment.kind = .image := by
  induction parts generalizing content with
  | nil =>
    cases h
    simp
  | cons part parts ih =>
    unfold decodeParts at h
    split at h
    · split at h
      · cases h
      · obtain ⟨rest, hrest, rfl⟩ := map_eq_ok h
        exact fun attachment hattachment => ih hrest attachment hattachment
    · split at h
      · cases h
      · obtain ⟨image, himage, h⟩ := bind_eq_ok h
        obtain ⟨rest, hrest, rfl⟩ := map_eq_ok h
        exact List.forall_mem_cons.2 ⟨decodeImageDataUri_kind himage, ih hrest⟩
    · cases h

theorem decodeRole_eq_tool_iff {raw : Option String} :
    decodeRole (raw.getD "") = some .tool ↔ raw = some "tool" := by
  constructor
  · intro h
    cases raw with
    | none => exact absurd h (by decide)
    | some role =>
      unfold decodeRole ChatRole.fromValue at h
      simp only [Option.getD_some] at h
      grind
  · rintro rfl
    decide

theorem decodeMessage_faithful {codecs : Codecs} {entropy : CallEntropy} {raw : Fields}
    {message : ChatMessage} (h : decodeMessage codecs entropy raw = .ok message) :
    GatewaySurface.openAI.Faithful raw message := by
  unfold decodeMessage at h
  simp only at h
  split at h
  · cases h
  · rename_i hrole
    have hentries : GatewaySurface.openAI.callEntries raw = [] :=
      if_pos (decodeRole_eq_tool_iff.1 hrole)
    split at h
    · cases h
    · cases h
      rw [GatewaySurface.Faithful, hentries]
      simp [ChatMessage.NoDocuments]
  · rename_i role hother hrole
    have hentries : GatewaySurface.openAI.callEntries raw =
        (objectArray (raw.lookup "tool_calls")).getD [] :=
      if_neg fun htool => hother <| Option.some.inj <|
        hrole.symm.trans (decodeRole_eq_tool_iff.2 htool)
    obtain ⟨toolCalls, hcalls, h⟩ := bind_eq_ok h
    have hkept := decodeToolCallsWith_kept_iff (decodeToolArguments_object codecs) hcalls
    have hfaithful : ∀ {content : String} {attachments : List ChatAttachment},
        (∀ attachment ∈ attachments, attachment.kind = .image) →
          GatewaySurface.openAI.Faithful raw { role, content, toolCalls, attachments } := by
      intro content attachments himages
      refine ⟨fun attachment hattachment => by simp [himages attachment hattachment], ?_⟩
      rw [hentries]
      simpa only [GatewaySurface.entryKept_iff openAI_ne_anthropic] using hkept
    split at h
    · cases h
      exact hfaithful (by simp)
    · split at h
      · obtain ⟨content, hcontent, rfl⟩ := map_eq_ok h
        exact hfaithful (decodeParts_images hcontent)
      · split at h
        · rename_i hassistant
          cases h
          rw [← hassistant.1]
          exact hfaithful (by simp)
        · cases h

end OpenAI

namespace Ollama

theorem decodeImage_kind {codecs : Codecs} {image : JsonValue} {attachment : ChatAttachment}
    (h : decodeImage codecs image = .ok attachment) : attachment.kind = .image := by
  unfold decodeImage at h
  split at h
  · cases h
    rfl
  · cases h

theorem fromValue_getD_iff {raw : Option String} {role : ChatRole} :
    ChatRole.fromValue (raw.getD "") = some role ↔ raw = some role.asStr := by
  rw [ChatRole.fromValue_eq_some_iff]
  cases raw with
  | none => cases role <;> decide
  | some value => simp

theorem decodeMessage_faithful {codecs : Codecs} {entropy : CallEntropy} {raw : Fields}
    {message : ChatMessage} (h : decodeMessage codecs entropy raw = .ok message) :
    GatewaySurface.ollama.Faithful raw message := by
  unfold decodeMessage at h
  simp only at h
  split at h
  · cases h
  · rename_i role hrole
    obtain ⟨attachments, hattachments, h⟩ := bind_eq_ok h
    obtain ⟨toolCalls, hcalls, h⟩ := bind_eq_ok h
    have himages : ∀ attachment ∈ attachments, attachment.kind ≠ .document := by
      intro attachment hattachment
      obtain ⟨image, -, himage⟩ := exists_of_mem_collect hattachments hattachment
      simp [decodeImage_kind himage]
    have hkept := decodeToolCallsWith_kept_iff decodeToolArguments_object hcalls
    have hentries : GatewaySurface.ollama.callEntries raw =
        if role = .assistant then (objectArray (raw.lookup "tool_calls")).getD [] else [] := by
      rw [fromValue_getD_iff] at hrole
      cases role <;> simp [GatewaySurface.callEntries, hrole, ChatRole.asStr]
    have hiff : ∀ {calls : List ToolCall}, (if role = .assistant then calls = toolCalls
        else calls = []) → ((∀ call ∈ calls, call.Kept) ↔
          ∀ entry ∈ GatewaySurface.ollama.callEntries raw,
            GatewaySurface.ollama.EntryKept entry) := by
      intro calls hsame
      rw [hentries]
      simp only [GatewaySurface.entryKept_iff ollama_ne_anthropic]
      split_ifs at hsame ⊢
      · exact hsame ▸ hkept
      · simp [hsame]
    split_ifs at h with htool hassistant
    · cases h
      exact ⟨by simp [ChatMessage.NoDocuments], hiff (by simp [htool])⟩
    · cases h
      exact ⟨by simp [ChatMessage.NoDocuments], hiff (by simp [hassistant.1])⟩
    · split at h
      · cases h
        refine ⟨himages, hiff ?_⟩
        -- an assistant that is here has made no call
        split_ifs with hrole
        · have hnone : toolCalls.isEmpty = true := by simpa [hrole] using hassistant
          exact (List.isEmpty_iff.1 hnone).symm
        · rfl
      · cases h

end Ollama

namespace Anthropic

theorem decodeToolUse_isSome (block : Fields) :
    (decodeToolUse block).isSome =
      ((Fields.str block "id").isSome && (Fields.str block "name").isSome) := by
  unfold decodeToolUse
  cases Fields.str block "id" <;> cases Fields.str block "name" <;> rfl

theorem decodeTurn_calls (role : ChatRole) (blocks : List Fields) (P : ToolCall → Prop) :
    (∀ message ∈ decodeTurn role blocks, ∀ call ∈ message.toolCalls, P call) ↔
      ∀ call ∈ (blocks.filter (hasType "tool_use")).filterMap decodeToolUse, P call := by
  unfold decodeTurn
  simp only
  split_ifs with hturn hdropped
  · simp
  · have hnone := (not_or.1 hturn).2
    simp only [Bool.not_eq_true, Bool.not_eq_false', List.isEmpty_iff] at hnone
    rw [hnone]
    simp
  · have hnone := (not_or.1 hturn).2
    simp only [Bool.not_eq_true, Bool.not_eq_false', List.isEmpty_iff] at hnone
    rw [hnone]
    simp

theorem toolCalls_kept_iff (blocks : List Fields) :
    (∀ call ∈ (blocks.filter (hasType "tool_use")).filterMap decodeToolUse, call.Kept) ↔
      ∀ block ∈ blocks.filter (fun block => hasType "tool_use" block &&
          (Fields.str block "id").isSome && (Fields.str block "name").isSome),
        GatewaySurface.anthropic.EntryKept block := by
  constructor
  · intro h block hblock
    rw [List.mem_filter, Bool.and_assoc, Bool.and_eq_true, ← decodeToolUse_isSome] at hblock
    obtain ⟨hmem, htype, hsome⟩ := hblock
    obtain ⟨call, hcall⟩ := Option.isSome_iff_exists.1 hsome
    refine (decodeToolUse_kept_iff hcall).1 (h call ?_)
    exact List.mem_filterMap.2 ⟨block, List.mem_filter.2 ⟨hmem, htype⟩, hcall⟩
  · intro h call hcall
    obtain ⟨block, hblock, hcall⟩ := List.mem_filterMap.1 hcall
    obtain ⟨hmem, htype⟩ := List.mem_filter.1 hblock
    refine (decodeToolUse_kept_iff hcall).2 (h block ?_)
    rw [List.mem_filter, Bool.and_assoc, Bool.and_eq_true, ← decodeToolUse_isSome, hcall]
    exact ⟨hmem, htype, rfl⟩

theorem decodeTurn_noDocuments (role : ChatRole) (blocks : List Fields) :
    ∀ message ∈ decodeTurn role blocks, message.NoDocuments := by
  unfold decodeTurn
  simp only
  split_ifs <;> simp [ChatMessage.NoDocuments]

theorem toolTurn_bare (results : List (String × String)) :
    ∀ message ∈ results.map toolTurn, message.toolCalls = [] ∧ message.attachments = [] := by
  intro message hmessage
  obtain ⟨result, -, rfl⟩ := List.mem_map.1 hmessage
  exact ⟨rfl, rfl⟩

/-- What the turns of a message have to be: `Faithful`, of all of them together. -/
theorem decodeMessage_faithful {value : JsonValue} {messages : List ChatMessage}
    (h : decodeMessage value = .ok messages) :
    (∀ message ∈ messages, message.NoDocuments) ∧
      ((∀ message ∈ messages, ∀ call ∈ message.toolCalls, call.Kept) ↔
        ∀ raw ∈ value.asObject, ∀ block ∈ GatewaySurface.anthropic.callEntries raw,
          GatewaySurface.anthropic.EntryKept block) := by
  unfold decodeMessage at h
  split at h
  · cases h
  · rename_i fields hfields
    rw [hfields]
    split at h
    · cases h
    · rename_i role hrole
      split at h
      · rename_i text hcontent
        cases h
        simp [ChatMessage.NoDocuments, GatewaySurface.callEntries, hcontent, JsonValue.asArray]
      · rename_i content hcontent
        cases h
        set blocks := content.filterMap JsonValue.asObject
        have hentries : GatewaySurface.anthropic.callEntries fields =
            blocks.filter (fun block => hasType "tool_use" block &&
              (Fields.str block "id").isSome && (Fields.str block "name").isSome) := by
          simp [GatewaySurface.callEntries, hcontent, JsonValue.asArray, blocks]
        have hresults := toolTurn_bare ((blocks.filter (hasType "tool_result")).map
          decodeToolResult)
        constructor
        · exact List.forall_mem_append.2 ⟨decodeTurn_noDocuments role blocks,
            fun message hmessage => by simp [ChatMessage.NoDocuments, hresults message hmessage]⟩
        · have hnone : ∀ message ∈ ((blocks.filter (hasType "tool_result")).map
              decodeToolResult).map toolTurn, ∀ call ∈ message.toolCalls, call.Kept :=
            fun message hmessage => by simp [hresults message hmessage]
          refine (List.forall_mem_append.trans (and_iff_left hnone)).trans ?_
          rw [decodeTurn_calls, toolCalls_kept_iff, ← hentries]
          simp
      · cases h

end Anthropic

/-! ## The payload -/

variable {key : String} {request : ChatRequest} {body sampling : Fields} {codecs : Codecs}
  {entropy : ℕ → CallEntropy}

theorem lookup_filter_ne {other : String} (h : key ≠ other) (fields : Fields) :
    (fields.filter (·.1 ≠ other)).lookup key = fields.lookup key := by
  induction fields with
  | nil => rfl
  | cons entry fields ih =>
    obtain ⟨name, value⟩ := entry
    by_cases hname : name = other
    · have hkey : (key == name) = false := by
        rw [beq_eq_false_iff_ne, hname]
        exact h
      rw [List.filter_cons_of_neg (by simpa using hname), ih, List.lookup_cons, hkey]
    · rw [List.filter_cons_of_pos (by simpa using hname), List.lookup_cons, List.lookup_cons, ih]

theorem lookup_foldl_insertField {entries : Fields}
    (h : ∀ entry ∈ entries, entry.1 ≠ key) (fields : Fields) :
    (entries.foldl insertField fields).lookup key = fields.lookup key := by
  induction entries generalizing fields with
  | nil => rfl
  | cons entry entries ih =>
    obtain ⟨hentry, hentries⟩ := List.forall_mem_cons.1 h
    have hname : (key == entry.1) = false := beq_eq_false_iff_ne.2 hentry.symm
    rw [List.foldl_cons, ih hentries, insertField, List.lookup_cons, hname]
    exact lookup_filter_ne hentry.symm fields

/-- No sampling parameter takes the place of the messages. -/
def ChatRequest.KeepsMessages (request : ChatRequest) : Prop :=
  ∀ entry ∈ request.sampling, entry.1 ≠ "messages"

theorem payloadOf_messages (codecs : Codecs)
    (h : request.KeepsMessages) (toolChoice : Option JsonValue) :
    ∃ fields, payloadOf codecs request toolChoice = .object fields ∧
      fields.lookup "messages" =
        some (.array (request.messages.map (ChatMessage.payloadValue codecs))) :=
  ⟨_, rfl, lookup_foldl_insertField h _⟩

/-- The payload of a surface is read back whole exactly when every call is carried. -/
theorem GatewaySurface.reachesWhole_iff (surface : GatewaySurface) (codecs : Codecs)
    (fresh : ℕ → CallEntropy) (hsampling : request.KeepsMessages)
    (hdocuments : ∀ message ∈ request.messages, message.NoDocuments) :
    surface.ReachesWhole codecs fresh request ↔
      ∀ message ∈ request.messages, ∀ call ∈ message.toolCalls, call.Kept := by
  have hpayload : ∃ fields, surface.payload codecs request = .object fields ∧
      fields.lookup "messages" =
        some (.array (request.messages.map (ChatMessage.payloadValue codecs))) := by
    cases surface <;> exact payloadOf_messages codecs hsampling _
  obtain ⟨fields, hfields, hmessages⟩ := hpayload
  obtain ⟨parsed, hparsed, hsame⟩ :=
    ChatMessage.parseAll_iff codecs fresh hdocuments hmessages
  rw [ReachesWhole, hfields, hparsed, Except.ok.injEq]
  exact hsame

theorem given_keepsMessages (h : key ≠ "messages") (value : Option JsonValue) :
    ∀ entry ∈ given key value, entry.1 ≠ "messages" := by
  cases value with
  | none => simp [given]
  | some value => simpa [given] using h

theorem OpenAI.decodeSampling_keys (h : OpenAI.decodeSampling body = .ok sampling) :
    ∀ entry ∈ sampling, entry.1 ≠ "messages" := by
  unfold OpenAI.decodeSampling at h
  obtain ⟨temperature, -, h⟩ := bind_eq_ok h
  obtain ⟨topP, -, h⟩ := bind_eq_ok h
  obtain ⟨maxTokens, -, h⟩ := bind_eq_ok h
  obtain ⟨stop, -, h⟩ := bind_eq_ok h
  obtain ⟨seed, -, h⟩ := bind_eq_ok h
  obtain ⟨n, -, h⟩ := bind_eq_ok h
  split at h
  · cases h
  · obtain ⟨frequencyPenalty, -, h⟩ := bind_eq_ok h
    obtain ⟨presencePenalty, -, h⟩ := bind_eq_ok h
    cases h
    simp only [List.forall_mem_append]
    repeat' apply And.intro
    all_goals exact given_keepsMessages (by decide) _

theorem Ollama.decodeOption_keys {entry : String × JsonValue} {fields : Fields}
    (h : Ollama.decodeOption entry = .ok fields) :
    ∀ entry ∈ fields, entry.1 ≠ "messages" := by
  unfold Ollama.decodeOption at h
  split at h
  · obtain ⟨stop, -, rfl⟩ := map_eq_ok h
    exact given_keepsMessages (by decide) _
  · split at h
    · cases h
    · rename_i payload hpayload
      obtain ⟨number, -, rfl⟩ := map_eq_ok h
      have hname : payload ≠ "messages" := by
        rintro rfl
        unfold Ollama.optionPayload at hpayload
        split_ifs at hpayload with hkey
        · rw [Option.some.inj hpayload] at hkey
          exact absurd hkey (by decide)
        · exact absurd hpayload (by decide)
        · exact absurd hpayload (by decide)
      simpa using hname

theorem Ollama.decodeOptions_keys (h : Ollama.decodeOptions body = .ok sampling) :
    ∀ entry ∈ sampling, entry.1 ≠ "messages" := by
  unfold Ollama.decodeOptions at h
  obtain ⟨options, hoptions, h⟩ := bind_eq_ok h
  obtain ⟨format, -, h⟩ := bind_eq_ok h
  cases h
  have hflat : ∀ entry ∈ options.flatten, entry.1 ≠ "messages" := by
    intro entry hentry
    obtain ⟨fields, hfields, hentry⟩ := List.mem_flatten.1 hentry
    obtain ⟨option, -, hoption⟩ := exists_of_mem_collect hoptions hfields
    exact decodeOption_keys hoption entry hentry
  simp only [List.forall_mem_append]
  exact ⟨⟨hflat, given_keepsMessages (by decide) _⟩, given_keepsMessages (by decide) _⟩

theorem Anthropic.decodeSampling_keys (h : Anthropic.decodeSampling body = .ok sampling) :
    ∀ entry ∈ sampling, entry.1 ≠ "messages" := by
  unfold Anthropic.decodeSampling at h
  obtain ⟨stop, -, h⟩ := bind_eq_ok h
  cases h
  simp only [List.flatMap_cons, List.flatMap_nil, List.append_nil, List.forall_mem_append]
  repeat' apply And.intro
  all_goals exact given_keepsMessages (by decide) _

/-! ## A whole request -/

theorem decodeMessageObjects_eq {raw : List Fields}
    (h : decodeMessageObjects body = .ok raw) : rawMessages body = raw := by
  unfold decodeMessageObjects at h
  split at h
  · rename_i messages hmessages
    cases h
    obtain ⟨hobjects, -⟩ := Option.filter_eq_some_iff.1 hmessages
    obtain ⟨items, hitems, hall⟩ := Option.bind_eq_some_iff.1 hobjects
    split_ifs at hall
    rw [rawMessages, hitems]
    exact Option.some.inj hall
  · cases h

/-- The messages of the surfaces that decode each entry into one turn. -/
theorem messages_kept_iff {surface : GatewaySurface} {raw : List Fields}
    {decode : CallEntropy → Fields → Except GatewayError ChatMessage} {entropy : ℕ → CallEntropy}
    {messages : List ChatMessage}
    (hdecode : ∀ {entropy : CallEntropy} {entry : Fields} {message : ChatMessage},
      decode entropy entry = .ok message → surface.Faithful entry message)
    (h : collect (raw.zipIdx.map fun entry => decode (entropy entry.2) entry.1) = .ok messages) :
    (∀ message ∈ messages, message.NoDocuments) ∧
      ((∀ message ∈ messages, ∀ call ∈ message.toolCalls, call.Kept) ↔
        ∀ entry ∈ raw, ∀ call ∈ surface.callEntries entry, surface.EntryKept call) := by
  constructor
  · intro message hmessage
    obtain ⟨entry, -, hentry⟩ := exists_of_mem_collect h hmessage
    exact (hdecode hentry).1
  · have hall : List.Forall₂ (fun entry message =>
        decode (entropy entry.2) entry.1 = .ok message) raw.zipIdx messages :=
      forall₂_of_collect h
    have hentry : ∀ (entry : Fields × ℕ) (message : ChatMessage),
        decode (entropy entry.2) entry.1 = .ok message →
          ((∀ call ∈ message.toolCalls, call.Kept) ↔
            ∀ call ∈ surface.callEntries entry.1, surface.EntryKept call) :=
      fun _ _ hmessage => (hdecode hmessage).2
    exact (forall_iff_of_forall₂ hentry hall).trans
      (@forall_mem_zipIdx_fst _ raw fun entry =>
        ∀ call ∈ surface.callEntries entry, surface.EntryKept call)

/-- What each surface's decoder makes of a body. -/
def GatewaySurface.Decoded (surface : GatewaySurface) (body : Fields) (request : ChatRequest) :
    Prop :=
  request.KeepsMessages ∧ (∀ message ∈ request.messages, message.NoDocuments) ∧
    ((∀ message ∈ request.messages, ∀ call ∈ message.toolCalls, call.Kept) ↔ surface.CallsKept body)

theorem OpenAI.decodeChatRequest_decoded
    (h : OpenAI.decodeChatRequest codecs entropy body = .ok request) :
    GatewaySurface.openAI.Decoded body request := by
  unfold OpenAI.decodeChatRequest at h
  simp only at h
  have hraw : rawMessages (withoutEmptyBias body) = rawMessages body := by
    unfold rawMessages withoutEmptyBias
    split
    · rw [lookup_filter_ne (by decide)]
    · rfl
  obtain ⟨model, -, h⟩ := bind_eq_ok h
  obtain ⟨raw, hobjects, h⟩ := bind_eq_ok h
  obtain ⟨-, -, h⟩ := bind_eq_ok h
  obtain ⟨messages, hmessages, h⟩ := bind_eq_ok h
  obtain ⟨sampling, hsampling, h⟩ := bind_eq_ok h
  obtain ⟨responseFormat, -, h⟩ := bind_eq_ok h
  obtain ⟨tools, -, h⟩ := bind_eq_ok h
  obtain ⟨toolChoice, -, h⟩ := bind_eq_ok h
  cases h
  refine ⟨List.forall_mem_append.2 ⟨decodeSampling_keys hsampling,
    given_keepsMessages (by decide) _⟩, ?_⟩
  rw [GatewaySurface.CallsKept, ← hraw, decodeMessageObjects_eq hobjects]
  exact @messages_kept_iff .openAI raw (decodeMessage codecs) entropy messages
    decodeMessage_faithful hmessages

theorem Ollama.decodeChatRequest_decoded
    (h : Ollama.decodeChatRequest codecs entropy body = .ok request) :
    GatewaySurface.ollama.Decoded body request := by
  unfold Ollama.decodeChatRequest at h
  obtain ⟨model, -, h⟩ := bind_eq_ok h
  obtain ⟨raw, hobjects, h⟩ := bind_eq_ok h
  obtain ⟨-, -, h⟩ := bind_eq_ok h
  obtain ⟨messages, hmessages, h⟩ := bind_eq_ok h
  obtain ⟨sampling, hsampling, h⟩ := bind_eq_ok h
  obtain ⟨tools, -, h⟩ := bind_eq_ok h
  cases h
  refine ⟨decodeOptions_keys hsampling, ?_⟩
  rw [GatewaySurface.CallsKept, decodeMessageObjects_eq hobjects]
  exact @messages_kept_iff .ollama raw (decodeMessage codecs) entropy messages
    decodeMessage_faithful hmessages

theorem Anthropic.decodeMessagesRequest_decoded
    (h : Anthropic.decodeMessagesRequest body = .ok request) :
    GatewaySurface.anthropic.Decoded body request := by
  unfold Anthropic.decodeMessagesRequest at h
  obtain ⟨model, -, h⟩ := bind_eq_ok h
  obtain ⟨raw, hraw, h⟩ := bind_eq_ok h
  obtain ⟨decoded, hdecoded, h⟩ := bind_eq_ok h
  obtain ⟨sampling, hsampling, h⟩ := bind_eq_ok h
  cases h
  have hitems : ((body.lookup "messages").bind JsonValue.asArray).getD [] = raw := by
    unfold decodeMessageValues at hraw
    split at hraw
    · rename_i items hitems
      cases hraw
      rw [(Option.filter_eq_some_iff.1 hitems).1, Option.getD_some]
    · cases hraw
  set system := ((systemText (body.lookup "system")).map fun text =>
    ({ role := .system, content := text } : ChatMessage)).toList
  have hsystem : ∀ message ∈ system, message.toolCalls = [] ∧ message.attachments = [] := by
    intro message hmessage
    obtain ⟨text, -, rfl⟩ := Option.map_eq_some_iff.1 (Option.mem_toList.1 hmessage)
    exact ⟨rfl, rfl⟩
  have hall : List.Forall₂ (fun value messages => decodeMessage value = .ok messages) raw decoded :=
    forall₂_of_collect hdecoded
  refine ⟨decodeSampling_keys hsampling, List.forall_mem_append.2 ⟨?_, ?_⟩, ?_⟩
  · intro message hmessage
    simp [ChatMessage.NoDocuments, hsystem message hmessage]
  · intro message hmessage
    obtain ⟨messages, hmessages, hmessage⟩ := List.mem_flatten.1 hmessage
    obtain ⟨value, -, hvalue⟩ := exists_of_mem_collect hdecoded hmessages
    exact (decodeMessage_faithful hvalue).1 message hmessage
  · have hnone : ∀ message ∈ system, ∀ call ∈ message.toolCalls, call.Kept :=
      fun message hmessage => by simp [hsystem message hmessage]
    have hvalue : ∀ (value : JsonValue) (messages : List ChatMessage),
        decodeMessage value = .ok messages →
          ((∀ message ∈ messages, ∀ call ∈ message.toolCalls, call.Kept) ↔
            ∀ raw ∈ value.asObject, ∀ block ∈ GatewaySurface.anthropic.callEntries raw,
              GatewaySurface.anthropic.EntryKept block) :=
      fun _ _ hvalue => (decodeMessage_faithful hvalue).2
    have hturns := forall_iff_of_forall₂ hvalue hall
    refine (List.forall_mem_append.trans (and_iff_right hnone)).trans ?_
    rw [List.forall_mem_flatten, hturns, GatewaySurface.CallsKept, rawMessages, hitems,
      List.forall_mem_filterMap]
    simp

theorem GatewaySurface.decode_decoded {surface : GatewaySurface}
    (h : surface.decode codecs entropy body = .ok request) : surface.Decoded body request := by
  cases surface with
  | openAI => exact OpenAI.decodeChatRequest_decoded h
  | ollama => exact Ollama.decodeChatRequest_decoded h
  | anthropic => exact Anthropic.decodeMessagesRequest_decoded h

/-- An accepted conversation reaches the kernel whole exactly when its calls are all ones that the
payload carries. -/
theorem conversation_whole_iff {surface : GatewaySurface} {codecs : Codecs}
    {entropy : ℕ → CallEntropy} {body : Fields} {request : ChatRequest}
    (h : surface.decode codecs entropy body = .ok request) (fresh : ℕ → CallEntropy) :
    surface.ReachesWhole codecs fresh request ↔ surface.CallsKept body := by
  obtain ⟨hsampling, hdocuments, hkept⟩ := surface.decode_decoded h
  exact (surface.reachesWhole_iff codecs fresh hsampling hdocuments).trans hkept

/-! ## Requests -/

/-- Conversions for texts without bytes. -/
def noCodecs : Codecs where
  utf8Lossy := fun _ => ""
  base64Encode := fun _ => ""
  base64Decode := fun _ => none
  fromText := fun _ => none

/-- A request with one assistant message. -/
def assistantRequest (key : String) (entry : Fields) : Fields :=
  [("messages", .array [.object [(key, .array [.object entry]), ("role", .string "assistant")]]),
    ("model", .string "m")]

/-- A `tool_use` block with the given input. -/
def toolUseRequest (input : JsonValue) : Fields :=
  assistantRequest "content"
    [("id", .string "toolu_1"), ("input", input), ("name", .string "find"),
      ("type", .string "tool_use")]

/-- A call with the given id. -/
def toolCallRequest (id : String) : Fields :=
  assistantRequest "tool_calls"
    [("function", .object [("arguments", .object []), ("name", .string "find")]),
      ("id", .string id)]

/-- The ids of the calls, by turn. -/
def callIds {ε : Type} (messages : Except ε (List ChatMessage)) : Option (List (List String)) :=
  messages.toOption.map fun messages => messages.map fun message => message.toolCalls.map (·.id)

theorem tool_use_reaches_whole : ∃ request,
    GatewaySurface.anthropic.decode noCodecs (fun _ _ => []) (toolUseRequest (.object [])) =
      .ok request ∧
    GatewaySurface.anthropic.ReachesWhole noCodecs (fun _ _ => []) request := by
  refine ⟨_, rfl, (@conversation_whole_iff .anthropic noCodecs (fun _ _ => [])
    (toolUseRequest (.object [])) _ rfl _).2 ?_⟩
  have hraw : rawMessages (toolUseRequest (.object [])) =
      [[("content", .array [.object [("id", .string "toolu_1"), ("input", .object []),
        ("name", .string "find"), ("type", .string "tool_use")]]),
        ("role", .string "assistant")]] := rfl
  have hentries : GatewaySurface.anthropic.callEntries
      [("content", .array [.object [("id", .string "toolu_1"), ("input", .object []),
        ("name", .string "find"), ("type", .string "tool_use")]]),
        ("role", .string "assistant")] =
      [[("id", .string "toolu_1"), ("input", .object []), ("name", .string "find"),
        ("type", .string "tool_use")]] := rfl
  rw [GatewaySurface.CallsKept, hraw, List.forall_mem_singleton, hentries,
    List.forall_mem_singleton]
  refine ⟨by decide, fun _ input hinput => ?_⟩
  obtain rfl : JsonValue.object [] = input := Option.some.inj hinput
  rfl

/-- A block whose input is a string is dropped, and a call with an empty id gets another one. -/
theorem call_lost_or_renamed :
    (∃ request, GatewaySurface.anthropic.decode noCodecs (fun _ _ => [])
        (toolUseRequest (.string "here")) = .ok request ∧
      ¬ GatewaySurface.anthropic.ReachesWhole noCodecs (fun _ _ => []) request) ∧
    ∃ request, GatewaySurface.openAI.decode noCodecs (fun _ _ => []) (toolCallRequest "") =
        .ok request ∧
      ¬ GatewaySurface.openAI.ReachesWhole noCodecs (fun _ _ => []) request := by
  refine ⟨⟨_, rfl, fun h => ?_⟩, ⟨_, rfl, fun h => ?_⟩⟩
  · exact absurd (congrArg callIds h) (by decide +kernel)
  · exact absurd (congrArg callIds h) (by decide +kernel)

end Hedos.Gateway
