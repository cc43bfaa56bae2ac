import Hedos.Gateway.Conversation

/-!
# The order of the blocks of a user turn

A user turn of a `/v1/messages` request may have texts and results of tools in any order. The
decoder collects the texts in one message and puts the results behind it, each as a message of its
own. What the model reads is in the order of the wire just when no text follows a result
(`blocks_keep_order_iff`). A client that answers a call and adds a text gets the text put between
the call and its result.
-/

namespace Hedos.Gateway

open Hedos.Kernel Results

/-! ## Lists of two sorts -/

section Sorts

variable {α : Type*} {p : α → Bool}

/-- A list is its elements of one sort, then the others, just when none of the sort is behind one of
the others. -/
theorem eq_filter_append_iff {as : List α} :
    as = as.filter p ++ as.filter (fun a => !p a) ↔ as.Pairwise fun a b => p b → p a := by
  constructor
  · intro h
    rw [h, List.pairwise_append]
    refine ⟨?_, ?_, ?_⟩
    · refine List.pairwise_of_forall_mem_list fun a ha b _ _ => ?_
      exact (List.mem_filter.1 ha).2
    · refine List.pairwise_of_forall_mem_list fun a _ b hb hp => ?_
      simpa [hp] using (List.mem_filter.1 hb).2
    · intro a ha b _ _
      exact (List.mem_filter.1 ha).2
  · intro h
    induction h with
    | nil => rfl
    | @cons a as hall _ ih =>
      by_cases ha : p a = true
      · rw [List.filter_cons_of_pos ha, List.filter_cons_of_neg (by simp [ha]), List.cons_append,
          ← ih]
      · have hnone : as.filter p = [] :=
          List.filter_eq_nil_iff.2 fun b hb hp => ha (hall b hb hp)
        rw [hnone, List.nil_append] at ih
        rw [List.filter_cons_of_neg ha, List.filter_cons_of_pos (by simpa using ha), hnone,
          List.nil_append, ← ih]

end Sorts

/-! ## What the model reads -/

/-- A piece of a turn: a character of a text, or the result of a tool with the id of its call. -/
inductive Said
  | char (c : Char)
  | result (result : String × String)
deriving DecidableEq

def Said.isChar : Said → Bool
  | .char _ => true
  | .result _ => false

namespace Anthropic

/-- What a block says: a text its characters, a result itself. -/
def saidBy (block : Fields) : List Said :=
  if hasType "text" block then ((Fields.str block "text").getD "").toList.map .char
  else if hasType "tool_result" block then [.result (decodeToolResult block)]
  else []

/-- What blocks say, in the order of the wire. -/
def onWire (blocks : List Fields) : List Said := blocks.flatMap saidBy

/-- What a message of the conversation says. -/
def saidIn (message : ChatMessage) : List Said :=
  match message.toolCallId with
  | some id => [.result (id, message.content)]
  | none => message.content.toList.map .char

/-- The turns of a message made of blocks. -/
def turnsOf (role : ChatRole) (blocks : List Fields) : List ChatMessage :=
  decodeTurn role blocks ++
    ((blocks.filter (hasType "tool_result")).map decodeToolResult).map toolTurn

/-- No text is behind a result. -/
def TextFirst (blocks : List Fields) : Prop :=
  blocks.Pairwise fun block later =>
    hasType "tool_result" block → hasType "text" later → (Fields.str later "text").getD "" = ""

instance (blocks : List Fields) : Decidable (TextFirst blocks) :=
  inferInstanceAs (Decidable (blocks.Pairwise _))

/-- A turn of texts and results, and maybe of blocks that are passed over. -/
def Mixed (blocks : List Fields) : Prop :=
  (∃ block ∈ blocks, hasType "tool_result" block = true) ∧
    ∀ block ∈ blocks, hasType "tool_use" block = false

/-- The blocks of a turn of the user, if its content is made of blocks. -/
def userBlocks (value : JsonValue) : Option (List Fields) :=
  value.asObject.bind fun fields =>
    if (Fields.str fields "role").bind ChatRole.fromValue = some .user then
      match fields.lookup "content" with
      | some (.array content) => some (content.filterMap JsonValue.asObject)
      | _ => none
    else none

/-- The messages of a conversation are those of the wire, behind its system prompt: each mixed turn
says what it did on the wire, in the order it did, and a result that followed its call directly
still does. -/
structure KeepsOrder (raw : List JsonValue) (messages : List ChatMessage) : Prop where
  turns : ∃ system turns, messages = system ++ turns.flatten ∧
    (∀ message ∈ system, message.role = .system) ∧ collect (raw.map decodeMessage) = .ok turns
  said : ∀ value ∈ raw, ∀ blocks, userBlocks value = some blocks → Mixed blocks →
    ∃ turn, decodeMessage value = .ok turn ∧ turn.flatMap saidIn = onWire blocks
  answers : ∀ front asking answering behind, raw = front ++ asking :: answering :: behind →
    ∀ calls call, decodeMessage asking = .ok (calls ++ [call]) → call.toolCalls ≠ [] →
      ∀ block rest, userBlocks answering = some (block :: rest) → Mixed (block :: rest) →
        hasType "tool_result" block = true →
        ∃ before after, messages = before ++ call :: toolTurn (decodeToolResult block) :: after

/-! ## One turn -/

variable {block : Fields} {role : ChatRole} {blocks : List Fields}

theorem hasType_ne {name other : String} (h : hasType name block = true)
    (hne : name ≠ other) : hasType other block = false := by
  rw [hasType, beq_iff_eq] at h
  rw [hasType, h]
  simpa using hne

theorem saidBy_result (h : hasType "tool_result" block = true) :
    saidBy block = [.result (decodeToolResult block)] := by
  rw [saidBy, hasType_ne h (by decide), if_neg (by simp), if_pos h]

theorem saidBy_chars (h : hasType "tool_result" block = false) :
    ∀ said ∈ saidBy block, said.isChar = true := by
  intro said hsaid
  rw [saidBy] at hsaid
  split at hsaid
  · obtain ⟨c, -, rfl⟩ := List.mem_map.1 hsaid
    rfl
  · rw [h] at hsaid
    cases hsaid

theorem filter_onWire_chars (blocks : List Fields) :
    (onWire blocks).filter Said.isChar =
      (String.join ((blocks.filter (hasType "text")).filterMap (Fields.str · "text"))).toList.map
        Said.char := by
  rw [String.toList_join]
  induction blocks with
  | nil => rfl
  | cons block blocks ih =>
    rw [onWire, List.flatMap_cons, List.filter_append, ← onWire, ih]
    by_cases htext : hasType "text" block = true
    · have hchars (text : List Char) : (text.map Said.char).filter Said.isChar =
          text.map Said.char := by
        simp [Said.isChar]
      rw [saidBy, if_pos htext, List.filter_cons_of_pos htext, hchars, List.filterMap_cons]
      cases Fields.str block "text" with
      | none => rfl
      | some text =>
        rw [List.flatMap_cons, List.map_append]
        rfl
    · rw [List.filter_cons_of_neg htext, saidBy, if_neg htext]
      split
      · rfl
      · rfl

theorem filter_onWire_results (blocks : List Fields) :
    (onWire blocks).filter (fun said => !said.isChar) =
      ((blocks.filter (hasType "tool_result")).map decodeToolResult).map Said.result := by
  induction blocks with
  | nil => rfl
  | cons block blocks ih =>
    rw [onWire, List.flatMap_cons, List.filter_append, ← onWire, ih]
    cases hresult : hasType "tool_result" block with
    | true =>
      rw [saidBy_result hresult, List.filter_cons_of_pos hresult]
      rfl
    | false =>
      have hnone : (saidBy block).filter (fun said => !said.isChar) = [] :=
        List.filter_eq_nil_iff.2 fun said hsaid => by simp [saidBy_chars hresult said hsaid]
      rw [List.filter_cons_of_neg (by simp [hresult]), hnone, List.nil_append]

/-- With a result in it, a turn has no placeholder: its text comes first, then its results. -/
theorem said_turnsOf (hresult : ∃ block ∈ blocks, hasType "tool_result" block = true) :
    (turnsOf role blocks).flatMap saidIn =
      (onWire blocks).filter Said.isChar ++ (onWire blocks).filter (fun said => !said.isChar) := by
  rw [turnsOf, List.flatMap_append]
  congr 1
  · rw [filter_onWire_chars]
    unfold decodeTurn
    dsimp only
    split_ifs with htext hdropped
    · rw [List.flatMap_singleton]
      rfl
    · obtain ⟨block, hblock, htype⟩ := hresult
      have hmem := List.mem_filter.2 ⟨hblock, htype⟩
      rw [List.isEmpty_iff.1 hdropped.1] at hmem
      cases hmem
    · have hempty := (not_or.1 htext).1
      rw [Bool.not_eq_true, Bool.not_eq_false', String.isEmpty_iff] at hempty
      rw [hempty]
      rfl
  · rw [filter_onWire_results, List.flatMap_map]
    exact List.flatMap_pure_eq_map _ _

theorem textFirst_iff :
    TextFirst blocks ↔ (onWire blocks).Pairwise fun said later => later.isChar → said.isChar := by
  have hwithin : ∀ block ∈ blocks,
      (saidBy block).Pairwise fun said later => later.isChar → said.isChar := by
    intro block _
    cases hresult : hasType "tool_result" block with
    | true =>
      rw [saidBy_result hresult]
      exact List.pairwise_singleton _ _
    | false =>
      exact List.pairwise_of_forall_mem_list fun said hsaid _ _ _ =>
        saidBy_chars hresult said hsaid
  rw [onWire, List.pairwise_flatMap, and_iff_right hwithin, TextFirst]
  refine List.Pairwise.iff fun block later => ?_
  cases hresult : hasType "tool_result" block with
  | false =>
    simp only [Bool.false_eq_true, false_imp_iff, true_iff]
    exact fun said hsaid _ _ _ => saidBy_chars hresult said hsaid
  | true =>
    simp only [saidBy_result hresult, forall_const, List.forall_mem_singleton]
    constructor
    · intro h said hsaid hchar
      rw [saidBy] at hsaid
      split at hsaid
      · rename_i htext
        rw [h htext] at hsaid
        cases hsaid
      · split at hsaid
        · rw [List.mem_singleton.1 hsaid] at hchar
          exact hchar
        · cases hsaid
    · intro h htext
      rw [saidBy, if_pos htext] at h
      rw [← String.toList_eq_nil_iff, List.eq_nil_iff_forall_not_mem]
      intro c hc
      exact Bool.false_ne_true (h (.char c) (List.mem_map_of_mem hc) rfl)

theorem said_turnsOf_iff (hmixed : Mixed blocks) :
    (turnsOf role blocks).flatMap saidIn = onWire blocks ↔ TextFirst blocks := by
  rw [said_turnsOf hmixed.1, textFirst_iff, ← eq_filter_append_iff, eq_comm]

/-- A result that the turn begins with comes first. -/
theorem turnsOf_result {rest : List Fields} (hmixed : Mixed (block :: rest))
    (hfirst : TextFirst (block :: rest)) (hresult : hasType "tool_result" block = true) :
    ∃ others, turnsOf role (block :: rest) = toolTurn (decodeToolResult block) :: others := by
  have hcalls : (block :: rest).filter (hasType "tool_use") = [] :=
    List.filter_eq_nil_iff.2 fun other hother => by simp [hmixed.2 other hother]
  have htext : String.join (((block :: rest).filter (hasType "text")).filterMap
      (Fields.str · "text")) = "" := by
    have hsaid := (textFirst_iff.1 hfirst)
    rw [onWire, List.flatMap_cons, saidBy_result hresult, List.singleton_append,
      List.pairwise_cons] at hsaid
    have hnone : (onWire (block :: rest)).filter Said.isChar = [] := by
      rw [onWire, List.flatMap_cons, saidBy_result hresult, List.singleton_append]
      refine List.filter_eq_nil_iff.2 fun said hmem hchar => ?_
      rcases List.mem_cons.1 hmem with rfl | hmem
      · cases hchar
      · exact Bool.false_ne_true (hsaid.1 said hmem hchar)
    rw [filter_onWire_chars, List.map_eq_nil_iff, String.toList_eq_nil_iff] at hnone
    exact hnone
  have hturn : decodeTurn role (block :: rest) = [] := by
    unfold decodeTurn
    dsimp only
    rw [hcalls, htext, List.filter_cons_of_pos hresult]
    rfl
  rw [turnsOf, hturn, List.filter_cons_of_pos hresult, List.nil_append, List.map_cons,
    List.map_cons]
  exact ⟨_, rfl⟩

/-! ## A request -/

theorem decodeMessage_user {value : JsonValue}
    (h : userBlocks value = some blocks) : decodeMessage value = .ok (turnsOf .user blocks) := by
  unfold userBlocks at h
  obtain ⟨fields, hfields, hrest⟩ := Option.bind_eq_some_iff.1 h
  split_ifs at hrest with hrole
  unfold decodeMessage
  rw [hfields]
  dsimp only
  rw [hrole]
  dsimp only
  split at hrest
  · rename_i content hcontent
    rw [hcontent, ← Option.some.inj hrest]
    rfl
  · cases hrest

theorem decodeMessagesRequest_messages {body : Fields} {request : ChatRequest}
    (h : decodeMessagesRequest body = .ok request) :
    ∃ raw system turns, decodeMessageValues body = .ok raw ∧
      collect (raw.map decodeMessage) = .ok turns ∧
      (∀ message ∈ system, message.role = .system) ∧
      request.messages = system ++ turns.flatten := by
  unfold decodeMessagesRequest at h
  obtain ⟨model, -, h⟩ := bind_eq_ok h
  obtain ⟨raw, hraw, h⟩ := bind_eq_ok h
  obtain ⟨turns, hturns, h⟩ := bind_eq_ok h
  obtain ⟨sampling, -, h⟩ := bind_eq_ok h
  cases h
  refine ⟨raw, _, turns, hraw, hturns, fun message hmessage => ?_, rfl⟩
  rw [Option.mem_toList, Option.map_eq_some_iff] at hmessage
  obtain ⟨text, -, rfl⟩ := hmessage
  rfl

theorem textFirst_of_said {value : JsonValue} {turn : List ChatMessage}
    (hblocks : userBlocks value = some blocks) (hmixed : Mixed blocks)
    (hturn : decodeMessage value = .ok turn) (hsaid : turn.flatMap saidIn = onWire blocks) :
    TextFirst blocks := by
  rw [decodeMessage_user hblocks] at hturn
  cases hturn
  exact (said_turnsOf_iff hmixed).1 hsaid

/-- The turns of two messages that follow each other do so too. -/
theorem exists_turns {raw front behind : List JsonValue} {turns : List (List ChatMessage)}
    {asking answering : JsonValue} (hturns : collect (raw.map decodeMessage) = .ok turns)
    (hraw : raw = front ++ asking :: answering :: behind) {asked answered : List ChatMessage}
    (hasked : decodeMessage asking = .ok asked)
    (hanswered : decodeMessage answering = .ok answered) :
    ∃ before after, turns.flatten = before ++ asked ++ (answered ++ after) := by
  rw [collect_eq_ok_iff, hraw, List.map_append, List.map_cons, List.map_cons, eq_comm,
    List.map_eq_append_iff] at hturns
  obtain ⟨before, rest, rfl, -, hrest⟩ := hturns
  obtain ⟨turn, rest, rfl, hturn, hrest⟩ := List.map_eq_cons_iff.1 hrest
  obtain ⟨next, after, rfl, hnext, -⟩ := List.map_eq_cons_iff.1 hrest
  obtain rfl := Except.ok.inj (hturn.trans hasked)
  obtain rfl := Except.ok.inj (hnext.trans hanswered)
  refine ⟨before.flatten, after.flatten, ?_⟩
  simp only [List.flatten_append, List.flatten_cons, List.append_assoc]

end Anthropic

open Anthropic

/-- A request keeps the order of its blocks just when no mixed turn has a text behind a result. -/
theorem blocks_keep_order_iff {body : Fields} {request : ChatRequest} {raw : List JsonValue}
    (hdecodes : decodeMessagesRequest body = .ok request)
    (hraw : decodeMessageValues body = .ok raw) :
    KeepsOrder raw request.messages ↔
      ∀ value ∈ raw, ∀ blocks, userBlocks value = some blocks → Mixed blocks →
        TextFirst blocks := by
  obtain ⟨raw', system, turns, hraw', hturns, hsystem, hmessages⟩ :=
    decodeMessagesRequest_messages hdecodes
  obtain rfl := Except.ok.inj (hraw.symm.trans hraw')
  constructor
  · intro h value hvalue blocks hblocks hmixed
    obtain ⟨turn, hturn, hsaid⟩ := h.said value hvalue blocks hblocks hmixed
    exact textFirst_of_said hblocks hmixed hturn hsaid
  · intro h
    refine ⟨⟨system, turns, hmessages, hsystem, hturns⟩, ?_, ?_⟩
    · intro value hvalue blocks hblocks hmixed
      exact ⟨_, decodeMessage_user hblocks,
        (said_turnsOf_iff hmixed).2 (h value hvalue blocks hblocks hmixed)⟩
    · intro front asking answering behind hsplit calls call hcalls _ block rest hblocks hmixed
        hresult
      have hfirst := h answering (by rw [hsplit]; simp) _ hblocks hmixed
      obtain ⟨others, hothers⟩ := turnsOf_result hmixed hfirst hresult
      obtain ⟨before, after, hflat⟩ :=
        exists_turns hturns hsplit hcalls ((decodeMessage_user hblocks).trans (by rw [hothers]))
      refine ⟨system ++ before ++ calls, others ++ after, ?_⟩
      rw [hmessages, hflat]
      simp only [List.append_assoc, List.cons_append, List.nil_append]

def bodyOf (raw : List JsonValue) : Fields :=
  [("messages", .array raw), ("model", .string "qwen3")]

def resultBlock : Fields :=
  [("content", .string "none"), ("tool_use_id", .string "toolu_1"), ("type", .string "tool_result")]

def textBlock : Fields := [("text", .string "go on"), ("type", .string "text")]

def userTurn (blocks : List Fields) : JsonValue :=
  .object [("content", .array (blocks.map .object)), ("role", .string "user")]

/-- A text and a result behind it stay so. -/
theorem text_stays_before_result : ∃ request,
    decodeMessagesRequest (bodyOf [userTurn [textBlock, resultBlock]]) = .ok request ∧
    KeepsOrder [userTurn [textBlock, resultBlock]] request.messages := by
  refine ⟨_, rfl, (@blocks_keep_order_iff (bodyOf [userTurn [textBlock, resultBlock]]) _ _ rfl
    rfl).2 fun value hvalue blocks hblocks _ => ?_⟩
  rw [List.mem_singleton.1 hvalue] at hblocks
  cases hblocks
  decide

/-- A call, then its result and a text of the user behind it. -/
def textBehindResult : List JsonValue :=
  [.object [("content", .array [.object [("id", .string "toolu_1"), ("input", .object []),
      ("name", .string "find"), ("type", .string "tool_use")]]), ("role", .string "assistant")],
    userTurn [resultBlock, textBlock]]

/-- The text is put between the call and its result. -/
theorem text_comes_before_result : ∃ request,
    decodeMessagesRequest (bodyOf textBehindResult) = .ok request ∧
    request.messages.map (·.role) = [.assistant, .user, .tool] ∧
    ¬ KeepsOrder textBehindResult request.messages := by
  refine ⟨_, rfl, rfl, fun h => ?_⟩
  have hmixed : Mixed [resultBlock, textBlock] := ⟨⟨_, .head _, by decide⟩, by decide⟩
  obtain ⟨turn, hturn, hsaid⟩ := h.said _ (.tail _ (.head _)) _ rfl hmixed
  have hfirst := textFirst_of_said rfl hmixed hturn hsaid
  revert hfirst
  decide

end Hedos.Gateway
