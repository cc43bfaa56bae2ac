import Hedos.Auction.Profiles
import Hedos.Gateway.Conversation
import Hedos.Upstream.LineStream

/-!
# Merging a saved configuration into a request

`merged` (`kernel/src/profiles/configuration.rs`) with `ParamSpec::normalized`
(`kernel/src/records/param_form.rs`): saved values fill what a request leaves open, and a chat gets
a system prompt and an appended block.

* nothing the request set is lost, and its turns stay in order (`merged_kept`);
* when the block is in the conversation (`merged_keeps_iff`).
-/

namespace Hedos.Profiles

open Hedos.Kernel Hedos.Discovery Hedos.Auction
open Hedos.Gateway (insertField lookup_filter_ne)
open Hedos.Gateway.ParamDecoding (toDouble saturate)

/-! ## Parameter values -/

/-- `f64::round`: halves go away from zero. -/
def roundAway (value : ℚ) : ℤ := if 0 ≤ value then ⌊value + 1 / 2⌋ else -⌊-value + 1 / 2⌋

/-- A value read as an integer; a double out of range saturates. -/
def intScalar : JsonValue → Option ℤ
  | .int raw => some raw
  | .double raw => some (saturate (roundAway raw))
  | _ => none

/-- A value read as a double. -/
def doubleScalar : JsonValue → Option ℚ
  | .int raw => some (toDouble raw)
  | .double raw => some raw
  | _ => none

section Normalized

variable (spec : ParamSpec JsonValue)

/-- The two bounds of the range, in order. -/
def scalarRange {ρ : Type} [LE ρ] [DecidableLE ρ] (scalar : JsonValue → Option ρ) :
    Option (ρ × ρ) :=
  match spec.range with
  | some [lower, upper] => do
    let lower ← scalar lower
    let upper ← scalar upper
    if lower ≤ upper then some (lower, upper) else none
  | _ => none

def intRange : Option (ℤ × ℤ) := scalarRange spec intScalar

def doubleRange : Option (ℚ × ℚ) := scalarRange spec doubleScalar

/-- The value as the parameter takes it, numbers moved into its range. -/
def normalized (value : JsonValue) : Option JsonValue :=
  match spec.paramType with
  | .int => (intScalar value).map fun raw =>
    match intRange spec with
    | some (lower, upper) => .int (min (max raw lower) upper)
    | none => .int raw
  | .float => (doubleScalar value).map fun raw =>
    match doubleRange spec with
    | some (lower, upper) => .double (min (max raw lower) upper)
    | none => .double raw
  | .enum =>
    match value with
    | .string raw => if spec.values.any (·.contains raw) then some (.string raw) else none
    | _ => none
  | .bool =>
    match value with
    | .bool raw => some (.bool raw)
    | _ => none
  | .string =>
    match value with
    | .string raw => some (.string raw)
    | _ => none

end Normalized

/-! ## Merging -/

/-- What a record says about how its model is to be asked. -/
structure Configuration where
  params : List (ParamSpec JsonValue) := []
  paramValues : Fields := []
  systemPrompt : Option String := none

/-- The saved values that still have a parameter, each as it takes it. -/
def normalizedParamValues (record : Configuration) : Fields :=
  record.paramValues.filterMap fun (key, value) =>
    (record.params.find? (·.key = key)).bind fun spec =>
      (normalized spec value).map fun value => (key, value)

/-- A text without the blanks around it, unless there is nothing else. -/
def trimmed (prompt : Option String) : Option String :=
  prompt.bind fun prompt =>
    let cleaned := String.ofList (Upstream.trim prompt.toList)
    if cleaned.isEmpty then none else some cleaned

def isSystemTurn : JsonValue → Bool
  | .object fields => (fields.lookup "role").any fun role => role.asStr == some "system"
  | _ => false

/-- The content of a turn, when it is a string. -/
def contentString (turn : JsonValue) : Option String :=
  (turn.get "content").bind JsonValue.asStr

/-- The block behind the text a system turn has. -/
def appendBlock (block : String) (turn : JsonValue) : JsonValue :=
  match turn with
  | .object fields =>
    match contentString turn with
    | some existing =>
      let joined := "\n\n".intercalate ([existing, block].filter (!·.isEmpty))
      .object (insertField fields ("content", .string joined))
    | none => turn
  | _ => turn

def systemTurn (content : String) : JsonValue :=
  .object [("content", .string content), ("role", .string "system")]

def seeded (prompt block : Option String) (turns : List JsonValue) : List JsonValue :=
  match turns.findIdx? isSystemTurn with
  | some index =>
    match block with
    | some block => turns.modify index (appendBlock block)
    | none => turns
  | none =>
    let content := "\n\n".intercalate [prompt, block].reduceOption
    if content.isEmpty then turns else systemTurn content :: turns

/-- `entry(key).or_insert(value)`. -/
def orInsert (fields : Fields) (entry : String × JsonValue) : Fields :=
  if (fields.lookup entry.1).isSome then fields else fields ++ [entry]

def chat : String := "chat"

/-- Put the prompt and the block into the messages, when these are a list. -/
def seedMessages (prompt block : Option String) (fields : Fields) : Fields :=
  if prompt.isSome || block.isSome then
    match fields.lookup "messages" with
    | some (.array turns) => insertField fields ("messages", .array (seeded prompt block turns))
    | _ => fields
  else fields

/-- The system prompt of a chat: the session's, else the record's, else the fallback. -/
def promptOf (record : Configuration) (capability : String)
    (fallbackPrompt sessionPrompt : Option String) : Option String :=
  if capability = chat then
    match sessionPrompt with
    | some session => trimmed (some session)
    | none => (trimmed record.systemPrompt).or (trimmed fallbackPrompt)
  else none

def blockOf (capability : String) (appendedBlock : Option String) : Option String :=
  if capability = chat then trimmed appendedBlock else none

def merged (record : Configuration) (capability : String) (payload : JsonValue)
    (fallbackPrompt sessionPrompt appendedBlock : Option String) : JsonValue :=
  let overrides := normalizedParamValues record
  let prompt := promptOf record capability fallbackPrompt sessionPrompt
  let block := blockOf capability appendedBlock
  if overrides.isEmpty && prompt.isNone && block.isNone then payload
  else
    match payload with
    | .object fields => .object (seedMessages prompt block (overrides.foldl orInsert fields))
    | .null => .object (seedMessages prompt block (overrides.foldl orInsert []))
    | other => other

/-! ## Fields -/

theorem lookup_insertField_self (fields : Fields) (key : String) (value : JsonValue) :
    (insertField fields (key, value)).lookup key = some value := by
  rw [insertField, List.lookup_cons_self]

variable {key : String} {fields : Fields} {value turn : JsonValue} {prompt : Option String}

theorem lookup_insertField_ne {other : String} (h : key ≠ other) (fields : Fields)
    (value : JsonValue) : (insertField fields (other, value)).lookup key = fields.lookup key := by
  have hkey : (key == other) = false := beq_eq_false_iff_ne.2 h
  rw [insertField, List.lookup_cons, hkey]
  exact lookup_filter_ne h fields

/-- A field that is there stays as it is. -/
theorem lookup_orInsert (h : fields.lookup key = some value) (entry : String × JsonValue) :
    (orInsert fields entry).lookup key = some value := by
  unfold orInsert
  split
  · exact h
  · rw [List.lookup_append, h]
    rfl

theorem lookup_foldl_orInsert (h : fields.lookup key = some value) (overrides : Fields) :
    (overrides.foldl orInsert fields).lookup key = some value := by
  induction overrides generalizing fields with
  | nil => exact h
  | cons entry overrides ih => exact ih (lookup_orInsert h entry)

/-! ## Turns -/

/-- The same turn, its content perhaps with more text behind it. -/
def Extends (turn turn' : JsonValue) : Prop :=
  ∃ fields fields' content more, turn = .object fields ∧ turn' = .object fields' ∧
    (∀ key ≠ "content", fields'.lookup key = fields.lookup key) ∧
    fields.lookup "content" = some (.string content) ∧
    fields'.lookup "content" = some (.string (content ++ more))

/-- The turns are all there and in order: as they were, with one system turn in front, or with the
first system turn's content extended. -/
def KeepsTurns (turns turns' : List JsonValue) : Prop :=
  turns' = turns ∨ (∃ turn, isSystemTurn turn = true ∧ turns' = turn :: turns) ∨
    ∃ before turn turn' after, isSystemTurn turn = true ∧ Extends turn turn' ∧
      turns = before ++ turn :: after ∧ turns' = before ++ turn' :: after

/-- A text stands in one of the strings of a value. -/
inductive Says (text : String) : JsonValue → Prop
  | string {value : String} (h : text.toList <:+: value.toList) : Says text (.string value)
  | item {items : List JsonValue} {item : JsonValue} (hitem : item ∈ items) (h : Says text item) :
      Says text (.array items)
  | field {fields : Fields} {key : String} {value : JsonValue}
      (hfield : (key, value) ∈ fields) (h : Says text value) : Says text (.object fields)

theorem mem_of_lookup (h : fields.lookup key = some value) : (key, value) ∈ fields := by
  induction fields with
  | nil => cases h
  | cons entry fields ih =>
    obtain ⟨name, held⟩ := entry
    rw [List.lookup_cons] at h
    split at h
    · rename_i heq
      rw [eq_of_beq heq, ← Option.some.inj h]
      exact .head _
    · exact .tail _ (ih h)

theorem contentString_eq_some {content : String} :
    contentString turn = some content ↔
      ∃ fields, turn = .object fields ∧ fields.lookup "content" = some (.string content) := by
  constructor
  · intro h
    obtain ⟨value, hvalue, hstr⟩ := Option.bind_eq_some_iff.1 h
    obtain ⟨fields, hfields, hlookup⟩ := Option.bind_eq_some_iff.1 hvalue
    cases turn <;> cases hfields
    cases value <;> cases hstr
    exact ⟨_, rfl, hlookup⟩
  · rintro ⟨fields, rfl, hlookup⟩
    rw [contentString, JsonValue.get, JsonValue.asObject, Option.bind_some, hlookup]
    rfl

/-- The content and the block, with a blank line between them where there is content. -/
theorem joined_eq {existing block : String} (h : block ≠ "") :
    ∃ more, "\n\n".intercalate ([existing, block].filter (!·.isEmpty)) = existing ++ more ∧
      block.toList <:+: more.toList := by
  have hblock : (!block.isEmpty) = true := by simpa using h
  by_cases hexisting : existing = ""
  · subst hexisting
    refine ⟨block, ?_, List.infix_rfl⟩
    simp [hblock]
  · have hkept : (!existing.isEmpty) = true := by simpa using hexisting
    refine ⟨"\n\n" ++ block, ?_, ?_⟩
    · simp only [List.filter_cons, hblock, hkept, if_true, List.filter_nil]
      rw [← String.append_assoc]
      rfl
    · rw [String.toList_append]
      exact (List.suffix_append _ _).isInfix

theorem appendBlock_extends {content block : String} (hblock : block ≠ "")
    (h : contentString turn = some content) :
    Extends turn (appendBlock block turn) ∧ Says block (appendBlock block turn) := by
  obtain ⟨fields, rfl, hlookup⟩ := contentString_eq_some.1 h
  obtain ⟨more, hjoined, hwithin⟩ := @joined_eq content _ hblock
  have happend : appendBlock block (.object fields) =
      .object (insertField fields ("content", .string (content ++ more))) := by
    rw [appendBlock, h, ← hjoined]
  rw [happend]
  refine ⟨⟨fields, _, content, more, rfl, rfl, ?_, hlookup, lookup_insertField_self _ _ _⟩, ?_⟩
  · exact fun key hkey => lookup_insertField_ne hkey _ _
  · refine .field (mem_of_lookup (lookup_insertField_self _ _ _)) (.string ?_)
    rw [String.toList_append]
    exact hwithin.trans (List.suffix_append _ _).isInfix

theorem appendBlock_none {block : String} (h : contentString turn = none) :
    appendBlock block turn = turn := by
  unfold appendBlock
  split
  · rw [h]
  · rfl

theorem trimmed_ne_empty {cleaned : String} (h : trimmed prompt = some cleaned) : cleaned ≠ "" := by
  obtain ⟨text, _, htext⟩ := Option.bind_eq_some_iff.1 h
  dsimp only at htext
  split at htext
  · cases htext
  · rename_i hne
    cases htext
    simpa using hne

/-! ## Seeding -/

section Seeding

variable {prompt block : Option String} {turns : List JsonValue}

/-- The first system turn and what stands around it. -/
theorem split_system {index : ℕ} (h : turns.findIdx? isSystemTurn = some index) :
    ∃ before turn after, turns = before ++ turn :: after ∧ isSystemTurn turn = true ∧
      turns.find? isSystemTurn = some turn ∧
      ∀ change, turns.modify index change = before ++ change turn :: after := by
  obtain ⟨hindex, hsystem, hfirst⟩ := List.findIdx?_eq_some_iff_getElem.1 h
  have hmodify (change : JsonValue → JsonValue) : turns.modify index change =
      turns.take index ++ change turns[index] :: turns.drop (index + 1) :=
    List.modify_eq_take_cons_drop hindex
  refine ⟨turns.take index, turns[index], turns.drop (index + 1), ?_, hsystem, ?_, hmodify⟩
  · have hid := hmodify id
    rw [List.modify_id] at hid
    exact hid
  · refine List.find?_eq_some_iff_getElem.2 ⟨hsystem, index, hindex, rfl, fun j hj => ?_⟩
    simpa using hfirst j hj

theorem seeded_system {index : ℕ} (h : turns.findIdx? isSystemTurn = some index) :
    seeded prompt block turns =
      match block with
      | some block => turns.modify index (appendBlock block)
      | none => turns := by
  rw [seeded, h]

theorem seeded_keeps (hblock : ∀ text, block = some text → text ≠ "") :
    KeepsTurns turns (seeded prompt block turns) := by
  cases hindex : turns.findIdx? isSystemTurn with
  | some index =>
    rw [seeded_system hindex]
    cases block with
    | none => exact Or.inl rfl
    | some text =>
      obtain ⟨before, turn, after, hturns, hsystem, _, hmodify⟩ := split_system hindex
      dsimp only
      cases hcontent : contentString turn with
      | none => exact Or.inl (by rw [hmodify, appendBlock_none hcontent, ← hturns])
      | some content =>
        exact Or.inr (Or.inr ⟨before, turn, _, after, hsystem,
          (appendBlock_extends (hblock text rfl) hcontent).1, hturns, hmodify _⟩)
  | none =>
    rw [seeded, hindex]
    dsimp only
    split
    · exact Or.inl rfl
    · exact Or.inr (Or.inl ⟨_, rfl, rfl⟩)

/-- A system turn made up from a prompt and the block ends with the block. -/
theorem joined_ends (prompt : Option String) (text : String) :
    ∃ front, "\n\n".intercalate [prompt, some text].reduceOption = front ++ text := by
  cases prompt with
  | none => exact ⟨"", (String.empty_append).symm⟩
  | some prompt => exact ⟨prompt ++ "\n\n", rfl⟩

/-- The block is in the turns unless the first system turn's content is no string. -/
theorem seeded_says_iff {text : String} (htext : text ≠ "") :
    (∃ turn ∈ seeded prompt (some text) turns, Says text turn) ↔
      ∀ turn, turns.find? isSystemTurn = some turn →
        (contentString turn).isSome ∨ ∃ turn ∈ turns, Says text turn := by
  cases hindex : turns.findIdx? isSystemTurn with
  | some index =>
    obtain ⟨before, turn, after, hturns, _, hfind, hmodify⟩ := split_system hindex
    rw [seeded_system hindex, hfind]
    dsimp only
    rw [hmodify]
    cases hcontent : contentString turn with
    | none =>
      rw [appendBlock_none hcontent, ← hturns]
      constructor
      · exact fun hsays _ _ => Or.inr hsays
      · intro h
        have hnot : ¬ (contentString turn).isSome = true := by simp [hcontent]
        exact (h turn rfl).resolve_left hnot
    | some content =>
      refine iff_of_true ⟨_, List.mem_append_right _ (.head _),
        (appendBlock_extends htext hcontent).2⟩ ?_
      intro found hfound
      rw [← Option.some.inj hfound, hcontent]
      exact Or.inl rfl
  | none =>
    have hnone : turns.find? isSystemTurn = none := by
      rw [List.findIdx?_eq_none_iff] at hindex
      exact List.find?_eq_none.2 fun turn hturn => by simp [hindex turn hturn]
    refine iff_of_true ?_ fun turn hturn => by rw [hnone] at hturn; cases hturn
    obtain ⟨front, hjoined⟩ := joined_ends prompt text
    have hne : (front ++ text).isEmpty = false := by simp [htext]
    rw [seeded, hindex]
    dsimp only
    rw [hjoined, hne]
    refine ⟨_, .head _, .field (.head _) (.string ?_)⟩
    rw [String.toList_append]
    exact (List.suffix_append _ _).isInfix

end Seeding

/-! ## The payload -/

/-- What `messages` becomes: a list keeps its turns, and anything else stays as it is. -/
structure KeepsMessages (messages messages' : JsonValue) : Prop where
  turns : ∀ turns, messages = .array turns → ∃ turns', messages' = .array turns' ∧
    KeepsTurns turns turns'
  other : (∀ turns, messages ≠ .array turns) → messages' = messages

/-- What a merged payload keeps of the one it is made from: every key, and the turns. -/
def Kept (payload result : JsonValue) : Prop :=
  ∀ fields, payload = .object fields →
    ∃ out, result = .object out ∧
      (∀ key value, key ≠ "messages" → fields.lookup key = some value →
        out.lookup key = some value) ∧
      ∀ messages, fields.lookup "messages" = some messages →
        ∃ messages', out.lookup "messages" = some messages' ∧ KeepsMessages messages messages'

/-- The text of the block stands in the turns of the result, where the payload had any. -/
def BlockPresent (payload result : JsonValue) (appendedBlock : Option String) : Prop :=
  ∀ text, trimmed appendedBlock = some text → ∀ fields turns, payload = .object fields →
    fields.lookup "messages" = some (.array turns) →
      ∃ out turns', result = .object out ∧ out.lookup "messages" = some (.array turns') ∧
        ∃ turn ∈ turns', Says text turn

/-- The first system turn of the payload, if it has one, has a string for its content; or the
text of the block stands in a turn as it is. -/
def BlockFits (payload : JsonValue) (appendedBlock : Option String) : Prop :=
  ∀ text, trimmed appendedBlock = some text → ∀ fields turns, payload = .object fields →
    fields.lookup "messages" = some (.array turns) →
      ∀ turn, turns.find? isSystemTurn = some turn →
        (contentString turn).isSome ∨ ∃ turn ∈ turns, Says text turn

theorem KeepsMessages.refl (messages : JsonValue) : KeepsMessages messages messages :=
  ⟨fun turns hturns => ⟨turns, hturns, Or.inl rfl⟩, fun _ => rfl⟩

theorem seedMessages_other {block : Option String}
    (h : key ≠ "messages") : (seedMessages prompt block fields).lookup key = fields.lookup key := by
  unfold seedMessages
  split
  · split
    · exact lookup_insertField_ne h _ _
    · rfl
  · rfl

theorem seedMessages_messages {block : Option String}
    {messages : JsonValue} (hblock : ∀ text, block = some text → text ≠ "")
    (h : fields.lookup "messages" = some messages) :
    ∃ messages', (seedMessages prompt block fields).lookup "messages" = some messages' ∧
      KeepsMessages messages messages' := by
  have hsame : ∃ messages', fields.lookup "messages" = some messages' ∧
      KeepsMessages messages messages' := ⟨messages, h, .refl messages⟩
  unfold seedMessages
  split
  · split
    · rename_i turns hturns
      refine ⟨_, lookup_insertField_self _ _ _, fun other hother => ⟨_, rfl, ?_⟩, fun hlist => ?_⟩
      · rw [h, hother] at hturns
        cases hturns
        exact seeded_keeps hblock
      · exact absurd (Option.some.inj (h.symm.trans hturns)) (hlist turns)
    · exact hsame
  · exact hsame

section Merged

variable (record : Configuration) (payload : JsonValue)
  (fallbackPrompt sessionPrompt appendedBlock : Option String)

/-- Every payload keeps its keys and its turns, whatever it is merged with. -/
theorem merged_kept (capability : String) :
    Kept payload (merged record capability payload fallbackPrompt sessionPrompt appendedBlock) := by
  rintro fields rfl
  unfold merged
  dsimp only
  have hne : ∀ text, blockOf capability appendedBlock = some text → text ≠ "" := by
    intro text htext
    unfold blockOf at htext
    split at htext
    · exact trimmed_ne_empty htext
    · cases htext
  generalize promptOf record capability fallbackPrompt sessionPrompt = prompt
  generalize blockOf capability appendedBlock = block at hne ⊢
  split
  · exact ⟨fields, rfl, fun _ _ _ h => h, fun messages h => ⟨messages, h, .refl messages⟩⟩
  · refine ⟨_, rfl, fun key value hkey h => ?_, fun messages h => ?_⟩
    · rw [seedMessages_other hkey]
      exact lookup_foldl_orInsert h _
    · exact seedMessages_messages hne (lookup_foldl_orInsert h _)

/-- A chat with a block has its messages seeded. -/
theorem merged_seeds {text : String} (htext : trimmed appendedBlock = some text) {fields : Fields}
    {turns : List JsonValue} (h : fields.lookup "messages" = some (.array turns)) :
    ∃ prompt out,
      merged record chat (.object fields) fallbackPrompt sessionPrompt appendedBlock = .object out ∧
      out.lookup "messages" = some (.array (seeded prompt (some text) turns)) := by
  have hblock : blockOf chat appendedBlock = some text := htext
  unfold merged
  rw [hblock]
  simp only [Option.isNone_some, Bool.and_false, Bool.false_eq_true, if_false]
  refine ⟨promptOf record chat fallbackPrompt sessionPrompt, _, rfl, ?_⟩
  rw [seedMessages, if_pos (by simp), lookup_foldl_orInsert h]
  exact lookup_insertField_self _ _ _

/-- A merged payload keeps what the request had; and for a chat it has the block exactly when the
first system turn has a string for its content, or the block was there before. -/
theorem merged_keeps_iff (capability : String) :
    (Kept payload (merged record capability payload fallbackPrompt sessionPrompt appendedBlock) ∧
      (capability = chat → BlockPresent payload
        (merged record capability payload fallbackPrompt sessionPrompt appendedBlock)
        appendedBlock)) ↔
      (capability = chat → BlockFits payload appendedBlock) := by
  rw [and_iff_right (merged_kept record payload fallbackPrompt sessionPrompt appendedBlock
    capability)]
  refine imp_congr_right fun hchat => ?_
  subst hchat
  unfold BlockPresent BlockFits
  refine forall_congr' fun text => imp_congr_right fun htext => forall_congr' fun fields =>
    forall_congr' fun turns => imp_congr_right fun hpayload => imp_congr_right fun hturns => ?_
  subst hpayload
  obtain ⟨prompt, out, hmerged, hmessages⟩ :=
    merged_seeds record fallbackPrompt sessionPrompt appendedBlock htext hturns
  rw [← @seeded_says_iff prompt _ _ (trimmed_ne_empty htext), hmerged]
  constructor
  · rintro ⟨out', turns', hout, hturns', hsays⟩
    cases hout
    rw [hmessages] at hturns'
    cases hturns'
    exact hsays
  · exact fun hsays => ⟨out, _, rfl, hmessages, hsays⟩

end Merged

/-- A chat whose system turn is written in parts. -/
def partsTurn : JsonValue :=
  .object [("content", .array [.object [("text", .string "x"), ("type", .string "text")]]),
    ("role", .string "system")]

def partsChat : JsonValue := .object [("messages", .array [partsTurn])]

theorem partsTurn_silent : ¬ Says "B" partsTurn := by
  have hstring {value : String} (h : ¬ ['B'] <:+: value.toList) : ¬ Says "B" (.string value) := by
    rintro ⟨hwithin⟩
    exact h hwithin
  rintro (_ | _ | @⟨_, key, value, hfield, hsays⟩)
  rcases List.mem_cons.1 hfield with hcontent | hrole
  · cases hcontent
    rcases hsays with _ | @⟨_, item, hitem, hsays⟩
    obtain rfl := List.mem_singleton.1 hitem
    rcases hsays with _ | _ | @⟨_, key, value, hpart, hsays⟩
    rcases List.mem_cons.1 hpart with htext | htype
    · cases htext
      exact hstring (by decide) hsays
    · obtain ⟨rfl, rfl⟩ := Prod.mk.inj (List.mem_singleton.1 htype)
      exact hstring (by decide) hsays
  · obtain ⟨rfl, rfl⟩ := Prod.mk.inj (List.mem_singleton.1 hrole)
    exact hstring (by decide) hsays

theorem block_dropped :
    ¬ (Kept partsChat (merged {} chat partsChat none none (some "B")) ∧
      (chat = chat → BlockPresent partsChat (merged {} chat partsChat none none (some "B"))
        (some "B"))) := by
  rintro ⟨_, hpresent⟩
  obtain ⟨out, turns', hout, hturns', turn, hturn, hsays⟩ :=
    hpresent rfl "B" rfl _ [partsTurn] rfl rfl
  cases hout
  cases hturns'
  obtain rfl := List.mem_singleton.1 hturn
  exact partsTurn_silent hsays

end Hedos.Profiles
