import Hedos.Kernel.ChatWire
import Hedos.Lib.Gbnf

/-!
# The grammar of a tool call

`runtime/src/adapters/grammar.rs`: `tool_grammar` writes a GBNF grammar whose words are one call
of one of the offered tools, with rules built from the tools' schemas.

A rule of a schema node is a name and a body; `Body.text` is what the source formats for it. The
fields of a JSON object are listed in key order, as its `BTreeMap` has them.
-/

namespace Hedos.Adapters.Grammar

open Hedos.Kernel (JsonValue ToolSpec)

inductive ToolGrammarError
  | noTools
  | unsupportedSchema (tool detail : String)
deriving DecidableEq

def unsupported (tool detail : String) : ToolGrammarError := .unsupportedSchema tool detail

def callOpen : Text := "<tool_call>".toList

def callClose : Text := "</tool_call>".toList

def isPlainAscii (c : Char) : Bool :=
  c.toNat < 128 && !(c == '\n' || c == '\r' || c == '\x0b' || c == '\x0c') &&
    c != '"' && c != '\\'

/-- `str::replace` for a single character. -/
def replaceChar (text : Text) (c : Char) (replacement : Text) : Text :=
  text.flatMap fun a => if a = c then replacement else [a]

def escaped (text : Text) : Text :=
  replaceChar (replaceChar text '\\' ['\\', '\\']) '"' ['\\', '"']

def join (separator : Text) (texts : List Text) : Text := separator.intercalate texts

/-! ## Rules -/

/-- A property with the rule of its value. -/
structure Pair where
  key : Text
  valueRule : Text
deriving DecidableEq

def Pair.text (pair : Pair) : Text :=
  "\"\\\"".toList ++ escaped pair.key ++ "\\\"\" space \":\" space ".toList ++ pair.valueRule

/-- `(space "," space {pair})?` -/
def Pair.optionalText (pair : Pair) : Text :=
  "(space \",\" space ".toList ++ pair.text ++ ")?".toList

/-- What stands behind the name of a rule. -/
inductive Body
  | call (tool argsRule : Text)
  | options (values : List Text)
  /-- One of the rules `string`, `number`, `integer` and `boolean`. -/
  | primitive (type : Text)
  | array (itemRule : Text)
  | empty
  | object (required optional : List Pair)
deriving DecidableEq

structure Rule where
  name : Text
  body : Body
deriving DecidableEq

/-- The members of an object with no required property: a branch for each one it can begin with. -/
def branches : List Pair → List Text
  | [] => []
  | pair :: later =>
    later.foldl (fun branch later => branch ++ ' ' :: later.optionalText) pair.text ::
      branches later

def segments (required optional : List Pair) : List Text :=
  (required.zipIdx.map fun (pair, index) =>
    if index = 0 then pair.text else "space \",\" space ".toList ++ pair.text) ++
    optional.map Pair.optionalText

def membersText (required optional : List Pair) : Text :=
  if required.isEmpty then "( ".toList ++ join " | ".toList (branches optional) ++ " )?".toList
  else join " ".toList (segments required optional)

def Body.text : Body → Text
  | call tool argsRule =>
    "\"\x7b\" space \"\\\"name\\\"\" space \":\" space \"\\\"".toList ++ tool ++
      "\\\"\" space \",\" space \"\\\"arguments\\\"\" space \":\" space ".toList ++ argsRule ++
      " space \"\x7d\"".toList
  | options values =>
    join " | ".toList (values.map fun value => "\"\\\"".toList ++ escaped value ++ "\\\"\"".toList)
  | primitive type => type
  | array itemRule =>
    "\"[\" space (".toList ++ itemRule ++ " (space \",\" space ".toList ++ itemRule ++
      ")*)? space \"]\"".toList
  | empty => "\"\x7b\" space \"\x7d\"".toList
  | object required optional =>
    "\"\x7b\" space ".toList ++ membersText required optional ++ " space \"\x7d\"".toList

def Rule.text (rule : Rule) : Text := rule.name ++ " ::= ".toList ++ rule.body.text

/-! ## Schemas -/

def asText (tool detail : String) (value : JsonValue) : Except ToolGrammarError String :=
  match value.asStr with
  | some text => .ok text
  | none => .error (unsupported tool detail)

def properties (fields : List (String × JsonValue)) (tool : String) :
    Except ToolGrammarError (List (String × JsonValue)) :=
  match fields.lookup "properties" with
  | none => .ok []
  | some (.object props) => .ok props
  | some _ => .error (unsupported tool "properties must be an object")

def requiredNames (fields : List (String × JsonValue)) (tool : String) :
    Except ToolGrammarError (List String) :=
  match fields.lookup "required" with
  | some (.array names) => names.mapM (asText tool "required entries must be strings")
  | _ => .ok []

def valueRule (name : Text) (position : ℕ) : Text :=
  name ++ "-p".toList ++ Nat.toDigits 10 position

/-- The properties with their value rules. -/
def pairs (name : Text) (props : List (String × JsonValue)) : List Pair :=
  props.zipIdx.map fun (prop, position) => ⟨prop.1.toList, valueRule name position⟩

theorem sizeOf_lookup_lt {fields : List (String × JsonValue)} {key : String} {value : JsonValue}
    (h : fields.lookup key = some value) : sizeOf value < sizeOf fields := by
  induction fields with
  | nil => cases h
  | cons field fields ih =>
    obtain ⟨name, first⟩ := field
    rw [List.lookup_cons] at h
    simp only [List.cons.sizeOf_spec, Prod.mk.sizeOf_spec]
    split at h
    · cases h
      omega
    · have := ih h
      omega

theorem sizeOf_properties_le {fields props : List (String × JsonValue)} {tool : String}
    (h : properties fields tool = .ok props) : sizeOf props ≤ sizeOf fields := by
  unfold properties at h
  split at h
  · cases h
    cases fields <;> simp
    omega
  · rename_i props' hlookup
    cases h
    have := sizeOf_lookup_lt hlookup
    simp only [JsonValue.object.sizeOf_spec] at this
    omega
  · cases h

mutual

def valueRules (name : Text) (schema : JsonValue) (tool : String) :
    Except ToolGrammarError (List Rule) :=
  match schema with
  | .object fields =>
    match fields.lookup "enum" with
    | some (.array options) => do
      let values ← options.mapM (asText tool "enum values must be strings")
      .ok [⟨name, .options (values.map String.toList)⟩]
    | _ =>
      match ((fields.lookup "type").bind JsonValue.asStr).getD "object" with
      | "string" => .ok [⟨name, .primitive "string".toList⟩]
      | "number" => .ok [⟨name, .primitive "number".toList⟩]
      | "integer" => .ok [⟨name, .primitive "integer".toList⟩]
      | "boolean" => .ok [⟨name, .primitive "boolean".toList⟩]
      | "array" =>
        match _hitems : fields.lookup "items" with
        | none => .error (unsupported tool "arrays need an items schema")
        | some items => do
          let itemRule := name ++ "-item".toList
          let rules ← valueRules itemRule items tool
          .ok (⟨name, .array itemRule⟩ :: rules)
      | "object" => objectRules name fields tool
      | other => .error (unsupported tool ("unsupported type " ++ other))
  | _ => .error (unsupported tool "schema must be an object")
termination_by (sizeOf schema, 0)
decreasing_by
  all_goals simp_wf
  all_goals apply Prod.Lex.left
  · have := sizeOf_lookup_lt _hitems
    omega
  · omega

def objectRules (name : Text) (fields : List (String × JsonValue)) (tool : String) :
    Except ToolGrammarError (List Rule) :=
  match _hprops : properties fields tool with
  | .error error => .error error
  | .ok props => do
    let required ← requiredNames fields tool
    if props.isEmpty then .ok [⟨name, .empty⟩]
    else if !props.all (·.1.toList.all isPlainAscii) then
      .error (unsupported tool "property names must be plain ASCII")
    else do
      let rules ← propertyRules name 0 props tool
      let isRequired (pair : Pair) : Bool := required.any (·.toList == pair.key)
      let members := pairs name props
      .ok (⟨name, .object (members.filter isRequired) (members.filter (!isRequired ·))⟩ :: rules)
termination_by (sizeOf fields, 1)
decreasing_by
  have hle := sizeOf_properties_le _hprops
  rcases Nat.lt_or_eq_of_le hle with hlt | heq
  · exact Prod.Lex.left _ _ hlt
  · rw [heq]
    exact Prod.Lex.right _ Nat.zero_lt_one

/-- The rules of the values, from this position on. -/
def propertyRules (name : Text) (position : ℕ) (props : List (String × JsonValue)) (tool : String) :
    Except ToolGrammarError (List Rule) :=
  match props with
  | [] => .ok []
  | (_, schema) :: props => do
    let rules ← valueRules (valueRule name position) schema tool
    let others ← propertyRules name (position + 1) props tool
    .ok (rules ++ others)
termination_by (sizeOf props, 0)
decreasing_by
  all_goals simp_wf
  all_goals apply Prod.Lex.left
  all_goals omega

end

/-! ## The grammar -/

def argsRule (index : ℕ) : Text := "args-".toList ++ Nat.toDigits 10 index

def header (calls : List Text) : Text :=
  "root ::= \"".toList ++ callOpen ++ "\" space call space \"".toList ++ callClose ++
    "\"\n".toList ++
  "call ::= ".toList ++ join " | ".toList calls ++ "\n".toList ++
  "space ::= [ \\t\\n\\r]*\n".toList ++
  "string ::= \"\\\"\" ([^\"\\\\] | \"\\\\\" .)* \"\\\"\"\n".toList ++
  "number ::= \"-\"? [0-9]+ (\".\" [0-9]+)? ([eE] [-+]? [0-9]+)?\n".toList ++
  "integer ::= \"-\"? [0-9]+\n".toList ++
  "boolean ::= \"true\" | \"false\"\n".toList ++
  "\n".toList

end Hedos.Adapters.Grammar
