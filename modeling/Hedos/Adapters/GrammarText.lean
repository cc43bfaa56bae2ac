import Hedos.Adapters.Grammar

/-!
# What the grammar of a tool call spells

`Body.expr` is the GBNF expression that the text of a body spells (`Body.text_eq`) and
`headerRules` are the rules of the fixed lines (`header_text`). What is written is the grammar of
both, a rule on each line.
-/

namespace Hedos.Adapters.Grammar

open Hedos.Kernel (JsonValue ToolSpec)
open Gbnf (Expr seqOf altOf Level)

/-! ## What the bodies spell -/

def space : Expr .item := .rule "space".toList

/-- The literal of a JSON string. -/
def quoted (text : Text) : Expr .item := .literal ('"' :: (text ++ ['"']))

def symbol (c : Char) : Expr .item := .literal [c]

def Pair.items (pair : Pair) : List (Expr .item) :=
  [quoted pair.key, space, symbol ':', space, .rule pair.valueRule]

def comma : List (Expr .item) := [space, symbol ',', space]

def Pair.optional (pair : Pair) : Expr .item :=
  .opt (.group (.only (seqOf (comma ++ pair.items))))

def choices : List (Expr .sequence) → Expr .alternatives
  | [] => .only .empty
  | first :: others => altOf first others

/-- What stands in a literal of the body needs no escape. -/
def Body.Plain : Body → Prop
  | call tool _ => tool.all isPlainAscii = true
  | _ => True

def digits : Expr .item := .plus (.chars "0-9".toList)

end Hedos.Adapters.Grammar
