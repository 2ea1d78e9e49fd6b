import ChartScript.Decimal.Layout
import ChartScript.Expr
import ChartScript.Text.Quoted
import ChartScript.ValueKind
/-!
Emitted expressions as trees, and their text. Everything that decides between two ways of writing
the same thing, such as brackets around an operation, is a node of its own, so the text follows from
the tree alone.
-/
namespace ChartScript

inductive Code where
  /-- A local name. -/
  | name (name : String)
  /-- A name in a module or type, such as `ops::add`. -/
  | path (segments : List String)
  /-- A field of the parameters of the script. -/
  | setting (field : String)
  | number (value : Float)
  | integer (value : Int)
  | bool (value : Bool)
  | text (value : String)
  /-- An integer converted to a number. -/
  | widen (value : Code)
  | borrow (value : Code)
  | group (value : Code)
  | unary (op : UnaryOp) (value : Code)
  | binary (op : BinaryOp) (left right : Code)
  | choice (condition yes no : Code)
  | call (function : Code) (args : List Code)
  | method (receiver : Code) (name : String) (args : List Code)
  | closure (params : List (String × ValueKind)) (result : ValueKind) (lets : List (String × Code))
      (value : Code)

namespace Code

def unarySymbol : UnaryOp → String
  | .neg => "-"
  | .plus => "+"
  | .not => "!"

def parameterList (params : List (String × ValueKind)) : String :=
  ", ".intercalate (params.map fun p => p.1 ++ ": " ++ p.2.parameterType)

mutual

def render : Code → String
  | name x => x
  | path segments => "::".intercalate segments
  | setting field => "params." ++ field
  | number x => Decimal.write x
  | integer n => toString n
  | bool true => "true"
  | bool false => "false"
  | text s => Text.quote s
  | widen c => "(" ++ c.render ++ " as f64)"
  | borrow c => "&" ++ c.render
  | group c => "(" ++ c.render ++ ")"
  | unary op c => "(" ++ unarySymbol op ++ c.render ++ ")"
  | binary op l r => "(" ++ l.render ++ " " ++ op.symbol ++ " " ++ r.render ++ ")"
  | choice c a b =>
    "(if " ++ c.render ++ " \x7b " ++ a.render ++ " \x7d else \x7b " ++ b.render ++ " \x7d)"
  | call f args => f.render ++ "(" ++ ", ".intercalate (renderAll args) ++ ")"
  | method c m args => c.render ++ "." ++ m ++ "(" ++ ", ".intercalate (renderAll args) ++ ")"
  | closure params result [] value =>
    "|" ++ parameterList params ++ "| -> " ++ result.typeName ++ " \x7b " ++ value.render ++ " \x7d"
  | closure params result lets value =>
    "|" ++ parameterList params ++ "| -> " ++ result.typeName ++ " \x7b\n" ++
      renderLets lets ++ "    " ++ value.render ++ "\n\x7d"

def renderAll : List Code → List String
  | [] => []
  | c :: rest => c.render :: renderAll rest

def renderLets : List (String × Code) → String
  | [] => ""
  | (x, c) :: rest => "    let " ++ x ++ " = " ++ c.render ++ ";\n" ++ renderLets rest

end

/-! ## Calls into the library of emitted code -/

/-- A function that works bar by bar. -/
def ops (function : String) (args : List Code) : Code :=
  call (path ["ops", function]) args

def barCount : Code :=
  method (name "bars") "len" []

/-- The same value on every bar. -/
def broadcast (value : Code) : Code :=
  ops "series" [value, barCount]

end Code

end ChartScript
