import ChartScript.OrderKind
import ChartScript.PlotKind
import ChartScript.Text.Lines
import ChartScript.Token
/-!
A script as its statements say it: header, inputs, variables, functions, orders, plots and
conditions, each kind in source order. Expressions are kept as places in the source and read when
they are needed.

Conditions form a tree. Every statement within a condition names the body it stands in, by the
number of the condition and the branch.
-/
namespace ChartScript

inductive ScriptKind where
  | indicator | strategy
deriving DecidableEq, Repr

inductive InputKind where
  | int | float | bool | string | source | color
deriving DecidableEq, Repr

/-- The kind that a call of an `input` member declares. -/
def InputKind.ofSuffix? (suffix : String) : Option InputKind :=
  if suffix = "int" then some .int
  else if suffix = "float" ∨ suffix = "price" then some .float
  else if suffix = "bool" then some .bool
  else if ["string", "symbol", "timeframe", "session", "text_area"].contains suffix then
    some .string
  else if suffix = "source" then some .source
  else if suffix = "color" then some .color
  else none

/-- The default of an input. A colour is kept as written. -/
inductive InputValue where
  | int (value : Int)
  | float (value : Float)
  | bool (value : Bool)
  | text (value : String)
  | source (value : PriceSource)
  | color (value : String)

structure InputDecl where
  kind : InputKind
  name : String
  default : InputValue
  title : Option String
  least : Option Float
  greatest : Option Float
  span : Span

/-- How long a variable lives: computed on each bar, or set once and kept. -/
inductive Persistence where
  | each | var | varip
deriving DecidableEq, Repr

inductive Target where
  | single (name : String)
  | tuple (names : List String)
deriving DecidableEq, Repr

def Target.names : Target → List String
  | single name => [name]
  | tuple names => names

inductive AssignMode where
  | declare
  | reassign
  | compound (op : Operator)
deriving DecidableEq, Repr

inductive Branch where
  | onTrue | onFalse
deriving DecidableEq, Repr

/-- One of the two bodies of a condition. -/
structure BodyRef where
  condition : Nat
  branch : Branch
deriving DecidableEq, Repr

structure VarDecl where
  persistence : Persistence
  target : Target
  value : Span
  declaredType : Option String
  mode : AssignMode
  scope : Option BodyRef
  span : Span
deriving DecidableEq, Repr

structure FuncParam where
  name : String
  typeHint : Option String
  default : Option Span
deriving DecidableEq, Repr

structure FuncDecl where
  name : String
  params : List FuncParam
  body : Span
  singleLine : Bool
  /-- Functions of the script that the body calls, each once, in the order of their first calls. -/
  callees : List String
  span : Span
deriving DecidableEq, Repr

structure OrderCall where
  kind : OrderKind
  id : Option String
  direction : Option Direction
  quantity : Option Span
  when : Option Span
  stop : Option Span
  limit : Option Span
  fromEntry : Option String
  scope : Option BodyRef
  span : Span
deriving DecidableEq, Repr

structure PlotCall where
  kind : PlotKind
  series : Option Span
  title : Option String
  color : Option Span
  scope : Option BodyRef
  span : Span
deriving DecidableEq, Repr

structure Condition where
  predicate : Span
  trueBody : Span
  falseBody : Option Span
  depth : Nat
  parent : Option BodyRef
  /-- The first condition of the chain that this one continues. -/
  chainedFrom : Option Nat
  span : Span
deriving DecidableEq, Repr

structure TypeDecl where
  name : String
  span : Span
deriving DecidableEq, Repr

/-- A use of a qualified name, such as `array.push`. -/
structure MemberUse where
  qualifier : String
  member : String
  span : Span
deriving DecidableEq, Repr

inductive OtherKind where
  | forLoop | whileLoop | switch | conditionalExpr | importDecl | method | alert | drawing
  | expression
deriving DecidableEq, Repr

namespace OtherKind

/-- Kinds that have no counterpart in emitted code. -/
def isUnsupported : OtherKind → Bool
  | alert | drawing | expression => false
  | _ => true

def describe : OtherKind → String
  | forLoop => "for loop"
  | whileLoop => "while loop"
  | switch => "switch statement"
  | conditionalExpr => "conditional expression block"
  | importDecl => "library import"
  | method => "method declaration"
  | alert => "alert"
  | drawing => "drawing statement"
  | expression => "expression statement"

end OtherKind

structure OtherStatement where
  kind : OtherKind
  scope : Option BodyRef
  span : Span
deriving DecidableEq, Repr

structure Header where
  version : Nat
  kind : ScriptKind
  name : String
deriving DecidableEq, Repr

structure Declarations where
  inputs : List InputDecl := []
  varDecls : List VarDecl := []
  functions : List FuncDecl := []
  orders : List OrderCall := []
  plots : List PlotCall := []
  conditions : List Condition := []
  types : List TypeDecl := []
  others : List OtherStatement := []

structure Script extends Header, Declarations where
  source : List Char
  collectionUses : List MemberUse
  drawingCalls : List MemberUse
  /-- Qualified names of indicators, sorted, each once. -/
  indicators : List String
  /-- Number of lines on which some token starts. -/
  codeLines : Nat

namespace Script

def text (s : Script) (span : Span) : List Char :=
  (Text.slice s.source span.start span.stop).getD []

def totalLines (s : Script) : Nat :=
  (Text.lines s.source).length

/-- Depth of the innermost condition, where those at the top level have depth zero. -/
def nesting (s : Script) : Nat :=
  (s.conditions.map (·.depth)).foldl max 0

end Script

end ChartScript
