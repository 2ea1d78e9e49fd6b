import ChartScript.Complexity
import ChartScript.Json
/-!
A script as JSON: all that its statements declare, with their places in the source.
-/
namespace ChartScript

open Json

/-! ## Names in reports -/

def Operator.tag : Operator → String
  | plus => "Plus" | minus => "Minus" | star => "Star" | slash => "Slash" | percent => "Percent"
  | eqEq => "EqEq" | notEq => "NotEq" | lt => "Lt" | gt => "Gt" | le => "Le" | ge => "Ge"
  | assign => "Assign" | reassign => "Reassign" | arrow => "Arrow" | question => "Question"
  | colon => "Colon" | plusAssign => "PlusAssign" | minusAssign => "MinusAssign"
  | starAssign => "StarAssign" | slashAssign => "SlashAssign"

def ScriptKind.tag : ScriptKind → String
  | indicator => "Indicator"
  | strategy => "Strategy"

def InputKind.tag : InputKind → String
  | int => "Int" | float => "Float" | bool => "Bool" | string => "String" | source => "Source"
  | color => "Color"

def Persistence.tag : Persistence → String
  | each => "None" | var => "Var" | varip => "Varip"

def Branch.tag : Branch → String
  | onTrue => "Then"
  | onFalse => "Else"

def OtherKind.tag : OtherKind → String
  | forLoop => "ForLoop" | whileLoop => "WhileLoop" | switch => "Switch"
  | conditionalExpr => "ConditionalExpr" | importDecl => "Import" | method => "Method"
  | alert => "Alert" | drawing => "Drawing" | expression => "Expression"

/-! ## Declarations -/

def Span.toJson (s : Span) : Json :=
  .object [("start", nat s.start), ("end", nat s.stop), ("line", nat s.line),
    ("column", nat s.column)]

def InputValue.toJson : InputValue → Json
  | int n => tagged "Int" (.int n)
  | float x => tagged "Float" (.float x)
  | bool b => tagged "Bool" (.bool b)
  | text s => tagged "Text" (.text s)
  | source p => tagged "Source" (.text p.name)
  | color s => tagged "Color" (.text s)

def Target.toJson : Target → Json
  | single name => tagged "Single" (.text name)
  | tuple names => tagged "Tuple" (texts names)

def AssignMode.toJson : AssignMode → Json
  | declare => .text "Declare"
  | reassign => .text "Reassign"
  | compound op => tagged "Compound" (.text op.tag)

def BodyRef.toJson (b : BodyRef) : Json :=
  .object [("condition", nat b.condition), ("branch", .text b.branch.tag)]

namespace Script

def place? : Option Span → Json :=
  nullable Span.toJson

def scope? : Option BodyRef → Json :=
  nullable BodyRef.toJson

def inputJson (x : InputDecl) : Json :=
  .object [("kind", .text x.kind.tag), ("name", .text x.name), ("default", x.default.toJson),
    ("title", nullable .text x.title), ("min", nullable .float x.least),
    ("max", nullable .float x.greatest), ("span", x.span.toJson)]

def variableJson (x : VarDecl) : Json :=
  .object [("persistence", .text x.persistence.tag), ("target", x.target.toJson),
    ("raw_expr", x.value.toJson), ("declared_type", nullable .text x.declaredType),
    ("mode", x.mode.toJson), ("scope", scope? x.scope), ("span", x.span.toJson)]

def parameterJson (x : FuncParam) : Json :=
  .object [("name", .text x.name), ("type_hint", nullable .text x.typeHint),
    ("default", place? x.default)]

def functionJson (x : FuncDecl) : Json :=
  .object [("name", .text x.name), ("params", list parameterJson x.params),
    ("raw_body", x.body.toJson), ("single_line", .bool x.singleLine),
    ("callees", texts x.callees), ("span", x.span.toJson)]

def orderJson (x : OrderCall) : Json :=
  .object [("kind", .text x.kind.tag), ("id", nullable .text x.id),
    ("direction", nullable (fun d => .text d.tag) x.direction), ("qty", place? x.quantity),
    ("when", place? x.when), ("stop", place? x.stop), ("limit", place? x.limit),
    ("from_entry", nullable .text x.fromEntry), ("scope", scope? x.scope),
    ("span", x.span.toJson)]

def plotJson (x : PlotCall) : Json :=
  .object [("kind", .text x.kind.tag), ("series_expr", place? x.series),
    ("title", nullable .text x.title), ("color_expr", place? x.color),
    ("scope", scope? x.scope), ("span", x.span.toJson)]

def conditionJson (x : Condition) : Json :=
  .object [("predicate", x.predicate.toJson), ("then_body", x.trueBody.toJson),
    ("else_body", place? x.falseBody), ("nesting_depth", nat x.depth),
    ("parent", scope? x.parent), ("chained_from", nullable nat x.chainedFrom),
    ("span", x.span.toJson)]

def typeJson (x : TypeDecl) : Json :=
  .object [("name", .text x.name), ("span", x.span.toJson)]

def memberJson (x : MemberUse) : Json :=
  .object [("namespace", .text x.qualifier), ("function", .text x.member),
    ("span", x.span.toJson)]

def otherJson (x : OtherStatement) : Json :=
  .object [("kind", .text x.kind.tag), ("scope", scope? x.scope), ("span", x.span.toJson)]

def factorsJson (factors : List (String × Float)) : Json :=
  .object (factors.map fun (name, x) => (name, .float x))

def toJson (s : Script) : Json :=
  .object [("version", nat s.version), ("kind", .text s.kind.tag), ("name", .text s.name),
    ("inputs", list inputJson s.inputs), ("variables", list variableJson s.varDecls),
    ("functions", list functionJson s.functions), ("strategy_calls", list orderJson s.orders),
    ("plots", list plotJson s.plots), ("conditions", list conditionJson s.conditions),
    ("type_decls", list typeJson s.types), ("collection_ops", list memberJson s.collectionUses),
    ("drawing_calls", list memberJson s.drawingCalls),
    ("other_statements", list otherJson s.others), ("indicators_used", texts s.indicators),
    ("complexity", .object [("score", .float s.score), ("factors", factorsJson s.factors)]),
    ("total_lines", nat s.totalLines), ("code_lines", nat s.codeLines)]

end Script

end ChartScript
