import ChartScript.Lowering.Function
/-!
All expressions of a script, lowered in the order of the source. Every value that emitted code uses
later gets a name at the place where it is computed, so that giving a script name a new value cannot
change it.
-/
namespace ChartScript

/-- What a lowered expression belongs to, by its number among those of its kind. -/
inductive ItemKey where
  | assignment (index : Nat)
  | function (index : Nat)
  | predicate (index : Nat)
  | orderWhen (index : Nat)
  | orderQuantity (index : Nat)
  | orderStop (index : Nat)
  | orderLimit (index : Nat)
  | plotSeries (index : Nat)
deriving DecidableEq, Repr

/-- The emitted names that a value is bound to. -/
inductive Pattern where
  | single (name : String)
  | tuple (names : List String)
deriving DecidableEq, Repr

def Pattern.render : Pattern → String
  | single name => name
  | tuple names => "(" ++ ", ".intercalate names ++ ")"

structure LoweredItem where
  key : ItemKey
  /-- Where the statement begins. -/
  position : Nat
  /-- What the value is bound to, unless it is used in place. -/
  binding : Option Pattern
  value : Lowered

structure InputField where
  name : String
  field : String
  kind : InputKind
  title : Option String
  default : Code

def InputField.typeName (f : InputField) : String :=
  match f.kind with
  | .int => "i64"
  | .float => "f64"
  | .bool => "bool"
  | .string | .color => "String"
  | .source => "Source"

structure LoweredScript where
  items : List LoweredItem := []
  inputs : List InputField := []
  needs : List Need := []

def LoweredScript.get? (l : LoweredScript) (key : ItemKey) : Option LoweredItem :=
  l.items.find? (·.key == key)

namespace Lowering

/-! ## Inputs -/

def sourceVariant (p : PriceSource) : String :=
  match p.name.toList with
  | [] => ""
  | c :: rest => String.ofList (c.toUpper :: rest)

def inputDefault (d : InputDecl) : Except LoweringError Code :=
  match d.kind, d.default with
  | .int, .int n => .ok (.integer n)
  | .float, .float x => .ok (.number x)
  | .float, .int n => .ok (.number (Float.ofInt n))
  | .bool, .bool b => .ok (.bool b)
  | .string, .text s | .color, .color s | .color, .text s =>
    .ok (.method (.text s) "to_string" [])
  | .source, .source p => .ok (.path ["Source", sourceVariant p])
  | _, _ => fail d.span (.inputDefault d.name)

/-! ## Variables -/

def declareAll (scope : Scope) : List String → List String × Scope
  | [] => ([], scope)
  | x :: rest =>
    let (emitted, scope) := scope.declare x (.value .series)
    let (names, scope) := declareAll scope rest
    (emitted :: names, scope)

/-- A value that is set on the first bar and kept. -/
def kept (v : Lowered) : Lowered :=
  { v with code := .ops "hold_first" [v.operand], place := false, needs := v.needs ++ [.ops] }

def declaration (scope : Scope) (d : VarDecl) (x : String) (e : Expr) :
    Except LoweringError (Pattern × Lowered × Scope) := do
  let v ← expression ⟨scope, []⟩ none e
  if v.kind = .direction then fail d.span .storedDirection
  let v := if d.persistence ≠ .each ∧ v.kind = .series then kept v else v
  let (emitted, scope) := scope.declare x (.value v.kind)
  return (.single emitted, v.bindable, scope)

def tupleDeclaration (scope : Scope) (names : List String) (e : Expr) :
    Except LoweringError (Pattern × Lowered × Scope) := do
  let v ← expression ⟨scope, []⟩ (some names.length) e
  let (emitted, scope) := declareAll scope names
  return (.tuple emitted, v, scope)

/-- The value that a compound assignment gives: the operation applied to the present value. -/
def compoundValue (d : VarDecl) (x : String) (e : Expr) : Except LoweringError Expr :=
  match d.mode with
  | .compound op =>
    match BinaryOp.ofCompound? op with
    | some op => .ok (.binary (d.span.through e.span) op (.name d.span (.plain x)) e)
    | none => fail d.span (.compoundOperator op.symbol)
  | _ => .ok e

def reassignment (scope : Scope) (d : VarDecl) (x : String) (e : Expr) :
    Except LoweringError (Pattern × Lowered × Scope) := do
  match (scope.lookup? x).map Binding.role with
  | some (.value _) => pure ()
  | some _ => fail d.span (.notAssignable x)
  | none => fail d.span (.reassignedEarly x)
  if e.readsHistoryOf x then fail d.value (.ownHistory x)
  let v ← expression ⟨scope, []⟩ none (← compoundValue d x e)
  match scope.redeclare? x (.value v.kind) with
  | some (emitted, scope) => return (.single emitted, v.bindable, scope)
  | none => fail d.span (.notDeclared x)

def assignment (s : Script) (scope : Scope) (d : VarDecl) :
    Except LoweringError (Pattern × Lowered × Scope) := do
  let e ← parse (s.text d.value) d.value
  match d.mode, d.target with
  | .declare, .single x => declaration scope d x e
  | .declare, .tuple names => tupleDeclaration scope names e
  | _, .single x => reassignment scope d x e
  | _, .tuple _ => fail d.span .tupleReassignment

/-! ## Values used by conditions and orders -/

/-- Lowers the expression at a place and gives it a name of its own. -/
def hoist (s : Script) (scope : Scope) (span : Span) (base : String)
    (allowed : ValueKind → Bool) (what : String) :
    Except LoweringError (Pattern × Lowered × Scope) := do
  let v ← text ⟨scope, []⟩ none (s.text span) span
  unless allowed v.kind do fail span (.hoistedKind what v.kind)
  let v := if v.place then { v with code := .borrow v.code, place := false } else v
  let (emitted, scope) := scope.fresh base
  return (.single emitted, v, scope)

/-! ## The whole script -/

/-- A statement that holds expressions, with its number among those of its kind. -/
inductive Site where
  | assignment (index : Nat) (d : VarDecl)
  | function (index : Nat) (f : FuncDecl)
  | condition (index : Nat) (c : Condition)
  | order (index : Nat) (o : OrderCall)
  | plot (index : Nat) (p : PlotCall)

def Site.position : Site → Nat
  | assignment _ d => d.span.start
  | function _ f => f.span.start
  | condition _ c => c.span.start
  | order _ o => o.span.start
  | plot _ p => p.span.start

/-- The statements that hold expressions, kind by kind. -/
def sitesByKind (s : Script) : List Site :=
  s.varDecls.mapIdx Site.assignment ++ s.functions.mapIdx Site.function ++
    s.conditions.mapIdx Site.condition ++ s.orders.mapIdx Site.order ++ s.plots.mapIdx Site.plot

def sites (s : Script) : List Site :=
  (sitesByKind s).mergeSort (·.position ≤ ·.position)

structure Progress where
  scope : Scope := {}
  items : List LoweredItem := []
  needs : List Need := []

def Progress.add (r : Progress) (key : ItemKey) (position : Nat) (binding : Option Pattern)
    (value : Lowered) (scope : Scope) : Progress :=
  ⟨scope, r.items ++ [⟨key, position, binding, value⟩], r.needs ++ value.needs⟩

/-- Adds one of the values of an order, if it is given. -/
def addOrderPart (s : Script) (position : Nat) (key : ItemKey) (base : String)
    (allowed : ValueKind → Bool) (part : Option Span) (r : Progress) :
    Except LoweringError Progress :=
  match part with
  | none => .ok r
  | some span => do
    let (pattern, v, scope) ← hoist s r.scope span base allowed s!"`{base}`"
    return r.add key position (some pattern) v scope

def addOrder (s : Script) (r : Progress) (i : Nat) (o : OrderCall) :
    Except LoweringError Progress := do
  let start := o.span.start
  let r ← addOrderPart s start (.orderWhen i) "when" ValueKind.isOperand o.when r
  let r ← addOrderPart s start (.orderQuantity i) "qty" ValueKind.isNumeric o.quantity r
  let r ← addOrderPart s start (.orderStop i) "stop" ValueKind.isNumeric o.stop r
  let r ← addOrderPart s start (.orderLimit i) "limit" ValueKind.isNumeric o.limit r
  return if o.direction.isSome then { r with needs := r.needs ++ [.direction] } else r

def addPlot (s : Script) (r : Progress) (i : Nat) (p : PlotCall) : Except LoweringError Progress :=
  match p.kind, p.series with
  | .mark mark, some span => do
    let v ← text ⟨r.scope, []⟩ none (s.text span) span
    unless v.kind.isOperand do fail span (.plotKind p.kind.name v.kind)
    if mark = .hline ∧ v.kind ≠ .number then fail span .varyingLevel
    return r.add (.plotSeries i) p.span.start none v r.scope
  | _, _ => .ok r

def add (s : Script) (r : Progress) : Site → Except LoweringError Progress
  | .assignment i d => do
    let (pattern, v, scope) ← assignment s r.scope d
    return r.add (.assignment i) d.span.start (some pattern) v scope
  | .function i f => do
    let (v, signature) ← function s r.scope f
    let (emitted, scope) := r.scope.declare f.name (.function signature)
    return r.add (.function i) f.span.start (some (.single emitted)) v scope
  | .condition i c => do
    let (pattern, v, scope) ←
      hoist s r.scope c.predicate "cond" ValueKind.isOperand "an `if` condition"
    return r.add (.predicate i) c.span.start (some pattern) v scope
  | .order i o => addOrder s r i o
  | .plot i p => addPlot s r i p

def addInput (r : Scope × List InputField) (d : InputDecl) :
    Except LoweringError (Scope × List InputField) := do
  let (field, scope) := r.1.declare d.name (.input d.kind)
  let default ← inputDefault d
  return (scope, r.2 ++ [⟨d.name, field, d.kind, d.title, default⟩])

def script (s : Script) : Except LoweringError LoweredScript := do
  let (scope, inputs) ← s.inputs.foldlM addInput ({}, [])
  let r ← (sites s).foldlM (add s) { scope := scope }
  return ⟨r.items, inputs, r.needs⟩

end Lowering

end ChartScript
