import ChartScript.Lowering.Expr
import ChartScript.Script.Statement
import ChartScript.Text.Infix
/-!
Functions of a script. A function becomes a closure: its parameters, then a `let` for each
assignment of the body, then the expression that ends the body.

A parameter is a series unless something shows that it has to be a single value: its type, a number
as its default, or a use as a window length or factor of an indicator or as a history offset.
-/
namespace ChartScript

structure BodyLine where
  /-- The name the line assigns to, and whether it has to exist already. -/
  target : Option (String × Bool)
  text : List Char
  span : Span

namespace BodyLine

/-- Name and mode of an assignment, after `skip` type words. -/
def target? (tokens : List Token) (skip : Nat) : Option (String × Bool) :=
  match tokens.drop skip with
  | name :: sign :: _ :: _ =>
    if name.kind = .identifier ∧ (sign.isOperator .assign ∨ sign.isOperator .reassign) then
      some (name.text, sign.isOperator .reassign)
    else none
  | _ => none

def isTypeWord (t : Token) : Bool :=
  match t.kind with
  | .keyword word => word.isTypeWord
  | _ => false

/-- The line made of the given tokens of a text that stands at `base`. -/
def ofTokens (text : List Char) (base : Span) (tokens : List Token) : BodyLine :=
  let skip := (tokens.takeWhile isTypeWord).length
  let target := target? tokens skip
  let value := if target.isSome then tokens.drop (skip + 2) else tokens
  let span := (Line.span? value).getD .origin
  ⟨target, (Text.slice text span.start span.stop).getD [], span.offsetBy base⟩

def isInner (t : Token) : Bool :=
  match t.kind with
  | .indent | .dedent | .comment => false
  | _ => true

/-- The lines of a function body. The depth of their indentation does not matter. -/
def ofFunction (s : Script) (f : FuncDecl) : List BodyLine :=
  let text := s.text f.body
  if f.singleLine then [⟨none, text, f.body⟩]
  else (Statement.items ((tokenize text).filter isInner)).filterMap fun
    | .line tokens => some (ofTokens text f.body tokens)
    | _ => none

end BodyLine

namespace Lowering

/-! ## Kinds of parameters -/

/-- The name is used where only a single number can stand. -/
def usedAsScalar (x : String) (e : Expr) : Bool :=
  e.nodes.any fun
    | .index _ _ offset => offset.isName x
    | .call span (.member qualifier function) _ args =>
      if qualifier = "ta" then
        match Indicator.find? ("ta." ++ function) with
        | none => false
        | some i =>
          match bindIndicator i args span with
          | .error _ => false
          | .ok slots => (i.params.zip slots).any fun (p, slot) =>
            (p.kind == .length || p.kind == .value) && slot.any (·.isName x)
      else false
    | _ => false

def hintedKind? (hint : String) : Option ValueKind :=
  let has (word : String) : Bool := Text.occursIn word.toList hint.toList
  let simple := has "simple" || has "const"
  if has "bool" then some (if simple then .bool else .series)
  else if simple || has "int" then some .number
  else none

def isNumber : Expr → Bool
  | .number .. => true
  | _ => false

def parameterKind (s : Script) (p : FuncParam) (body : List Expr) : ValueKind :=
  match p.typeHint.bind hintedKind? with
  | some kind => kind
  | none =>
    let numberDefault := p.default.any fun span =>
      match Expr.parse (s.text span) span with
      | .ok e => isNumber e
      | .error _ => false
    if numberDefault || body.any (usedAsScalar p.name) then .number else .series

/-! ## Locals -/

/-- The names within a function, and their emitted names. -/
structure Locals where
  names : List LocalName := []
  taken : List String := []

def Locals.declare (l : Locals) (x : String) (kind : ValueKind) : String × Locals :=
  let emitted := EmittedName.unique l.taken (EmittedName.ofName x)
  (emitted, ⟨l.names ++ [⟨x, emitted, kind⟩], emitted :: l.taken⟩)

/-- Gives a name a new value under its old emitted name. -/
def Locals.redeclare? (l : Locals) (x : String) (kind : ValueKind) : Option (String × Locals) :=
  (l.names.reverse.find? (·.name == x)).map fun old =>
    (old.emitted, { l with names := l.names ++ [⟨x, old.emitted, kind⟩] })

/-! ## Functions -/

/-- What a call passes for a parameter it leaves out. -/
def parameterDefault (s : Script) (scope : Scope) (p : FuncParam) (kind : ValueKind) :
    Except LoweringError (Option Code × List Need) :=
  match p.default with
  | none => .ok (none, [])
  | some span => do
    let v ← text ⟨scope, []⟩ none (s.text span) span
    let (code, needs) ← v.parameterArgument kind span s!"default of `{p.name}`"
    return (some code, v.needs ++ needs)

structure FunctionProgress where
  params : List FunctionParam := []
  lets : List (String × Code) := []
  locals : Locals := {}
  needs : List Need := []

def addParameter (s : Script) (scope : Scope) (body : List Expr) (r : FunctionProgress)
    (p : FuncParam) : Except LoweringError FunctionProgress := do
  let kind := parameterKind s p body
  let (default, needs) ← parameterDefault s scope p kind
  let (emitted, locals) := r.locals.declare p.name kind
  return { r with
    params := r.params ++ [⟨p.name, emitted, kind, default⟩]
    locals := locals
    needs := r.needs ++ needs }

def addAssignment (scope : Scope) (r : FunctionProgress) (line : BodyLine) (e : Expr) :
    Except LoweringError FunctionProgress :=
  match line.target with
  | none => .ok r
  | some (x, reassigned) => do
    let v ← expression ⟨scope, r.locals.names⟩ none e
    unless v.kind.isOperand do fail line.span (.localKind x v.kind)
    let (emitted, locals) ←
      if reassigned then
        match r.locals.redeclare? x v.kind with
        | some known => pure known
        | none => fail line.span (.reassignedEarly x)
      else pure (r.locals.declare x v.kind)
    return { r with
      lets := r.lets ++ [(emitted, v.bindable.code)]
      locals := locals
      needs := r.needs ++ v.needs }

/-- The function as a closure, and how it is called. -/
def function (s : Script) (scope : Scope) (f : FuncDecl) :
    Except LoweringError (Lowered × Signature) := do
  let lines := BodyLine.ofFunction s f
  let exprs ← lines.mapM fun line => parse line.text line.span
  let some last := lines.getLast? | fail f.span (.emptyFunction f.name)
  if last.target.isSome then fail last.span (.noResultExpression f.name)
  if let some stray := lines.dropLast.find? (·.target.isNone) then
    fail stray.span .strayBodyLine
  let r ← f.params.foldlM (addParameter s scope exprs) {}
  let r ← (lines.dropLast.zip exprs).foldlM (fun r (line, e) => addAssignment scope r line e) r
  let some resultExpr := exprs.getLast? | fail f.span .noResult
  let result ← expression ⟨scope, r.locals.names⟩ none resultExpr
  unless result.kind.isOperand do fail last.span (.resultKind f.name result.kind)
  let usesSeries := result.kind == .series || r.params.any (·.kind == .series)
  return (
    { code := .closure (r.params.map fun p => (p.emitted, p.kind)) result.kind r.lets
        result.bindable.code
      kind := result.kind
      needs := r.needs ++ result.needs ++ if usesSeries then [.seriesType] else [] },
    ⟨r.params, result.kind⟩)

end Lowering

end ChartScript
