import ChartScript.Indicator.Catalogue
import ChartScript.Lowering.Scope
import ChartScript.Lowering.Value
/-!
From expressions to code. An operation on single values becomes the same operation in the emitted
language; as soon as one operand is a series, it becomes a call that works bar by bar. A call of an
indicator fills the parameters that are left out with their defaults.

The arguments of a call are lowered one by one, and each keeps its own fault: only an argument that
the call uses can make it fail.
-/
namespace ChartScript

/-- A parameter or local of the function that is being lowered. -/
structure LocalName where
  name : String
  emitted : String
  kind : ValueKind

/-- The names that an expression can refer to. -/
structure Context where
  scope : Scope
  /-- Names within a function; they hide those of the script, and later ones earlier ones. -/
  locals : List LocalName := []

/-- A lowered argument and the place of its value. -/
structure Actual where
  span : Span
  result : Except LoweringError Lowered

namespace Lowering

def fail {α : Type} (span : Span) (fault : LoweringFault) : Except LoweringError α :=
  .error ⟨span, fault⟩

/-! ## Names -/

def bound (b : Binding) (span : Span) : Except LoweringError Lowered :=
  match b.role with
  | .input .int =>
    .ok { code := .widen (.setting b.emitted), kind := .number
          length := some (.ops "length" [.setting b.emitted]), needs := [.ops] }
  | .input .float => .ok { code := .setting b.emitted, kind := .number }
  | .input .bool => .ok { code := .setting b.emitted, kind := .bool }
  | .input .string | .input .color =>
    .ok { code := .method (.setting b.emitted) "as_str" [], kind := .text }
  | .input .source | .value .series => .ok (.ofPlace b.emitted [])
  | .value kind => .ok { code := .name b.emitted, kind := kind }
  | .function _ => fail span (.functionAsValue b.name)

def name (ctx : Context) (x : String) (span : Span) : Except LoweringError Lowered :=
  match ctx.locals.reverse.find? (·.name == x), ctx.scope.lookup? x, Average.ofName? x with
  | some l, _, _ =>
    if l.kind = .series then .ok (.ofPlace l.emitted [])
    else .ok { code := .name l.emitted, kind := l.kind }
  | none, some b, _ => bound b span
  | none, none, some a => .ok (.ofPlace a.name [.average a])
  | none, none, none =>
    if x = "bar_index" then .ok (.ofPlace "bar_index" [.barIndex])
    else fail span (.unknownName x)

def field (f : BarField) : Lowered :=
  .ofPlace f.name [.field f]

/-! ## Arguments -/

/-- Puts the named arguments into the slots of their parameters. -/
def fillNamed {α : Type} (function : String) (index? : String → Option Nat) (once : Bool) :
    List (Option α) → List (Argument α) → Except LoweringError (List (Option α))
  | slots, [] => .ok slots
  | slots, arg :: rest =>
    match arg.name with
    | none => fillNamed function index? once slots rest
    | some x =>
      match index? x with
      | none => fail arg.span (.noParameter function x)
      | some i =>
        if once ∧ (slots[i]?.join).isSome then fail arg.span (.argumentTwice x)
        else fillNamed function index? once (slots.set i (some arg.value)) rest

def positional {α : Type} (args : List (Argument α)) : List α :=
  (args.filter (·.name.isNone)).map (·.value)

/-- The slots of `count` parameters with the values put in from position `shift` on. -/
def fillPositional {α : Type} (count shift : Nat) (values : List α) : List (Option α) :=
  (List.range count).map fun i => if i < shift then none else values[i - shift]?

/-- The arguments of an indicator by parameter. One value too few means, where that is allowed, that
the first parameter is left out. -/
def bindIndicator {α : Type} (i : Indicator) (args : List (Argument α)) (span : Span) :
    Except LoweringError (List (Option α)) :=
  let values := positional args
  let count := i.params.length
  let firstNamed := args.any fun a => i.params.head?.any fun p => a.name == some p.name
  let shift :=
    if i.leadingSourceOptional ∧ !firstNamed ∧ values.length + 1 = count then 1 else 0
  if count < values.length + shift then
    fail span (.tooManyArguments i.qualifiedName count values.length)
  else
    fillNamed i.qualifiedName i.parameterIndex? true (fillPositional count shift values) args

/-- The only argument of a function that takes one. -/
def single (function : String) (args : List (Argument Actual)) (span : Span) :
    Except LoweringError Actual :=
  match args.find? (·.name.isSome) with
  | some named => fail named.span (.positionalOnly function)
  | none =>
    match args with
    | [arg] => .ok arg.value
    | _ => fail span (.wrongArgumentCount function 1 args.length)

/-! ## Indicators -/

/-- A default argument as if it were written where the call begins. -/
def defaultActual (ctx : Context) (d : DefaultArgument) (call : Span) : Actual :=
  let span : Span := { call with stop := call.start + d.text.length }
  ⟨span,
    match d with
    | .price (.field f) => .ok (field f)
    | .price (.average a) => name ctx a.name span
    | .integer n => .ok (.ofNumber n.toFloat true)
    | .decimal x => .ok (.ofNumber x false)
    | .flag b => .ok { code := .bool b, kind := .bool }⟩

def indicatorArgument (ctx : Context) (i : Indicator) (span : Span) (p : Parameter)
    (slot : Option Actual) : Except LoweringError (Code × List Need) := do
  let operand ← match slot, p.default with
    | some operand, _ => pure operand
    | none, some d => pure (defaultActual ctx d span)
    | none, none => fail span (.missingArgument i.qualifiedName p.name)
  let v ← operand.result
  let what := s!"argument `{p.name}` of `{i.qualifiedName}`"
  let (code, needs) ← match p.kind with
    | .source => v.seriesArgument operand.span what
    | .length => v.lengthArgument operand.span what
    | .value =>
      if v.kind = .number then pure (v.code, []) else fail operand.span (.notConstant what v.kind)
    | .flag =>
      if v.kind = .bool then pure (v.code, []) else fail operand.span (.notConstant what v.kind)
  return (code, v.needs ++ needs)

def indicator (ctx : Context) (i : Indicator) (args : List (Argument Actual)) (span : Span) :
    Except LoweringError Lowered := do
  let slots ← bindIndicator i args span
  let lowered ← (i.params.zip slots).mapM fun (p, slot) => indicatorArgument ctx i span p slot
  let bars := if i.needsBars then [Code.name "bars"] else []
  return {
    code := .call (.path ["ta", i.name]) (bars ++ lowered.map (·.1))
    kind := if 1 < i.outputs then .tuple i.outputs else .series
    needs := lowered.flatMap (·.2) ++ [.indicator i.qualifiedName] }

/-! ## Functions of the script -/

def functionArgument (function : String) (span : Span) (p : FunctionParam)
    (slot : Option Actual) : Except LoweringError (Code × List Need) :=
  match slot with
  | some operand => do
    let v ← operand.result
    let what := s!"argument `{p.name}` of `{function}`"
    let (code, needs) ← v.parameterArgument p.kind operand.span what
    return (code, v.needs ++ needs)
  | none =>
    match p.default with
    | some code => .ok (code, [])
    | none => fail span (.missingArgument function p.name)

def functionCall (function emitted : String) (sig : Signature) (args : List (Argument Actual))
    (span : Span) : Except LoweringError Lowered := do
  let values := positional args
  let count := sig.params.length
  if count < values.length then fail span (.surplusArguments function count args.length)
  let index? (x : String) : Option Nat := sig.params.findIdx? (·.name == x)
  let slots ← fillNamed function index? false (fillPositional count 0 values) args
  let lowered ← (sig.params.zip slots).mapM fun (p, slot) => functionArgument function span p slot
  return {
    code := .call (.name emitted) (lowered.map (·.1))
    kind := sig.returns
    needs := lowered.flatMap (·.2) }

/-! ## Operations -/

def binary (op : BinaryOp) (l r : Lowered) (span : Span) : Except LoweringError Lowered := do
  l.checkOperand span
  r.checkOperand span
  let needs := l.needs ++ r.needs
  if l.kind = .series ∨ r.kind = .series then
    return .ofSeries (.ops op.elementwise [l.operand, r.operand]) (needs ++ [.ops])
  else if op.isLogical then
    return { code := .binary op l.truth r.truth, kind := .bool, needs := needs }
  else if op.isComparison then
    if l.kind = r.kind then
      return { code := .binary op l.code r.code, kind := .bool, needs := needs }
    else fail span .mixedComparison
  else if l.kind = .number ∧ r.kind = .number then
    return { code := .binary op l.code r.code, kind := .number, needs := needs }
  else fail span .boolArithmetic

def unary (op : UnaryOp) (v : Lowered) (span : Span) : Except LoweringError Lowered := do
  v.checkOperand span
  match op, v.kind with
  | .plus, .number | .plus, .series => return v
  | .neg, .number => return { code := .unary .neg v.code, kind := .number, needs := v.needs }
  | .not, .bool => return { code := .unary .not v.code, kind := .bool, needs := v.needs }
  | .not, .number =>
    return { code := .binary .eq v.code (.number 0.0), kind := .bool, needs := v.needs }
  | .neg, .series => return .ofSeries (.ops "neg" [v.operand]) (v.needs ++ [.ops])
  | .not, .series => return .ofSeries (.ops "not" [v.operand]) (v.needs ++ [.ops])
  | _, _ => fail span .signedBool

def conditional (c a b : Lowered) (cSpan aSpan bSpan span : Span) :
    Except LoweringError Lowered := do
  c.checkOperand cSpan
  a.checkOperand aSpan
  b.checkOperand bSpan
  let needs := c.needs ++ a.needs ++ b.needs
  if c.isScalar ∧ a.isScalar ∧ b.isScalar then
    if a.kind = b.kind then
      return { code := .choice c.truth a.code b.code, kind := a.kind, needs := needs }
    else fail span .mixedBranches
  else
    return .ofSeries (.ops "select" [c.operand, a.operand, b.operand]) (needs ++ [.ops])

/-- The value some bars ago. A single value is the same on every bar. -/
def history (v offset : Lowered) (vSpan offsetSpan : Span) : Except LoweringError Lowered := do
  if offset.kind = .series then fail offsetSpan .varyingOffset
  let (n, needs) ← offset.lengthArgument offsetSpan "history offset"
  let needs := v.needs ++ offset.needs ++ needs
  match v.kind with
  | .series =>
    let receiver := if v.place then v.code else .group v.code
    return .ofSeries (.method receiver "shift" [n]) needs
  | .number | .bool => return { v with needs := needs }
  | kind => fail vSpan (.historyOf kind)

/-! ## Functions of the language -/

/-- The value where it is there, and a replacement where it is not. -/
def orElse (args : List (Argument Actual)) (span : Span) : Except LoweringError Lowered := do
  let (value, replacement) ← match args with
    | [value] => pure (value, none)
    | [value, replacement] => pure (value, some replacement)
    | _ => fail span .nzArguments
  let v ← value.value.result
  v.checkOperand value.span
  if v.kind ≠ .series then return v
  match replacement with
  | none => return .ofSeries (.ops "nz" [v.operand, .number 0.0]) (v.needs ++ [.ops])
  | some arg =>
    let r ← arg.value.result
    r.checkOperand arg.span
    return .ofSeries (.ops "nz" [v.operand, r.operand]) (v.needs ++ r.needs ++ [.ops])

/-- Whether a value is missing; a single value never is. -/
def isMissing (args : List (Argument Actual)) (span : Span) : Except LoweringError Lowered := do
  let arg ← single "na" args span
  let v ← arg.result
  v.checkOperand arg.span
  if v.kind = .series then
    return .ofSeries (.ops "is_na" [v.operand]) (v.needs ++ [.ops])
  else return { code := .bool false, kind := .bool, needs := v.needs }

def toInteger (args : List (Argument Actual)) (span : Span) : Except LoweringError Lowered := do
  let arg ← single "int" args span
  let v ← arg.result
  v.checkNumeric arg.span "argument of `int`"
  if v.kind = .number then
    return { v with code := .method (.group v.code) "trunc" [], place := false }
  else
    return .ofSeries (.ops "apply" [v.operand, .path ["f64", "trunc"]]) (v.needs ++ [.ops])

def toNumber (args : List (Argument Actual)) (span : Span) : Except LoweringError Lowered := do
  let arg ← single "float" args span
  let v ← arg.result
  v.checkNumeric arg.span "argument of `float`"
  return v

def oneNumber : List (String × String) :=
  [("abs", "abs"), ("ceil", "ceil"), ("floor", "floor"), ("round", "round"), ("sqrt", "sqrt"),
   ("exp", "exp"), ("log", "ln"), ("log10", "log10"), ("sign", "sign")]

def twoNumbers : List (String × String) :=
  [("max", "max"), ("min", "min"), ("pow", "powf")]

def applyOne (function : String) (v : Lowered) : Lowered :=
  let needsOps := v.needs ++ [.ops]
  if v.kind = .number then
    if function = "sign" then
      { code := .ops "sign" [v.code], kind := .number, needs := needsOps }
    else { code := .method (.group v.code) function [], kind := .number, needs := v.needs }
  else
    let target := if function = "sign" then Code.path ["ops", "sign"] else .path ["f64", function]
    .ofSeries (.ops "apply" [v.operand, target]) needsOps

def applyTwo (function : String) (a b : Lowered) : Lowered :=
  let needs := a.needs ++ b.needs
  if a.kind = .number ∧ b.kind = .number then
    { code := .method (.group a.code) function [b.code], kind := .number, needs := needs }
  else
    .ofSeries (.ops "apply2" [a.operand, b.operand, .path ["f64", function]]) (needs ++ [.ops])

def numericResult (arg : Argument Actual) : Except LoweringError Lowered := do
  let v ← arg.value.result
  v.checkNumeric arg.span "math argument"
  return v

def mathCall (x : String) (args : List (Argument Actual)) (span : Span) :
    Except LoweringError Lowered :=
  match oneNumber.lookup x, twoNumbers.lookup x with
  | some function, _ => do
    let arg ← single ("math." ++ x) args span
    let v ← arg.result
    v.checkNumeric arg.span "math argument"
    return applyOne function v
  | none, some function =>
    match args with
    | first :: second :: more => do
      if x = "pow" ∧ !more.isEmpty then fail span (.needsTwoArguments ("math." ++ x))
      if let some named := args.find? (·.name.isSome) then fail named.span .namedMathArgument
      let start ← numericResult first
      (second :: more).foldlM (fun v arg => return applyTwo function v (← numericResult arg)) start
    | _ => fail span (.needsTwoArguments ("math." ++ x))
  | none, none =>
    if x = "avg" then
      match args with
      | [] => fail span .averageOfNothing
      | first :: more => do
        let start ← first.value.result
        let sum ← more.foldlM (fun v arg => do binary .add v (← arg.value.result) arg.span) start
        binary .div sum (.ofNumber args.length.toFloat false) span
    else fail span (.unsupportedMember "math" x)

/-! ## Members and calls -/

def member (ctx : Context) (qualifier x : String) (span : Span) : Except LoweringError Lowered :=
  if qualifier = "strategy" ∧ x = "long" then
    .ok { code := .path ["Direction", "Long"], kind := .direction, needs := [.direction] }
  else if qualifier = "strategy" ∧ x = "short" then
    .ok { code := .path ["Direction", "Short"], kind := .direction, needs := [.direction] }
  else if qualifier = "math" ∧ x = "pi" then
    .ok { code := .path ["std", "f64", "consts", "PI"], kind := .number }
  else if qualifier = "math" ∧ x = "e" then
    .ok { code := .path ["std", "f64", "consts", "E"], kind := .number }
  else if qualifier = "color" then .ok { code := .text ("color." ++ x), kind := .text }
  else if qualifier = "ta" then
    match Indicator.find? ("ta." ++ x) with
    | some i =>
      if i.required = 0 then indicator ctx i [] span
      else fail span (.needsArguments i.qualifiedName)
    | none => fail span (.unknownIndicator ("ta." ++ x))
  else fail span (.unsupportedMember qualifier x)

def call (ctx : Context) (callee : Reference) (calleeSpan : Span)
    (args : List (Argument Actual)) (span : Span) : Except LoweringError Lowered :=
  match callee with
  | .member qualifier x =>
    if qualifier = "ta" then
      match Indicator.find? ("ta." ++ x) with
      | some i => indicator ctx i args span
      | none => fail calleeSpan (.unknownIndicator ("ta." ++ x))
    else if qualifier = "math" then mathCall x args span
    else fail calleeSpan (.unsupportedCall qualifier x)
  | .plain x =>
    match ctx.scope.lookup? x with
    | some ⟨_, emitted, .function sig⟩ => functionCall x emitted sig args span
    | _ =>
      if x = "nz" then orElse args span
      else if x = "na" then isMissing args span
      else if x = "int" then toInteger args span
      else if x = "float" then toNumber args span
      else fail calleeSpan (.unknownFunction x)

/-! ## Expressions -/

mutual

def lower (ctx : Context) : Expr → Except LoweringError Lowered
  | .number _ x isInt => .ok (.ofNumber x isInt)
  | .text _ s | .color _ s => .ok { code := .text s, kind := .text }
  | .bool _ b => .ok { code := .bool b, kind := .bool }
  | .na _ => .ok (.ofSeries (.call (.path ["Series", "na"]) [.barCount]) [.seriesType])
  | .series _ f => .ok (field f)
  | .name span (.plain x) => name ctx x span
  | .name span (.member qualifier x) => member ctx qualifier x span
  | .call span callee calleeSpan args => call ctx callee calleeSpan (lowerArguments ctx args) span
  | .index _ target offset => do
    let v ← lower ctx target
    let n ← lower ctx offset
    history v n target.span offset.span
  | .unary span op operand => do
    let v ← lower ctx operand
    unary op v span
  | .binary span op left right => do
    let l ← lower ctx left
    let r ← lower ctx right
    binary op l r span
  | .ternary span c yes no => do
    let condition ← lower ctx c
    let a ← lower ctx yes
    let b ← lower ctx no
    conditional condition a b c.span yes.span no.span span
  | .tuple span _ => fail span .tupleLiteral

def lowerArguments (ctx : Context) : List (Argument Expr) → List (Argument Actual)
  | [] => []
  | ⟨x, value, span⟩ :: rest =>
    ⟨x, ⟨value.span, lower ctx value⟩, span⟩ :: lowerArguments ctx rest

end

/-- Lowers an expression whose value is bound to one name, or to `arity` names at once. -/
def expression (ctx : Context) (arity : Option Nat) (e : Expr) : Except LoweringError Lowered := do
  let v ← lower ctx e
  match v.kind, arity with
  | .tuple n, some m => if n = m then return v else fail e.span (.wrongTupleSize n m)
  | .tuple n, none => fail e.span (.unboundTuple n)
  | _, some m => fail e.span (.needsTuple m)
  | _, none => return v

def parse (text : List Char) (span : Span) : Except LoweringError Expr :=
  (Expr.parse text span).mapError (Located.map .expr)

def text (ctx : Context) (arity : Option Nat) (text : List Char) (span : Span) :
    Except LoweringError Lowered := do
  expression ctx arity (← parse text span)

end Lowering

end ChartScript
