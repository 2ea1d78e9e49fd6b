import ChartScript.Code
import ChartScript.Lowering.Fault
import ChartScript.Text.Sorted
/-!
Lowered values: the code of a value together with its kind and with all that the code relies on.
-/
namespace ChartScript

/-- Something that emitted code relies on and that has to be brought into scope. -/
inductive Need where
  | field (f : BarField)
  | average (a : Average)
  | barIndex
  | ops
  | indicator (name : String)
  | seriesType
  | direction
deriving DecidableEq, Repr

namespace Need

def fields (needs : List Need) : List BarField :=
  BarField.all.filter fun f => needs.contains (.field f)

def averages (needs : List Need) : List Average :=
  Average.all.filter fun a => needs.contains (.average a)

/-- Qualified names of the indicators, in order. -/
def indicators (needs : List Need) : List String :=
  Text.sortedOnce (needs.filterMap fun | indicator name => some name | _ => none)

end Need

structure Lowered where
  code : Code
  kind : ValueKind
  /-- The code names a series that is there already, so it can be borrowed but not moved. -/
  place : Bool := false
  /-- How the value is written where a window length is wanted, if that differs. -/
  length : Option Code := none
  needs : List Need := []

namespace Lowered

def ofSeries (code : Code) (needs : List Need) : Lowered :=
  { code := code, kind := .series, needs := needs }

def ofPlace (name : String) (needs : List Need) : Lowered :=
  { code := .name name, kind := .series, place := true, needs := needs }

def ofNumber (x : Float) (isInt : Bool) : Lowered :=
  { code := .number x, kind := .number
    length := if isInt then some (.integer (Decimal.toInt64 x)) else none }

def operand (v : Lowered) : Code :=
  if v.place ∧ v.kind = .series then .borrow v.code else v.code

/-- The value as a series that can be moved. -/
def owned (v : Lowered) : Code :=
  if v.kind = .series then if v.place then .method v.code "clone" [] else v.code
  else .broadcast v.code

/-- The value in a form that a name can be bound to. -/
def bindable (v : Lowered) : Lowered :=
  if v.place ∧ v.kind = .series then { v with code := v.owned, place := false } else v

/-- The value as a truth value; a number is true when it is not zero. -/
def truth (v : Lowered) : Code :=
  if v.kind = .number then .binary .ne v.code (.number 0.0) else v.code

def isScalar (v : Lowered) : Bool :=
  v.kind == .number || v.kind == .bool

/-! ## Where a value may stand -/

def checkOperand (v : Lowered) (span : Span) : Except LoweringError Unit :=
  match v.kind with
  | .number | .bool | .series => .ok ()
  | .tuple n => .error ⟨span, .unboundTuple n⟩
  | kind => .error ⟨span, .notOperand kind⟩

def checkNumeric (v : Lowered) (span : Span) (what : String) : Except LoweringError Unit :=
  if v.kind.isNumeric then .ok () else .error ⟨span, .notNumeric what v.kind⟩

/-- A reference to a series; a single value is spread over all bars. -/
def seriesArgument (v : Lowered) (span : Span) (what : String) :
    Except LoweringError (Code × List Need) :=
  match v.kind with
  | .series => .ok (.borrow v.code, [])
  | .number | .bool => .ok (.borrow (.broadcast v.code), [.ops])
  | kind => .error ⟨span, .notSeries what kind⟩

def lengthArgument (v : Lowered) (span : Span) (what : String) :
    Except LoweringError (Code × List Need) :=
  if v.kind = .number then
    match v.length with
    | some code => .ok (code, [])
    | none => .ok (.ops "length" [v.code], [.ops])
  else .error ⟨span, .notNumber what v.kind⟩

def parameterArgument (v : Lowered) (kind : ValueKind) (span : Span) (what : String) :
    Except LoweringError (Code × List Need) :=
  if kind = .series then v.seriesArgument span what
  else if kind = v.kind ∧ (kind = .number ∨ kind = .bool) then .ok (v.code, [])
  else .error ⟨span, .wrongParameterKind what kind v.kind⟩

end Lowered

end ChartScript
