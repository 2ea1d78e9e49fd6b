import ChartScript.Lowering.Script
/-!
The module that a script becomes, before it is text: its parameters, the values it computes over all
bars, and what it does on each bar.
-/
namespace ChartScript

/-- How a value decides something on a bar. -/
inductive Test where
  | flag (name : String)
  | nonzero (name : String)
  /-- A series that is there and not zero on the bar. -/
  | truthy (name : String)
deriving DecidableEq, Repr

/-- A number that may be missing on a bar. -/
inductive BarValue where
  | fixed (name : String)
  | series (name : String)
deriving DecidableEq, Repr

inductive OrderRequest where
  | entry (id : String) (direction : Direction)
  | order (id : String) (direction : Direction)
  | close (id : String)
  | closeAll
  | exit (id : String)
  | cancel (id : String)
  | cancelAll
deriving DecidableEq, Repr

structure EmittedOrder where
  request : OrderRequest
  quantity : Option BarValue
  stop : Option BarValue
  limit : Option BarValue
  fromEntry : Option String
deriving DecidableEq, Repr

mutual

/-- What is done on a bar. -/
inductive Action where
  /-- The order with the given number among those of the script, if its test holds. -/
  | order (index : Nat) (test : Option Test) (order : EmittedOrder)
  | choose (chain : Chain)

/-- The rest of a chain of tests, of which the first that holds decides. -/
inductive Chain where
  | stop
  | otherwise (body : List Action)
  | arm (test : Test) (body : List Action) (rest : Chain)

end

structure EmittedPlot where
  mark : Mark
  title : String
  series : Code
  /-- The series is a single value spread over all bars. -/
  broadcast : Bool
  color : Option String

/-- What is done once, over all bars. -/
inductive Step where
  | bind (pattern : Pattern) (code : Code)
  | plot (p : EmittedPlot)

structure Module where
  typeName : String
  title : String
  kind : ScriptKind
  version : Nat
  /-- Where the emitted code finds the library it uses. -/
  runtimePath : String
  inputs : List InputField
  needs : List Need
  steps : List Step
  /-- What is done on each bar, unless the script makes no orders at all. -/
  actions : Option (List Action)

/-! ## Names -/

namespace Module

/-- Names that the module itself refers to. -/
def libraryTypes : List String :=
  ["Bar", "Bars", "Direction", "Order", "OrderKind", "Plot", "PlotKind", "RunOutput", "Series",
   "Source", "Self"]

/-- The letters and digits of a text, with a capital at the beginning of each word. -/
def joinWords (inWord : Bool) : List Char → List Char
  | [] => []
  | c :: rest =>
    if c.isAlpha || c.isDigit then (if inWord then c else c.toUpper) :: joinWords true rest
    else joinWords false rest

def typeNameOf (title : String) : String :=
  let words := joinWords false title.toList
  let name := if words.head?.all Char.isDigit then "Script" ++ String.ofList words
    else String.ofList words
  if libraryTypes.contains name then name ++ "Script" else name

def paramsName (m : Module) : String :=
  m.typeName ++ "Params"

def sourceInputs (m : Module) : List InputField :=
  m.inputs.filter (·.kind == .source)

end Module

end ChartScript
