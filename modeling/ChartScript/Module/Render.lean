import ChartScript.Module.Basic
/-!
The text of a module.
-/
namespace ChartScript.Module

/-! ## Imports -/

/-- What a module can import from the library. -/
inductive Import where
  | ops | ta | bars | direction | order | plot | plotKind | runOutput | series | source
deriving DecidableEq, Repr

namespace Import

def name : Import → String
  | ops => "ops" | ta => "ta" | bars => "Bars" | direction => "Direction" | order => "Order"
  | plot => "Plot" | plotKind => "PlotKind" | runOutput => "RunOutput" | series => "Series"
  | source => "Source"

/-- Modules before types, both in the order of names. -/
def all : List Import :=
  [ops, ta, bars, direction, order, plot, plotKind, runOutput, series, source]

def ofTest : Test → List Import
  | .truthy _ => [ops]
  | _ => []

def ofBarValue : BarValue → List Import
  | .series _ => [ops]
  | .fixed _ => []

def ofRequest : OrderRequest → List Import
  | .entry .. | .order .. => [order, direction]
  | _ => [order]

def ofOrder (o : EmittedOrder) : List Import :=
  ofRequest o.request ++
    ([o.quantity, o.stop, o.limit].filterMap id).flatMap ofBarValue

mutual

def ofAction : Action → List Import
  | .order _ test o => ofOrder o ++ (test.map ofTest).getD []
  | .choose chain => ofChain chain

def ofChain : Chain → List Import
  | .stop => []
  | .otherwise body => ofActions body
  | .arm test body rest => ofTest test ++ ofActions body ++ ofChain rest

def ofActions : List Action → List Import
  | [] => []
  | a :: rest => ofAction a ++ ofActions rest

end

def ofNeed : Need → List Import
  | .ops => [ops]
  | .indicator _ => [ta]
  | .seriesType => [series]
  | .direction => [direction]
  | _ => []

def ofStep : Step → List Import
  | .bind .. => []
  | .plot p => if p.broadcast then [ops, plot, plotKind] else [plot, plotKind]

end Import

def imports (m : Module) : List Import :=
  let used := [.bars, .runOutput] ++ m.needs.flatMap Import.ofNeed ++
    m.steps.flatMap Import.ofStep ++ Import.ofActions (m.actions.getD []) ++
    if m.sourceInputs.isEmpty then [] else [.source]
  Import.all.filter used.contains

/-! ## What is done on each bar -/

def renderTest : Test → String
  | .flag name => name
  | .nonzero name => name ++ " != 0.0"
  | .truthy name => "ops::truthy(&" ++ name ++ ", idx)"

def renderBarValue : BarValue → String
  | .fixed name => "Some(" ++ name ++ ")"
  | .series name => "ops::value_at(&" ++ name ++ ", idx)"

def renderDirection (d : Direction) : String :=
  "Direction::" ++ d.tag

def renderRequest : OrderRequest → String
  | .entry id d => "Order::entry(" ++ Text.quote id ++ ", " ++ renderDirection d ++ ", idx)"
  | .order id d => "Order::order(" ++ Text.quote id ++ ", " ++ renderDirection d ++ ", idx)"
  | .close id => "Order::close(" ++ Text.quote id ++ ", idx)"
  | .closeAll => "Order::close_all(idx)"
  | .exit id => "Order::exit(" ++ Text.quote id ++ ", idx)"
  | .cancel id => "Order::cancel(" ++ Text.quote id ++ ", idx)"
  | .cancelAll => "Order::cancel_all(idx)"

/-- A call that sets a part of an order, if it is given. -/
def renderPart {α : Type} (method : String) (render : α → String) : Option α → String
  | some value => "." ++ method ++ "(" ++ render value ++ ")"
  | none => ""

def renderOrder (o : EmittedOrder) : String :=
  renderRequest o.request ++ renderPart "with_qty" renderBarValue o.quantity ++
    renderPart "with_stop" renderBarValue o.stop ++
    renderPart "with_limit" renderBarValue o.limit ++
    renderPart "with_from_entry" Text.quote o.fromEntry

def line (depth : Nat) (text : String) : String :=
  String.ofList (List.replicate (4 * depth) ' ') ++ text

mutual

def actionLines (depth : Nat) : Action → List String
  | .order _ none o => [line depth ("out.order(" ++ renderOrder o ++ ");")]
  | .order _ (some test) o =>
    [line depth ("if " ++ renderTest test ++ " \x7b"),
     line (depth + 1) ("out.order(" ++ renderOrder o ++ ");"),
     line depth "\x7d"]
  | .choose chain => chainLines depth "" chain

/-- The lines of a chain; `opening` stands before the word of its first line. -/
def chainLines (depth : Nat) (opening : String) : Chain → List String
  | .stop => [line depth "\x7d"]
  | .otherwise body =>
    line depth (opening ++ "\x7b") :: actionsLines (depth + 1) body ++ [line depth "\x7d"]
  | .arm test body rest =>
    line depth (opening ++ "if " ++ renderTest test ++ " \x7b") ::
      actionsLines (depth + 1) body ++ chainLines depth "\x7d else " rest

def actionsLines (depth : Nat) : List Action → List String
  | [] => []
  | a :: rest => actionLines depth a ++ actionsLines depth rest

end

/-! ## What is done once -/

def renderPlot (p : EmittedPlot) : String :=
  "Plot::new(PlotKind::" ++ p.mark.tag ++ ", " ++ Text.quote p.title ++ ", " ++
    p.series.render ++ ")" ++ renderPart "with_color" Text.quote p.color

def block (depth : Nat) (text : String) : List String :=
  (Text.lines text.toList).map fun cs => line depth (String.ofList cs)

def stepLines : Step → List String
  | .bind pattern code => block 2 ("let " ++ pattern.render ++ " = " ++ code.render ++ ";")
  | .plot p => block 2 ("out.plot(" ++ renderPlot p ++ ");")

/-- A series of the bars under its own name. -/
def fieldLine (name : String) : String :=
  line 2 ("let " ++ name ++ " = bars." ++ name ++ "();")

def localLines (m : Module) : List String :=
  (if m.inputs.isEmpty then [] else [line 2 "let params = &self.params;"]) ++
    (Need.fields m.needs).map (fieldLine ·.name) ++
    (Need.averages m.needs).map (fieldLine ·.name) ++
    (if m.needs.contains .barIndex then [fieldLine "bar_index"] else []) ++
    m.sourceInputs.map fun f =>
      line 2 ("let " ++ f.field ++ " = bars.source(params." ++ f.field ++ ");")

def loopLines (m : Module) : List String :=
  match m.actions with
  | none => []
  | some actions =>
    [line 2 "for idx in 0..bars.len() \x7b"] ++ actionsLines 3 actions ++ [line 2 "\x7d"]

def runLines (m : Module) : List String :=
  m.localLines ++ [line 2 "let mut out = RunOutput::new();"] ++ m.steps.flatMap stepLines ++
    m.loopLines ++ [line 2 "out"]

/-! ## The whole text -/

def kindName : ScriptKind → String
  | .indicator => "indicator"
  | .strategy => "strategy"

def headerLines (m : Module) : List String :=
  let indicators := Need.indicators m.needs
  ["//! Generated by pinecast from " ++ Text.quote m.title ++ " (" ++ kindName m.kind ++
     ", version " ++ toString m.version ++ ")."] ++
    (if indicators.isEmpty then []
     else ["//!", "//! Indicators: " ++ ", ".intercalate indicators ++ "."]) ++
    ["",
     "use " ++ m.runtimePath ++ "::\x7b" ++ ", ".intercalate (m.imports.map (·.name)) ++ "\x7d;",
     ""]

/-- The field of an input, with its title above it as it is. -/
def fieldLines (f : InputField) : List String :=
  (match f.title with
    | some title => ["    /// " ++ title]
    | none => []) ++
    ["    pub " ++ f.field ++ ": " ++ f.typeName ++ ","]

def paramsLines (m : Module) : List String :=
  ["/// Inputs of " ++ Text.quote m.title ++ "."] ++
    if m.inputs.isEmpty then
      ["#[derive(Debug, Clone, Default, PartialEq)]",
       "pub struct " ++ m.paramsName ++ " \x7b\x7d"]
    else
      ["#[derive(Debug, Clone, PartialEq)]", "pub struct " ++ m.paramsName ++ " \x7b"] ++
        m.inputs.flatMap fieldLines ++
        ["\x7d", "", "impl Default for " ++ m.paramsName ++ " \x7b",
         "    fn default() -> Self \x7b", "        Self \x7b"] ++
        m.inputs.map (fun f => "            " ++ f.field ++ ": " ++ f.default.render ++ ",") ++
        ["        \x7d", "    \x7d", "\x7d"]

def structLines (m : Module) : List String :=
  ["", "#[derive(Debug, Clone, Default)]", "pub struct " ++ m.typeName ++ " \x7b",
   "    pub params: " ++ m.paramsName ++ ",", "\x7d", "",
   "impl " ++ m.typeName ++ " \x7b",
   "    pub fn new(params: " ++ m.paramsName ++ ") -> Self \x7b",
   "        Self \x7b params \x7d", "    \x7d", "",
   "    #[allow(unused_variables, unused_mut, unused_parens)]",
   "    pub fn run(&self, bars: &Bars) -> RunOutput \x7b"] ++
    m.runLines ++ ["    \x7d", "\x7d"]

def lines (m : Module) : List String :=
  m.headerLines ++ m.paramsLines ++ m.structLines

def render (m : Module) : String :=
  String.join (m.lines.map (· ++ "\n"))

end ChartScript.Module
