import ChartScript.Decimal.Rounded
import ChartScript.Script.Parser
import ChartScript.Script.Report
import ChartScript.Text.Quoted
/-!
What a script holds and how complex it is, without converting it, as a report for people and as
JSON.
-/
namespace ChartScript

structure Analysis where
  name : String
  kind : ScriptKind
  version : Nat
  score : Float
  factors : List (String × Float)
  route : Route
  indicators : List String
  /-- How many there are of each kind of thing, by name. -/
  counts : List (String × Nat)

def Script.counts (s : Script) : List (String × Nat) :=
  [("inputs", s.inputs.length), ("variables", s.varDecls.length),
   ("functions", s.functions.length), ("strategy_calls", s.orders.length),
   ("plots", s.plots.length), ("conditions", s.conditions.length),
   ("type_decls", s.types.length), ("collection_ops", s.collectionUses.length),
   ("drawing_calls", s.drawingCalls.length), ("total_lines", s.totalLines),
   ("code_lines", s.codeLines), ("max_nesting_depth", s.nesting)]

def Script.analyze (thresholds : Thresholds) (s : Script) : Analysis where
  name := s.name
  kind := s.kind
  version := s.version
  score := s.score
  factors := s.factors
  route := thresholds.route s.score
  indicators := s.indicators
  counts := s.counts

def analyze (thresholds : Thresholds) (source : List Char) : Except SyntaxError Analysis :=
  (Script.parse source).map (·.analyze thresholds)

namespace Analysis

def count (a : Analysis) (name : String) : Nat :=
  (a.counts.lookup name).getD 0

/-- A text filled up with blanks on the right. -/
def padded (width : Nat) (text : String) : String :=
  text ++ String.ofList (List.replicate (width - text.length) ' ')

def report (file : String) (a : Analysis) : String :=
  let kind := match a.kind with
    | .indicator => "indicator"
    | .strategy => "strategy"
  let lines :=
    [s!"{file}: {Text.quote a.name} ({kind}, version {a.version})",
     s!"  score  {Decimal.fixed 3 a.score} -> {a.route.name}"] ++
    a.factors.map (fun (name, x) => "  " ++ padded 13 name ++ Decimal.fixed 3 x) ++
    ["  lines " ++ toString (a.count "total_lines") ++
       " (" ++ toString (a.count "code_lines") ++ " code)" ++
       ", inputs " ++ toString (a.count "inputs") ++
       ", variables " ++ toString (a.count "variables") ++
       ", functions " ++ toString (a.count "functions") ++
       ", conditions " ++ toString (a.count "conditions") ++
       ", nesting " ++ toString (a.count "max_nesting_depth")] ++
    if a.indicators.isEmpty then [] else ["  indicators: " ++ ", ".intercalate a.indicators]
  String.join (lines.map (· ++ "\n"))

def toJson (file : String) (a : Analysis) : Json :=
  .object [("file", .text file), ("name", .text a.name), ("kind", .text a.kind.tag),
    ("version", .int a.version), ("score", .float a.score),
    ("factors", Script.factorsJson a.factors),
    ("route", .text a.route.tag), ("indicators_used", Json.texts a.indicators),
    ("counts", .object (a.counts.map fun (name, n) => (name, .int n)))]

end Analysis

end ChartScript
