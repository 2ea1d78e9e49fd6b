import ChartScript.Indicator.Catalogue
import ChartScript.Json
/-!
The catalogue of indicators as a list for people, by category, and as JSON.
-/
namespace ChartScript

/-! ## Names in reports -/

def ParamKind.tag : ParamKind → String
  | source => "Source" | length => "Length" | value => "Value" | flag => "Flag"

def Category.tag : Category → String
  | movingAverage => "MovingAverage" | momentum => "Momentum" | volatility => "Volatility"
  | volume => "Volume" | cross => "Cross" | statistics => "Statistics"
  | directional => "Directional" | pivot => "Pivot" | trend => "Trend"

namespace Indicator

/-! ## Listings -/

/-- The parameters as they would be declared. -/
def signature (i : Indicator) : String :=
  let param (p : Parameter) : String :=
    match p.default with
    | some d => p.name ++ "=" ++ d.text
    | none => p.name
  i.qualifiedName ++ "(" ++ ", ".intercalate (i.params.map param) ++ ")"

def listingLine (i : Indicator) : String :=
  let signature := i.signature
  "  " ++ signature ++ String.ofList (List.replicate (44 - signature.length) ' ') ++ " " ++
    i.description ++ if 1 < i.outputs then s!" -> {i.outputs} series" else ""

def listingLines (c : Category) : List String :=
  match sorted.filter (·.category == c) with
  | [] => []
  | members => (c.name ++ ":") :: members.map listingLine

def listing : String :=
  String.join ((Category.all.flatMap listingLines).map (· ++ "\n"))

def parameterJson (p : Parameter) : Json :=
  .object [("name", .text p.name), ("kind", .text p.kind.tag),
    ("default", Json.nullable (fun d => .text d.text) p.default)]

def toJson (i : Indicator) : Json :=
  .object [("qualified_name", .text i.qualifiedName), ("callable", .text i.name),
    ("params", .array (i.params.map parameterJson)), ("needs_bars", .bool i.needsBars),
    ("outputs", .int i.outputs), ("category", .text i.category.tag),
    ("description", .text i.description),
    ("leading_source_optional", .bool i.leadingSourceOptional)]

def catalogueJson : Json :=
  .array (sorted.map toJson)

end Indicator

end ChartScript
