import ChartScript.Conversion
import ChartScript.Script.Report
/-!
Outcomes of conversions as JSON.
-/
namespace ChartScript

open Json

def Rejection.detail : Rejection → Json
  | syntaxError e =>
    .object [("line", nat e.span.line), ("column", nat e.span.column),
      ("expected", texts e.cause.expected), ("message", .text e.cause.message)]
  | complexity score threshold factors =>
    .object [("score", .float score), ("threshold", .float threshold),
      ("factors", Script.factorsJson factors)]
  | unsupported r =>
    .object [("span", r.span.toJson), ("description", .text r.cause.description)]

def Rejection.toJson (r : Rejection) : Json :=
  .object [("outcome", .text "rejected"), ("reason", .text r.reason), ("detail", r.detail)]

def Conversion.warningJson (w : Warning) : Json :=
  .object [("line", nat w.span.line), ("column", nat w.span.column),
    ("message", .text w.cause.message)]

def Conversion.toJson (c : Conversion) : Json :=
  .object [("outcome", .text "converted"), ("source_text", .text c.module.text),
    ("type_name", .text c.module.typeName), ("complexity_score", .float c.score),
    ("factors", Script.factorsJson c.factors), ("route", .text c.route.tag),
    ("warnings", list warningJson c.warnings), ("indicators_used", texts c.indicators)]

end ChartScript
