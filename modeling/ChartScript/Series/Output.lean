import ChartScript.Json
import ChartScript.OrderKind
import ChartScript.PlotKind
import ChartScript.Series.Basic
/-!
What a run over bars yields: plots and orders, each in the order in which they were made.
-/
namespace ChartScript

structure Order where
  kind : OrderKind
  id : Option String := none
  direction : Option Direction := none
  /-- The bar on which the order was made. -/
  bar : Nat
  quantity : Option Float := none
  stop : Option Float := none
  limit : Option Float := none
  fromEntry : Option String := none

def Order.make (kind : OrderKind) (id : String) (direction : Direction) (bar : Nat) : Order where
  kind := kind
  id := if kind.needsId then some id else none
  direction := if kind.needsDirection then some direction else none
  bar := bar

structure Plot where
  mark : Mark
  title : String
  /-- The colour as it is written in the script. -/
  color : Option String
  series : Series

structure RunOutput where
  plots : List Plot := []
  orders : List Order := []

namespace RunOutput

def addPlot (r : RunOutput) (p : Plot) : RunOutput :=
  { r with plots := r.plots ++ [p] }

def addOrder (r : RunOutput) (o : Order) : RunOutput :=
  { r with orders := r.orders ++ [o] }

def plotNamed? (r : RunOutput) (title : String) : Option Plot :=
  r.plots.find? (·.title == title)

end RunOutput

/-! ## JSON -/

def Series.toJson (s : Series) : Json :=
  Json.list (Json.nullable .float) s.values

def Order.toJson (o : Order) : Json :=
  .object [("kind", .text o.kind.tag), ("id", Json.nullable .text o.id),
    ("direction", Json.nullable (fun d => .text d.tag) o.direction), ("bar", Json.nat o.bar),
    ("qty", Json.nullable .float o.quantity), ("stop", Json.nullable .float o.stop),
    ("limit", Json.nullable .float o.limit), ("from_entry", Json.nullable .text o.fromEntry)]

def Plot.toJson (p : Plot) : Json :=
  .object [("kind", .text p.mark.tag), ("title", .text p.title),
    ("color", Json.nullable .text p.color), ("series", .object [("values", p.series.toJson)])]

def RunOutput.toJson (r : RunOutput) : Json :=
  .object [("plots", Json.list Plot.toJson r.plots), ("orders", Json.list Order.toJson r.orders)]

end ChartScript
