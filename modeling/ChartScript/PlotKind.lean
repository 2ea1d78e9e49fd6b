/-!
The ways of showing something on the chart. Marks show a series; decorations colour or connect what
is there already and have no series of their own.
-/
namespace ChartScript

inductive Mark where
  | line | shape | char | arrow | hline
deriving DecidableEq, Repr

def Mark.tag : Mark → String
  | line => "Line" | shape => "Shape" | char => "Char" | arrow => "Arrow" | hline => "Hline"

inductive Decoration where
  | background | barColor | fill | candle | bar
deriving DecidableEq, Repr

inductive PlotKind where
  | mark (m : Mark)
  | decoration (d : Decoration)
deriving DecidableEq, Repr

namespace PlotKind

/-- Name of the call. -/
def name : PlotKind → String
  | mark .line => "plot" | mark .shape => "plotshape" | mark .char => "plotchar"
  | mark .arrow => "plotarrow" | mark .hline => "hline"
  | decoration .background => "bgcolor" | decoration .barColor => "barcolor"
  | decoration .fill => "fill" | decoration .candle => "plotcandle"
  | decoration .bar => "plotbar"

def tag : PlotKind → String
  | mark .line => "Plot" | mark m => m.tag
  | decoration .background => "Background" | decoration .barColor => "BarColor"
  | decoration .fill => "Fill" | decoration .candle => "Candle" | decoration .bar => "Bar"

def all : List PlotKind :=
  [mark .line, mark .shape, mark .char, mark .arrow, mark .hline, decoration .background,
   decoration .barColor, decoration .fill, decoration .candle, decoration .bar]

def ofName? (name : String) : Option PlotKind :=
  all.find? (·.name == name)

def isDecoration : PlotKind → Bool
  | decoration _ => true
  | mark _ => false

/-- Parameters in the order in which unnamed arguments fill them. -/
def positional : PlotKind → List String
  | mark .line => ["series", "title", "color"]
  | mark .shape => ["series", "title", "style", "location", "color"]
  | mark .char => ["series", "title", "char", "location", "color"]
  | mark .arrow => ["series", "title", "colorup", "colordown"]
  | mark .hline => ["price", "title", "color"]
  | decoration .background | decoration .barColor => ["color"]
  | decoration .fill => ["plot1", "plot2", "color"]
  | decoration .candle | decoration .bar => ["open", "high", "low", "close", "title", "color"]

/-- The parameter that holds what is shown. -/
def seriesParameter? : PlotKind → Option String
  | mark .hline => some "price"
  | mark _ => some "series"
  | decoration _ => none

def colorParameter : PlotKind → String
  | mark .arrow => "colorup"
  | _ => "color"

end PlotKind

end ChartScript
