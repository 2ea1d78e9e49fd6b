import ChartScript.PriceSource
import ChartScript.Decimal.Layout
/-!
The known indicators: their parameters in order, with the values taken for those a call leaves out,
what they need and how many series they yield.
-/
namespace ChartScript

/-- What an indicator does with an argument. -/
inductive ParamKind where
  | source | length | value | flag
deriving DecidableEq, Repr

/-- The value of a parameter that a call leaves out. An average price is looked up by its name where
the call stands. -/
inductive DefaultArgument where
  | price (source : PriceSource)
  | integer (value : Nat)
  | decimal (value : Float)
  | flag (value : Bool)

/-- The default as it would be written in a script. -/
def DefaultArgument.text : DefaultArgument → String
  | price source => source.name
  | integer n => toString n
  | decimal x => Decimal.write x
  | flag true => "true"
  | flag false => "false"

structure Parameter where
  name : String
  kind : ParamKind
  default : Option DefaultArgument

inductive Category where
  | movingAverage | momentum | volatility | volume | cross | statistics | directional | pivot
  | trend
deriving DecidableEq, Repr

namespace Category

def name : Category → String
  | movingAverage => "moving average"
  | momentum => "momentum"
  | volatility => "volatility"
  | volume => "volume"
  | cross => "cross"
  | statistics => "statistics"
  | directional => "directional"
  | pivot => "pivot"
  | trend => "trend"

def all : List Category :=
  [movingAverage, momentum, volatility, volume, cross, statistics, directional, pivot, trend]

end Category

structure Indicator where
  /-- Name after `ta.`. -/
  name : String
  params : List Parameter
  category : Category
  description : String
  /-- The whole bars are read, not only the arguments. -/
  needsBars : Bool := false
  outputs : Nat := 1
  /-- One argument too few means that the first is left out. -/
  leadingSourceOptional : Bool := false

namespace Indicator

def qualifiedName (i : Indicator) : String :=
  "ta." ++ i.name

def required (i : Indicator) : Nat :=
  (i.params.filter (·.default.isNone)).length

def parameterIndex? (i : Indicator) (name : String) : Option Nat :=
  i.params.findIdx? (·.name == name)

/-! ## The table -/

def source (name : String) (price : Option PriceSource) : Parameter :=
  ⟨name, .source, price.map .price⟩

def length (name : String) (n : Option Nat) : Parameter :=
  ⟨name, .length, n.map .integer⟩

def decimal (name : String) (x : Float) : Parameter :=
  ⟨name, .value, some (.decimal x)⟩

def integer (name : String) (n : Nat) : Parameter :=
  ⟨name, .value, some (.integer n)⟩

def flag (name : String) (b : Bool) : Parameter :=
  ⟨name, .flag, some (.flag b)⟩

def sourceLength : List Parameter :=
  [source "source" (some (.field .close)), length "length" none]

def twoSources : List Parameter :=
  [source "source1" none, source "source2" none]

def movingAverages : List Indicator := [
  { name := "sma", params := sourceLength, category := .movingAverage
    description := "Simple moving average" },
  { name := "ema", params := sourceLength, category := .movingAverage
    description := "Exponential moving average, seeded with the SMA" },
  { name := "wma", params := sourceLength, category := .movingAverage
    description := "Linearly weighted moving average" },
  { name := "rma", params := sourceLength, category := .movingAverage
    description := "Wilder's running moving average" },
  { name := "vwma", params := sourceLength, category := .movingAverage
    description := "Volume-weighted moving average", needsBars := true },
  { name := "hma", params := sourceLength, category := .movingAverage
    description := "Hull moving average" },
  { name := "alma", category := .movingAverage
    params := [source "series" (some (.field .close)), length "length" none, decimal "offset" 0.85,
      integer "sigma" 6]
    description := "Arnaud Legoux moving average" },
  { name := "tema", params := sourceLength, category := .movingAverage
    description := "Triple exponential moving average" },
  { name := "dema", params := sourceLength, category := .movingAverage
    description := "Double exponential moving average" }]

def momentum : List Indicator := [
  { name := "rsi", category := .momentum
    params := [source "source" (some (.field .close)), length "length" (some 14)]
    description := "Relative strength index with Wilder smoothing" },
  { name := "macd", category := .momentum, outputs := 3
    params := [source "source" (some (.field .close)), length "fastlen" (some 12),
      length "slowlen" (some 26), length "siglen" (some 9)]
    description := "MACD line, signal line and histogram" },
  { name := "stoch", category := .momentum, outputs := 2
    params := [source "source" (some (.field .close)), source "high" (some (.field .high)),
      source "low" (some (.field .low)), length "length" (some 14), length "smooth_d" (some 3)]
    description := "Stochastic %K and its %D average" },
  { name := "cci", category := .momentum
    params := [source "source" (some (.average .hlc3)), length "length" (some 20)]
    description := "Commodity channel index" },
  { name := "mfi", category := .momentum, needsBars := true
    params := [source "series" (some (.average .hlc3)), length "length" (some 14)]
    description := "Money flow index" },
  { name := "roc", params := sourceLength, category := .momentum
    description := "Rate of change in percent" },
  { name := "wpr", params := [length "length" (some 14)], category := .momentum
    description := "Williams %R", needsBars := true },
  { name := "mom", params := sourceLength, category := .momentum
    description := "Momentum: source minus source n bars ago" }]

def volatility : List Indicator := [
  { name := "atr", params := [length "length" (some 14)], category := .volatility
    description := "Average true range", needsBars := true },
  { name := "tr", params := [flag "handle_na" false], category := .volatility
    description := "True range", needsBars := true },
  { name := "bb", category := .volatility, outputs := 3
    params := [source "series" (some (.field .close)), length "length" (some 20),
      decimal "mult" 2.0]
    description := "Bollinger Bands: basis, upper and lower" },
  { name := "kc", category := .volatility, needsBars := true, outputs := 3
    params := [source "series" (some (.field .close)), length "length" (some 20),
      decimal "mult" 1.5, flag "useTrueRange" true]
    description := "Keltner Channels: basis, upper and lower" },
  { name := "stdev", params := sourceLength, category := .volatility
    description := "Population standard deviation" },
  { name := "variance", params := sourceLength, category := .volatility
    description := "Population variance" },
  { name := "range", params := sourceLength, category := .volatility
    description := "Highest minus lowest over the window" }]

def volumes : List Indicator := [
  { name := "vwap", params := [source "source" (some (.average .hlc3))], category := .volume
    description := "Cumulative volume-weighted average price", needsBars := true },
  { name := "obv", params := [], category := .volume
    description := "On-balance volume", needsBars := true },
  { name := "accdist", params := [], category := .volume
    description := "Accumulation/distribution", needsBars := true }]

def crosses : List Indicator := [
  { name := "crossover", params := twoSources, category := .cross
    description := "True when the first series crosses above the second" },
  { name := "crossunder", params := twoSources, category := .cross
    description := "True when the first series crosses below the second" },
  { name := "cross", params := twoSources, category := .cross
    description := "True when the series cross in either direction" }]

def statistics : List Indicator := [
  { name := "highest", category := .statistics, leadingSourceOptional := true
    params := [source "source" (some (.field .high)), length "length" none]
    description := "Highest value over the window" },
  { name := "lowest", category := .statistics, leadingSourceOptional := true
    params := [source "source" (some (.field .low)), length "length" none]
    description := "Lowest value over the window" },
  { name := "change", category := .statistics
    params := [source "source" (some (.field .close)), length "length" (some 1)]
    description := "Difference from the value n bars ago" },
  { name := "cum", params := [source "source" none], category := .statistics
    description := "Cumulative sum" },
  { name := "correlation", params := twoSources ++ [length "length" none]
    category := .statistics, description := "Pearson correlation coefficient" },
  { name := "covariance", params := twoSources ++ [length "length" none]
    category := .statistics, description := "Population covariance" },
  { name := "median", params := sourceLength, category := .statistics
    description := "Median over the window" },
  { name := "mode", params := sourceLength, category := .statistics
    description := "Most frequent value over the window" },
  { name := "percentrank", params := sourceLength, category := .statistics
    description := "Percent of previous values at or below the current one" }]

def directional : List Indicator := [
  { name := "adx", category := .directional, needsBars := true
    params := [length "diLength" (some 14), length "adxSmoothing" (some 14)]
    description := "Average directional index" },
  { name := "dmi", category := .directional, needsBars := true, outputs := 3
    params := [length "diLength" (some 14), length "adxSmoothing" (some 14)]
    description := "+DI, -DI and ADX" }]

def pivots : List Indicator := [
  { name := "pivothigh", category := .pivot, leadingSourceOptional := true
    params := [source "source" (some (.field .high)), length "leftbars" none,
      length "rightbars" none]
    description := "Pivot high value, reported rightbars later" },
  { name := "pivotlow", category := .pivot, leadingSourceOptional := true
    params := [source "source" (some (.field .low)), length "leftbars" none,
      length "rightbars" none]
    description := "Pivot low value, reported rightbars later" }]

def trends : List Indicator := [
  { name := "supertrend", category := .trend, needsBars := true, outputs := 2
    params := [decimal "factor" 3.0, length "atrPeriod" (some 10)]
    description := "Supertrend line and direction" },
  { name := "sar", category := .trend, needsBars := true
    params := [decimal "start" 0.02, decimal "inc" 0.02, decimal "max" 0.2]
    description := "Parabolic stop and reverse" }]

def catalogue : List Indicator :=
  movingAverages ++ momentum ++ volatility ++ volumes ++ crosses ++ statistics ++ directional ++
    pivots ++ trends

def find? (qualifiedName : String) : Option Indicator :=
  catalogue.find? (·.qualifiedName == qualifiedName)

def sorted : List Indicator :=
  catalogue.mergeSort (·.name ≤ ·.name)

end Indicator

end ChartScript
