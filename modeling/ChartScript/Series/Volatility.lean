import ChartScript.Series.Moving
import ChartScript.Series.Statistics
/-!
Volatility, and bands around an average.
-/
namespace ChartScript

namespace Series

def variance (s : Series) (length : Nat) : Series :=
  s.rolling length fun w => some (Number.variance w)

def stdev (s : Series) (length : Nat) : Series :=
  s.rolling length fun w => some (Number.variance w).sqrt

/-- The highest less the lowest. -/
def range (s : Series) (length : Nat) : Series :=
  Operand.sub (s.highest length) (s.lowest length)

/-- An average with a band of the given width above and below. -/
def band (basis width : Series) : Series × Series × Series :=
  (basis, Operand.add basis width, Operand.sub basis width)

/-- A band of standard deviations around the simple average. -/
def bb (s : Series) (length : Nat) (factor : Float) : Series × Series × Series :=
  band (s.sma length) (Operand.mul (s.stdev length) factor)

end Series

namespace Bars

/-- The true range of each bar. The first bar has no close before it: its own range is taken, or
none. -/
def tr (b : Bars) (ownRangeFirst : Bool) : Series :=
  Series.ofValues (scan
    (fun previous bar =>
      (some bar.close,
       match previous with
       | some close => some (bar.trueRange close)
       | none => if ownRangeFirst then some (bar.high - bar.low) else none))
    none b.bars)

/-- The average true range. -/
def atr (b : Bars) (length : Nat) : Series :=
  (b.tr true).rma length

/-- A band of average ranges around the exponential average. -/
def kc (b : Bars) (s : Series) (length : Nat) (factor : Float) (useTrueRange : Bool) :
    Series × Series × Series :=
  let ranges := if useTrueRange then b.tr true else Operand.sub b.high b.low
  Series.band (s.ema length) (Operand.mul (ranges.ema length) factor)

end Bars

end ChartScript
