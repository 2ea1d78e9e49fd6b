import ChartScript.Series.Moving
import ChartScript.Series.Statistics
/-!
Momentum: how fast and in which direction prices move.
-/
namespace ChartScript

namespace Series

/-- Gains as a share of all movement, in percent. -/
def strength (gain loss : Float) : Float :=
  if loss == 0.0 then 100.0 else 100.0 - 100.0 / (1.0 + gain / loss)

/-- The relative strength of gains against losses. -/
def rsi (s : Series) (length : Nat) : Series :=
  let change := Operand.sub s (s.shift 1)
  let gains := Operand.apply (Number.larger · 0.0) change
  let losses := Operand.apply (fun c => Number.larger (-c) 0.0) change
  zipWith strength (gains.rma length) (losses.rma length)

/-- The difference of two averages, its own average, and the difference of the two. -/
def macd (s : Series) (fast slow signal : Nat) : Series × Series × Series :=
  let line := Operand.sub (s.ema fast) (s.ema slow)
  let signalLine := line.ema signal
  (line, signalLine, Operand.sub line signalLine)

/-- Where the value lies between the lowest and the highest, in percent, and an average of it. -/
def stoch (s high low : Series) (length smoothing : Nat) : Series × Series :=
  let top := high.highest length
  let bottom := low.lowest length
  let k := Operand.mul (Operand.div (Operand.sub s bottom) (Operand.sub top bottom))
    (100.0 : Float)
  (k, k.sma smoothing)

/-- The distance from the mean in units of the mean deviation. -/
def channelIndex? (w : List Float) : Option Float :=
  let m := Number.mean w
  let deviation := Number.mean (w.map fun x => (x - m).abs)
  w.getLast?.bind fun last =>
    if deviation == 0.0 then none else some ((last - m) / (0.015 * deviation))

def cci (s : Series) (length : Nat) : Series :=
  s.rolling length channelIndex?

/-- The change over `length` bars in percent. -/
def roc (s : Series) (length : Nat) : Series :=
  let past := s.shift length
  Operand.mul (Operand.div (Operand.sub s past) past) (100.0 : Float)

/-- The change over `length` bars. -/
def mom (s : Series) (length : Nat) : Series :=
  Operand.sub s (s.shift length)

end Series

namespace Bars

/-- The relative strength of the money that flows in against what flows out. -/
def mfi (b : Bars) (s : Series) (length : Nat) : Series :=
  let flow := Operand.mul s b.volume
  let change := Operand.sub s (s.shift 1)
  let masked (flows : Series) : Series :=
    Operand.select (Operand.isNa change) (Series.na change.size) flows
  let inflow := masked (Operand.select (Operand.gt change (0.0 : Float)) flow (0.0 : Float))
  let outflow := masked (Operand.select (Operand.lt change (0.0 : Float)) flow (0.0 : Float))
  let total (flows : Series) : Series := flows.rolling length fun w => some (Number.sum w)
  Series.zipWith Series.strength (total inflow) (total outflow)

/-- Where the close lies below the highest high, in percent of the range. -/
def wpr (b : Bars) (length : Nat) : Series :=
  let top := b.high.highest length
  let bottom := b.low.lowest length
  Operand.mul (Operand.div (Operand.sub b.close top) (Operand.sub top bottom)) (100.0 : Float)

end Bars

end ChartScript
