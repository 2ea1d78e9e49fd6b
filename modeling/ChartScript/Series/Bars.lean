import ChartScript.PriceSource
import ChartScript.Series.Basic
/-!
Recorded bars, oldest first, and the series of their prices.
-/
namespace ChartScript

structure Bar where
  open_ : Float
  high : Float
  low : Float
  close : Float
  volume : Float

namespace Bar

def typicalPrice (b : Bar) : Float :=
  (b.high + b.low + b.close) / 3.0

/-- The range of the bar, widened to take in the close before it. -/
def trueRange (b : Bar) (previousClose : Float) : Float :=
  Number.larger (Number.larger (b.high - b.low) (b.high - previousClose).abs)
    (b.low - previousClose).abs

def price (b : Bar) : PriceSource → Float
  | .field .open_ => b.open_
  | .field .high => b.high
  | .field .low => b.low
  | .field .close => b.close
  | .field .volume => b.volume
  | .average .hl2 => (b.high + b.low) / 2.0
  | .average .hlc3 => b.typicalPrice
  | .average .ohlc4 => (b.open_ + b.high + b.low + b.close) / 4.0
  | .average .hlcc4 => (b.high + b.low + 2.0 * b.close) / 4.0

end Bar

structure Bars where
  bars : List Bar

namespace Bars

def size (b : Bars) : Nat :=
  b.bars.length

def source (b : Bars) (p : PriceSource) : Series :=
  Series.ofNumbers (b.bars.map (·.price p))

def high (b : Bars) : Series := b.source (.field .high)

def low (b : Bars) : Series := b.source (.field .low)

def close (b : Bars) : Series := b.source (.field .close)

def volume (b : Bars) : Series := b.source (.field .volume)

def hl2 (b : Bars) : Series := b.source (.average .hl2)

def barIndex (b : Bars) : Series :=
  Series.ofNumbers ((List.range b.size).map Float.ofNat)

end Bars

end ChartScript
