import ChartScript.Series.Cross
import ChartScript.Series.Momentum
import ChartScript.Series.Trend
import ChartScript.Series.Volume
/-!
Studies: indicators together with their arguments, and operations together with their operands, so
that statements can speak about all of them at once.
-/
namespace ChartScript

inductive Study where
  | sma (s : Series) (length : Nat)
  | ema (s : Series) (length : Nat)
  | wma (s : Series) (length : Nat)
  | rma (s : Series) (length : Nat)
  | vwma (s : Series) (length : Nat)
  | hma (s : Series) (length : Nat)
  | alma (s : Series) (length : Nat) (offset sigma : Float)
  | dema (s : Series) (length : Nat)
  | tema (s : Series) (length : Nat)
  | rsi (s : Series) (length : Nat)
  | macd (s : Series) (fast slow signal : Nat)
  | stoch (s high low : Series) (length smoothing : Nat)
  | cci (s : Series) (length : Nat)
  | mfi (s : Series) (length : Nat)
  | roc (s : Series) (length : Nat)
  | wpr (length : Nat)
  | mom (s : Series) (length : Nat)
  | tr (ownRangeFirst : Bool)
  | atr (length : Nat)
  | bb (s : Series) (length : Nat) (factor : Float)
  | kc (s : Series) (length : Nat) (factor : Float) (useTrueRange : Bool)
  | stdev (s : Series) (length : Nat)
  | variance (s : Series) (length : Nat)
  | range (s : Series) (length : Nat)
  | vwap (s : Series)
  | obv
  | accdist
  | cross (s t : Series)
  | crossover (s t : Series)
  | crossunder (s t : Series)
  | highest (s : Series) (length : Nat)
  | lowest (s : Series) (length : Nat)
  | change (s : Series) (length : Nat)
  | cum (s : Series)
  | correlation (s t : Series) (length : Nat)
  | covariance (s t : Series) (length : Nat)
  | median (s : Series) (length : Nat)
  | mode (s : Series) (length : Nat)
  | percentRank (s : Series) (length : Nat)
  | dmi (length smoothing : Nat)
  | adx (length smoothing : Nat)
  | pivothigh (s : Series) (left right : Nat)
  | pivotlow (s : Series) (left right : Nat)
  | supertrend (factor : Float) (length : Nat)
  | sar (params : Bars.StopParams)

namespace Study

def pair (r : Series × Series) : List Series :=
  [r.1, r.2]

def triple (r : Series × Series × Series) : List Series :=
  [r.1, r.2.1, r.2.2]

def run (b : Bars) : Study → List Series
  | sma s n => [s.sma n]
  | ema s n => [s.ema n]
  | wma s n => [s.wma n]
  | rma s n => [s.rma n]
  | vwma s n => [b.vwma s n]
  | hma s n => [s.hma n]
  | alma s n offset sigma => [s.alma n offset sigma]
  | dema s n => [s.dema n]
  | tema s n => [s.tema n]
  | rsi s n => [s.rsi n]
  | macd s fast slow signal => triple (s.macd fast slow signal)
  | stoch s high low n smoothing => pair (s.stoch high low n smoothing)
  | cci s n => [s.cci n]
  | mfi s n => [b.mfi s n]
  | roc s n => [s.roc n]
  | wpr n => [b.wpr n]
  | mom s n => [s.mom n]
  | tr ownRangeFirst => [b.tr ownRangeFirst]
  | atr n => [b.atr n]
  | bb s n factor => triple (s.bb n factor)
  | kc s n factor useTrueRange => triple (b.kc s n factor useTrueRange)
  | stdev s n => [s.stdev n]
  | variance s n => [s.variance n]
  | range s n => [s.range n]
  | vwap s => [b.vwap s]
  | obv => [b.obv]
  | accdist => [b.accdist]
  | cross s t => [s.cross t]
  | crossover s t => [s.crossover t]
  | crossunder s t => [s.crossunder t]
  | highest s n => [s.highest n]
  | lowest s n => [s.lowest n]
  | change s n => [s.change n]
  | cum s => [s.cum]
  | correlation s t n => [s.correlation t n]
  | covariance s t n => [s.covariance t n]
  | median s n => [s.median n]
  | mode s n => [s.mode n]
  | percentRank s n => [s.percentRank n]
  | dmi n smoothing => triple (b.dmi n smoothing)
  | adx n smoothing => [b.adx n smoothing]
  | pivothigh s left right => [s.pivothigh left right]
  | pivotlow s left right => [s.pivotlow left right]
  | supertrend factor n => pair (b.supertrend factor n)
  | sar params => [b.sar params]

end Study

inductive Operation where
  | add (a b : Operand)
  | sub (a b : Operand)
  | mul (a b : Operand)
  | div (a b : Operand)
  | rem (a b : Operand)
  | gt (a b : Operand)
  | ge (a b : Operand)
  | lt (a b : Operand)
  | le (a b : Operand)
  | eq (a b : Operand)
  | ne (a b : Operand)
  | and (a b : Operand)
  | or (a b : Operand)
  | not (a : Operand)
  | neg (a : Operand)
  | select (condition a b : Operand)
  | nz (a b : Operand)
  | isNa (a : Operand)
  | holdFirst (a : Operand)
  | apply (f : Float → Float) (a : Operand)
  | apply2 (f : Float → Float → Float) (a b : Operand)

def Operation.run : Operation → Series
  | add a b => a.add b
  | sub a b => a.sub b
  | mul a b => a.mul b
  | div a b => a.div b
  | rem a b => a.rem b
  | gt a b => a.gt b
  | ge a b => a.ge b
  | lt a b => a.lt b
  | le a b => a.le b
  | eq a b => a.eq b
  | ne a b => a.ne b
  | and a b => a.and b
  | or a b => a.or b
  | not a => a.not
  | neg a => a.neg
  | select condition a b => condition.select a b
  | nz a b => a.nz b
  | isNa a => a.isNa
  | holdFirst a => a.holdFirst
  | apply f a => a.apply f
  | apply2 f a b => a.apply2 f b

end ChartScript
