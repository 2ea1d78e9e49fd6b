import ChartScript.Series.Bars
import ChartScript.Series.Statistics
/-!
Indicators of volume.
-/
namespace ChartScript.Bars

/-- The mean price so far, weighted by volume. -/
def vwap (b : Bars) (s : Series) : Series :=
  Operand.div (Operand.mul s b.volume).cum b.volume.cum

/-- The volume so far, counted up on bars that close higher and down on bars that close lower. -/
def obv (b : Bars) : Series :=
  let step (past : Option (Float × Float)) (bar : Bar) : Float :=
    match past with
    | none => bar.volume
    | some (close, total) =>
      if close < bar.close then total + bar.volume
      else if bar.close < close then total - bar.volume
      else total
  Series.ofValues (scan (fun past bar => (some (bar.close, step past bar), some (step past bar)))
    none b.bars)

/-- What a bar adds to accumulation: its volume, as the close lies near the high or the low. -/
def accumulate (total : Float) (bar : Bar) : Float :=
  let spread := bar.high - bar.low
  if spread != 0.0 then
    total + ((bar.close - bar.low) - (bar.high - bar.close)) / spread * bar.volume
  else total

/-- Accumulation and distribution. -/
def accdist (b : Bars) : Series :=
  Series.ofValues (scan (fun total bar => (accumulate total bar, some (accumulate total bar)))
    0.0 b.bars)

end ChartScript.Bars
