import ChartScript.Series.Volatility
/-!
Direction and trend: directional movement, pivots, and stops that follow the price.
-/
namespace ChartScript

/-! ## Pivots -/

namespace Series

/-- The value `right` bars ago, if it beats the `left` values before it and the `right` values
after it. -/
def pivot? (beats : Float → Float → Bool) (left right : Nat) (history : List (Option Float)) :
    Option Float :=
  let items := history.take (left + right + 1)
  if items.length < left + right + 1 then none
  else match (items[right]?).join with
    | some candidate =>
      let others := items.take right ++ items.drop (right + 1)
      if others.all (·.any (beats candidate)) then some candidate else none
    | none => none

def pivothigh (s : Series) (left right : Nat) : Series :=
  ofValues (scanHistory (pivot? (· > ·) left right) s.values)

def pivotlow (s : Series) (left right : Nat) : Series :=
  ofValues (scanHistory (pivot? (· < ·) left right) s.values)

end Series

namespace Bars

/-! ## Directional movement -/

/-- The two directional indicators, and the average of how far they are apart. -/
def dmi (b : Bars) (length smoothing : Nat) : Series × Series × Series :=
  let up := Operand.sub b.high (b.high.shift 1)
  let down := Operand.sub (b.low.shift 1) b.low
  let rise (u d : Float) : Float := if u > d ∧ u > 0.0 then u else 0.0
  let fall (u d : Float) : Float := if d > u ∧ d > 0.0 then d else 0.0
  let apart (p m : Float) : Float := (p - m).abs / if p + m == 0.0 then 1.0 else p + m
  let range := (b.tr true).rma length
  let share (moves : Series) : Series :=
    Operand.mul (Operand.div (moves.rma length) range) (100.0 : Float)
  let plus := share (Series.zipWith rise up down)
  let minus := share (Series.zipWith fall up down)
  (plus, minus, Operand.mul ((Series.zipWith apart plus minus).rma smoothing) (100.0 : Float))

/-- How strong the trend is, in either direction. -/
def adx (b : Bars) (length smoothing : Nat) : Series :=
  (b.dmi length smoothing).2.2

/-! ## Supertrend -/

/-- The bands of the last bar that had any, and the one that was followed. -/
structure TrendBands where
  upper : Float
  lower : Float
  line : Float

structure TrendState where
  bands : Option TrendBands := none
  close : Option Float := none

/-- A band moves toward the price only, unless the last close broke it. -/
def followBands (past : TrendState) (upper lower : Float) : Float × Float :=
  match past.bands, past.close with
  | some p, some close =>
    (if upper < p.upper ∨ close > p.upper then upper else p.upper,
     if lower > p.lower ∨ close < p.lower then lower else p.lower)
  | _, _ => (upper, lower)

/-- One when the trend goes down, minus one when it goes up. -/
def trendDirection (past : TrendState) (close upper lower : Float) : Float :=
  match past.bands with
  | none => 1.0
  | some p =>
    if p.line == p.upper then if close > upper then -1.0 else 1.0
    else if close < lower then 1.0 else -1.0

/-- The line and the direction on a bar with the given average range and middle price. -/
def trendStep (factor : Float) (past : TrendState) (bar : Bar × Option Float × Option Float) :
    TrendState × Option (Float × Float) :=
  match bar with
  | (bar, some range, some mid) =>
    let (upper, lower) := followBands past (mid + factor * range) (mid - factor * range)
    let direction := trendDirection past bar.close upper lower
    let line := if direction < 0.0 then lower else upper
    ({ bands := some { upper := upper, lower := lower, line := line }, close := some bar.close },
     some (line, direction))
  | (bar, _, _) => ({ past with close := some bar.close }, none)

/-- A line that follows the price at some distance, and its direction. -/
def supertrend (b : Bars) (factor : Float) (length : Nat) : Series × Series :=
  let steps := scan (trendStep factor) {} (b.bars.zip ((b.atr length).values.zip b.hl2.values))
  (Series.ofValues (steps.map (Option.map (·.1))), Series.ofValues (steps.map (Option.map (·.2))))

/-! ## Stop and reverse -/

structure StopState where
  isLong : Bool
  stop : Float
  /-- The best price since the last reversal. -/
  extreme : Float
  factor : Float
  previous : Bar
  beforePrevious : Bar

inductive StopPhase where
  | start
  | one (bar : Bar)
  | running (state : StopState)

structure StopParams where
  start : Float
  increment : Float
  maximum : Float

/-- The factor grows with each new extreme, up to its maximum. -/
def StopParams.faster (p : StopParams) (factor : Float) : Float :=
  Number.smaller (factor + p.increment) p.maximum

/-- Begins with the direction between the first two closes. -/
def firstStop (p : StopParams) (first second : Bar) : StopState :=
  let isLong := second.close ≥ first.close
  { isLong := isLong
    stop := if isLong then first.low else first.high
    extreme := if isLong then second.high else second.low
    factor := p.start
    previous := second
    beforePrevious := first }

def moveStop (p : StopParams) (s : StopState) (bar : Bar) : StopState :=
  let moved := s.stop + s.factor * (s.extreme - s.stop)
  let next := { s with previous := bar, beforePrevious := s.previous }
  if s.isLong then
    let stop := Number.smaller (Number.smaller moved s.previous.low) s.beforePrevious.low
    if bar.low < stop then
      { next with isLong := false, stop := s.extreme, extreme := bar.low, factor := p.start }
    else if bar.high > s.extreme then
      { next with stop := stop, extreme := bar.high, factor := p.faster s.factor }
    else { next with stop := stop }
  else
    let stop := Number.larger (Number.larger moved s.previous.high) s.beforePrevious.high
    if bar.high > stop then
      { next with isLong := true, stop := s.extreme, extreme := bar.high, factor := p.start }
    else if bar.low < s.extreme then
      { next with stop := stop, extreme := bar.low, factor := p.faster s.factor }
    else { next with stop := stop }

def stopStep (p : StopParams) (phase : StopPhase) (bar : Bar) : StopPhase × Option Float :=
  match phase with
  | .start => (.one bar, none)
  | .one first => (.running (firstStop p first bar), some (firstStop p first bar).stop)
  | .running s => (.running (moveStop p s bar), some (moveStop p s bar).stop)

/-- A stop that follows the price and changes sides when it is hit. -/
def sar (b : Bars) (p : StopParams) : Series :=
  Series.ofValues (scan (stopStep p) .start b.bars)

end Bars

end ChartScript
