import ChartScript.Series.Bars
import ChartScript.Series.Operand
import ChartScript.Series.Window
/-!
Moving averages.
-/
namespace ChartScript

namespace Series

/-- The simple mean of the window. -/
def sma (s : Series) (length : Nat) : Series :=
  s.rolling length fun w => some (Number.mean w)

/-- Exponential smoothing in which a new value weighs `2 / (length + 1)`. -/
def ema (s : Series) (length : Nat) : Series :=
  s.smooth length (2.0 / (Float.ofNat length + 1.0))

/-- Exponential smoothing in which a new value weighs `1 / length`. -/
def rma (s : Series) (length : Nat) : Series :=
  s.smooth length (1.0 / Float.ofNat (max length 1))

/-- Twice the sum of the weights from one to `length`. -/
def doubledWeights (length : Nat) : Nat :=
  length * (length + 1)

/-- The mean of the window with weights that grow by one with each bar. -/
def wma (s : Series) (length : Nat) : Series :=
  let total := Float.ofNat (doubledWeights length) / 2.0
  s.rolling length fun w =>
    some (Number.sum (w.mapIdx fun j x => x * Float.ofNat (j + 1)) / total)

/-- The length of the last average of the Hull average. -/
def rootLength (length : Nat) : Nat :=
  lengthOfFloat (Float.ofNat length).sqrt.floor

/-- The Hull average: a weighted average that is corrected for its delay. -/
def hma (s : Series) (length : Nat) : Series :=
  let half := s.wma (length / 2)
  let full := s.wma length
  (Operand.sub (Operand.mul half (2.0 : Float)) full).wma (rootLength length)

/-- Weights on a bell curve around a share `offset` of the window. -/
def bellWeights (length : Nat) (offset sigma : Float) : List Float :=
  let centre := offset * (Float.ofNat length - 1.0)
  let width := Float.ofNat length / sigma
  (List.range length).map fun i =>
    let distance := Float.ofNat i - centre
    (-(distance * distance) / (2.0 * width * width)).exp

/-- The mean of the window with weights on a bell curve. -/
def alma (s : Series) (length : Nat) (offset sigma : Float) : Series :=
  let weights := bellWeights length offset sigma
  let total := Number.sum weights
  s.rolling length fun w => some (Number.sum (List.zipWith (· * ·) w weights) / total)

/-- The double exponential average. -/
def dema (s : Series) (length : Nat) : Series :=
  let e₁ := s.ema length
  let e₂ := e₁.ema length
  Operand.sub (Operand.mul e₁ (2.0 : Float)) e₂

/-- The triple exponential average. -/
def tema (s : Series) (length : Nat) : Series :=
  let e₁ := s.ema length
  let e₂ := e₁.ema length
  let e₃ := e₂.ema length
  Operand.add (Operand.sub (Operand.mul e₁ (3.0 : Float)) (Operand.mul e₂ (3.0 : Float))) e₃

end Series

/-- The mean of the window weighted by volume. -/
def Bars.vwma (b : Bars) (s : Series) (length : Nat) : Series :=
  Operand.div ((Operand.mul s b.volume).sma length) (b.volume.sma length)

end ChartScript
