import ChartScript.Series.Basic
/-!
Where one series crosses another: between the bar before, on which they may touch, and the bar
itself.
-/
namespace ChartScript.Series

/-- A test of the pair of values on the bar before and on the bar itself. -/
def crossing (test : Float × Float → Float × Float → Bool) (s t : Series) : Series :=
  let count := max s.size t.size
  ofValues (scanHistory
    (fun history =>
      match history with
      | (some x, some y) :: (some x₀, some y₀) :: _ => some (flagNumber (test (x₀, y₀) (x, y)))
      | _ => none)
    ((s.padded count).zip (t.padded count)))

def crossesOver (before now : Float × Float) : Bool :=
  before.1 ≤ before.2 && now.1 > now.2

def crossesUnder (before now : Float × Float) : Bool :=
  before.1 ≥ before.2 && now.1 < now.2

def crossover : Series → Series → Series :=
  crossing crossesOver

def crossunder : Series → Series → Series :=
  crossing crossesUnder

def cross : Series → Series → Series :=
  crossing fun before now => crossesOver before now || crossesUnder before now

end ChartScript.Series
