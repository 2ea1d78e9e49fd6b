/-!
Sets of characters given by ranges of code points, or by their lengths.
-/
namespace ChartScript.Text

/-- The code point lies in one of the ranges, both ends included. -/
def inRanges (ranges : List (Nat × Nat)) (code : Nat) : Bool :=
  ranges.any fun r => r.1 ≤ code && code ≤ r.2

/-- The code point lies in one of the runs. A run is given by the number of code points between the one
before it and itself, and by the number of those that it has. -/
def inRuns : List Nat → Nat → Bool
  | gap :: length :: rest, code =>
    if code < gap then false
    else code - gap < length || inRuns rest (code - gap - length)
  | _, _ => false

end ChartScript.Text
