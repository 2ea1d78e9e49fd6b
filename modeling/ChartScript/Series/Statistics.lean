import ChartScript.Series.Operand
import ChartScript.Series.Window
/-!
Statistics of windows, and sums.
-/
namespace ChartScript.Series

def extreme? (pick : Float → Float → Float) : List Float → Option Float
  | [] => none
  | x :: rest => some (rest.foldl pick x)

def highest (s : Series) (length : Nat) : Series :=
  s.rolling length (extreme? Number.larger)

def lowest (s : Series) (length : Nat) : Series :=
  s.rolling length (extreme? Number.smaller)

def change (s : Series) (length : Nat) : Series :=
  Operand.sub s (s.shift length)

/-- The sum of all values so far; none before the first. -/
def cum (s : Series) : Series :=
  ofValues (scan
    (fun total value =>
      match value with
      | some x => (some (total.getD 0.0 + x), some (total.getD 0.0 + x))
      | none => (total, total))
    none s.values)

def covariance (s t : Series) (length : Nat) : Series :=
  s.rollingPair t length fun pairs => some (Number.covariance pairs)

/-- The correlation coefficient; none where one of the series does not vary. -/
def correlation (s t : Series) (length : Nat) : Series :=
  s.rollingPair t length fun pairs =>
    let spread :=
      (Number.variance (pairs.map (·.1)) * Number.variance (pairs.map (·.2))).sqrt
    if spread == 0.0 then none else some (Number.covariance pairs / spread)

/-- The middle of the values in order, or the mean of the two in the middle. -/
def middle? (xs : List Float) : Option Float :=
  let inOrder := Number.sorted xs
  let half := inOrder.length / 2
  if inOrder.length % 2 = 0 then
    match inOrder[half - 1]?, inOrder[half]? with
    | some x, some y => some ((x + y) / 2.0)
    | _, _ => none
  else inOrder[half]?

def median (s : Series) (length : Nat) : Series :=
  s.rolling length middle?

/-- The longest run of equal neighbours, the first of several: its value and its length. The run
that is going on is `current`. -/
def longestRun (best current : Float × Nat) : List Float → Float × Nat
  | [] => best
  | x :: rest =>
    let run := if x == current.1 then (current.1, current.2 + 1) else (x, 1)
    longestRun (if best.2 < run.2 then run else best) run rest

/-- The most frequent value, the smallest of several. -/
def mostFrequent? (xs : List Float) : Option Float :=
  match Number.sorted xs with
  | [] => none
  | x :: rest => some (longestRun (x, 0) (x, 0) (x :: rest)).1

def mode (s : Series) (length : Nat) : Series :=
  s.rolling length mostFrequent?

/-- A rank takes the value itself and `length` values before it. -/
def rankWindow (length : Nat) : Nat :=
  length + 1

/-- The share of earlier values in the window that are not above the last, in percent. -/
def percentRank (s : Series) (length : Nat) : Series :=
  s.rolling (rankWindow length) fun w =>
    w.getLast?.map fun current =>
      100.0 * Float.ofNat (w.dropLast.countP (· ≤ current)) / Float.ofNat length

end ChartScript.Series
