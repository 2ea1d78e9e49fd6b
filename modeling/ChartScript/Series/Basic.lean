import ChartScript.Series.Number
import ChartScript.Series.Scan
/-!
Series: a value for each bar, or nothing where none is available yet. A number that is not finite
counts as not available.
-/
namespace ChartScript

/-- A value for each bar, or nothing. A value that is there is finite. -/
@[ext] structure Series where
  values : List (Option Float)
  finite : ∀ x, some x ∈ values → x.isFinite = true

/-- A value, unless it is not finite. -/
def finite? (value : Option Float) : Option Float :=
  value.filter Float.isFinite

/-- Truth values are the numbers one and zero. -/
def flagNumber (b : Bool) : Float :=
  if b then 1.0 else 0.0

/-- A value that is there and not zero. -/
def isTruthy (value : Option Float) : Bool :=
  value.any (· != 0.0)

namespace Series

def ofValues (values : List (Option Float)) : Series where
  values := values.map finite?
  finite x hx := by
    obtain ⟨value, -, hvalue⟩ := List.mem_map.1 hx
    exact (Option.filter_eq_some_iff.1 hvalue).2

def ofNumbers (xs : List Float) : Series :=
  ofValues (xs.map some)

/-- No value on any bar. -/
def na (count : Nat) : Series where
  values := List.replicate count none
  finite x hx := by cases List.eq_of_mem_replicate hx

def constant (x : Float) (count : Nat) : Series :=
  ofValues (List.replicate count (some x))

def size (s : Series) : Nat :=
  s.values.length

def isEmpty (s : Series) : Bool :=
  s.values.isEmpty

def get? (s : Series) (bar : Nat) : Option Float :=
  (s.values[bar]?).join

def last? (s : Series) : Option Float :=
  s.values.getLast?.join

def isTrue (s : Series) (bar : Nat) : Bool :=
  isTruthy (s.get? bar)

/-- Values for exactly `count` bars: the first of the series, then none. -/
def padded (s : Series) (count : Nat) : List (Option Float) :=
  s.values.take count ++ List.replicate (count - s.size) none

/-- The value some bars ago, on every bar. -/
def shift (s : Series) (back : Nat) : Series :=
  ofValues (scanHistory (fun history => (history[back]?).join) s.values)

def map (s : Series) (f : Float → Float) : Series :=
  ofValues (s.values.map (Option.map f))

/-- Two series bar by bar, over the length of the longer. -/
def zipWith (f : Float → Float → Float) (s t : Series) : Series :=
  let count := max s.size t.size
  ofValues (List.zipWith (fun x y => x.bind fun x => y.map (f x)) (s.padded count)
    (t.padded count))

end Series

end ChartScript
