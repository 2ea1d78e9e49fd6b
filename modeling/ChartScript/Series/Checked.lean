import ChartScript.Series.Study
/-!
Studies on a machine whose lengths and bar numbers have 64 bits. A sum or a product that is too large
breaks off the study, and so does a negative difference, even where the outcome would only be
compared with the number of bars. Memory is left out: room for a window of `2 ^ 60` values or more
cannot be set aside either.
-/
namespace ChartScript

namespace Length

/-- A whole number, unless it is too large for the machine. -/
def fit? (n : Nat) : Option Nat :=
  if n ≤ lengthLimit then some n else none

/-- A difference, unless it is negative. -/
def minus? (m n : Nat) : Option Nat :=
  if n ≤ m then some (m - n) else none

/-- The window that ends at a bar: its items from the first bar of the window on, if it is full. -/
def windowAt? {α : Type} (length : Nat) (items : List α) (bar : Nat) : Option (Option (List α)) := do
  let count ← fit? (bar + 1)
  if length = 0 ∨ count < length then return none
  let first ← minus? count length
  return some ((items.drop first).take length)

def windows? {α : Type} (length : Nat) (items : List α) : Option (List (Option (List α))) :=
  (List.range items.length).mapM (windowAt? length items)

end Length

open Length

namespace Series

def rolling? (s : Series) (length : Nat) (f : List Float → Option Float) : Option Series := do
  let windows ← windows? length s.values
  return ofValues (windows.map fun window => window.bind fun items => (items.mapM id).bind f)

def rollingPair? (s t : Series) (length : Nat) (f : List (Float × Float) → Option Float) :
    Option Series := do
  let windows ← windows? length (s.values.zip t.values)
  return ofValues (windows.map fun window => window.bind fun items => (items.mapM both?).bind f)

def wma? (s : Series) (length : Nat) : Option Series := do
  let next ← fit? (length + 1)
  let doubled ← fit? (length * next)
  let total := Float.ofNat doubled / 2.0
  s.rolling? length fun w =>
    some (Number.sum (w.mapIdx fun j x => x * Float.ofNat (j + 1)) / total)

def hma? (s : Series) (length : Nat) : Option Series := do
  let half ← s.wma? (length / 2)
  let full ← s.wma? length
  (Operand.sub (Operand.mul half (2.0 : Float)) full).wma? (rootLength length)

def percentRank? (s : Series) (length : Nat) : Option Series := do
  let size ← fit? (length + 1)
  s.rolling? size fun w =>
    w.getLast?.map fun current =>
      100.0 * Float.ofNat (w.dropLast.countP (· ≤ current)) / Float.ofNat length

end Series

/-- The results of a study. Only three studies calculate with a length before they make windows. -/
def Study.run? (b : Bars) : Study → Option (List Series)
  | wma s n => (s.wma? n).map ([·])
  | hma s n => (s.hma? n).map ([·])
  | percentRank s n => (s.percentRank? n).map ([·])
  | study => some (study.run b)

end ChartScript
