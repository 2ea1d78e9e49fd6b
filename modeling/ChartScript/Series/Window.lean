import ChartScript.Series.Basic
/-!
Windows and smoothing.

A window indicator has a value where the last `length` bars all have one. A smoother begins with the
mean of the first `length` values there are; from then on it moves toward each new value and passes
over bars that have none.
-/
namespace ChartScript

/-- The last `length` items of a history in the order of time, if there are as many. -/
def window? {α : Type} (length : Nat) (history : List α) : Option (List α) :=
  let items := history.take length
  if length = 0 ∨ items.length < length then none else some items.reverse

namespace Series

/-- A function of each full window. -/
def rolling (s : Series) (length : Nat) (f : List Float → Option Float) : Series :=
  ofValues (scanHistory
    (fun history => (window? length history).bind fun items => (items.mapM id).bind f) s.values)

/-- Both values of a bar, if it has both. -/
def both? (pair : Option Float × Option Float) : Option (Float × Float) :=
  pair.1.bind fun x => pair.2.map fun y => (x, y)

/-- A function of each full window over two series. -/
def rollingPair (s t : Series) (length : Nat) (f : List (Float × Float) → Option Float) : Series :=
  ofValues (scanHistory
    (fun history => (window? length history).bind fun items => (items.mapM both?).bind f)
    (s.values.zip t.values))

/-! ## Smoothing -/

inductive Smoothing where
  /-- The values so far, the newest first. -/
  | seeding (seen : List Float)
  | running (level : Float)

def Smoothing.level? : Smoothing → Option Float
  | seeding _ => none
  | running level => some level

def Smoothing.next (length : Nat) (alpha x : Float) : Smoothing → Smoothing
  | running level => running (alpha * x + (1.0 - alpha) * level)
  | seeding seen =>
    if seen.length + 1 = length then running (Number.mean (x :: seen).reverse)
    else seeding (x :: seen)

def smooth (s : Series) (length : Nat) (alpha : Float) : Series :=
  ofValues (scan
    (fun state value =>
      match value with
      | some x => (state.next length alpha x, (state.next length alpha x).level?)
      | none => (state, none))
    (Smoothing.seeding []) s.values)

end Series

end ChartScript
