import ChartScript.Script
/-!
How complex a script is: eight counts, each measured against what is usual and cut off at one, and
their weighted sum as a score between zero and one. The score decides how a script is best
converted.
-/
namespace ChartScript

inductive Factor where
  | lines | functions | customTypes | arrayMatrix | drawing | nesting | indicators | varDecls
deriving DecidableEq, Repr

namespace Factor

def all : List Factor :=
  [lines, functions, customTypes, arrayMatrix, drawing, nesting, indicators, varDecls]

def name : Factor → String
  | lines => "lines"
  | functions => "functions"
  | customTypes => "custom_types"
  | arrayMatrix => "array_matrix"
  | drawing => "drawing"
  | nesting => "nesting"
  | indicators => "indicators"
  | varDecls => "variables"

/-- The count at which a factor reaches one. -/
def usual : Factor → Float
  | lines => 150.0
  | functions => 3.0
  | customTypes => 2.0
  | arrayMatrix => 8.0
  | drawing => 3.0
  | nesting => 3.0
  | indicators => 8.0
  | varDecls => 20.0

/-- The weights add up to one. -/
def weight : Factor → Float
  | lines => 0.25
  | functions => 0.20
  | customTypes => 0.15
  | arrayMatrix => 0.10
  | drawing => 0.05
  | nesting => 0.10
  | indicators => 0.10
  | varDecls => 0.05

def count (s : Script) : Factor → Nat
  | lines => s.codeLines
  | functions => s.functions.length
  | customTypes => s.types.length
  | arrayMatrix => s.collectionUses.length
  | drawing => s.drawingCalls.length
  | nesting => s.nesting
  | indicators => s.indicators.length
  | varDecls => s.varDecls.length

def value (f : Factor) (s : Script) : Float :=
  let ratio := (f.count s).toFloat / f.usual
  if ratio < 1.0 then ratio else 1.0

end Factor

/-- The factors of a script by name. -/
def Script.factors (s : Script) : List (String × Float) :=
  Factor.all.map fun f => (f.name, f.value s)

def Script.score (s : Script) : Float :=
  Factor.all.foldl (fun sum f => sum + f.weight * f.value s) 0.0

/-- Scores below `mechanical` are converted by rule, scores above `fallback` are not. -/
structure Thresholds where
  mechanical : Float := 0.3
  fallback : Float := 0.7

inductive Route where
  | mechanical | hybrid | fallback
deriving DecidableEq, Repr

def Route.name : Route → String
  | mechanical => "mechanical"
  | hybrid => "hybrid"
  | fallback => "fallback"

def Route.tag : Route → String
  | mechanical => "Mechanical"
  | hybrid => "Hybrid"
  | fallback => "Fallback"

def Thresholds.route (t : Thresholds) (score : Float) : Route :=
  if score < t.mechanical then .mechanical
  else if score ≤ t.fallback then .hybrid
  else .fallback

end ChartScript
