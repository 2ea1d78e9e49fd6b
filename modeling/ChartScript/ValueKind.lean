/-!
What is known of a value before a script runs: whether it is one value for all bars or a series,
and of which type.
-/
namespace ChartScript

inductive ValueKind where
  | number
  | bool
  | text
  | series
  | direction
  /-- The series of an indicator that yields several. -/
  | tuple (count : Nat)
deriving DecidableEq, Repr

namespace ValueKind

def describe : ValueKind → String
  | number => "number"
  | bool => "bool"
  | text => "string"
  | series => "series"
  | direction => "strategy direction"
  | tuple n => s!"{n}-value tuple"

/-- Type of the value in emitted code. -/
def typeName : ValueKind → String
  | bool => "bool"
  | series => "Series"
  | _ => "f64"

/-- Series are handed to functions by reference. -/
def parameterType : ValueKind → String
  | series => "&Series"
  | kind => kind.typeName

/-- Kinds that operators work on. -/
def isOperand : ValueKind → Bool
  | number | bool | series => true
  | _ => false

def isNumeric : ValueKind → Bool
  | number | series => true
  | _ => false

end ValueKind

end ChartScript
