import ChartScript.Decimal.Shortest
/-!
How a floating-point number is written: its shortest decimal, positionally or with an exponent.
-/
namespace ChartScript.Decimal

structure Layout where
  /-- Smallest power of ten that is written positionally. -/
  least : Int
  /-- Smallest power of ten that is written with an exponent again. -/
  bound : Int
  infinite : String
  undefined : String

/-- Positional from `0.0001` to below ten to the sixteenth, always with a digit after the point. -/
def plain : Layout where
  least := -4
  bound := 16
  infinite := "inf"
  undefined := "NaN"

/-- Digits with a point so that the last `places` of them come after it. -/
def pointed (digits : Nat) (places : Nat) : String :=
  let text := Nat.toDigits 10 digits
  let padded := List.replicate (places + 1 - text.length) '0' ++ text
  let cut := padded.length - places
  String.ofList (padded.take cut) ++ "." ++ String.ofList (padded.drop cut)

/-- One digit, a point and the others if there are any, and the exponent of the first digit. -/
def scientific (d : Numeral) (lead : Int) : String :=
  match Nat.toDigits 10 d.digits with
  | first :: [] => s!"{first}e{lead}"
  | first :: more => s!"{first}.{String.ofList more}e{lead}"
  | [] => ""

/-- Every digit is written, with `.0` when the number is whole. -/
def positional (d : Numeral) : String :=
  if 0 ≤ d.exponent then s!"{d.digits * Nat.pow 10 d.exponent.toNat}.0"
  else pointed d.digits (-d.exponent).toNat

def Layout.magnitude (layout : Layout) (b : Binary) : String :=
  let d := shortest b
  let lead := d.exponent + (Nat.toDigits 10 d.digits).length - 1
  if d.digits = 0 ∨ (layout.least ≤ lead ∧ lead < layout.bound) then positional d
  else scientific d lead

def Layout.write (layout : Layout) (x : Float) : String :=
  match Binary.ofFloat? x with
  | some b => (if b.negative then "-" else "") ++ layout.magnitude b
  | none =>
    if x.isNaN then layout.undefined
    else (if signBit x then "-" else "") ++ layout.infinite

def write (x : Float) : String :=
  plain.write x

end ChartScript.Decimal
