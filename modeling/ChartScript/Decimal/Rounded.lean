import ChartScript.Decimal.Layout
/-!
Rounding of the exact value of a floating-point number to a decimal grid, a half going to the even
neighbour: to a fixed number of places, or to a number of significant digits.
-/
namespace ChartScript.Decimal

/-- The whole number nearest to `num / den`, the even one of two that are equally near. -/
def roundDiv (num den : Nat) : Nat :=
  let q := num / den
  let twice := 2 * (num % den)
  if twice < den then q
  else if den < twice then q + 1
  else q + q % 2

/-- The multiple of `10 ^ exponent` nearest to a magnitude, in units of that power. -/
def nearest (b : Binary) (exponent : Int) : Nat :=
  let two := power 2 b.exponent
  let ten := power 10 (-exponent)
  roundDiv (b.mantissa * two.1 * ten.1) (two.2 * ten.2)

def fixed (places : Nat) (x : Float) : String :=
  match Binary.ofFloat? x with
  | some b => (if b.negative then "-" else "") ++ pointed (nearest b (-(places : Int))) places
  | none => plain.write x

/-- The floating-point number nearest to the value rounded to `count` significant digits. -/
def significant (count : Nat) (x : Float) : Float :=
  match Binary.ofFloat? x with
  | some b =>
    if b.mantissa = 0 then x
    else
      let two := power 2 b.exponent
      let exponent := decimalExponent (b.mantissa * two.1) two.2 + 1 - count
      let digits := nearest b exponent
      let magnitude :=
        if 0 ≤ exponent then Float.ofScientific digits false exponent.toNat
        else Float.ofScientific digits true (-exponent).toNat
      if b.negative then -magnitude else magnitude
  | none => x

end ChartScript.Decimal
