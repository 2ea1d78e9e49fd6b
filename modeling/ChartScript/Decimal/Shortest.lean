import ChartScript.Decimal.Binary
/-!
The shortest decimal of a floating-point number: of all decimals that read back as the number the
one with the fewest digits, and of those the nearest. A decimal half way between two candidates
gives the larger magnitude.
-/
namespace ChartScript.Decimal

/-- The number `digits * 10 ^ exponent`. -/
structure Numeral where
  digits : Nat
  exponent : Int
deriving DecidableEq, Repr

/-- Moves zeros at the end of the digits into the exponent; `fuel` bounds how many. -/
def Numeral.stripZeros : Nat → Numeral → Numeral
  | 0, d => d
  | fuel + 1, d =>
    if d.digits ≠ 0 ∧ d.digits % 10 = 0 then stripZeros fuel ⟨d.digits / 10, d.exponent + 1⟩ else d

/-- The reals that read back as `mantissa * 2 ^ exponent`, in quarters of the last place: the ends
and whether they belong to the interval. Below a power of two the neighbour is twice as near. -/
structure Neighbourhood where
  low : Nat
  value : Nat
  high : Nat
  closed : Bool

def Neighbourhood.of (b : Binary) : Neighbourhood :=
  let narrow := b.mantissa = leadingBit ∧ -1074 < b.exponent
  { low := 4 * b.mantissa - if narrow then 1 else 2
    value := 4 * b.mantissa
    high := 4 * b.mantissa + 2
    closed := b.mantissa % 2 = 0 }

/-- The candidate on the grid of multiples of `10 ^ exponent`, if one lies in the neighbourhood. -/
def onGrid? (b : Binary) (exponent : Int) : Option Nat :=
  let near := Neighbourhood.of b
  let two := power 2 (b.exponent - 2)
  let ten := power 10 (-exponent)
  let unit := two.1 * ten.1
  let den := two.2 * ten.2
  let inside (n : Nat) : Bool :=
    if near.closed then near.low * unit ≤ n * den && n * den ≤ near.high * unit
    else near.low * unit < n * den && n * den < near.high * unit
  let below := near.value * unit / den
  let above := below + 1
  match inside below, inside above with
  | true, true =>
    if 2 * (near.value * unit) < (below + above) * den then some below else some above
  | true, false => some below
  | false, true => some above
  | false, false => none

/-- The first candidate when the number of digits grows from `count`; `fuel` bounds the growth. -/
def shortestFrom (b : Binary) (lead : Int) : (fuel count : Nat) → Numeral
  | 0, _ => ⟨b.mantissa, b.exponent⟩
  | fuel + 1, count =>
    let exponent := lead + 1 - count
    match onGrid? b exponent with
    | some n => Numeral.stripZeros 20 ⟨n, exponent⟩
    | none => shortestFrom b lead fuel (count + 1)

/-- The shortest decimal of a magnitude. Seventeen digits always suffice. -/
def shortest (b : Binary) : Numeral :=
  if b.mantissa = 0 then ⟨0, 0⟩
  else
    let two := power 2 b.exponent
    shortestFrom b (decimalExponent (b.mantissa * two.1) two.2) 17 1

end ChartScript.Decimal
