/-!
The exact value of a floating-point number: a sign, a whole mantissa and a power of two.
-/
namespace ChartScript.Decimal

/-- The number `mantissa * 2 ^ exponent`, negated when `negative` holds. -/
structure Binary where
  negative : Bool
  mantissa : Nat
  exponent : Int
deriving DecidableEq, Repr

/-- The sign bit, which zero and not-a-number carry too. -/
def signBit (x : Float) : Bool :=
  x.toBits >>> 63 != 0

/-- The bit above the fraction, two to the power 52. -/
def leadingBit : Nat :=
  0x10000000000000

/-- The exact value of a finite number; infinities and not-a-number have none. -/
def Binary.ofFloat? (x : Float) : Option Binary :=
  let biased := ((x.toBits >>> 52) &&& 0x7FF).toNat
  let fraction := (x.toBits &&& 0xFFFFFFFFFFFFF).toNat
  if biased = 0x7FF then none
  else if biased = 0 then some ⟨signBit x, fraction, -1074⟩
  else some ⟨signBit x, fraction + leadingBit, biased - 1075⟩

def Binary.whole (b : Binary) : Nat :=
  if 0 ≤ b.exponent then b.mantissa * Nat.pow 2 b.exponent.toNat
  else b.mantissa / Nat.pow 2 (-b.exponent).toNat

/-- A power of ten or two with a whole exponent, as numerator and denominator. -/
def power (base : Nat) (exponent : Int) : Nat × Nat :=
  if 0 ≤ exponent then (Nat.pow base exponent.toNat, 1)
  else (1, Nat.pow base (-exponent).toNat)

/-- The largest `p` with `10 ^ p ≤ num / den`, for positive `num` and `den`. -/
def decimalExponent (num den : Nat) : Int :=
  if den ≤ num then ((Nat.toDigits 10 (num / den)).length : Int) - 1
  else
    let n := (Nat.toDigits 10 (den / num)).length
    if den ≤ num * Nat.pow 10 (n - 1) then -((n : Int) - 1) else -(n : Int)

def leastInt64 : Int :=
  -0x8000000000000000

def greatestInt64 : Int :=
  0x7FFFFFFFFFFFFFFF

/-- The number cut toward zero, kept within the 64-bit signed range; not-a-number gives zero. -/
def toInt64 (x : Float) : Int :=
  match Binary.ofFloat? x with
  | some b =>
    if b.negative then max (-(b.whole : Int)) leastInt64
    else min (b.whole : Int) greatestInt64
  | none => if x.isNaN then 0 else if signBit x then leastInt64 else greatestInt64

end ChartScript.Decimal
