import ChartScript.Decimal.Binary
/-!
Arithmetic on single numbers and on lists of them, with the exact order in which sums run.
-/
namespace ChartScript.Number

/-- The larger of two numbers; not-a-number gives way to the other. -/
def larger (x y : Float) : Float :=
  if x.isNaN then y else if x < y then y else x

/-- The smaller of two numbers; not-a-number gives way to the other. -/
def smaller (x y : Float) : Float :=
  if x.isNaN then y else if y < x then y else x

def sign (x : Float) : Float :=
  if 0.0 < x then 1.0 else if x < 0.0 then -1.0 else 0.0

def truncate (x : Float) : Float :=
  if x < 0.0 then x.ceil else x.floor

/-- The exact remainder of a division of finite numbers, with the sign of the first. -/
def remainder (x y : Float) : Float :=
  match Decimal.Binary.ofFloat? x, Decimal.Binary.ofFloat? y with
  | some a, some b =>
    let exponent := min a.exponent b.exponent
    let scaled (c : Decimal.Binary) : Nat := c.mantissa * Nat.pow 2 (c.exponent - exponent).toNat
    let magnitude := (Float.ofNat (scaled a % scaled b)).scaleB exponent
    if a.negative then -magnitude else magnitude
  | _, _ => 0.0 / 0.0

/-- A key for the order of all numbers, in which minus zero comes right before zero. -/
def orderKey (x : Float) : Int :=
  let bits := x.toBits.toNat
  let sign := 0x8000000000000000
  if bits < sign then bits else -((bits - sign : Nat) : Int) - 1

def sorted (xs : List Float) : List Float :=
  xs.mergeSort (orderKey · ≤ orderKey ·)

/-! ## Sums and means -/

/-- The sum from left to right. That of nothing is minus zero, which changes no number. -/
def sum (xs : List Float) : Float :=
  xs.foldl (· + ·) (-0.0)

def mean (xs : List Float) : Float :=
  sum xs / Float.ofNat xs.length

def variance (xs : List Float) : Float :=
  let m := mean xs
  mean (xs.map fun x => (x - m) * (x - m))

def covariance (pairs : List (Float × Float)) : Float :=
  let mx := mean (pairs.map (·.1))
  let my := mean (pairs.map (·.2))
  mean (pairs.map fun p => (p.1 - mx) * (p.2 - my))

end ChartScript.Number
