import ChartScript.Decimal.Binary
/-!
Numbers read from text. A floating-point text is an optional sign and either a word for an
infinity or not-a-number, in any case, or digits with an optional point and exponent; it is
rounded to the nearest number. A whole-number text is an optional sign and digits only.
-/
namespace ChartScript.Decimal

def natOfDigits (digits : List Char) : Nat :=
  digits.foldl (fun n c => 10 * n + (c.toNat - '0'.toNat)) 0

/-- The number nearest to `digits * 10 ^ exponent`. Beyond the range of the exponents the result is
settled by the magnitude alone. -/
def ofDecimal (digits : Nat) (exponent : Int) : Float :=
  let lead := exponent + (Nat.toDigits 10 digits).length
  if digits = 0 ∨ lead < -400 then 0.0
  else if 400 < lead then 1.0 / 0.0
  else if 0 ≤ exponent then Float.ofScientific digits false exponent.toNat
  else Float.ofScientific digits true (-exponent).toNat

/-- The sign in front of a number, and what follows it. -/
def splitSign : List Char → Bool × List Char
  | '-' :: cs => (true, cs)
  | '+' :: cs => (false, cs)
  | cs => (false, cs)

/-- A non-empty run of digits and nothing else. -/
def readDigits? (cs : List Char) : Option Nat :=
  if cs ≠ [] ∧ cs.all Char.isDigit then some (natOfDigits cs) else none

/-- The exponent part of a number: nothing, or a mark, an optional sign and digits. -/
def readExponent? : List Char → Option Int
  | [] => some 0
  | c :: cs =>
    if c = 'e' ∨ c = 'E' then
      let (negative, digits) := splitSign cs
      (readDigits? digits).map fun n => if negative then -(n : Int) else n
    else none

/-- An unsigned number of digits with an optional point and exponent. -/
def readMagnitude? (cs : List Char) : Option Float :=
  let whole := cs.takeWhile Char.isDigit
  let afterWhole := cs.dropWhile Char.isDigit
  let (fraction, tail) := match afterWhole with
    | '.' :: more => (more.takeWhile Char.isDigit, more.dropWhile Char.isDigit)
    | other => ([], other)
  if whole = [] ∧ fraction = [] then none
  else (readExponent? tail).map fun e =>
    ofDecimal (natOfDigits (whole ++ fraction)) (e - fraction.length)

def readWord? (cs : List Char) : Option Float :=
  let word := String.ofList (cs.map Char.toLower)
  if word = "inf" ∨ word = "infinity" then some (1.0 / 0.0)
  else if word = "nan" then some (0.0 / 0.0)
  else none

def readFloat? (text : String) : Option Float :=
  let (negative, cs) := splitSign text.toList
  ((readMagnitude? cs).or (readWord? cs)).map fun x => if negative then -x else x

/-- The whole number a text stands for, if it lies between the bounds. -/
def readInt? (low high : Int) (text : String) : Option Int :=
  let (negative, digits) := splitSign text.toList
  (readDigits? digits).bind fun n =>
    let i : Int := if negative then -(n : Int) else n
    if low ≤ i ∧ i ≤ high then some i else none

def readInt64? (text : String) : Option Int :=
  readInt? leastInt64 greatestInt64 text

/-- An unsigned whole number of 32 bits; a minus sign is not allowed. -/
def readNat32? (text : String) : Option Nat :=
  match text.toList with
  | '-' :: _ => none
  | _ => (readInt? 0 0xFFFFFFFF text).map Int.toNat

end ChartScript.Decimal
