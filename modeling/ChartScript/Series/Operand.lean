import ChartScript.Series.Basic
/-!
Operations bar by bar on series and single values in any mixture. A result is as long as the longest
series among the operands.
-/
namespace ChartScript

inductive Operand where
  | number (x : Float)
  | flag (b : Bool)
  | series (s : Series)

namespace Operand

instance : Coe Float Operand := ⟨number⟩

instance : Coe Series Operand := ⟨series⟩

/-- The value on a bar; a single value is the same on all. -/
def valueAt (a : Operand) (bar : Nat) : Option Float :=
  match a with
  | number x => finite? (some x)
  | flag b => some (flagNumber b)
  | series s => s.get? bar

def isTrueAt (a : Operand) (bar : Nat) : Bool :=
  isTruthy (a.valueAt bar)

/-- The number of bars that the operand asks for. -/
def size : Operand → Nat
  | series s => s.size
  | _ => 0

def values (a : Operand) (count : Nat) : List (Option Float) :=
  match a with
  | series s => s.padded count
  | scalar => List.replicate count (scalar.valueAt 0)

/-! ## The shapes of operations -/

def mapValues (f : Option Float → Option Float) (a : Operand) : Series :=
  Series.ofValues ((a.values a.size).map f)

def zipValues (f : Option Float → Option Float → Option Float) (a b : Operand) : Series :=
  let count := max a.size b.size
  Series.ofValues (List.zipWith f (a.values count) (b.values count))

/-- An operation that needs both values. -/
def binary (f : Float → Float → Option Float) (a b : Operand) : Series :=
  zipValues (fun x y => x.bind fun x => y.bind (f x)) a b

def compare (f : Float → Float → Bool) (a b : Operand) : Series :=
  binary (fun x y => some (flagNumber (f x y))) a b

/-! ## Arithmetic -/

def apply (f : Float → Float) (a : Operand) : Series :=
  mapValues (Option.map f) a

def apply2 (f : Float → Float → Float) (a b : Operand) : Series :=
  binary (fun x y => some (f x y)) a b

def add : Operand → Operand → Series := apply2 (· + ·)

def sub : Operand → Operand → Series := apply2 (· - ·)

def mul : Operand → Operand → Series := apply2 (· * ·)

/-- A division by zero has no value. -/
def div : Operand → Operand → Series :=
  binary fun x y => if y == 0.0 then none else some (x / y)

def rem : Operand → Operand → Series :=
  binary fun x y => if y == 0.0 then none else some (Number.remainder x y)

def neg : Operand → Series := apply (- ·)

/-! ## Comparison and truth -/

def gt : Operand → Operand → Series := compare (· > ·)

def ge : Operand → Operand → Series := compare (· ≥ ·)

def lt : Operand → Operand → Series := compare (· < ·)

def le : Operand → Operand → Series := compare (· ≤ ·)

def eq : Operand → Operand → Series := compare (· == ·)

def ne : Operand → Operand → Series := compare (· != ·)

/-- A value that is not available counts as false. -/
def and : Operand → Operand → Series :=
  zipValues fun x y => some (flagNumber (isTruthy x && isTruthy y))

def or : Operand → Operand → Series :=
  zipValues fun x y => some (flagNumber (isTruthy x || isTruthy y))

def not : Operand → Series :=
  mapValues fun x => some (flagNumber (!isTruthy x))

/-! ## Choice and gaps -/

/-- The second or the third operand, as the first is true or not. -/
def select (condition a b : Operand) : Series :=
  let count := max condition.size (max a.size b.size)
  Series.ofValues (List.zipWith (fun c (x, y) => if isTruthy c then x else y)
    (condition.values count) ((a.values count).zip (b.values count)))

/-- The first operand, and the second where the first has no value. -/
def nz : Operand → Operand → Series :=
  zipValues fun x y => x.or y

def isNa : Operand → Series :=
  mapValues fun x => some (flagNumber x.isNone)

/-- The value of the first bar on every bar. -/
def holdFirst (a : Operand) : Series :=
  mapValues (fun _ => a.valueAt 0) a

def broadcast (a : Operand) (count : Nat) : Series :=
  Series.ofValues (a.values count)

end Operand

/-! ## Window lengths -/

/-- The largest window length, one less than two to the power 64. -/
def lengthLimit : Nat :=
  0xFFFFFFFFFFFFFFFF

/-- A length from a whole number; a negative one counts as zero. -/
def lengthOfInt (n : Int) : Nat :=
  n.toNat

/-- A length from a number, which is cut toward zero. What is negative or not finite counts as
zero. -/
def lengthOfFloat (x : Float) : Nat :=
  match Decimal.Binary.ofFloat? x with
  | some b => if b.negative then 0 else min b.whole lengthLimit
  | none => 0

end ChartScript
