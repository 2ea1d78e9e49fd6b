import ChartScript.Series.Study
/-!
Studies and operations by the names under which they are called, with their arguments in order.
-/
namespace ChartScript

/-! ## Functions of numbers -/

namespace Number

def functions : List (String × (Float → Float)) :=
  [("abs", Float.abs), ("ceil", Float.ceil), ("floor", Float.floor), ("round", Float.round),
   ("sqrt", Float.sqrt), ("exp", Float.exp), ("ln", Float.log), ("log10", Float.log10),
   ("trunc", truncate), ("sign", sign)]

def functions2 : List (String × (Float → Float → Float)) :=
  [("max", larger), ("min", smaller), ("powf", Float.pow)]

end Number

/-! ## Operations -/

namespace Operation

def unary : List (String × (Operand → Operation)) :=
  [("not", not), ("neg", neg), ("is_na", isNa), ("hold_first", holdFirst)]

def binary : List (String × (Operand → Operand → Operation)) :=
  [("add", add), ("sub", sub), ("mul", mul), ("div", div), ("rem", rem), ("gt", gt), ("ge", ge),
   ("lt", lt), ("le", le), ("eq", eq), ("ne", ne), ("and", and), ("or", or), ("nz", nz)]

def ofCall? (name : String) : List Operand → Option Operation
  | [a] => (unary.lookup name).map (· a)
  | [a, b] => (binary.lookup name).map (· a b)
  | [c, a, b] => if name = "select" then some (select c a b) else none
  | _ => none

end Operation

/-! ## Studies -/

namespace Study

/-- Studies of a series and a length. -/
def windowed : List (String × (Series → Nat → Study)) :=
  [("sma", sma), ("ema", ema), ("wma", wma), ("rma", rma), ("vwma", vwma), ("hma", hma),
   ("dema", dema), ("tema", tema), ("rsi", rsi), ("cci", cci), ("mfi", mfi), ("roc", roc),
   ("mom", mom), ("stdev", stdev), ("variance", variance), ("range", range),
   ("highest", highest), ("lowest", lowest), ("change", change), ("median", median),
   ("mode", mode), ("percentrank", percentRank)]

/-- A study by its name after `ta.`. A number that stands for a length is cut toward zero. -/
def ofCall? (name : String) (args : List Operand) : Option Study :=
  let length := lengthOfFloat
  match name, args with
  | "alma", [.series s, .number n, .number x, .number y] => some (alma s (length n) x y)
  | "macd", [.series s, .number k, .number m, .number n] =>
    some (macd s (length k) (length m) (length n))
  | "stoch", [.series s, .series t, .series u, .number m, .number n] =>
    some (stoch s t u (length m) (length n))
  | "wpr", [.number n] => some (wpr (length n))
  | "tr", [.flag b] => some (tr b)
  | "atr", [.number n] => some (atr (length n))
  | "bb", [.series s, .number n, .number x] => some (bb s (length n) x)
  | "kc", [.series s, .number n, .number x, .flag b] => some (kc s (length n) x b)
  | "vwap", [.series s] => some (vwap s)
  | "obv", [] => some obv
  | "accdist", [] => some accdist
  | "cross", [.series s, .series t] => some (cross s t)
  | "crossover", [.series s, .series t] => some (crossover s t)
  | "crossunder", [.series s, .series t] => some (crossunder s t)
  | "cum", [.series s] => some (cum s)
  | "correlation", [.series s, .series t, .number n] => some (correlation s t (length n))
  | "covariance", [.series s, .series t, .number n] => some (covariance s t (length n))
  | "dmi", [.number m, .number n] => some (dmi (length m) (length n))
  | "adx", [.number m, .number n] => some (adx (length m) (length n))
  | "pivothigh", [.series s, .number m, .number n] => some (pivothigh s (length m) (length n))
  | "pivotlow", [.series s, .number m, .number n] => some (pivotlow s (length m) (length n))
  | "supertrend", [.number x, .number n] => some (supertrend x (length n))
  | "sar", [.number x, .number y, .number z] => some (sar ⟨x, y, z⟩)
  | _, [.series s, .number n] => (windowed.lookup name).map (· s (length n))
  | _, _ => none

end Study

end ChartScript
