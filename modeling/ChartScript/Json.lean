import ChartScript.Decimal.Layout
/-!
JSON values and their text over several lines, two blanks deeper for each level. Fields keep the
order they are given in. A number that is not finite is written as `null`.
-/
namespace ChartScript

inductive Json where
  | null
  | bool (value : Bool)
  | int (value : Int)
  | float (value : Float)
  | text (value : String)
  | array (items : List Json)
  | object (fields : List (String × Json))
deriving Inhabited

namespace Json

/-! ## Building values -/

def nat (n : Nat) : Json :=
  .int n

def nullable {α : Type} (write : α → Json) : Option α → Json
  | some x => write x
  | none => .null

def list {α : Type} (write : α → Json) (xs : List α) : Json :=
  .array (xs.map write)

def texts (xs : List String) : Json :=
  list .text xs

/-- A value under a single key, which says what it is. -/
def tagged (tag : String) (v : Json) : Json :=
  .object [(tag, v)]

/-! ## Writing -/

def hexDigit (n : Nat) : Char :=
  ((Nat.toDigits 16 n).head?).getD '0'

/-- Quotes, backslashes and control characters are escaped, all else stands for itself. -/
def escape (c : Char) : List Char :=
  match c with
  | '"' => ['\\', '"']
  | '\\' => ['\\', '\\']
  | '\n' => ['\\', 'n']
  | '\r' => ['\\', 'r']
  | '\t' => ['\\', 't']
  | '\x08' => ['\\', 'b']
  | '\x0c' => ['\\', 'f']
  | c =>
    if c.toNat < 0x20 then
      ['\\', 'u', '0', '0', hexDigit (c.toNat / 16), hexDigit (c.toNat % 16)]
    else [c]

def quote (s : String) : String :=
  String.ofList ('"' :: s.toList.flatMap escape ++ ['"'])

def writeFloat (x : Float) : String :=
  if x.isFinite then Decimal.write x else "null"

def margin (depth : Nat) : String :=
  String.ofList (List.replicate (2 * depth) ' ')

/-- Items on lines of their own, one level below `depth`, between two brackets. -/
def enclose (opening closing : String) (depth : Nat) (items : List String) : String :=
  if items.isEmpty then opening ++ closing
  else
    opening ++ "\n" ++ ",\n".intercalate (items.map (margin (depth + 1) ++ ·)) ++ "\n" ++
      margin depth ++ closing

mutual

def prettyAt (depth : Nat) : Json → String
  | null => "null"
  | bool true => "true"
  | bool false => "false"
  | int n => toString n
  | float x => writeFloat x
  | text s => quote s
  | array items => enclose "[" "]" depth (prettyItems (depth + 1) items)
  | object fields => enclose "\x7b" "\x7d" depth (prettyFields (depth + 1) fields)

def prettyItems (depth : Nat) : List Json → List String
  | [] => []
  | v :: rest => prettyAt depth v :: prettyItems depth rest

def prettyFields (depth : Nat) : List (String × Json) → List String
  | [] => []
  | (key, v) :: rest => (quote key ++ ": " ++ prettyAt depth v) :: prettyFields depth rest

end

def pretty (v : Json) : String :=
  prettyAt 0 v

end Json

end ChartScript
