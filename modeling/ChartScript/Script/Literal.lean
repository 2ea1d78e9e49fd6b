import ChartScript.Decimal.Read
import ChartScript.Script
/-!
Literal values written as one or two tokens.
-/
namespace ChartScript.Literal

/-- A number with an optional minus before it, and its integer value if it is written as one that
fits 64 bits. -/
def number? (value : List Token) : Option (Float × Option Int) :=
  match value with
  | [t] => read t false
  | [minus, t] => if minus.isOperator .minus then read t true else none
  | _ => none
where
  read (t : Token) (negative : Bool) : Option (Float × Option Int) :=
    if t.kind = .literal .number then
      (Decimal.readFloat? t.text).map fun x =>
        (if negative then -x else x,
         (Decimal.readInt64? t.text).map fun n => if negative then -n else n)
    else none

/-- A backslash stands before a character that means itself, but for line feed and tab. -/
def unescape : List Char → List Char
  | '\\' :: c :: rest =>
    (if c = 'n' then '\n' else if c = 't' then '\t' else c) :: unescape rest
  | c :: rest => c :: unescape rest
  | [] => []

def text? (value : List Token) : Option String :=
  match value with
  | [t] =>
    if t.kind = .literal .string then
      some (String.ofList (unescape (t.text.toList.drop 1).dropLast))
    else none
  | _ => none

def bool? (value : List Token) : Option Bool :=
  match value with
  | [t] => if t.kind = .literal .bool then some (t.text == "true") else none
  | _ => none

/-- A colour literal or a colour name, as written. -/
def color? (value : List Token) : Option String :=
  match value with
  | [t] => if t.kind = .literal .color then some t.text else none
  | [qualifier, name] =>
    if qualifier.text = "color." ∧ name.kind = .identifier then some ("color." ++ name.text)
    else none
  | _ => none

def priceSource? (value : List Token) : Option PriceSource :=
  match value with
  | [t] =>
    match t.kind with
    | .series _ | .identifier => PriceSource.ofName? t.text
    | _ => none
  | _ => none

def direction? (value : List Token) : Option Direction :=
  match value with
  | [qualifier, name] =>
    if qualifier.text = "strategy." then
      if name.text = "long" then some .long
      else if name.text = "short" then some .short
      else none
    else none
  | _ => none

end ChartScript.Literal
