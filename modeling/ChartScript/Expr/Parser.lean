import ChartScript.Decimal.Read
import ChartScript.Expr
import ChartScript.Token.Lexer
/-!
Reading an expression from its text. From loose to tight: conditional, `or`, `and`, comparison,
sum, product, sign, call and subscript. All binary levels group to the left, the conditional groups
to the right.

The text is a piece of a script. Its tokens are moved to their place in the script first, so every
place in the tree and in a fault is one of the whole script.
-/
namespace ChartScript

open Text

inductive ExprFault where
  | unexpectedCharacter (text : String)
  | empty
  | trailing (text : String)
  | expected (mark : Delimiter)
  | missingColon
  | notFunction
  | repeatedIndex
  | memberOfValue
  | malformedNumber (text : String)
  | numberRange
  | missingMember
  | emptyTuple
  | conditionalBlock
  | endedEarly
  | unexpected (text : String)
deriving DecidableEq, Repr

def ExprFault.message : ExprFault → String
  | unexpectedCharacter text => s!"unexpected character `{text}`"
  | empty => "empty expression"
  | trailing text => s!"unexpected `{text}` after expression"
  | expected mark => s!"expected `{mark.symbol}`"
  | missingColon => "expected `:` in conditional expression"
  | notFunction => "call of a value that is not a function"
  | repeatedIndex => "multi-dimensional indexing"
  | memberOfValue => "method call or field access"
  | malformedNumber text => s!"malformed number `{text}`"
  | numberRange => "number literal out of range"
  | missingMember => "expected a name after the namespace"
  | emptyTuple => "empty tuple"
  | conditionalBlock => "conditional expression block"
  | endedEarly => "expression ended early"
  | unexpected text => s!"unexpected `{text}` in expression"

/-- The text of a string literal: the quotes are taken off, and a backslash before a quote. -/
def unquote (literal : String) : String :=
  String.ofList (plainQuotes (literal.toList.drop 1).dropLast)
where
  plainQuotes : List Char → List Char
    | '\\' :: '"' :: rest => '"' :: plainQuotes rest
    | '\\' :: '\'' :: rest => '\'' :: plainQuotes rest
    | c :: rest => c :: plainQuotes rest
    | [] => []

namespace ExprParser

/-- Takes a value from the front of the tokens and leaves the tokens after it. -/
abbrev Reader (α : Type) : Type := List Token → Except (Located ExprFault) (α × List Token)

def peek (ts : List Token) : Token :=
  ts.headD ⟨.eof, .origin, ""⟩

def fail {α : Type} (t : Token) (cause : ExprFault) : Except (Located ExprFault) α :=
  .error ⟨t.span, cause⟩

def expect (mark : Delimiter) : Reader Token := fun ts =>
  if (peek ts).isDelimiter mark then .ok (peek ts, ts.drop 1) else fail (peek ts) (.expected mark)

/-! ## Binary levels -/

/-- Continues a chain of operands. Every round takes an operator, so `rounds` need not exceed the
number of tokens. -/
def chainFrom (operand : Reader Expr) (op? : Token → Option BinaryOp) :
    (rounds : Nat) → Expr → Reader Expr
  | 0, left, ts => .ok (left, ts)
  | rounds + 1, left, ts =>
    match op? (peek ts) with
    | none => .ok (left, ts)
    | some op => do
      let (right, ts) ← operand (ts.drop 1)
      chainFrom operand op? rounds (.binary (left.span.through right.span) op left right) ts

def chain (operand : Reader Expr) (op? : Token → Option BinaryOp) : Reader Expr := fun ts => do
  let (left, ts) ← operand ts
  chainFrom operand op? ts.length left ts

def orOp? (t : Token) : Option BinaryOp :=
  if t.isKeyword .or then some .or else none

def andOp? (t : Token) : Option BinaryOp :=
  if t.isKeyword .and then some .and else none

def comparisonOp? (t : Token) : Option BinaryOp :=
  match t.kind with
  | .operator op => BinaryOp.comparison? op
  | _ => none

def sumOp? (t : Token) : Option BinaryOp :=
  match t.kind with
  | .operator .plus => some .add
  | .operator .minus => some .sub
  | _ => none

def productOp? (t : Token) : Option BinaryOp :=
  match t.kind with
  | .operator .star => some .mul
  | .operator .slash => some .div
  | .operator .percent => some .rem
  | _ => none

def signOp? (t : Token) : Option UnaryOp :=
  match t.kind with
  | .operator .minus => some .neg
  | .operator .plus => some .plus
  | .keyword .not => some .not
  | _ => none

/-! ## Atoms

From here on `expr` reads a whole expression, as it may stand between brackets. -/

/-- Values up to the closing bracket, separated by commas; a comma may end the list. -/
def commaList {α : Type} (item : Reader α) (close : Delimiter) : (rounds : Nat) → Reader (List α)
  | 0, ts => .ok ([], ts)
  | rounds + 1, ts =>
    if (peek ts).isDelimiter close then .ok ([], ts)
    else do
      let (x, ts) ← item ts
      if (peek ts).isDelimiter .comma then
        let (xs, ts) ← commaList item close rounds (ts.drop 1)
        return (x :: xs, ts)
      else return ([x], ts)

/-- The value of a number literal, which must be finite. -/
def numberValue (t : Token) : Except (Located ExprFault) Float :=
  match Decimal.readFloat? t.text with
  | none => fail t (.malformedNumber t.text)
  | some x => if x.isFinite then .ok x else fail t .numberRange

/-- Words that name a conversion when a call follows. -/
def isCast : Keyword → Bool
  | .int | .float | .bool | .string | .color => true
  | _ => false

def atom (expr : Reader Expr) : Reader Expr := fun ts =>
  let t := peek ts
  let rest := ts.drop 1
  let called := (peek rest).isDelimiter .openParen
  match t.kind with
  | .literal .number => do
    let x ← numberValue t
    return (.number t.span x !(t.text.toList.any fun c => c == '.' || c == 'e' || c == 'E'), rest)
  | .literal .string => .ok (.text t.span (unquote t.text), rest)
  | .literal .bool => .ok (.bool t.span (t.text == "true"), rest)
  | .literal .na => .ok (if called then .name t.span (.plain "na") else .na t.span, rest)
  | .literal .color => .ok (.color t.span t.text, rest)
  | .identifier => .ok (.name t.span (.plain t.text), rest)
  | .series field => .ok (.series t.span field, rest)
  | .qualifier =>
    let member := peek rest
    if member.isWord then
      .ok (.name (t.span.through member.span)
        (.member t.qualifierName member.text), rest.drop 1)
    else fail member .missingMember
  | .delimiter .openParen => do
    let (inner, ts) ← expr rest
    let (close, ts) ← expect .closeParen ts
    return (inner.withSpan (t.span.through close.span), ts)
  | .delimiter .openBracket => do
    let (items, ts) ← commaList expr .closeBracket rest.length rest
    let (close, ts) ← expect .closeBracket ts
    let whole := t.span.through close.span
    if items.isEmpty then .error ⟨whole, .emptyTuple⟩ else return (.tuple whole items, ts)
  | .keyword word =>
    if called ∧ isCast word then .ok (.name t.span (.plain t.text), rest)
    else if word = .if_ ∨ word = .switch then fail t .conditionalBlock
    else fail t (.unexpected t.text)
  | .eof => fail t .endedEarly
  | _ => fail t (.unexpected t.text)

/-! ## Calls and subscripts -/

def isNamed (ts : List Token) : Bool :=
  (peek ts).isWord && (peek (ts.drop 1)).isOperator .assign

def argument (expr : Reader Expr) : Reader (Argument Expr) := fun ts => do
  let (value, rest) ← expr (if isNamed ts then ts.drop 2 else ts)
  let name := if isNamed ts then some (peek ts).text else none
  return (⟨name, value, (peek ts).span.through value.span⟩, rest)

def isIndex : Expr → Bool
  | .index .. => true
  | _ => false

/-- Takes the calls and subscripts that follow a value. -/
def suffixes (expr : Reader Expr) : (rounds : Nat) → Expr → Reader Expr
  | 0, e, ts => .ok (e, ts)
  | rounds + 1, e, ts =>
    let t := peek ts
    let rest := ts.drop 1
    match t.kind with
    | .delimiter .openParen =>
      match e with
      | .name calleeSpan callee => do
        let (args, ts) ← commaList (argument expr) .closeParen rest.length rest
        let (close, ts) ← expect .closeParen ts
        suffixes expr rounds (.call (calleeSpan.through close.span) callee calleeSpan args) ts
      | _ => fail t .notFunction
    | .delimiter .openBracket =>
      if isIndex e then fail t .repeatedIndex
      else do
        let (offset, ts) ← expr rest
        if (peek ts).isDelimiter .comma then fail (peek ts) .repeatedIndex
        let (close, ts) ← expect .closeBracket ts
        suffixes expr rounds (.index (e.span.through close.span) e offset) ts
    | .delimiter .dot => fail t .memberOfValue
    | _ => .ok (e, ts)

def postfixed (expr : Reader Expr) : Reader Expr := fun ts => do
  let (e, ts) ← atom expr ts
  suffixes expr ts.length e ts

/-- Signs stand before a value, the innermost last. -/
def signed (expr : Reader Expr) : Reader Expr := fun ts => do
  let signs := (ts.map fun t => (t.span, signOp? t)).takeWhile (·.2.isSome)
  let (e, rest) ← postfixed expr (ts.drop signs.length)
  let apply (sign : Span × Option UnaryOp) (e : Expr) : Expr :=
    match sign.2 with
    | some op => .unary (sign.1.through e.span) op e
    | none => e
  return (signs.foldr apply e, rest)

/-! ## Whole expressions -/

def operations (expr : Reader Expr) : Reader Expr :=
  let product := chain (signed expr) productOp?
  let comparison := chain (chain product sumOp?) comparisonOp?
  chain (chain comparison andOp?) orOp?

def conditional (expr : Reader Expr) : Reader Expr := fun ts => do
  let (condition, ts) ← operations expr ts
  if (peek ts).isOperator .question then
    let (yes, ts) ← expr (ts.drop 1)
    if (peek ts).isOperator .colon then
      let (no, ts) ← expr (ts.drop 1)
      return (.ternary (condition.span.through no.span) condition yes no, ts)
    else fail (peek ts) .missingColon
  else return (condition, ts)

/-- Reads an expression whose parts are nested less than `depth` deep. A nested part starts at least
one token later, so the number of tokens bounds the depth. -/
def expression : (depth : Nat) → Reader Expr
  | 0, ts => fail (peek ts) .endedEarly
  | depth + 1, ts => conditional (expression depth) ts

end ExprParser

open ExprParser in
/-- Reads the text that stands at `base` in a script as one expression. -/
def Expr.parse (text : List Char) (base : Span) : Except (Located ExprFault) Expr := do
  let tokens := ((tokenize text).filter (!·.kind.isTrivia)).map fun t =>
    { t with span := t.span.offsetBy base }
  if let some bad := tokens.find? (·.kind == .unknown) then
    fail bad (.unexpectedCharacter bad.text)
  if (peek tokens).kind == .eof then throw ⟨base, .empty⟩
  let (e, rest) ← expression tokens.length tokens
  if (peek rest).kind != .eof then fail (peek rest) (.trailing (peek rest).text)
  return e

end ChartScript
