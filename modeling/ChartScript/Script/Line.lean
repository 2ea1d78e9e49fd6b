import ChartScript.Script.Fault
import ChartScript.Token
/-!
The tokens of one line: brackets, the parts between commas, and the arguments of a call.
-/
namespace ChartScript.Line

def span? (ts : List Token) : Option Span :=
  match ts.head?, ts.getLast? with
  | some first, some last => some (first.span.through last.span)
  | _, _ => none

/-! ## Brackets -/

/-- How much a token changes the number of open brackets. -/
def bracketDelta (t : Token) : Int :=
  match t.kind with
  | .delimiter .openParen | .delimiter .openBracket => 1
  | .delimiter .closeParen | .delimiter .closeBracket => -1
  | _ => 0

/-- Checks that every bracket is closed by one of its shape. The open brackets are given innermost
first. -/
def checkBracketsFrom : (opened : List Token) → List Token → Except SyntaxError Unit
  | [], [] => .ok ()
  | t :: _, [] =>
    .error ⟨t.span, if t.isDelimiter .openBracket then .unclosed "[" "]" else .unclosed "(" ")"⟩
  | opened, t :: rest =>
    match t.kind with
    | .delimiter .openParen | .delimiter .openBracket => checkBracketsFrom (t :: opened) rest
    | .delimiter .closeParen =>
      if opened.head?.any (·.isDelimiter .openParen) then checkBracketsFrom (opened.drop 1) rest
      else .error ⟨t.span, .unbalanced "(" ")"⟩
    | .delimiter .closeBracket =>
      if opened.head?.any (·.isDelimiter .openBracket) then checkBracketsFrom (opened.drop 1) rest
      else .error ⟨t.span, .unbalanced "[" "]"⟩
    | _ => checkBracketsFrom opened rest

def checkBrackets (tokens : List Token) : Except SyntaxError Unit :=
  checkBracketsFrom [] tokens

/-- The first position after whose token no bracket is open any more. -/
def closingPosition? : (depth : Int) → List Token → Option Nat
  | _, [] => none
  | depth, t :: rest =>
    if depth + bracketDelta t = 0 then some 0
    else (closingPosition? (depth + bracketDelta t) rest).map (· + 1)

/-- Position of the bracket that closes the one at position `start`. -/
def matchingClose? (tokens : List Token) (start : Nat) : Option Nat :=
  (closingPosition? 0 (tokens.drop start)).map (start + ·)

/-- Position of the first token outside brackets with the given property. -/
def outerPosition? (p : Token → Bool) : (depth : Int) → List Token → Option Nat
  | _, [] => none
  | depth, t :: rest =>
    if depth = 0 ∧ p t then some 0
    else (outerPosition? p (depth + bracketDelta t) rest).map (· + 1)

/-- The parts between the commas outside brackets; there is always one more than commas. -/
def splitAtCommas : (depth : Int) → List Token → List (List Token)
  | _, [] => [[]]
  | depth, t :: rest =>
    if depth = 0 ∧ t.isDelimiter .comma then [] :: splitAtCommas depth rest
    else match splitAtCommas (depth + bracketDelta t) rest with
      | [] => [[t]]
      | part :: more => (t :: part) :: more

/-- The parts between brackets from position `start + 1` to `close`, empty ones left out. -/
def parts (tokens : List Token) (start close : Nat) : List (List Token) :=
  (splitAtCommas 0 ((tokens.take close).drop (start + 1))).filter (!·.isEmpty)

/-! ## Arguments -/

structure Arg where
  name : Option String
  value : List Token

def Arg.ofTokens : List Token → Arg
  | name :: sign :: value =>
    if name.isWord ∧ sign.isOperator .assign then ⟨some name.text, value⟩
    else ⟨none, name :: sign :: value⟩
  | ts => ⟨none, ts⟩

/-- The arguments of the call whose bracket opens at position `start`, and the position of the
closing bracket. -/
def arguments (tokens : List Token) (start : Nat) : Except SyntaxError (List Arg × Nat) :=
  match matchingClose? tokens start with
  | some close => .ok ((parts tokens start close).map Arg.ofTokens, close)
  | none => .error ⟨(tokens[start]?.map (·.span)).getD .origin, .unclosed "(" ")"⟩

/-- Arguments by parameter: a named one under its name, an unnamed one under the next of the
positional parameters; those in excess are dropped. -/
def bind : List Arg → (positional : List String) → List (String × List Token)
  | [], _ => []
  | ⟨some name, value⟩ :: args, ps => (name, value) :: bind args ps
  | ⟨none, value⟩ :: args, p :: ps => (p, value) :: bind args ps
  | ⟨none, _⟩ :: args, [] => bind args []

end ChartScript.Line
