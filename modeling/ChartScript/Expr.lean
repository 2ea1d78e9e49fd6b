import ChartScript.Token
/-!
Expressions. Every node knows the place it was written at; parentheses leave no node of their own,
they only widen the place of the expression inside them.
-/
namespace ChartScript

inductive UnaryOp where
  | neg | plus | not
deriving DecidableEq, Repr

inductive BinaryOp where
  | add | sub | mul | div | rem
  | eq | ne | lt | le | gt | ge
  | and | or
deriving DecidableEq, Repr

namespace BinaryOp

def isComparison : BinaryOp → Bool
  | eq | ne | lt | le | gt | ge => true
  | _ => false

def isLogical : BinaryOp → Bool
  | and | or => true
  | _ => false

/-- Spelling between two single values in emitted code. -/
def symbol : BinaryOp → String
  | add => "+" | sub => "-" | mul => "*" | div => "/" | rem => "%"
  | eq => "==" | ne => "!=" | lt => "<" | le => "<=" | gt => ">" | ge => ">="
  | and => "&&" | or => "||"

/-- Name of the operation that works bar by bar. -/
def elementwise : BinaryOp → String
  | add => "add" | sub => "sub" | mul => "mul" | div => "div" | rem => "rem"
  | eq => "eq" | ne => "ne" | lt => "lt" | le => "le" | gt => "gt" | ge => "ge"
  | and => "and" | or => "or"

def comparison? : Operator → Option BinaryOp
  | .eqEq => some eq
  | .notEq => some ne
  | .lt => some lt
  | .le => some le
  | .gt => some gt
  | .ge => some ge
  | _ => none

/-- The operation a compound assignment applies. -/
def ofCompound? : Operator → Option BinaryOp
  | .plusAssign => some add
  | .minusAssign => some sub
  | .starAssign => some mul
  | .slashAssign => some div
  | _ => none

end BinaryOp

/-- What a call names: a function of the script or of the language itself, or a member of a
qualifier such as `ta`. -/
inductive Reference where
  | plain (name : String)
  | member (qualifier name : String)
deriving DecidableEq, Repr

/-- An argument as written. -/
structure Argument (α : Type) where
  name : Option String
  value : α
  span : Span

inductive Expr where
  /-- A number, and whether it was written without point and exponent. -/
  | number (span : Span) (value : Float) (isInt : Bool)
  | text (span : Span) (value : String)
  | bool (span : Span) (value : Bool)
  | na (span : Span)
  /-- A colour with its leading sign, such as `#ff0000`. -/
  | color (span : Span) (value : String)
  | name (span : Span) (reference : Reference)
  | series (span : Span) (field : BarField)
  | call (span : Span) (callee : Reference) (calleeSpan : Span) (args : List (Argument Expr))
  /-- The value `offset` bars ago. -/
  | index (span : Span) (target offset : Expr)
  | unary (span : Span) (op : UnaryOp) (operand : Expr)
  | binary (span : Span) (op : BinaryOp) (left right : Expr)
  | ternary (span : Span) (condition yes no : Expr)
  | tuple (span : Span) (items : List Expr)

namespace Expr

def span : Expr → Span
  | number s .. | text s .. | bool s .. | na s | color s .. | name s .. | series s .. | call s ..
  | index s .. | unary s .. | binary s .. | ternary s .. | tuple s .. => s

def withSpan (s : Span) : Expr → Expr
  | number _ v i => number s v i
  | text _ v => text s v
  | bool _ v => bool s v
  | na _ => na s
  | color _ v => color s v
  | name _ r => name s r
  | series _ f => series s f
  | call _ c cs args => call s c cs args
  | index _ t o => index s t o
  | unary _ op e => unary s op e
  | binary _ op l r => binary s op l r
  | ternary _ c y n => ternary s c y n
  | tuple _ items => tuple s items

mutual

/-- An expression and all expressions within it, outer ones first. -/
def nodes : Expr → List Expr
  | e@(call _ _ _ args) => e :: argumentNodes args
  | e@(index _ target offset) => e :: (nodes target ++ nodes offset)
  | e@(unary _ _ operand) => e :: nodes operand
  | e@(binary _ _ left right) => e :: (nodes left ++ nodes right)
  | e@(ternary _ condition yes no) => e :: (nodes condition ++ nodes yes ++ nodes no)
  | e@(tuple _ items) => e :: itemNodes items
  | e => [e]

def argumentNodes : List (Argument Expr) → List Expr
  | [] => []
  | ⟨_, value, _⟩ :: rest => nodes value ++ argumentNodes rest

def itemNodes : List Expr → List Expr
  | [] => []
  | e :: rest => nodes e ++ itemNodes rest

end

def isName (x : String) : Expr → Bool
  | name _ (.plain y) => y == x
  | _ => false

/-- The name occurs, be it as a value or as the function of a call. -/
def mentions (x : String) (e : Expr) : Bool :=
  e.nodes.any fun
    | name _ (.plain y) => y == x
    | call _ (.plain y) .. => y == x
    | _ => false

def readsHistoryOf (x : String) (e : Expr) : Bool :=
  e.nodes.any fun
    | index _ target _ => target.isName x
    | _ => false

end Expr

end ChartScript
