import ChartScript.PriceSource
import ChartScript.Span
/-!
The words of a script: keywords, operators, delimiters, literals and names, each with the place it
was found at. Line ends and changes of indentation are tokens of their own.
-/
namespace ChartScript

inductive Keyword where
  | if_ | else_ | for_ | to_ | by_ | in_ | while_ | switch
  | var | varip
  | and | or | not
  | import_ | export_ | type | method
  | indicator | study | strategy | library
  | input
  | break_ | continue_
  | series | simple | const | int | float | bool | string | color
deriving DecidableEq, Repr

namespace Keyword

def spelling : Keyword → String
  | if_ => "if" | else_ => "else" | for_ => "for" | to_ => "to" | by_ => "by" | in_ => "in"
  | while_ => "while" | switch => "switch"
  | var => "var" | varip => "varip"
  | and => "and" | or => "or" | not => "not"
  | import_ => "import" | export_ => "export" | type => "type" | method => "method"
  | indicator => "indicator" | study => "study" | strategy => "strategy" | library => "library"
  | input => "input"
  | break_ => "break" | continue_ => "continue"
  | series => "series" | simple => "simple" | const => "const" | int => "int"
  | float => "float" | bool => "bool" | string => "string" | color => "color"

def all : List Keyword :=
  [if_, else_, for_, to_, by_, in_, while_, switch, var, varip, and, or, not, import_, export_,
   type, method, indicator, study, strategy, library, input, break_, continue_,
   series, simple, const, int, float, bool, string, color]

def ofName? (name : String) : Option Keyword :=
  all.find? (·.spelling == name)

/-- Type names and the qualifiers that may stand before them. -/
def isTypeWord : Keyword → Bool
  | series | simple | const | int | float | bool | string | color => true
  | _ => false

end Keyword

inductive Operator where
  | plus | minus | star | slash | percent
  | eqEq | notEq | lt | gt | le | ge
  | assign | reassign | arrow | question | colon
  | plusAssign | minusAssign | starAssign | slashAssign
deriving DecidableEq, Repr

namespace Operator

def symbol : Operator → String
  | plus => "+" | minus => "-" | star => "*" | slash => "/" | percent => "%"
  | eqEq => "==" | notEq => "!=" | lt => "<" | gt => ">" | le => "<=" | ge => ">="
  | assign => "=" | reassign => ":=" | arrow => "=>" | question => "?" | colon => ":"
  | plusAssign => "+=" | minusAssign => "-=" | starAssign => "*=" | slashAssign => "/="

/-- Longer symbols come first, so that the first one that fits is the longest. -/
def all : List Operator :=
  [reassign, arrow, eqEq, notEq, le, ge, plusAssign, minusAssign, starAssign, slashAssign,
   plus, minus, star, slash, percent, lt, gt, assign, question, colon]

def ofSymbol? (text : String) : Option Operator :=
  all.find? (·.symbol == text)

def isAssignment : Operator → Bool
  | assign | reassign | plusAssign | minusAssign | starAssign | slashAssign => true
  | _ => false

end Operator

inductive Delimiter where
  | openParen | closeParen | openBracket | closeBracket | comma | dot
deriving DecidableEq, Repr

def Delimiter.symbol : Delimiter → String
  | openParen => "(" | closeParen => ")" | openBracket => "[" | closeBracket => "]"
  | comma => "," | dot => "."

inductive LiteralKind where
  | number | string | bool | na | color
deriving DecidableEq, Repr

inductive TokenKind where
  | keyword (word : Keyword)
  | operator (op : Operator)
  | delimiter (mark : Delimiter)
  | identifier
  /-- A known first name together with its dot, such as `ta.`. -/
  | qualifier
  | series (field : BarField)
  | literal (kind : LiteralKind)
  | comment
  | newline
  | indent
  | dedent
  | unknown
  | eof
deriving DecidableEq, Repr

namespace TokenKind

/-- Tokens that belong to no statement. -/
def isTrivia : TokenKind → Bool
  | comment | newline | indent | dedent => true
  | _ => false

def describe : TokenKind → String
  | keyword word => s!"keyword `{word.spelling}`"
  | operator op => s!"`{op.symbol}`"
  | delimiter mark => s!"`{mark.symbol}`"
  | identifier => "identifier"
  | qualifier => "namespace"
  | series field => s!"series `{field.name}`"
  | literal .number => "number"
  | literal .string => "string"
  | literal .bool => "bool"
  | literal .na => "na"
  | literal .color => "color literal"
  | comment => "comment"
  | newline => "newline"
  | indent => "indent"
  | dedent => "dedent"
  | unknown => "unknown character"
  | eof => "end of input"

end TokenKind

/-- A token, the place it covers and the characters found there. -/
structure Token where
  kind : TokenKind
  span : Span
  text : String
deriving DecidableEq, Repr

namespace Token

def isKeyword (t : Token) (word : Keyword) : Bool :=
  t.kind == .keyword word

def isOperator (t : Token) (op : Operator) : Bool :=
  t.kind == .operator op

def isDelimiter (t : Token) (mark : Delimiter) : Bool :=
  t.kind == .delimiter mark

/-- Names and keywords may stand before the sign of a named argument. -/
def isWord (t : Token) : Bool :=
  match t.kind with
  | .identifier | .keyword _ => true
  | _ => false

def qualifierName (t : Token) : String :=
  String.ofList (t.text.toList.takeWhile (· ≠ '.'))

end Token

end ChartScript
