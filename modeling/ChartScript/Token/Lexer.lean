import ChartScript.Text.Blank
import ChartScript.Text.Letter
import ChartScript.Text.Lines
import ChartScript.Token
/-!
Splitting a script into tokens, in one pass from left to right that never fails: a character that
starts nothing known is a token of its own.

Blocks follow the indentation. The width of the blanks before the first word of a line is compared
with the widths of the open blocks, and opening or closing a block yields a token. Lines that hold
nothing or begin with a comment have no say. A line end within brackets is no end of a statement,
nor is one before a line that is indented deeper than the block by a width that is no multiple of
four.
-/
namespace ChartScript

open Text

/-- First names that are read together with the dot after them. -/
def qualifierNames : List String :=
  ["ta", "math", "input", "strategy", "color", "array", "matrix", "map", "line", "label", "box",
   "table", "polyline", "linefill", "request", "str", "plot", "shape", "location", "size",
   "syminfo", "timeframe", "barstate", "display", "position", "chart", "ticker", "session",
   "currency", "extend", "text", "font", "xloc", "yloc", "alert", "runtime", "log", "hline",
   "order", "scale", "barmerge", "format", "dayofweek", "adjustment"]

namespace Lexer

/-! ## The word at the front of a text -/

/-- The token a text begins with and its length in characters, or a gap of one character. -/
inductive Lexeme where
  | gap
  | token (kind : TokenKind) (length : Nat)
deriving DecidableEq, Repr

/-- Both kinds of comment begin with a slash and one of two characters. -/
def startsComment : List Char → Bool
  | '/' :: '/' :: _ => true
  | '/' :: '*' :: _ => true
  | _ => false

def blockCommentLength : List Char → Nat
  | [] => 0
  | '*' :: '/' :: _ => 2
  | _ :: rest => 1 + blockCommentLength rest

/-- Length of the text up to and including the closing quote, if it comes on the same line. A
backslash takes the meaning from the character after it. -/
def stringLength? (quote : Char) : (escaped : Bool) → List Char → Option Nat
  | _, [] => none
  | escaped, c :: rest =>
    if c = '\n' then none
    else if escaped then (stringLength? quote false rest).map (· + 1)
    else if c = '\\' then (stringLength? quote true rest).map (· + 1)
    else if c = quote then some 1
    else (stringLength? quote false rest).map (· + 1)

def isHexDigit (c : Char) : Bool :=
  c.isDigit || ('a' ≤ c && c ≤ 'f') || ('A' ≤ c && c ≤ 'F')

/-- Six or eight hexadecimal digits with no word character after them. -/
def colorLength? (cs : List Char) : Option Nat :=
  let digits := (cs.takeWhile isHexDigit).length
  let followed := (cs.drop digits).head?.any continuesWord
  if (digits = 6 ∨ digits = 8) ∧ !followed then some digits else none

/-- Length of a point and the digits after it. A point before a name or another point is no part
of a number. -/
def fractionLength : List Char → Nat
  | '.' :: rest =>
    if rest.head?.any fun c => startsWord c || c == '.' then 0
    else 1 + (rest.takeWhile Char.isDigit).length
  | _ => 0

/-- Length of an exponent mark, its sign and its digits; there must be a digit. -/
def exponentLength : List Char → Nat
  | c :: rest =>
    if c = 'e' ∨ c = 'E' then
      let sign := match rest with
        | '+' :: _ => 1
        | '-' :: _ => 1
        | _ => 0
      let digits := ((rest.drop sign).takeWhile Char.isDigit).length
      if digits = 0 then 0 else 1 + sign + digits
    else 0
  | [] => 0

def numberLength (cs : List Char) : Nat :=
  let whole := (cs.takeWhile Char.isDigit).length
  let fraction := fractionLength (cs.drop whole)
  whole + fraction + exponentLength (cs.drop (whole + fraction))

def wordKind (word : String) : TokenKind :=
  if word = "true" ∨ word = "false" then .literal .bool
  else if word = "na" then .literal .na
  else match Keyword.ofName? word, BarField.ofName? word with
    | some k, _ => .keyword k
    | none, some f => .series f
    | none, none => .identifier

/-- A dot that leads to another name. -/
def leadsOn : List Char → Bool
  | '.' :: c :: _ => startsWord c
  | _ => false

def word (cs : List Char) : Lexeme :=
  let letters := cs.takeWhile continuesWord
  let name := String.ofList letters
  if leadsOn (cs.drop letters.length) && qualifierNames.contains name then
    .token .qualifier (letters.length + 1)
  else .token (wordKind name) letters.length

def operator (cs : List Char) : Lexeme :=
  match Operator.all.find? fun op => op.symbol.toList.isPrefixOf cs with
  | some op => .token (.operator op) op.symbol.length
  | none => .token .unknown 1

/-- What the text begins with if that is neither a gap nor a comment nor a string. -/
def plainLexeme (c : Char) (rest : List Char) : Lexeme :=
  if c = '#' then
    match colorLength? rest with
    | some n => .token (.literal .color) (1 + n)
    | none => .token .unknown 1
  else if c.isDigit ∨ (c = '.' ∧ rest.head?.any Char.isDigit) then
    .token (.literal .number) (numberLength (c :: rest))
  else if startsWord c then word (c :: rest)
  else if c = '(' then .token (.delimiter .openParen) 1
  else if c = '[' then .token (.delimiter .openBracket) 1
  else if c = ')' then .token (.delimiter .closeParen) 1
  else if c = ']' then .token (.delimiter .closeBracket) 1
  else if c = ',' then .token (.delimiter .comma) 1
  else if c = '.' then .token (.delimiter .dot) 1
  else operator (c :: rest)

/-- What the text `c :: rest` begins with. Line ends are no matter of a single line and are left to
the pass over the whole text. -/
def lexeme (c : Char) (rest : List Char) : Lexeme :=
  if isBlank c then .gap
  else if c = '/' ∧ rest.head? = some '/' then
    .token .comment (1 + (rest.takeWhile (· ≠ '\n')).length)
  else if c = '/' ∧ rest.head? = some '*' then
    .token .comment (2 + blockCommentLength (rest.drop 1))
  else if c = '"' ∨ c = '\'' then
    match stringLength? c false rest with
    | some n => .token (.literal .string) (1 + n)
    | none => .token .unknown 1
  else plainLexeme c rest

/-! ## Layout -/

def marginWidth? (c : Char) : Option Nat :=
  if c = ' ' then some 1 else if c = '\t' then some 4 else none

/-- Width of the blanks a text begins with, and what follows them. -/
def measure : List Char → Nat × List Char
  | [] => (0, [])
  | c :: rest =>
    match marginWidth? c with
    | some w => let (width, after) := measure rest; (w + width, after)
    | none => (0, c :: rest)

/-- A line that, after its blanks, is over or begins with a comment has no indentation. -/
def hasNoIndentation : List Char → Bool
  | [] => true
  | c :: rest => c == '\n' || c == '\r' || startsComment (c :: rest)

/-- The next line belongs to the statement of the line that ends here. -/
def continuesStatement (indents : List Nat) (nextLine : List Char) : Bool :=
  let (width, after) := measure nextLine
  !hasNoIndentation after && indents.headD 0 < width && width % 4 != 0

/-- The layout tokens for a line of the given width, and the widths of the blocks open after it.
Every block that is deeper than the line closes; a width that then still differs opens one. -/
def reindent (indents : List Nat) (width : Nat) : List TokenKind × List Nat :=
  let still := indents.dropWhile (width < ·)
  let closed := List.replicate (indents.length - still.length) TokenKind.dedent
  if still.headD 0 < width then (closed ++ [.indent], width :: still) else (closed, still)

/-! ## The pass over the text -/

structure Position where
  offset : Nat
  line : Nat
  column : Nat
deriving DecidableEq, Repr

def Position.advance (p : Position) (c : Char) : Position :=
  if c = '\n' then ⟨p.offset + c.utf8Size, p.line + 1, 1⟩
  else ⟨p.offset + c.utf8Size, p.line, p.column + 1⟩

/-- What the pass remembers of the text it has read. -/
structure State where
  position : Position
  /-- Widths of the open blocks, the innermost first. -/
  indents : List Nat
  /-- Number of open brackets. -/
  depth : Nat
  /-- Width of the line so far, as long as only indenting blanks were read on it. -/
  margin : Option Nat
  /-- The statement on this line has begun. -/
  hasContent : Bool
deriving DecidableEq, Repr

namespace State

def start : State := ⟨⟨0, 1, 1⟩, [], 0, some 0, false⟩

def advance (s : State) (c : Char) : State :=
  { s with position := s.position.advance c }

def token (s : State) (kind : TokenKind) (chars : List Char) : Token where
  kind := kind
  span := ⟨s.position.offset, s.position.offset + byteSize chars, s.position.line,
    s.position.column⟩
  text := String.ofList chars

/-- Ends the margin of a line at the text `cs` and emits its layout tokens. -/
def settle (s : State) (cs : List Char) : List Token × State :=
  match s.margin with
  | none => ([], s)
  | some width =>
    if hasNoIndentation cs then ([], { s with margin := none })
    else
      let (kinds, indents) := reindent s.indents width
      (kinds.map (s.token · []), { s with margin := none, indents := indents })

def bracketDepth (depth : Nat) : TokenKind → Nat
  | .delimiter .openParen | .delimiter .openBracket => depth + 1
  | .delimiter .closeParen | .delimiter .closeBracket => depth - 1
  | _ => depth

/-- Notes a token: brackets change the depth, and every token but a comment is content. -/
def note (s : State) (kind : TokenKind) : State :=
  { s with
    depth := bracketDepth s.depth kind
    hasContent := s.hasContent || !kind.isTrivia }

/-- A line end outside brackets that no continuation follows. -/
def endsStatement (s : State) (rest : List Char) : Bool :=
  s.depth == 0 && !(s.hasContent && continuesStatement s.indents rest)

/-- What the pass finds at `c :: rest`. -/
def lexeme (s : State) (c : Char) (rest : List Char) : Lexeme :=
  if c = '\n' then if s.endsStatement rest then .token .newline 1 else .gap
  else Lexer.lexeme c rest

/-- Closes whatever is open at the end of the text. -/
def finish (s : State) : List Token :=
  (if s.hasContent then [s.token .newline []] else []) ++
    s.indents.map (fun _ => s.token .dedent []) ++ [s.token .eof []]

end State

/-- Reads the text from a state. The first `skip` characters belong to a token already emitted. -/
def scan : (skip : Nat) → State → List Char → List Token
  | _, s, [] => s.finish
  | skip + 1, s, c :: rest => scan skip (s.advance c) rest
  | 0, s, c :: rest =>
    match s.margin, marginWidth? c with
    | some width, some w => scan 0 { s.advance c with margin := some (width + w) } rest
    | _, _ =>
      let (layout, s) := s.settle (c :: rest)
      match s.lexeme c rest with
      | .gap => layout ++ scan 0 (s.advance c) rest
      | .token .newline _ =>
        layout ++ s.token .newline [c] ::
          scan 0 { s.advance c with margin := some 0, hasContent := false } rest
      | .token kind length =>
        layout ++ s.token kind ((c :: rest).take length) ::
          scan (length - 1) ((s.note kind).advance c) rest

end Lexer

def tokenize (source : List Char) : List Token :=
  Lexer.scan 0 Lexer.State.start source

end ChartScript
