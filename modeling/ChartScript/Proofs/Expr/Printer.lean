import ChartScript.Expr.Parser
/-!
# Expressions written out

An expression is written with as few parentheses as its structure allows.
-/
namespace ChartScript

/-! ## Words -/

/-- Where a blank stands beside a word. -/
inductive Spacing where
  | tight | after | around
deriving DecidableEq, Repr

/-- A word of a printed expression. -/
inductive Word where
  | number (n : Nat)
  | name (spelling : String) (spacing : Spacing)
  /-- A first name, written with its dot. -/
  | qualifier (spelling : String)
  | quoted (value : String)
  | color (value : String)
  | operator (op : Operator) (spacing : Spacing)
  | mark (mark : Delimiter)
deriving DecidableEq, Repr

namespace Word

abbrev plain (spelling : String) : Word :=
  name spelling .tight

def kind : Word → TokenKind
  | number _ => .literal .number
  | name x _ => Lexer.wordKind x
  | qualifier _ => .qualifier
  | quoted _ => .literal .string
  | color _ => .literal .color
  | operator op _ => .operator op
  | mark m => .delimiter m

def text : Word → String
  | number n => String.ofList (Nat.toDigits 10 n)
  | name x _ => x
  | qualifier x => x ++ "."
  | quoted value => "\"" ++ value ++ "\""
  | color value => value
  | operator op _ => op.symbol
  | mark m => m.symbol

def spacing : Word → Spacing
  | name _ spacing => spacing
  | operator _ spacing => spacing
  | mark .comma => .after
  | _ => .tight

def lead (w : Word) : List Char :=
  if w.spacing = .around then [' '] else []

def trail (w : Word) : List Char :=
  if w.spacing = .tight then [] else [' ']

/-- How the word is written. -/
def chars (w : Word) : List Char :=
  w.lead ++ (w.text.toList ++ w.trail)

def separated : List (List Word) → List Word
  | [] => []
  | [ws] => ws
  | ws :: more => ws ++ mark .comma :: separated more

def parenthesized (ws : List Word) : List Word :=
  mark .openParen :: (ws ++ [mark .closeParen])

def isSpelling (x : String) : Bool :=
  x.toList.head?.any Text.startsWord && x.toList.all Text.continuesWord

/-- Names that may stand behind a qualifier. -/
def isMemberName (x : String) : Bool :=
  isSpelling x && match Lexer.wordKind x with
    | .identifier | .keyword _ => true
    | _ => false

/-- The text is read as a name. -/
def isIdentifier (x : String) : Bool :=
  isSpelling x && Lexer.wordKind x == .identifier

end Word

/-! ## Ranks -/

def BinaryOp.rank : BinaryOp → Nat
  | or => 1
  | and => 2
  | eq | ne | lt | le | gt | ge => 3
  | add | sub => 4
  | mul | div | rem => 5

def BinaryOp.word : BinaryOp → Word
  | or => .name "or" .around
  | and => .name "and" .around
  | eq => .operator .eqEq .around
  | ne => .operator .notEq .around
  | lt => .operator .lt .around
  | le => .operator .le .around
  | gt => .operator .gt .around
  | ge => .operator .ge .around
  | add => .operator .plus .around
  | sub => .operator .minus .around
  | mul => .operator .star .around
  | div => .operator .slash .around
  | rem => .operator .percent .around

def UnaryOp.word : UnaryOp → Word
  | neg => .operator .minus .tight
  | plus => .operator .plus .tight
  | not => .name "not" .after

def Reference.words : Reference → List Word
  | plain x => [.plain x]
  | member qualifier x => [.qualifier qualifier, .plain x]

/-- What can be called. -/
def Reference.isCallee : Reference → Bool
  | .plain x =>
    Word.isSpelling x && match Lexer.wordKind x with
      | .identifier | .literal .na => true
      | .keyword word => ExprParser.isCast word
      | _ => false
  | .member qualifier x => qualifierNames.contains qualifier && Word.isMemberName x

namespace Expr

def rank : Expr → Nat
  | ternary .. => 0
  | binary _ op .. => op.rank
  | unary .. => 6
  | _ => 7

/-! ## Text -/

def enclose (least : Nat) (e : Expr) (ws : List Word) : List Word :=
  if e.rank < least then Word.parenthesized ws else ws

def argumentName : Option String → List Word
  | some x => [.plain x, .operator .assign .around]
  | none => []

variable (numeral : Float → Nat)

mutual

def words : Expr → List Word
  | number _ x _ => [.number (numeral x)]
  | text _ value => [.quoted value]
  | bool _ value => [.plain (if value then "true" else "false")]
  | na _ => [.plain "na"]
  | color _ value => [.color value]
  | name _ reference => reference.words
  | series _ field => [.plain field.name]
  | call _ callee _ args => callee.words ++ Word.parenthesized (Word.separated (argumentWords args))
  | index _ target offset =>
    enclose 7 target (words target) ++ .mark .openBracket :: (words offset ++ [.mark .closeBracket])
  | unary _ op operand => op.word :: enclose 6 operand (words operand)
  | binary _ op left right =>
    enclose op.rank left (words left) ++ op.word :: enclose (op.rank + 1) right (words right)
  | ternary _ condition yes no =>
    enclose 1 condition (words condition) ++ .operator .question .around ::
      (words yes ++ .operator .colon .around :: words no)
  | tuple _ items => .mark .openBracket :: (Word.separated (itemWords items) ++ [.mark .closeBracket])

def argumentWords : List (Argument Expr) → List (List Word)
  | [] => []
  | ⟨x, value, _⟩ :: rest => (argumentName x ++ words value) :: argumentWords rest

def itemWords : List Expr → List (List Word)
  | [] => []
  | e :: rest => words e :: itemWords rest

end

def wordsAt (least : Nat) (e : Expr) : List Word :=
  enclose least e (words numeral e)

/-- The text of an expression. -/
def print (e : Expr) : List Char :=
  (words numeral e).flatMap Word.chars

/-! ## Trees without places -/

mutual

/-- The expression with every place forgotten. -/
def bare : Expr → Expr
  | number _ x isInt => number .origin x isInt
  | text _ value => text .origin value
  | bool _ value => bool .origin value
  | na _ => na .origin
  | color _ value => color .origin value
  | name _ reference => name .origin reference
  | series _ field => series .origin field
  | call _ callee _ args => call .origin callee .origin (bareArguments args)
  | index _ target offset => index .origin (bare target) (bare offset)
  | unary _ op operand => unary .origin op (bare operand)
  | binary _ op left right => binary .origin op (bare left) (bare right)
  | ternary _ condition yes no => ternary .origin (bare condition) (bare yes) (bare no)
  | tuple _ items => tuple .origin (bareItems items)

def bareArguments : List (Argument Expr) → List (Argument Expr)
  | [] => []
  | ⟨x, value, _⟩ :: rest => ⟨x, bare value, .origin⟩ :: bareArguments rest

def bareItems : List Expr → List Expr
  | [] => []
  | e :: rest => bare e :: bareItems rest

end

theorem bare_withSpan (e : Expr) (s : Span) : (e.withSpan s).bare = e.bare := by
  cases e <;> simp only [withSpan, bare]

theorem isIndex_bare (e : Expr) : ExprParser.isIndex e.bare = ExprParser.isIndex e := by
  cases e <;> simp only [bare, ExprParser.isIndex]

/-! ## What can be written -/

/-- The expression is made of names, series, truth values, missing values, whole numbers, members,
calls, subscripts of what has none, operations, conditionals and tuples of something. -/
inductive Printable : Expr → Prop
  | number {s : Span} {x : Float} : Decimal.ofDecimal (numeral x) 0 = x → x.isFinite = true →
      Printable (.number s x true)
  | bool {s : Span} {value : Bool} : Printable (.bool s value)
  | na {s : Span} : Printable (.na s)
  | series {s : Span} {field : BarField} : Printable (.series s field)
  | identifier {s : Span} {x : String} : Word.isIdentifier x = true → Printable (.name s (.plain x))
  | member {s : Span} {qualifier x : String} : qualifier ∈ qualifierNames →
      Word.isMemberName x = true → Printable (.name s (.member qualifier x))
  | call {s calleeSpan : Span} {callee : Reference} {args : List (Argument Expr)} : callee.isCallee = true →
      (∀ a ∈ args, ∀ x ∈ a.name, Word.isMemberName x = true) →
      (∀ a ∈ args, Printable a.value) → Printable (.call s callee calleeSpan args)
  | index {s : Span} {target offset : Expr} : ExprParser.isIndex target = false →
      Printable target → Printable offset → Printable (.index s target offset)
  | unary {s : Span} {op : UnaryOp} {operand : Expr} : Printable operand → Printable (.unary s op operand)
  | binary {s : Span} {op : BinaryOp} {left right : Expr} :
      Printable left → Printable right → Printable (.binary s op left right)
  | ternary {s : Span} {condition yes no : Expr} :
      Printable condition → Printable yes → Printable no → Printable (.ternary s condition yes no)
  | tuple {s : Span} {items : List Expr} : items ≠ [] → (∀ e ∈ items, Printable e) → Printable (.tuple s items)

end Expr

end ChartScript
