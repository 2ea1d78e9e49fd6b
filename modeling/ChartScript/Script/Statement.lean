import ChartScript.Script.Line
/-!
The lines of a script as a tree: each statement is one line, together with the block of statements
indented below it. The layout tokens are used up by the tree.
-/
namespace ChartScript

/-- A line and the statements of its block; no block is an empty one. -/
inductive Statement where
  | mk (line : List Token) (body : List Statement)

namespace Statement

def line : Statement → List Token
  | mk line _ => line

def body : Statement → List Statement
  | mk _ body => body

/-! ## Places -/

mutual

def span : Statement → Span
  | mk line body =>
    match Line.span? line, blockSpan? body with
    | some own, some inner => own.through inner
    | some own, none => own
    | none, inner => inner.getD .origin

def blockSpan? : List Statement → Option Span
  | [] => none
  | s :: rest =>
    match lastSpan? rest with
    | some last => some (s.span.through last)
    | none => some s.span

def lastSpan? : List Statement → Option Span
  | [] => none
  | s :: rest =>
    match lastSpan? rest with
    | some last => some last
    | none => some s.span

end

def bodySpan? (s : Statement) : Option Span :=
  blockSpan? s.body

/-! ## Reading -/

/-- A line, or a step of the indentation between two lines. -/
inductive Item where
  | line (tokens : List Token)
  | indent
  | dedent

def isLayout (t : Token) : Bool :=
  match t.kind with
  | .newline | .indent | .dedent | .eof => true
  | _ => false

/-- Groups tokens into lines, each as long as no layout token comes between. -/
def items : List Token → List Item
  | [] => []
  | t :: rest =>
    match t.kind with
    | .newline | .eof => items rest
    | .indent => .indent :: items rest
    | .dedent => .dedent :: items rest
    | _ =>
      match rest.head?.any (!isLayout ·), items rest with
      | true, .line tokens :: more => .line (t :: tokens) :: more
      | _, more => .line [t] :: more

/-- Puts what follows an opened block in order. The first of the given lists is the rest of the
block, the second what comes after it on the level outside; `join` makes one list of them. -/
def closeBlock (join : List Statement → List Statement → List Statement) :
    List (List Statement) → List (List Statement)
  | inner :: outer :: levels => join inner outer :: levels
  | [inner] => [join inner []]
  | [] => [join [] []]

/-- The statements that follow, level by level: the first list is the rest of the current block, the
next one the rest of the block around it, and so on. A line owns the block right below it; an
indented run that no line owns belongs to the block around it. -/
def levels : List Item → List (List Statement)
  | [] => [[]]
  | .dedent :: rest => [] :: levels rest
  | .indent :: rest => closeBlock (· ++ ·) (levels rest)
  | .line tokens :: .indent :: rest => closeBlock (mk tokens · :: ·) (levels rest)
  | .line tokens :: rest =>
    match levels rest with
    | block :: outer => (mk tokens [] :: block) :: outer
    | [] => [[mk tokens []]]

def tree (ts : List Token) : List Statement :=
  (levels (items ts)).flatten

end Statement

end ChartScript
