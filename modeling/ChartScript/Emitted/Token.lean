import ChartScript.Text.Blank
import ChartScript.Text.Identifier
/-!
Tokens of emitted code. Almost all of it is well formed by construction; only a title or a path that
is copied into it as it is can spoil it, and those are split into tokens here.
-/
namespace ChartScript.Emitted

inductive Token where
  | word (name : String)
  /-- A word that is taken as a name though it may be a keyword. -/
  | rawWord (name : String)
  | colons
  | mark (c : Char)
  | lifetime (name : String)
  | digits
  /-- A comment that documents what follows it. -/
  | doc
deriving DecidableEq, Repr

def keywords : List String :=
  ["_", "abstract", "as", "async", "await", "become", "box", "break", "const", "continue",
   "crate", "do", "dyn", "else", "enum", "extern", "false", "final", "fn", "for", "if", "impl",
   "in", "let", "loop", "macro", "match", "mod", "move", "mut", "override", "priv", "pub", "ref",
   "return", "Self", "self", "static", "struct", "super", "trait", "true", "try", "type",
   "typeof", "unsafe", "unsized", "use", "virtual", "where", "while", "yield"]

/-- Keywords that stand for a place in the tree of modules. -/
def moduleWords : List String :=
  ["crate", "self", "super", "try"]

namespace Token

def isName : Token → Bool
  | word name => !keywords.contains name
  | rawWord _ => true
  | _ => false

def isModuleWord : Token → Bool
  | word name => moduleWords.contains name
  | _ => false

/-! ## Reading -/

def marks : List Char :=
  "!#$%&'()*+,-./:;<=>?@[]^|~\x7b\x7d".toList

/-- White space between tokens, which includes the marks of writing direction. -/
def isGap (c : Char) : Bool :=
  Text.isBlank c || c == Char.ofNat 0x200E || c == Char.ofNat 0x200F

/-- A line and what follows it. A carriage return belongs to the end of a line only if a line feed
comes right after it. -/
def line : List Char → List Char × List Char
  | [] => ([], [])
  | '\r' :: '\n' :: rest => ([], '\n' :: rest)
  | c :: rest =>
    if c = '\n' then ([], c :: rest)
    else let (text, after) := line rest; (c :: text, after)

/-- What is inside of a block comment, of which `depth` are open, and what follows it. -/
def blockComment (depth : Nat) : List Char → Option (List Char × List Char)
  | '/' :: '*' :: rest => (blockComment (depth + 1) rest).map fun (t, r) => ('/' :: '*' :: t, r)
  | '*' :: '/' :: rest =>
    if depth ≤ 1 then some ([], rest)
    else (blockComment (depth - 1) rest).map fun (t, r) => ('*' :: '/' :: t, r)
  | c :: rest => (blockComment depth rest).map fun (t, r) => (c :: t, r)
  | [] => none

/-- Some carriage return is not followed by a line feed. -/
def hasBareReturn : List Char → Bool
  | [] => false
  | c :: rest => (c == '\r' && rest.head? != some '\n') || hasBareReturn rest

def docToken (text rest : List Char) : Option (Option Token × List Char) :=
  if hasBareReturn text then none else some (some doc, rest)

/-- A comment: nothing, unless it documents something. A comment that documents what surrounds it is
out of place. -/
def comment (cs : List Char) : Option (Option Token × List Char) :=
  match cs with
  | '/' :: '/' :: '!' :: _ => none
  | '/' :: '/' :: '/' :: '/' :: rest => some (none, (line rest).2)
  | '/' :: '/' :: '/' :: rest => docToken (line rest).1 (line rest).2
  | '/' :: '/' :: rest => some (none, (line rest).2)
  | '/' :: '*' :: '!' :: _ => none
  | '/' :: '*' :: '*' :: '/' :: rest => some (none, rest)
  | '/' :: '*' :: '*' :: '*' :: rest =>
    (blockComment 1 ('*' :: '*' :: rest)).map fun r => (none, r.2)
  | '/' :: '*' :: '*' :: rest => (blockComment 1 rest).bind fun r => docToken r.1 r.2
  | '/' :: '*' :: rest => (blockComment 1 rest).map fun r => (none, r.2)
  | _ => none

/-- The keywords that no word can be turned from into a name. -/
def neverRaw : List String :=
  ["_", "super", "self", "Self", "crate"]

def wordChars (cs : List Char) : String × List Char :=
  (String.ofList (cs.takeWhile Text.continuesIdentifier), cs.dropWhile Text.continuesIdentifier)

/-- The first token, or nothing for a gap or an ordinary comment, and what follows it. -/
def first (cs : List Char) : Option (Option Token × List Char) :=
  match cs with
  | [] => none
  | 'r' :: '#' :: c :: rest =>
    let (name, after) := wordChars (c :: rest)
    if Text.startsIdentifier c && !neverRaw.contains name then some (some (rawWord name), after)
    else none
  | ':' :: ':' :: rest => some (some colons, rest)
  | '\'' :: c :: rest =>
    let (name, after) := wordChars (c :: rest)
    if Text.startsIdentifier c && after.head? != some '\'' then
      some (some (lifetime name), after)
    else none
  | c :: rest =>
    if isGap c then some (none, rest)
    else if c = '/' then (comment (c :: rest)).or (some (some (mark c), rest))
    else if Text.startsIdentifier c then
      let (name, after) := wordChars (c :: rest)
      some (some (word name), after)
    else if c.isDigit then some (some digits, rest.dropWhile Char.isDigit)
    else if marks.contains c then some (some (mark c), rest)
    else none

def read : (count : Nat) → List Char → Option (List Token)
  | _, [] => some []
  | 0, _ => none
  | count + 1, cs =>
    match first cs with
    | none => none
    | some (token, rest) => (read count rest).map (token.toList ++ ·)

def ofText (text : String) : Option (List Token) :=
  read text.length text.toList

end Token

end ChartScript.Emitted
