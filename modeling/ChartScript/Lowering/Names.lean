/-!
Names in emitted code: the words of a script name in lower case, joined by underscores, and made
different from every name already in use.
-/
namespace ChartScript

/-- Names that emitted code cannot bind: words of the language, and names it uses itself. -/
def reservedNames : List String :=
  ["as", "async", "await", "break", "const", "continue", "crate", "dyn", "else", "enum",
   "extern", "false", "fn", "for", "gen", "if", "impl", "in", "let", "loop", "match", "mod",
   "move", "mut", "pub", "ref", "return", "self", "static", "struct", "super", "trait", "true",
   "type", "unsafe", "use", "where", "while", "abstract", "become", "box", "do", "final",
   "macro", "override", "priv", "try", "typeof", "unsized", "virtual", "yield", "union", "_",
   "bars", "params", "out", "idx", "ops", "ta", "std", "core", "open", "high", "low", "close",
   "volume", "hl2", "hlc3", "ohlc4", "hlcc4", "bar_index", "f64", "i64", "usize", "bool", "str"]

namespace EmittedName

def isNameChar (c : Char) : Bool :=
  c.isAlpha || c.isDigit || c == '_'

/-- A new word begins at a capital after a small letter or digit, and at the last of several
capitals when a small letter follows. -/
def startsWordAt (previous : Option Char) (next : Option Char) : Bool :=
  match previous with
  | none => false
  | some p => p.isLower || p.isDigit || (p.isUpper && next.any Char.isLower)

/-- The characters from `previous` on in lower case; what cannot stand in a name becomes an
underscore. -/
def words (previous : Option Char) : List Char → List Char
  | [] => []
  | c :: rest =>
    if c.isUpper then
      (if startsWordAt previous rest.head? then ['_', c.toLower] else [c.toLower]) ++
        words (some c) rest
    else (if isNameChar c then c else '_') :: words (some c) rest

/-- A name begins with no digit and is not empty. -/
def snakeCase (name : String) : String :=
  match words none name.toList with
  | [] => "v"
  | c :: rest => String.ofList (if c.isDigit then 'v' :: c :: rest else c :: rest)

/-- The name in emitted code, before it is made unique. -/
def ofName (name : String) : String :=
  let plain := snakeCase name
  if reservedNames.contains plain then plain ++ "_" else plain

/-- The first of the candidates that is not taken. Of more candidates than there are taken names one
is always free. -/
def firstFree (taken : List String) (candidate : Nat → String) : String :=
  (((List.range (taken.length + 1)).map candidate).find? (!taken.contains ·)).getD (candidate 0)

/-- The name itself, or the name with a number from two on. -/
def unique (taken : List String) (base : String) : String :=
  firstFree taken fun n => if n = 0 then base else s!"{base}_{n + 1}"

def numbered (taken : List String) (base : String) : String :=
  firstFree taken fun n => s!"{base}_{n}"

end EmittedName

end ChartScript
