import ChartScript.Script.Line
import ChartScript.Script.Literal
import ChartScript.Text.Blank
/-!
The two things every script begins with: a comment that gives the version of the language, and a
call that declares the script and its title.
-/
namespace ChartScript.Header

def versionText? (comment : String) : Option String :=
  let opening := "//@version=".toList
  if opening.isPrefixOf comment.toList then
    some (Text.trim (String.ofList (comment.toList.drop opening.length)))
  else none

def readVersion (tokens : List Token) : Except SyntaxError Nat :=
  let comments := tokens.filter (·.kind == .comment)
  match comments.findSome? fun t => (versionText? t.text).map (t.span, ·) with
  | none => .error ⟨.origin, .missingVersion⟩
  | some (span, text) =>
    match Decimal.readNat32? text with
    | some n => .ok n
    | none => .error ⟨span, .invalidVersion text⟩

def readKind (declaration : Token) : Except SyntaxError ScriptKind :=
  match declaration.kind with
  | .keyword .indicator | .keyword .study => .ok .indicator
  | .keyword .strategy => .ok .strategy
  | .keyword .library => .error ⟨declaration.span, .libraryScript⟩
  | _ => .error ⟨declaration.span, .noDeclaration⟩

def read (tokens : List Token) : Except SyntaxError Header := do
  let version ← readVersion tokens
  match tokens.filter (!·.kind.isTrivia) with
  | [] => throw ⟨.origin, .noDeclaration⟩
  | declaration :: _ =>
    let kind ← readKind declaration
    let after := ((tokens.filter (·.kind != .comment)).dropWhile (·.kind.isTrivia)).drop 1
    unless after.head?.any (·.isDelimiter .openParen) do
      throw ⟨declaration.span, .declarationNotCall⟩
    let (args, _) ← Line.arguments after 0
    let some name := (Line.bind args ["title"]).lookup "title" >>= Literal.text?
      | throw ⟨declaration.span, .noTitle⟩
    return ⟨version, kind, name⟩

end ChartScript.Header
