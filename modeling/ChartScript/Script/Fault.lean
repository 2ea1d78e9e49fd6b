import ChartScript.Span
import ChartScript.Text.Lines
/-!
What can be wrong with the form of a script. Each fault has a message and names what could have
stood in its place.
-/
namespace ChartScript

inductive SyntaxFault where
  | openString
  | unexpectedCharacter (text : String)
  | missingVersion
  | invalidVersion (text : String)
  | libraryScript
  | noDeclaration
  | declarationNotCall
  | noTitle
  | duplicateDeclaration
  | notTopLevel (what : String)
  | unexpectedBlock
  | needsBody (what : String)
  | unbalanced (opening closing : String)
  | unclosed (opening closing : String)
  | trailingTokens
  | malformedInput
  | tupleInput
  | inputWithoutDefault (name : String)
  | defaultNotLiteral (accepted : List String)
  | mixedFunctionBody
  | noFunctionBody (name : String)
  | parameterName
  | typeWithoutName
  | noPredicate
  | strayElse
  | unknownOrder (name : String)
  | orderIdNotText
  | noOrderId (name : String)
  | badDirection
  | noDirection (name : String)
  | unknownPlot (name : String)
  | noPlotSeries (name : String)
  | malformedAssignment
  | noValue
deriving DecidableEq, Repr

namespace SyntaxFault

def message : SyntaxFault → String
  | openString => "unterminated string literal"
  | unexpectedCharacter text => s!"unexpected character `{text}`"
  | missingVersion => "missing `//@version` annotation"
  | invalidVersion text => s!"invalid version `{text}`"
  | libraryScript => "library scripts cannot be converted"
  | noDeclaration => "expected a script declaration"
  | declarationNotCall => "script declaration is not a call"
  | noTitle => "script declaration has no title"
  | duplicateDeclaration => "duplicate script declaration"
  | notTopLevel what => s!"{what} must be declared at the top level"
  | unexpectedBlock => "unexpected indented block"
  | needsBody what => s!"{what} needs an indented body"
  | unbalanced _ closing => s!"unbalanced `{closing}`"
  | unclosed opening _ => s!"unclosed `{opening}`"
  | trailingTokens => "unexpected tokens after call"
  | malformedInput => "malformed input declaration"
  | tupleInput => "an input binds a single name"
  | inputWithoutDefault name => s!"input `{name}` has no default value"
  | defaultNotLiteral _ => "input default must be a literal"
  | mixedFunctionBody => "function body mixes an inline expression and a block"
  | noFunctionBody name => s!"function `{name}` has no body"
  | parameterName => "expected a parameter name"
  | typeWithoutName => "type declaration has no name"
  | noPredicate => "condition has no predicate"
  | strayElse => "`else` without a matching `if`"
  | unknownOrder name => s!"unknown strategy call `{name}`"
  | orderIdNotText => "order id must be a string literal"
  | noOrderId name => s!"strategy.{name} requires an order id"
  | badDirection => "direction must be strategy.long or strategy.short"
  | noDirection name => s!"strategy.{name} requires a direction"
  | unknownPlot name => s!"unknown plot call `{name}`"
  | noPlotSeries name => s!"`{name}` needs a series argument"
  | malformedAssignment => "malformed assignment"
  | noValue => "assignment has no value"

def expected : SyntaxFault → List String
  | missingVersion => ["//@version=N"]
  | invalidVersion _ => ["integer"]
  | libraryScript | noDeclaration => ["indicator", "strategy"]
  | declarationNotCall => ["("]
  | noTitle | orderIdNotText => ["string"]
  | unexpectedBlock => ["statement at the enclosing indentation"]
  | needsBody _ => ["indented block"]
  | unbalanced opening _ => [opening]
  | unclosed _ closing => [closing]
  | trailingTokens => ["end of statement"]
  | inputWithoutDefault _ => ["defval"]
  | defaultNotLiteral accepted => accepted
  | noFunctionBody _ => ["expression", "indented block"]
  | parameterName | typeWithoutName => ["identifier"]
  | noPredicate | noValue => ["expression"]
  | strayElse => ["if"]
  | noOrderId _ => ["id"]
  | badDirection => ["strategy.long", "strategy.short"]
  | noDirection _ => ["direction"]
  | noPlotSeries _ => ["series"]
  | _ => []

end SyntaxFault

abbrev SyntaxError : Type := Located SyntaxFault

namespace SyntaxError

def message (e : SyntaxError) : String :=
  s!"syntax error at line {e.span.line}, column {e.span.column}: {e.cause.message}"

/-- The line of the source that the error points at, a caret under the column, the message, and
what was expected. -/
def context (e : SyntaxError) (source : List Char) : String :=
  let line := (Text.lines source)[e.span.line - 1]?.getD []
  let caret := List.replicate (e.span.column - 1) ' ' ++ ['^']
  String.ofList line ++ "\n" ++ String.ofList caret ++ "\n" ++ message e ++
    if e.cause.expected.isEmpty then ""
    else "\nexpected one of: " ++ ", ".intercalate e.cause.expected

end SyntaxError

end ChartScript
