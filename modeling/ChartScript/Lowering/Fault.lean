import ChartScript.Expr.Parser
import ChartScript.ValueKind
/-!
Reasons why an expression or declaration has no counterpart in emitted code.
-/
namespace ChartScript

inductive LoweringFault where
  | expr (fault : ExprFault)
  | wrongTupleSize (yielded bound : Nat)
  | unboundTuple (yielded : Nat)
  | needsTuple (bound : Nat)
  | tupleLiteral
  | functionAsValue (name : String)
  | unknownName (name : String)
  | unknownIndicator (name : String)
  | unknownFunction (name : String)
  | needsArguments (name : String)
  | unsupportedMember (qualifier name : String)
  | unsupportedCall (qualifier name : String)
  | tooManyArguments (function : String) (limit got : Nat)
  | surplusArguments (function : String) (params got : Nat)
  | wrongArgumentCount (function : String) (wanted got : Nat)
  | noParameter (function name : String)
  | argumentTwice (name : String)
  | missingArgument (function name : String)
  | positionalOnly (function : String)
  | namedMathArgument
  | nzArguments
  | needsTwoArguments (function : String)
  | averageOfNothing
  | notOperand (found : ValueKind)
  | notNumeric (what : String) (found : ValueKind)
  | notSeries (what : String) (found : ValueKind)
  | notNumber (what : String) (found : ValueKind)
  | notConstant (what : String) (found : ValueKind)
  | wrongParameterKind (what : String) (wanted found : ValueKind)
  | mixedComparison
  | boolArithmetic
  | signedBool
  | mixedBranches
  | varyingOffset
  | historyOf (found : ValueKind)
  | inputDefault (name : String)
  | storedDirection
  | notAssignable (name : String)
  | reassignedEarly (name : String)
  | ownHistory (name : String)
  | compoundOperator (symbol : String)
  | notDeclared (name : String)
  | tupleReassignment
  | emptyFunction (name : String)
  | noResultExpression (name : String)
  | strayBodyLine
  | localKind (name : String) (found : ValueKind)
  | noResult
  | resultKind (name : String) (found : ValueKind)
  | hoistedKind (what : String) (found : ValueKind)
  | plotKind (name : String) (found : ValueKind)
  | varyingLevel
deriving DecidableEq, Repr

def LoweringFault.message : LoweringFault → String
  | expr fault => fault.message
  | wrongTupleSize n m => s!"call yields {n} values but {m} names are bound"
  | unboundTuple n => s!"call yields {n} values and must be bound to a tuple"
  | needsTuple m => s!"a tuple of {m} names needs a multi-output indicator call"
  | tupleLiteral => "tuple literal"
  | functionAsValue name => s!"function `{name}` used as a value"
  | unknownName name => s!"unknown identifier `{name}`"
  | unknownIndicator name => s!"unknown indicator `{name}`"
  | unknownFunction name => s!"unknown function `{name}`"
  | needsArguments name => s!"`{name}` needs arguments"
  | unsupportedMember qualifier name => s!"`{qualifier}.{name}` is not supported"
  | unsupportedCall qualifier name => s!"`{qualifier}.{name}()` is not supported"
  | tooManyArguments function limit got =>
    s!"`{function}` takes at most {limit} arguments, got {got}"
  | surplusArguments function params got => s!"`{function}` takes {params} arguments, got {got}"
  | wrongArgumentCount function wanted got =>
    s!"`{function}` takes {wanted} argument(s), got {got}"
  | noParameter function name => s!"`{function}` has no parameter `{name}`"
  | argumentTwice name => s!"argument `{name}` given twice"
  | missingArgument function name => s!"`{function}` is missing argument `{name}`"
  | positionalOnly function => s!"`{function}` takes positional arguments only"
  | namedMathArgument => "named argument to a math function"
  | nzArguments => "`nz` takes one or two arguments"
  | needsTwoArguments function => s!"`{function}` needs two arguments"
  | averageOfNothing => "`math.avg` needs arguments"
  | notOperand found => s!"{found.describe} used in an expression"
  | notNumeric what found => s!"{what} must be a number or series, found {found.describe}"
  | notSeries what found => s!"{what} must be a series, found {found.describe}"
  | notNumber what found => s!"{what} must be a number, found {found.describe}"
  | notConstant what found => s!"{what} must be a constant, found {found.describe}"
  | wrongParameterKind what wanted found =>
    s!"{what} must be a {wanted.describe}, found {found.describe}"
  | mixedComparison => "comparison between a number and a bool"
  | boolArithmetic => "arithmetic on bool values"
  | signedBool => "sign applied to a bool"
  | mixedBranches => "conditional branches of different types"
  | varyingOffset => "history offset that varies per bar"
  | historyOf found => s!"history of a {found.describe}"
  | inputDefault name => s!"default of input `{name}` does not match its type"
  | storedDirection => "strategy direction stored in a variable"
  | notAssignable name => s!"`{name}` cannot be reassigned"
  | reassignedEarly name => s!"`{name}` is reassigned before it is declared"
  | ownHistory name => s!"`{name}` refers to its own history"
  | compoundOperator symbol => s!"operator `{symbol}`"
  | notDeclared name => s!"`{name}` is not declared"
  | tupleReassignment => "tuple reassignment"
  | emptyFunction name => s!"function `{name}` has an empty body"
  | noResultExpression name => s!"function `{name}` must end with an expression"
  | strayBodyLine => "only assignments may precede the result of a function"
  | localKind name found => s!"local `{name}` holds a {found.describe}"
  | noResult => "function without a result"
  | resultKind name found => s!"function `{name}` returns a {found.describe}"
  | hoistedKind what found => s!"{what} cannot be a {found.describe}"
  | plotKind name found => s!"`{name}` needs a series, found {found.describe}"
  | varyingLevel => "`hline` price must be a constant"

abbrev LoweringError : Type := Located LoweringFault

def unsupportedMessage (span : Span) (description : String) : String :=
  s!"unsupported construct at line {span.line}, column {span.column}: {description}"

end ChartScript
