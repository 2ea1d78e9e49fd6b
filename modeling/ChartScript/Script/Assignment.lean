import ChartScript.Script.Line
import ChartScript.Script.Literal
/-!
Lines that give a name a value, and the inputs among them.
-/
namespace ChartScript

/-- A line with an assignment sign outside brackets. -/
structure Assignment where
  persistence : Persistence
  declaredType : Option String
  target : Target
  mode : AssignMode
  sign : Token
  value : List Token

namespace Assignment

def isSign (t : Token) : Bool :=
  match t.kind with
  | .operator op => op.isAssignment
  | _ => false

def isTypeToken (t : Token) : Bool :=
  match t.kind with
  | .keyword word => word.isTypeWord
  | .identifier | .operator .lt | .operator .gt | .delimiter .comma => true
  | _ => false

def mode? (sign : Token) : Option AssignMode :=
  match sign.kind with
  | .operator .assign => some .declare
  | .operator .reassign => some .reassign
  | .operator op => some (.compound op)
  | _ => none

def identifier? : List Token → Option String
  | [t] => if t.kind = .identifier then some t.text else none
  | _ => none

/-- What stands left of the sign: a name, or names in square brackets, with type words before. -/
def target? (left : List Token) : Option (Target × List Token) := do
  let last ← left.getLast?
  if last.isDelimiter .closeBracket then
    let start ← left.findIdx? (·.isDelimiter .openBracket)
    let names ← (Line.splitAtCommas 0 (left.drop (start + 1)).dropLast).mapM identifier?
    return (.tuple names, left.take start)
  else if last.kind = .identifier then return (.single last.text, left.dropLast)
  else none

/-- The qualifier that may open the line. -/
def persistenceOf (tokens : List Token) : Persistence :=
  match tokens.head?.map Token.kind with
  | some (.keyword .var) => .var
  | some (.keyword .varip) => .varip
  | _ => .each

def ofLine? (source : List Char) (tokens : List Token) : Option Assignment := do
  let position ← Line.outerPosition? isSign 0 tokens
  let sign ← tokens[position]?
  let kept := persistenceOf tokens
  let left := (tokens.take position).drop (if kept = .each then 0 else 1)
  let (target, typeTokens) ← target? left
  guard (typeTokens.all isTypeToken)
  return {
    persistence := kept
    declaredType := (Line.span? typeTokens).map fun s =>
      String.ofList ((Text.slice source s.start s.stop).getD [])
    target := target
    mode := ← mode? sign
    sign := sign
    value := tokens.drop (position + 1) }

end Assignment

/-! ## Inputs -/

namespace InputDecl

/-- A call of `input` or one of its members that is the whole value: the kind it declares, if it
says so, and the position of its opening bracket. -/
def call? (value : List Token) : Option (Option InputKind × Nat) := do
  let (kind, start) ← head? value
  let close ← Line.matchingClose? value start
  guard (close + 1 = value.length)
  return (kind, start)
where
  head? : List Token → Option (Option InputKind × Nat)
    | first :: second :: rest =>
      if first.isKeyword .input ∧ second.isDelimiter .openParen then some (none, 1)
      else if first.kind = .qualifier ∧ first.text = "input." ∧
          rest.head?.any (·.isDelimiter .openParen) then
        (InputKind.ofSuffix? second.text).map fun kind => (some kind, 2)
      else none
    | _ => none

/-- The kind that a `type` argument such as `input.integer` declares. -/
def declaredKind? : List Token → Option InputKind
  | [qualifier, name] =>
    if qualifier.text = "input." then
      if name.text = "integer" then some .int else InputKind.ofSuffix? name.text
    else none
  | _ => none

def literalKind? (value : List Token) : Option InputKind :=
  match Literal.number? value with
  | some (_, some _) => some .int
  | some (_, none) => some .float
  | none =>
    if (Literal.bool? value).isSome then some .bool
    else if (Literal.text? value).isSome then some .string
    else if (Literal.color? value).isSome then some .color
    else if (Literal.priceSource? value).isSome then some .source
    else none

/-- The literal read as a value of the given kind. -/
def value? (kind : InputKind) (value : List Token) : Option InputValue :=
  match kind with
  | .int => ((Literal.number? value).bind (·.2)).map .int
  | .float => (Literal.number? value).map fun n => .float n.1
  | .bool => (Literal.bool? value).map .bool
  | .string => (Literal.text? value).map .text
  | .source => (Literal.priceSource? value).map .source
  | .color => (Literal.color? value).map .color

def literalName : InputKind → String
  | .int => "integer"
  | .float => "number"
  | .bool => "bool"
  | .string => "string"
  | .source => "price source"
  | .color => "color"

/-- The default of an input, whose kind is given or follows from the literal. -/
def default? (kind : Option InputKind) (value : List Token) :
    Except SyntaxError (InputKind × InputValue) :=
  let span := (Line.span? value).getD .origin
  match kind.or (literalKind? value) with
  | none =>
    .error ⟨span, .defaultNotLiteral ["number", "string", "bool", "color", "price source"]⟩
  | some kind =>
    match value? kind value with
    | some v => .ok (kind, v)
    | none => .error ⟨span, .defaultNotLiteral [literalName kind]⟩

def ofLine (source : List Char) (tokens : List Token) (span : Span) :
    Except SyntaxError InputDecl := do
  let some assignment := Assignment.ofLine? source tokens | throw ⟨span, .malformedInput⟩
  let some (kind, start) := call? assignment.value | throw ⟨span, .malformedInput⟩
  let .single name := assignment.target | throw ⟨span, .tupleInput⟩
  let (args, _) ← Line.arguments assignment.value start
  let bound := Line.bind args ["defval", "title"]
  let kind := kind.or ((bound.lookup "type").bind declaredKind?)
  let some value := bound.lookup "defval" | throw ⟨span, .inputWithoutDefault name⟩
  let (kind, value) ← default? kind value
  return {
    kind := kind
    name := name
    default := value
    title := (bound.lookup "title").bind Literal.text?
    least := ((bound.lookup "minval").bind Literal.number?).map (·.1)
    greatest := ((bound.lookup "maxval").bind Literal.number?).map (·.1)
    span := span }

end InputDecl

end ChartScript
