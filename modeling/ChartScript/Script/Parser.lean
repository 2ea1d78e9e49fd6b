import ChartScript.Script.Assignment
import ChartScript.Script.Header
import ChartScript.Script.Statement
import ChartScript.Text.Sorted
import ChartScript.Token.Lexer
/-!
Reading a script. The header comes first, then every statement of the tree is sorted by its form
and adds what it declares. The bodies of conditions are read like the script itself; the blocks of
functions, loops and types are not looked into.
-/
namespace ChartScript

namespace StatementForm

def opensWith (p : Keyword → Bool) (tokens : List Token) : Bool :=
  match tokens.head?.map Token.kind with
  | some (.keyword word) => p word
  | _ => false

/-- The keyword that opens a line, past an `export`. -/
def leadingKeyword? (tokens : List Token) : Option Keyword :=
  let tokens := if tokens.head?.any (·.isKeyword .export_) then tokens.drop 1 else tokens
  match tokens.head?.map Token.kind with
  | some (.keyword word) => some word
  | _ => none

def isHeader (tokens : List Token) : Bool :=
  opensWith (fun w => w == .indicator || w == .study || w == .strategy || w == .library) tokens &&
    tokens[1]?.any (·.isDelimiter .openParen)

def isInput (source : List Char) (tokens : List Token) : Bool :=
  (Assignment.ofLine? source tokens).any fun a =>
    a.mode == .declare && (match a.target with | .single _ => true | .tuple _ => false) &&
      (InputDecl.call? a.value).isSome

def isFunction (tokens : List Token) : Bool :=
  tokens.head?.any (·.kind == .identifier) && tokens[1]?.any (·.isDelimiter .openParen) &&
    (Line.matchingClose? tokens 1).any fun close => tokens[close + 1]?.any (·.isOperator .arrow)

def isConditionalExpr (source : List Char) (tokens : List Token) : Bool :=
  (Assignment.ofLine? source tokens).any fun a =>
    a.value.head?.any fun t => t.isKeyword .if_ || t.isKeyword .switch

def isOrder : List Token → Bool
  | qualifier :: name :: bracket :: _ =>
    qualifier.kind == .qualifier && qualifier.text == "strategy." &&
      (OrderKind.ofName? name.text).isSome && bracket.isDelimiter .openParen
  | _ => false

/-- A call of a plain name with the given property. -/
def isCallOf (p : String → Bool) : List Token → Bool
  | name :: bracket :: _ =>
    name.kind == .identifier && p name.text && bracket.isDelimiter .openParen
  | _ => false

def drawingQualifiers : List String :=
  ["line", "label", "box", "table", "polyline", "linefill"]

def collectionQualifiers : List String :=
  ["array", "matrix", "map"]

def isDrawing (tokens : List Token) : Bool :=
  tokens.head?.any fun t => t.kind == .qualifier && drawingQualifiers.contains t.qualifierName

end StatementForm

inductive StatementForm where
  | header | input | function | typeDecl | method | importDecl | condition | alternative | loop
  | switch | conditionalExpr | order | plot | alert | drawing | assignment | expression
deriving DecidableEq, Repr

namespace StatementForm

/-- The form of a line; where several fit, the first of them. -/
def ofLine (source : List Char) (tokens : List Token) : StatementForm :=
  if isHeader tokens then header
  else if isInput source tokens then input
  else if isFunction tokens then function
  else if leadingKeyword? tokens = some .type then typeDecl
  else if leadingKeyword? tokens = some .method then method
  else if opensWith (· == .import_) tokens then importDecl
  else if opensWith (· == .if_) tokens then condition
  else if opensWith (· == .else_) tokens then alternative
  else if opensWith (fun w => w == .for_ || w == .while_) tokens then loop
  else if opensWith (· == .switch) tokens then switch
  else if isConditionalExpr source tokens then conditionalExpr
  else if isOrder tokens then order
  else if isCallOf (fun name => (PlotKind.ofName? name).isSome) tokens then plot
  else if isCallOf (fun name => name == "alert" || name == "alertcondition") tokens then alert
  else if isDrawing tokens then drawing
  else if (Assignment.ofLine? source tokens).isSome then assignment
  else expression

/-- Statements that may own a block. -/
def takesBlock : StatementForm → Bool
  | function | typeDecl | method | condition | alternative | loop | switch | conditionalExpr => true
  | _ => false

end StatementForm

/-! ## Single statements -/

namespace Statement

def pastCall (tokens : List Token) (close : Nat) : Except SyntaxError Unit :=
  match tokens[close + 1]? with
  | some extra => .error ⟨extra.span, .trailingTokens⟩
  | none => .ok ()

def headSpan (tokens : List Token) : Span :=
  (tokens.head?.map (·.span)).getD .origin

def requireBlock (s : Statement) (what : String) : Except SyntaxError Span :=
  match s.bodySpan? with
  | some span => .ok span
  | none => .error ⟨headSpan s.line, .needsBody what⟩

/-- A block stands only below a statement that takes one. -/
def checkBlock (s : Statement) (form : StatementForm) : Except SyntaxError Unit :=
  match s.bodySpan? with
  | some block => if form.takesBlock then .ok () else .error ⟨block, .unexpectedBlock⟩
  | none => .ok ()

def predicate (keyword : Span) (tokens : List Token) : Except SyntaxError Span :=
  match Line.span? tokens with
  | some span => .ok span
  | none => .error ⟨keyword, .noPredicate⟩

def parameter (source : List Char) (ts : List Token) : Except SyntaxError FuncParam :=
  let (declared, default) :=
    match ts.findIdx? (·.isOperator .assign) with
    | some i => (ts.take i, Line.span? (ts.drop (i + 1)))
    | none => (ts, none)
  match declared.getLast? with
  | none => .error ⟨headSpan ts, .parameterName⟩
  | some name =>
    if name.kind = .identifier then
      .ok {
        name := name.text
        typeHint := (Line.span? declared.dropLast).map fun s =>
          String.ofList ((Text.slice source s.start s.stop).getD [])
        default := default }
    else .error ⟨name.span, .parameterName⟩

def function (source : List Char) (s : Statement) : Except SyntaxError FuncDecl := do
  let tokens := s.line
  let name := (tokens.head?.map (·.text)).getD ""
  let some close := Line.matchingClose? tokens 1
    | throw ⟨(tokens[1]?.map (·.span)).getD .origin, .unclosed "(" ")"⟩
  let params ← (Line.parts tokens 1 close).mapM (parameter source)
  let (body, singleLine) ← match Line.span? (tokens.drop (close + 2)), s.bodySpan? with
    | some inline, none => pure (inline, true)
    | none, some block => pure (block, false)
    | some _, some block => throw ⟨block, .mixedFunctionBody⟩
    | none, none =>
      throw ⟨(tokens[close + 1]?.map (·.span)).getD .origin, .noFunctionBody name⟩
  return ⟨name, params, body, singleLine, [], s.span⟩

def typeDecl (s : Statement) : Except SyntaxError TypeDecl :=
  match s.line.find? (·.kind == .identifier) with
  | some name => .ok ⟨name.text, s.span⟩
  | none => .error ⟨s.span, .typeWithoutName⟩

/-- The literal that an argument of an order is. One that is left out is a fault where it is needed. -/
def literalArgument {α : Type} (read : List Token → Option α) (malformed : SyntaxFault) (needed : Bool)
    (missing : SyntaxFault) (value : Option (List Token)) (span : Span) : Except SyntaxError (Option α) :=
  match value with
  | some v =>
    match read v with
    | some x => .ok (some x)
    | none => .error ⟨(Line.span? v).getD span, malformed⟩
  | none => if needed then .error ⟨span, missing⟩ else .ok none

def order (scope : Option BodyRef) (s : Statement) : Except SyntaxError OrderCall := do
  let tokens := s.line
  let nameToken := tokens[1]?.getD ⟨.eof, .origin, ""⟩
  let some kind := OrderKind.ofName? nameToken.text
    | throw ⟨nameToken.span, .unknownOrder nameToken.text⟩
  let (args, close) ← Line.arguments tokens 2
  pastCall tokens close
  let bound := Line.bind args kind.positional
  let id ← literalArgument Literal.text? .orderIdNotText kind.needsId (.noOrderId nameToken.text)
    (bound.lookup "id") s.span
  let direction ← literalArgument Literal.direction? .badDirection kind.needsDirection
    (.noDirection nameToken.text) (bound.lookup "direction") s.span
  let place (key : String) : Option Span := (bound.lookup key).bind Line.span?
  return {
    kind := kind
    id := id
    direction := direction
    quantity := place "qty"
    when := place "when"
    stop := place "stop"
    limit := place "limit"
    fromEntry := (bound.lookup "from_entry").bind Literal.text?
    scope := scope
    span := s.span }

def plot (scope : Option BodyRef) (s : Statement) : Except SyntaxError PlotCall := do
  let tokens := s.line
  let nameToken := tokens.head?.getD ⟨.eof, .origin, ""⟩
  let some kind := PlotKind.ofName? nameToken.text
    | throw ⟨nameToken.span, .unknownPlot nameToken.text⟩
  let (args, close) ← Line.arguments tokens 1
  pastCall tokens close
  let bound := Line.bind args kind.positional
  let place (key : String) : Option Span := (bound.lookup key).bind Line.span?
  let series := kind.seriesParameter?.bind place
  if kind.seriesParameter?.isSome ∧ series.isNone then
    throw ⟨s.span, .noPlotSeries nameToken.text⟩
  return {
    kind := kind
    series := series
    title := (bound.lookup "title").bind Literal.text?
    color := place kind.colorParameter
    scope := scope
    span := s.span }

def varDecl (source : List Char) (scope : Option BodyRef) (s : Statement) :
    Except SyntaxError VarDecl := do
  let some a := Assignment.ofLine? source s.line | throw ⟨s.span, .malformedAssignment⟩
  let some value := Line.span? a.value | throw ⟨a.sign.span, .noValue⟩
  return {
    persistence := a.persistence
    target := a.target
    value := value
    declaredType := a.declaredType
    mode := a.mode
    scope := scope
    span := s.span }

/-! ## The walk over the tree -/

structure Progress where
  declared : Declarations
  opened : Bool

structure Place where
  scope : Option BodyRef
  depth : Nat
  /-- The conditions that an `else` would continue, first to last. -/
  chain : List Nat

def Place.top : Place := ⟨none, 0, []⟩

def Place.body (p : Place) (condition : Nat) (branch : Branch) : Place :=
  ⟨some ⟨condition, branch⟩, p.depth + 1, []⟩

def requireTop (p : Place) (s : Statement) (what : String) : Except SyntaxError Unit :=
  if p.scope.isSome then .error ⟨s.span, .notTopLevel what⟩ else .ok ()

def Progress.addOther (r : Progress) (kind : OtherKind) (p : Place) (s : Statement) : Progress :=
  { r with declared.others := r.declared.others ++ [⟨kind, p.scope, s.span⟩] }

def Progress.add (source : List Char) (p : Place) (s : Statement) (r : Progress) :
    StatementForm → Except SyntaxError Progress
  | .header => do
    requireTop p s "the script declaration"
    if r.opened then throw ⟨s.span, .duplicateDeclaration⟩
    return { r with opened := true }
  | .input => do
    requireTop p s "inputs"
    let x ← InputDecl.ofLine source s.line s.span
    return { r with declared.inputs := r.declared.inputs ++ [x] }
  | .function => do
    requireTop p s "functions"
    let x ← s.function source
    return { r with declared.functions := r.declared.functions ++ [x] }
  | .typeDecl => do
    let x ← s.typeDecl
    return { r with declared.types := r.declared.types ++ [x] }
  | .method => .ok (r.addOther .method p s)
  | .importDecl => .ok (r.addOther .importDecl p s)
  | .loop => do
    let _ ← s.requireBlock "loop"
    return r.addOther (if s.line.head?.any (·.isKeyword .for_) then .forLoop else .whileLoop) p s
  | .switch => do
    let _ ← s.requireBlock "`switch`"
    return r.addOther .switch p s
  | .conditionalExpr => .ok (r.addOther .conditionalExpr p s)
  | .order => do
    let x ← s.order p.scope
    return { r with declared.orders := r.declared.orders ++ [x] }
  | .plot => do
    let x ← s.plot p.scope
    return { r with declared.plots := r.declared.plots ++ [x] }
  | .alert => .ok (r.addOther .alert p s)
  | .drawing => .ok (r.addOther .drawing p s)
  | .assignment => do
    let x ← s.varDecl source p.scope
    return { r with declared.varDecls := r.declared.varDecls ++ [x] }
  | .expression => .ok (r.addOther .expression p s)
  | .condition | .alternative => .ok r

def Progress.addCondition (r : Progress) (c : Condition) : Progress :=
  { r with declared.conditions := r.declared.conditions ++ [c] }

/-- Gives the conditions of a chain the place of what is done when they are false. The last one gets
just this place, the earlier ones have theirs extended to it. -/
def Progress.setFalseBody (r : Progress) (chain : List Nat) (span : Span) : Progress :=
  let extend (i : Nat) (c : Condition) : Condition :=
    if chain.contains i then
      { c with falseBody :=
          match c.falseBody with
          | some known => some (if chain.getLast? = some i then span else known.through span)
          | none => some span }
    else c
  { r with declared.conditions := r.declared.conditions.mapIdx extend }

mutual

/-- Adds a statement, and gives the chain that the next statement may continue. -/
def collect (source : List Char) (p : Place) (r : Progress) :
    Statement → Except SyntaxError (Progress × List Nat)
  | mk tokens body => do
    let s := mk tokens body
    Line.checkBrackets tokens
    let form := StatementForm.ofLine source tokens
    s.checkBlock form
    match form with
    | .condition =>
      let predicate ← predicate (headSpan tokens) (tokens.drop 1)
      let block ← s.requireBlock "`if`"
      let index := r.declared.conditions.length
      let r := r.addCondition ⟨predicate, block, none, p.depth, p.scope, none, s.span⟩
      let r ← collectAll source (p.body index .onTrue) r body
      return (r, [index])
    | .alternative =>
      let some head := p.chain.head? | throw ⟨headSpan tokens, .strayElse⟩
      let last := p.chain.getLast?.getD head
      let block ← s.requireBlock "`else`"
      let second := (tokens[1]?.map (·.span)).getD .origin
      if tokens[1]?.any (·.isKeyword .if_) then
        let span := second.through s.span
        let r := r.setFalseBody p.chain span
        let predicate ← predicate second (tokens.drop 2)
        let index := r.declared.conditions.length
        let r := r.addCondition ⟨predicate, block, none, p.depth, p.scope, some head, span⟩
        let r ← collectAll source (p.body index .onTrue) r body
        return (r, p.chain ++ [index])
      else
        let r := r.setFalseBody p.chain block
        let r ← collectAll source (p.body last .onFalse) r body
        return (r, [])
    | form =>
      let r ← r.add source p s form
      return (r, [])

def collectAll (source : List Char) (p : Place) (r : Progress) :
    List Statement → Except SyntaxError Progress
  | [] => .ok r
  | s :: rest => do
    let (r, chain) ← collect source p r s
    collectAll source { p with chain := chain } r rest

end

end Statement

/-! ## Whole scripts -/

namespace Script

/-- What is found at each token, given the tokens behind it. -/
def gather {α : Type} (find? : Token → List Token → Option α) : List Token → List α
  | [] => []
  | t :: rest => (find? t rest).toList ++ gather find? rest

/-- The use of a qualified name, and whether a call follows. -/
def memberUse? (qualifier : Token) : List Token → Option (MemberUse × Bool)
  | name :: rest =>
    if qualifier.kind = .qualifier ∧ name.isWord then
      some (⟨qualifier.qualifierName, name.text, qualifier.span.through name.span⟩,
        rest.head?.any (·.isDelimiter .openParen))
    else none
  | [] => none

def memberUses : List Token → List (MemberUse × Bool) :=
  gather memberUse?

/-- A plain name that a bracket follows. -/
def calledName? (name : Token) (rest : List Token) : Option Token :=
  if name.kind = .identifier ∧ rest.head?.any (·.isDelimiter .openParen) then some name else none

def calledNames : List Token → List Token :=
  gather calledName?

/-- The functions of the script that are called within a body. -/
def calleesIn (body : Span) (functions : List String) (called : List Token) : List String :=
  ((called.filter fun t => body.start ≤ t.span.start && t.span.stop ≤ body.stop).map (·.text)
    |>.filter functions.contains).eraseDups

def withCallees (called : List Token) (functions : List FuncDecl) : List FuncDecl :=
  functions.map fun f =>
    { f with callees := calleesIn f.body (functions.map (·.name)) called }

def unknownFault (t : Token) : SyntaxError :=
  ⟨t.span, if t.text = "\"" ∨ t.text = "'" then .openString else .unexpectedCharacter t.text⟩

def parse (source : List Char) : Except SyntaxError Script := do
  let all := tokenize source
  if let some bad := all.find? (·.kind == .unknown) then throw (unknownFault bad)
  let header ← Header.read all
  let tokens := all.filter (·.kind != .comment)
  let r ← Statement.collectAll source .top ⟨{}, false⟩ (Statement.tree tokens)
  let uses := memberUses tokens
  let ofQualifiers (qualifiers : List String) : MemberUse × Bool → Bool := fun u =>
    qualifiers.contains u.1.qualifier
  return {
    toHeader := header
    toDeclarations :=
      { r.declared with functions := withCallees (calledNames tokens) r.declared.functions }
    source := source
    collectionUses := (uses.filter (ofQualifiers StatementForm.collectionQualifiers)).map (·.1)
    drawingCalls :=
      (uses.filter fun u => ofQualifiers StatementForm.drawingQualifiers u && u.2).map (·.1)
    indicators := Text.sortedOnce
      ((uses.filter (ofQualifiers ["ta"])).map fun u => "ta." ++ u.1.member)
    codeLines := ((tokens.filter fun t => !t.kind.isTrivia && t.kind != .eof).map
      (·.span.line)).eraseDups.length }

end Script

end ChartScript
