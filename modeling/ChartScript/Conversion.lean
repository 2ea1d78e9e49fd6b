import ChartScript.Complexity
import ChartScript.Decimal.Rounded
import ChartScript.Module.Generate
import ChartScript.Script.Parser
/-!
Conversion of a script into a module. A script is read, checked for what cannot be reproduced,
lowered and emitted; the first step that fails decides the rejection. A rejection is an ordinary
outcome; an error is only a module that does not pass the syntax check.
-/
namespace ChartScript

structure ConversionSettings where
  thresholds : Thresholds := {}
  /-- The deepest conditions that are converted, where those at the top level have depth zero. -/
  nestingLimit : Nat := 1
  generator : GeneratorOptions := {}

/-! ## Refusals -/

inductive Refusal where
  | typeDecl (name : String)
  | collection (qualifier member : String)
  | selfCall (function : String)
  | userCall (function callee : String)
  | deepCondition (depth limit : Nat)
  | statement (kind : OtherKind)
  | assignmentInBody
  | plotInBody (kind : PlotKind)
  | persistentReassigned (name : String)
  | lowering (fault : LoweringFault)

def Refusal.description : Refusal → String
  | typeDecl name => s!"user-defined type `{name}`"
  | collection qualifier member => s!"collection operation `{qualifier}.{member}`"
  | selfCall function => s!"function `{function}` calls itself"
  | userCall function callee => s!"function `{function}` calls user function `{callee}`"
  | deepCondition depth limit => s!"condition nested {depth} levels deep (limit {limit})"
  | statement kind => kind.describe
  | assignmentInBody => "assignment inside a condition body"
  | plotInBody kind => s!"`{kind.name}` inside a condition body"
  | persistentReassigned name => s!"reassignment of persistent variable `{name}`"
  | lowering fault => fault.message

namespace Script

def typeRefusal? (s : Script) : Option (Located Refusal) :=
  s.types.head?.map fun t => ⟨t.span, .typeDecl t.name⟩

def collectionRefusal? (s : Script) : Option (Located Refusal) :=
  s.collectionUses.head?.map fun u => ⟨u.span, .collection u.qualifier u.member⟩

def calleeRefusal? (s : Script) : Option (Located Refusal) :=
  s.functions.findSome? fun f => f.callees.head?.map fun callee =>
    ⟨f.span, if callee = f.name then .selfCall f.name else .userCall f.name callee⟩

def nestingRefusal? (limit : Nat) (s : Script) : Option (Located Refusal) :=
  (s.conditions.find? (limit < ·.depth)).map fun c => ⟨c.span, .deepCondition c.depth limit⟩

def statementRefusal? (s : Script) : Option (Located Refusal) :=
  (s.others.find? (·.kind.isUnsupported)).map fun o => ⟨o.span, .statement o.kind⟩

def assignmentRefusal? (s : Script) : Option (Located Refusal) :=
  (s.varDecls.find? (·.scope.isSome)).map fun v => ⟨v.span, .assignmentInBody⟩

def plotRefusal? (s : Script) : Option (Located Refusal) :=
  (s.plots.find? (·.scope.isSome)).map fun p => ⟨p.span, .plotInBody p.kind⟩

/-- The first assignment of a new value to a variable that keeps its value. Those declared before
are in `kept`. -/
def reassignment? (kept : List String) : List VarDecl → Option (Located Refusal)
  | [] => none
  | v :: rest =>
    if v.mode = .declare then
      reassignment? (if v.persistence = .each then kept else v.target.names ++ kept) rest
    else match v.target.names.find? kept.contains with
      | some name => some ⟨v.span, .persistentReassigned name⟩
      | none => reassignment? kept rest

/-- The first thing that has no counterpart in a module, by kind and then by place. -/
def refusal? (limit : Nat) (s : Script) : Option (Located Refusal) :=
  s.typeRefusal? <|> s.collectionRefusal? <|> s.calleeRefusal? <|> s.nestingRefusal? limit <|>
    s.statementRefusal? <|> s.assignmentRefusal? <|> s.plotRefusal? <|>
    reassignment? [] s.varDecls

end Script

/-! ## Warnings -/

inductive Omission where
  | statement (kind : OtherKind) (text : String)
  | decoration (kind : PlotKind)
  /-- A plot that is not wanted. -/
  | disabledPlot (kind : PlotKind)
deriving DecidableEq, Repr

def Omission.message : Omission → String
  | statement kind text => s!"{kind.describe} skipped: `{text}`"
  | decoration kind => s!"`{kind.name}` has no runtime counterpart and was skipped"
  | disabledPlot kind => s!"`{kind.name}` omitted: plot output is disabled"

abbrev Warning : Type := Located Omission

namespace Script

def statementWarning? (s : Script) (o : OtherStatement) : Option Warning :=
  if o.kind.isUnsupported then none
  else
    let firstLine := ((Text.lines (s.text o.span)).head?).getD []
    some ⟨o.span, .statement o.kind (String.ofList (Text.trimChars firstLine))⟩

def plotWarning? (emitPlots : Bool) (p : PlotCall) : Option Warning :=
  if p.kind.isDecoration then some ⟨p.span, .decoration p.kind⟩
  else if emitPlots then none
  else some ⟨p.span, .disabledPlot p.kind⟩

/-- All that is left out of the module, in the order of the source. -/
def warnings (emitPlots : Bool) (s : Script) : List Warning :=
  (s.others.filterMap s.statementWarning? ++ s.plots.filterMap (plotWarning? emitPlots)).mergeSort
    (·.span.start ≤ ·.span.start)

end Script

/-! ## Outcomes -/

inductive Rejection where
  | syntaxError (e : SyntaxError)
  /-- The score is not below the threshold. -/
  | complexity (score threshold : Float) (factors : List (String × Float))
  | unsupported (r : Located Refusal)

namespace Rejection

def reason : Rejection → String
  | syntaxError _ => "syntax"
  | complexity .. => "complexity"
  | unsupported _ => "unsupported"

def message : Rejection → String
  | syntaxError e => SyntaxError.message e
  | complexity score threshold _ =>
    s!"complexity score {Decimal.fixed 3 score} is at or above the mechanical threshold " ++
      Decimal.fixed 2 threshold
  | unsupported r => unsupportedMessage r.span r.cause.description

end Rejection

structure Conversion where
  module : GeneratedModule
  score : Float
  factors : List (String × Float)
  route : Route
  warnings : List Warning
  /-- Qualified names of the indicators that the script mentions. -/
  indicators : List String

def Script.rejection? (settings : ConversionSettings) (s : Script) : Option Rejection :=
  if settings.thresholds.mechanical ≤ s.score then
    some (.complexity s.score settings.thresholds.mechanical s.factors)
  else (s.refusal? settings.nestingLimit).map .unsupported

def Script.convert (settings : ConversionSettings) (s : Script)
    (check : SyntaxCheck := Module.isWellFormed) :
    Except GenerationError (Except Rejection Conversion) :=
  match s.rejection? settings with
  | some r => .ok (.error r)
  | none =>
    match Lowering.script s with
    | .error e => .ok (.error (.unsupported (e.map .lowering)))
    | .ok l => do
      let m ← s.generate l settings.generator check
      return .ok {
        module := m
        score := s.score
        factors := s.factors
        route := settings.thresholds.route s.score
        warnings := s.warnings settings.generator.emitPlots
        indicators := s.indicators }

def convert (settings : ConversionSettings) (source : List Char)
    (check : SyntaxCheck := Module.isWellFormed) :
    Except GenerationError (Except Rejection Conversion) :=
  match Script.parse source with
  | .error e => .ok (.error (.syntaxError e))
  | .ok s => s.convert settings check

structure NamedScript where
  name : String
  source : List Char

def convertAll (settings : ConversionSettings) (scripts : List NamedScript)
    (check : SyntaxCheck := Module.isWellFormed) :
    List (NamedScript × Except GenerationError (Except Rejection Conversion)) :=
  scripts.map fun s => (s, convert settings s.source check)

end ChartScript
