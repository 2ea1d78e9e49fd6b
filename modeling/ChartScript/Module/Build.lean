import ChartScript.Module.Basic
/-!
Putting a module together from a script and its lowered expressions.

The orders and conditions of a script are flat lists that refer to each other by number. Here they
become nested again: a body holds the orders and chains of conditions that belong to it, in the
order of the source.
-/
namespace ChartScript

structure GeneratorOptions where
  runtimePath : String := "pinecast::runtime"
  emitPlots : Bool := true
deriving DecidableEq, Repr

inductive GenerationFault where
  | notLowered (condition : Nat)
  | noId (kind : OrderKind)
  | noDirection (kind : OrderKind)
  /-- The text of the module is not well formed. -/
  | malformed
deriving DecidableEq, Repr

def GenerationFault.message : GenerationFault → String
  | notLowered condition => s!"condition {condition} was not lowered"
  | noId kind => s!"{kind.qualifiedName} call without an id"
  | noDirection kind => s!"{kind.qualifiedName} call without a direction"
  | malformed => ""

namespace Module

/-! ## Orders -/

/-- The kind of a value that has a name, and the name. -/
def named? (l : LoweredScript) (key : ItemKey) : Option (ValueKind × String) := do
  let item ← l.get? key
  let pattern ← item.binding
  return (item.value.kind, pattern.render)

def test (value : ValueKind × String) : Test :=
  match value.1 with
  | .bool => .flag value.2
  | .number => .nonzero value.2
  | _ => .truthy value.2

def barValue (value : ValueKind × String) : BarValue :=
  if value.1 = .number then .fixed value.2 else .series value.2

def needId (o : OrderCall) : Except GenerationFault String :=
  match o.id with
  | some id => .ok id
  | none => .error (.noId o.kind)

def needDirection (o : OrderCall) : Except GenerationFault Direction :=
  match o.direction with
  | some direction => .ok direction
  | none => .error (.noDirection o.kind)

def request (o : OrderCall) : Except GenerationFault OrderRequest :=
  match o.kind with
  | .entry => do return .entry (← needId o) (← needDirection o)
  | .order => do return .order (← needId o) (← needDirection o)
  | .close => do return .close (← needId o)
  | .closeAll => .ok .closeAll
  | .exit => do return .exit (← needId o)
  | .cancel => do return .cancel (← needId o)
  | .cancelAll => .ok .cancelAll

def orderAction (l : LoweredScript) (index : Nat) (o : OrderCall) :
    Except GenerationFault Action := do
  let request ← request o
  return .order index ((named? l (.orderWhen index)).map test) {
    request := request
    quantity := (named? l (.orderQuantity index)).map barValue
    stop := (named? l (.orderStop index)).map barValue
    limit := (named? l (.orderLimit index)).map barValue
    fromEntry := o.fromEntry }

/-! ## Bodies -/

/-- A member of a body: an order or the first condition of a chain. -/
inductive Entry where
  | order (index : Nat) (o : OrderCall)
  | condition (index : Nat) (c : Condition)

def Entry.position : Entry → Nat
  | order _ o => o.span.start
  | condition _ c => c.span.start

/-- The members of a body, in the order of the source. -/
def entries (s : Script) (scope : Option BodyRef) : List Entry :=
  let orders := (s.orders.mapIdx fun i o => (i, o)).filter (·.2.scope == scope)
  let heads := (s.conditions.mapIdx fun i c => (i, c)).filter fun (_, c) =>
    c.parent == scope && c.chainedFrom.isNone
  (orders.map (fun (i, o) => Entry.order i o) ++
    heads.map (fun (i, c) => Entry.condition i c)).mergeSort (·.position ≤ ·.position)

/-- The conditions that continue a chain, in the order of the source. -/
def links (s : Script) (head : Nat) : List Nat :=
  (((s.conditions.mapIdx fun i c => (i, c)).filter (·.2.chainedFrom == some head)).mergeSort
    (·.2.span.start ≤ ·.2.span.start)).map (·.1)

def isUsed (s : Script) (body : BodyRef) : Bool :=
  s.orders.any (·.scope == some body) || s.conditions.any (·.parent == some body)

def conditionTest (l : LoweredScript) (index : Nat) : Except GenerationFault Test :=
  match named? l (.predicate index) with
  | some value => .ok (test value)
  | none => .error (.notLowered index)

/-- The arms for the given conditions, and the body for when none of them holds. -/
def arms (s : Script) (l : LoweredScript)
    (body : Option BodyRef → Except GenerationFault (List Action)) (last : Nat) :
    List Nat → Except GenerationFault Chain
  | [] =>
    if isUsed s ⟨last, .onFalse⟩ then return .otherwise (← body (some ⟨last, .onFalse⟩))
    else .ok .stop
  | index :: rest => do
    let test ← conditionTest l index
    let actions ← body (some ⟨index, .onTrue⟩)
    return .arm test actions (← arms s l body last rest)

/-- The actions of a body in which conditions are nested less than `depth` deep. The number of
conditions bounds the depth. -/
def actionsOf (s : Script) (l : LoweredScript) :
    (depth : Nat) → Option BodyRef → Except GenerationFault (List Action)
  | 0, _ => .ok []
  | depth + 1, scope =>
    (entries s scope).mapM fun
      | .order i o => orderAction l i o
      | .condition i _ => do
        let chain := i :: links s i
        return .choose (← arms s l (actionsOf s l depth) (chain.getLast?.getD i) chain)

/-! ## Plots and the whole module -/

def plotTitle (s : Script) (p : PlotCall) : String :=
  match p.title, p.series with
  | some title, _ => title
  | none, some span => Text.trim (String.ofList (s.text span))
  | none, none => p.kind.name

def plot? (s : Script) (index : Nat) (v : Lowered) : Option EmittedPlot :=
  match s.plots[index]? with
  | some p =>
    match p.kind with
    | .mark mark => some {
        mark := mark
        title := plotTitle s p
        series := v.owned
        broadcast := v.kind != .series
        color := p.color.map fun span => Text.trim (String.ofList (s.text span)) }
    | .decoration _ => none
  | none => none

def step? (s : Script) (options : GeneratorOptions) (item : LoweredItem) : Option Step :=
  match item.binding, item.key with
  | some pattern, _ => some (.bind pattern item.value.code)
  | none, .plotSeries i => if options.emitPlots then (plot? s i item.value).map .plot else none
  | none, _ => none

def build (s : Script) (l : LoweredScript) (options : GeneratorOptions) :
    Except GenerationFault Module := do
  let actions ←
    if s.orders.isEmpty then pure none
    else some <$> actionsOf s l (s.conditions.length + 1) none
  return {
    typeName := typeNameOf s.name
    title := s.name
    kind := s.kind
    version := s.version
    runtimePath := options.runtimePath
    inputs := l.inputs
    needs := l.needs
    steps := l.items.filterMap (step? s options)
    actions := actions }

end Module

end ChartScript
