import ChartScript.Proofs.Expr.Phrases
import ChartScript.Proofs.Lowering.Slots
import ChartScript.Proofs.Lowering.Yields
/-!
# Defaults of indicators

A parameter that a call leaves out gets its default: a recorded price, an average price, a number or a
truth value.
-/
namespace ChartScript

open List Indicator

/-- The name is one of the function or of the script. -/
def Context.binds (ctx : Context) (x : String) : Bool :=
  ctx.locals.any (·.name == x) || ctx.scope.bindings.any (·.name == x)

namespace DefaultArgument

/-- The average price that the default is, if it is one. -/
def average? : DefaultArgument → Option Average
  | price (.average a) => some a
  | _ => none

/-- What is passed for a parameter of the kind, and what this relies on. -/
def passed (kind : ParamKind) : DefaultArgument → Code × List Need
  | price (.field f) => (.borrow (.name f.name), [.field f])
  | price (.average a) => (.borrow (.name a.name), [.average a])
  | integer n =>
    (if kind = .length then .integer (Decimal.toInt64 n.toFloat) else .number n.toFloat, [])
  | decimal x => (.number x, [])
  | flag b => (.bool b, [])

/-- The expression that a default stands for. -/
def expr (span : Span) : DefaultArgument → Expr
  | price (.field f) => .series span f
  | price (.average a) => .name span (.plain a.name)
  | integer n => .number span n.toFloat true
  | decimal x => .number span x false
  | flag b => .bool span b

def tokenKind : DefaultArgument → TokenKind
  | price (.field f) => .series f
  | price (.average _) => .identifier
  | integer _ | decimal _ => .literal .number
  | flag _ => .literal .bool

def number? : DefaultArgument → Option (Float × Bool)
  | integer n => some (n.toFloat, true)
  | decimal x => some (x, false)
  | _ => none

/-- The text of a default is one word, and that of a number is read as the number. -/
def isWritten (d : DefaultArgument) : Bool :=
  (tokenize d.text.toList).filter Token.isContent == [⟨d.tokenKind, ⟨0, d.text.length, 1, 1⟩, d.text⟩] &&
    d.number?.all fun (x, isInt) => decide (Decimal.readFloat? d.text = some x) && x.isFinite &&
      isInt == !(d.text.toList.any fun c => c == '.' || c == 'e' || c == 'E')

theorem isWritten_of_catalogue {i : Indicator} (hi : i ∈ catalogue) {p : Parameter} (hp : p ∈ i.params)
    {d : DefaultArgument} (hd : p.default = some d) : d.isWritten = true := by
  have hall : ∀ i ∈ catalogue, ∀ p ∈ i.params, p.default.all isWritten = true := by decide +kernel
  simpa [hd] using hall i hi p hp

open ExprParser in
theorem leaf_of_isWritten {d : DefaultArgument} (h : d.isWritten = true) (span : Span) :
    leaf? ⟨d.tokenKind, span, d.text⟩ = some (d.expr span) := by
  cases d with
  | price source => cases source <;> rfl
  | integer n | decimal x =>
    simp only [isWritten, number?, Option.all_some, Bool.and_eq_true, decide_eq_true_eq, beq_iff_eq] at h
    obtain ⟨-, ⟨hread, hfinite⟩, hwhole⟩ := h
    simp only [leaf?, tokenKind, numberValue, hread, hfinite, if_true, ← hwhole, expr]
  | flag b => cases b <;> rfl

open ExprParser in
theorem parse_of_isWritten {d : DefaultArgument} (h : d.isWritten = true) (call : Span) :
    Expr.parse d.text.toList call = .ok (d.expr { call with stop := call.start + d.text.length }) := by
  have hword := eq_of_beq (Bool.and_eq_true_iff.1 h).1
  have hplace : Span.offsetBy ⟨0, d.text.length, 1, 1⟩ call = { call with stop := call.start + d.text.length } := by
    simp [Span.offsetBy]
  refine Expr.parse_of_phrase ?_
  rw [Expr.contentAt, hword, map_singleton, Token.offsetBy, hplace]
  exact (Phrase.leaf (leaf_of_isWritten h _)).loosen_le (by decide) (by decide)

end DefaultArgument

namespace Lowering

variable {α : Type} {i : Indicator} {j : Nat} {ctx : Context} {span : Span}

theorem name_average (a : Average) (h : ctx.binds a.name = false) (span : Span) :
    name ctx a.name span = .ok (.ofPlace a.name [.average a]) := by
  obtain ⟨hlocals, hbindings⟩ := Bool.or_eq_false_iff.1 h
  have hlocal : ctx.locals.reverse.find? (·.name == a.name) = none := by
    simpa [find?_eq_none] using hlocals
  have hbinding : ctx.scope.lookup? a.name = none := by
    simpa [Scope.lookup?, find?_eq_none] using hbindings
  have haverage : Average.ofName? a.name = some a := by cases a <;> rfl
  simp only [name, hlocal, hbinding, haverage]

variable {p : Parameter} {d : DefaultArgument} {args : List (Argument Expr)} {e : Expr}
  {v : Lowered}

theorem indicatorArgument_none (hi : i ∈ catalogue) (hp : p ∈ i.params)
    (hd : p.default = some d) (hfree : ∀ a ∈ d.average?, ctx.binds a.name = false) :
    indicatorArgument ctx i span p none = .ok (d.passed p.kind) := by
  have hsuits := default_suits hi hp hd
  obtain ⟨x, kind, default⟩ := p
  dsimp only at hd hsuits
  subst hd
  unfold DefaultArgument.suits at hsuits
  split at hsuits
  · rfl
  · have hname := name_average .hlc3 (hfree .hlc3 rfl)
    simp only [indicatorArgument, defaultActual, hname]
    rfl
  · rfl
  · rfl
  · rfl
  · rfl
  · cases hsuits

/-- A default is what its text stands for if it is written where the call begins. -/
theorem defaultActual_of_text (hi : i ∈ catalogue) (hp : p ∈ i.params) (hd : p.default = some d)
    (ctx : Context) (call : Span) : ∃ e, Expr.parse d.text.toList call = .ok e ∧
      defaultActual ctx d call = ⟨e.span, lower ctx e⟩ := by
  refine ⟨_, d.parse_of_isWritten (d.isWritten_of_catalogue hi hp hd) call, ?_⟩
  cases d with
  | price source => cases source <;> rfl
  | integer n | decimal x | flag b => rfl

/-- The call passes nothing for the parameter at `j`. -/
def LeavesOut (i : Indicator) (args : List (Argument α)) (j : Nat) : Prop :=
  (∀ arg ∈ args, arg.name.bind i.parameterIndex? ≠ some j) ∧
    (j < omitted i args ∨ (positional args).length + omitted i args ≤ j)

instance (i : Indicator) (args : List (Argument α)) (j : Nat) : Decidable (LeavesOut i args j) :=
  inferInstanceAs (Decidable (_ ∧ _))

theorem leavesOut_lowerArguments (h : LeavesOut i args j) :
    LeavesOut i (lowerArguments ctx args) j := by
  have hcount : (positional (lowerArguments ctx args)).length = (positional args).length := by
    rw [lowerArguments_eq_map, positional_map, length_map]
  have homitted : omitted i (lowerArguments ctx args) = omitted i args := by
    rw [omitted, omitted, hcount, lowerArguments_eq_map, any_map]
    rfl
  refine ⟨?_, by rw [hcount, homitted]; exact h.2⟩
  rw [lowerArguments_eq_map]
  intro arg harg
  obtain ⟨arg, hmem, rfl⟩ := mem_map.1 harg
  exact h.1 arg hmem

theorem slot_of_leavesOut {args : List (Argument α)} {slots : List (Option α)}
    (h : bindIndicator i args span = .ok slots) (hout : LeavesOut i args j)
    (hj : j < i.params.length) : slots[j]? = some none := by
  rw [bindIndicator_eq (count_le_of_bindIndicator h), fillNamed_eq_ok_iff] at h
  obtain ⟨-, -, rfl⟩ := h
  have hnone : namedAt i.parameterIndex? args j = [] := by
    rw [namedAt, filter_eq_nil_iff.2 fun arg harg => by simpa using hout.1 arg harg]
    rfl
  rw [overridden, getElem?_mapIdx, getElem?_fillPositional hj, hnone]
  split
  · rfl
  · next hlater =>
    rw [getElem?_eq_none (by have := hout.2; omega)]
    rfl

/-- The expression uses the indicator with the arguments: it calls it, or it is its name alone. -/
inductive Uses (i : Indicator) : List (Argument Expr) → Expr → Prop
  | call (span calleeSpan : Span) (args : List (Argument Expr)) :
      Uses i args (.call span (.member "ta" i.name) calleeSpan args)
  | alone (span : Span) : Uses i [] (.name span (.member "ta" i.name))

theorem indicator_of_uses (hi : i ∈ catalogue)
    (he : Uses i args e) (h : lower ctx e = .ok v) :
    ∃ span, indicator ctx i (lowerArguments ctx args) span = .ok v := by
  cases he with
  | call span calleeSpan => exact ⟨span, lower_indicator hi ctx args span calleeSpan ▸ h⟩
  | alone span =>
    rw [lower, member] at h
    simp only [String.reduceEq, false_and, if_false, if_true,
      show "ta." ++ i.name = i.qualifiedName from rfl, find?_qualifiedName hi] at h
    split at h
    · exact ⟨span, h⟩
    · cases h

/-- The code that is passed for the parameter at `j`. -/
def argumentCode? (i : Indicator) (j : Nat) : Code → Option Code
  | .call _ args => (if i.needsBars then args.drop 1 else args)[j]?
  | _ => none

theorem argumentCode?_indicatorCall (i : Indicator) (lowered : List (Code × List Need)) (j : Nat) :
    argumentCode? i j (indicatorCall i lowered).code = (lowered[j]?).map (·.1) := by
  simp only [argumentCode?, indicatorCall]
  split <;> simp

theorem passed_of_leavesOut (hi : i ∈ catalogue)
    (hp : i.params[j]? = some p) (hd : p.default = some d)
    (hfree : ∀ a ∈ d.average?, ctx.binds a.name = false)
    (he : Uses i args e) (hout : LeavesOut i args j) (h : lower ctx e = .ok v) :
    argumentCode? i j v.code = some (d.passed p.kind).1 ∧ (d.passed p.kind).2 ⊆ v.needs := by
  obtain ⟨span, hindicator⟩ := indicator_of_uses hi he h
  obtain ⟨slots, hslots, -⟩ := bind_eq_ok.1 hindicator
  rw [indicator_of_bind hslots] at hindicator
  obtain ⟨lowered, hlowered, hv⟩ := bind_eq_ok.1 hindicator
  cases hv
  obtain ⟨hj, rfl⟩ := List.getElem?_eq_some_iff.1 hp
  have hslot := slot_of_leavesOut hslots (leavesOut_lowerArguments hout) hj
  obtain ⟨hj', hnone⟩ := List.getElem?_eq_some_iff.1 hslot
  -- the argument at the same place among all that are lowered
  have hall := forall₂_of_mapM hlowered
  have hzip : j < (i.params.zip slots).length := by simp; omega
  have hlength : j < lowered.length := hall.length_eq ▸ hzip
  have hargument := hall.get hzip hlength
  simp only [get_eq_getElem, getElem_zip, hnone,
    indicatorArgument_none hi (getElem_mem hj) hd hfree, Except.ok.injEq] at hargument
  rw [argumentCode?_indicatorCall, getElem?_eq_getElem hlength, ← hargument]
  refine ⟨rfl, fun need hneed => mem_append_left _ (mem_flatMap.2 ⟨_, ?_, hneed⟩)⟩
  rw [hargument]
  exact getElem_mem hlength

/-- The default of a parameter that is left out is what is written for it in the catalogue, in every two
scripts that do not use the name of an average for something else. -/
theorem default_same_in_all_scopes (hi : i ∈ catalogue) {p : Parameter}
    (hp : i.params[j]? = some p) {d : DefaultArgument} (hd : p.default = some d) {ctx ctx' : Context}
    (hfree : ∀ a ∈ d.average?, ctx.binds a.name = false ∧ ctx'.binds a.name = false)
    {args args' : List (Argument Expr)} {e e' : Expr} (he : Uses i args e) (he' : Uses i args' e')
    (hout : LeavesOut i args j) (hout' : LeavesOut i args' j) {v v' : Lowered}
    (h : lower ctx e = .ok v) (h' : lower ctx' e' = .ok v') :
    argumentCode? i j v.code = argumentCode? i j v'.code ∧
      argumentCode? i j v.code = some (d.passed p.kind).1 ∧
      (d.passed p.kind).2 ⊆ v.needs ∧ (d.passed p.kind).2 ⊆ v'.needs := by
  obtain ⟨hcode, hneeds⟩ := passed_of_leavesOut hi hp hd (fun a ha => (hfree a ha).1) he hout h
  obtain ⟨hcode', hneeds'⟩ := passed_of_leavesOut hi hp hd (fun a ha => (hfree a ha).2) he' hout' h'
  exact ⟨hcode.trans hcode'.symm, hcode, hneeds, hneeds'⟩

def moneyFlow : Indicator where
  name := "mfi"
  category := .momentum
  needsBars := true
  params := [source "series" (some (.average .hlc3)), length "length" (some 14)]
  description := "Money flow index"

def otherNames : Context :=
  ⟨{ bindings := [⟨"src", "src", .value .series⟩] }, [⟨"length", "length", .number⟩]⟩

def moneyFlowOver (length : Expr) : Expr :=
  .call .origin (.member "ta" "mfi") .origin [⟨some "length", length, .origin⟩]

theorem default_same_in_all_scopes_moneyFlow : ∃ v v',
    lower otherNames (moneyFlowOver (.name .origin (.plain "length"))) = .ok v ∧
    lower ⟨{}, []⟩ (moneyFlowOver (.number .origin 10.0 true)) = .ok v' ∧
    argumentCode? moneyFlow 0 v.code = argumentCode? moneyFlow 0 v'.code ∧
    argumentCode? moneyFlow 0 v.code = some (.borrow (.name "hlc3")) ∧
    [Need.average .hlc3] ⊆ v.needs ∧ [Need.average .hlc3] ⊆ v'.needs := by
  have hmem : moneyFlow ∈ momentum := by simp [momentum, moneyFlow]
  have hi : moneyFlow ∈ catalogue := by
    simp only [catalogue, mem_append]
    tauto
  have hp : moneyFlow.params[0]? = some (source "series" (some (.average .hlc3))) := rfl
  have hrun : ∃ v, lower otherNames (moneyFlowOver (.name .origin (.plain "length"))) = .ok v ∧ True := by decide
  have hrun' : ∃ v, lower ⟨{}, []⟩ (moneyFlowOver (.number .origin 10.0 true)) = .ok v ∧ True := by decide
  obtain ⟨v, hv, -⟩ := hrun
  obtain ⟨v', hv', -⟩ := hrun'
  have hfree : ∀ a ∈ (DefaultArgument.price (.average .hlc3)).average?,
      otherNames.binds a.name = false ∧ (⟨{}, []⟩ : Context).binds a.name = false := by
    rintro a ⟨⟩
    decide
  exact ⟨v, v', hv, hv', default_same_in_all_scopes hi hp rfl hfree (.call _ _ _) (.call _ _ _)
    (by decide) (by decide) hv hv'⟩

/-- `ta.vwap` is about the series that a script calls `hlc3`. -/
theorem vwap_of_own_series :
    lower ⟨(({} : Scope).declare "hlc3" (.value .series)).2, []⟩ (.name .origin (.member "ta" "vwap")) =
      .ok { code := .call (.path ["ta", "vwap"]) [.name "bars", .borrow (.name "hlc3_")]
            kind := .series
            needs := [.indicator "ta.vwap"] } ∧
    lower ⟨{}, []⟩ (.name .origin (.member "ta" "vwap")) =
      .ok { code := .call (.path ["ta", "vwap"]) [.name "bars", .borrow (.name "hlc3")]
            kind := .series
            needs := [.average .hlc3, .indicator "ta.vwap"] } := by
  constructor
  · rfl
  · rfl

end Lowering

end ChartScript
