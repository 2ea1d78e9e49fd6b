import ChartScript.Proofs.Emitted.Pieces
import ChartScript.Proofs.Expr.Calls
import ChartScript.Proofs.Lowering.Hygiene
/-!
# What lowered code is made of

The code of an expression is made of the names that the expression looks up, of calls of the functions
that it calls and of their defaults, and of what the operations of the language become: numbers, texts
and truth values, operators, methods, and calls of the library.
-/
namespace ChartScript

open Emitted (isWord)

def Need.Among (p : String → Prop) (needs : List Need) : Prop :=
  ∀ q, .indicator q ∈ needs → p q

namespace Need

variable {p : String → Prop}

@[simp] theorem among_nil : Among p [] :=
  fun _ h => by cases h

@[simp] theorem among_cons {n : Need} {needs : List Need} :
    Among p (n :: needs) ↔ (∀ q, n = .indicator q → p q) ∧ Among p needs := by
  simp only [Among, List.mem_cons, or_imp, forall_and, eq_comm]

@[simp] theorem among_append {needs needs' : List Need} :
    Among p (needs ++ needs') ↔ Among p needs ∧ Among p needs' := by
  simp only [Among, List.mem_append, or_imp, forall_and]

theorem Among.ops {needs : List Need} (h : Among p needs) : Among p (needs ++ [.ops]) :=
  among_append.2 ⟨h, by simp⟩

theorem among_flatMap {α : Type} {xs : List α} {f : α → List Need} (h : ∀ x ∈ xs, Among p (f x)) :
    Among p (xs.flatMap f) := by
  intro q hq
  obtain ⟨x, hx, hq⟩ := List.mem_flatMap.1 hq
  exact h x hx q hq

end Need

/-- The names that an expression may use. -/
structure Usage where
  /-- To look them up. -/
  name : String → Prop
  /-- To call them as functions of the script. -/
  function : String → Prop
  /-- As indicators, by their qualified names. -/
  indicator : String → Prop

/-- The path leads to a part of the library that the needs bring in, or to one that is always there. -/
inductive Library (needs : List Need) : List String → Prop
  | ops {f : String} : isWord f = true → .ops ∈ needs → Library needs ["ops", f]
  | indicator {i : Indicator} : i ∈ Indicator.catalogue → .indicator i.qualifiedName ∈ needs →
      Library needs ["ta", i.name]
  | series {f : String} : isWord f = true → .seriesType ∈ needs → Library needs ["Series", f]
  | direction {f : String} : isWord f = true → .direction ∈ needs → Library needs ["Direction", f]
  | standard {head : String} {rest : List String} : head = "f64" ∨ head = "std" →
      (∀ x ∈ rest, isWord x = true) → Library needs (head :: rest)

theorem Library.mono {needs needs' : List Need} {segments : List String}
    (h : Library needs segments) (hsub : needs ⊆ needs') : Library needs' segments := by
  cases h with
  | ops hf hneed => exact .ops hf (hsub hneed)
  | indicator hi hneed => exact .indicator hi (hsub hneed)
  | series hf hneed => exact .series hf (hsub hneed)
  | direction hf hneed => exact .direction hf (hsub hneed)
  | standard hhead hrest => exact .standard hhead hrest

/-- The name is that of a function of the script, which the expression calls. -/
structure Context.Calls (ctx : Context) (u : Usage) (x : String) (b : Binding) (sig : Signature) :
    Prop where
  looked : u.name x
  called : u.function x
  lookup : ctx.scope.lookup? x = some b
  role : b.role = .function sig

namespace Code

/-- The code is made of what an expression may use in the context, with the needs. -/
inductive Made (ctx : Context) (u : Usage) (needs : List Need) : Code → Prop
  | bars : Made ctx u needs (.name "bars")
  | field {f : BarField} : .field f ∈ needs → Made ctx u needs (.name f.name)
  | average {a : Average} : .average a ∈ needs → Made ctx u needs (.name a.name)
  | barIndex : .barIndex ∈ needs → Made ctx u needs (.name "bar_index")
  | hidden {l : LocalName} : l ∈ ctx.locals → Made ctx u needs (.name l.emitted)
  | bound {x : String} {b : Binding} : u.name x → ctx.scope.lookup? x = some b →
      b.role.isEmitted = true → Made ctx u needs (.name b.emitted)
  | setting {x : String} {b : Binding} : u.name x → ctx.scope.lookup? x = some b →
      b.role.isEmitted = false → Made ctx u needs (.setting b.emitted)
  | path {segments : List String} : Library needs segments → Made ctx u needs (.path segments)
  | number (x : Float) : Made ctx u needs (.number x)
  | integer (n : Int) : Made ctx u needs (.integer n)
  | bool (b : Bool) : Made ctx u needs (.bool b)
  | text (s : String) : Made ctx u needs (.text s)
  | widen {c : Code} : Made ctx u needs c → Made ctx u needs (.widen c)
  | borrow {c : Code} : Made ctx u needs c → Made ctx u needs (.borrow c)
  | group {c : Code} : Made ctx u needs c → Made ctx u needs (.group c)
  | unary (op : UnaryOp) {c : Code} : Made ctx u needs c → Made ctx u needs (.unary op c)
  | binary (op : BinaryOp) {l r : Code} : Made ctx u needs l → Made ctx u needs r →
      Made ctx u needs (.binary op l r)
  | choice {c a b : Code} : Made ctx u needs c → Made ctx u needs a → Made ctx u needs b →
      Made ctx u needs (.choice c a b)
  | method {c : Code} {m : String} {args : List Code} : isWord m = true → Made ctx u needs c →
      (∀ a ∈ args, Made ctx u needs a) → Made ctx u needs (.method c m args)
  | call {segments : List String} {args : List Code} : Library needs segments →
      (∀ a ∈ args, Made ctx u needs a) → Made ctx u needs (.call (.path segments) args)
  | function {x : String} {b : Binding} {sig : Signature} {args : List Code} : ctx.Calls u x b sig →
      (∀ a ∈ args, Made ctx u needs a) → Made ctx u needs (.call (.name b.emitted) args)
  | default {x : String} {b : Binding} {sig : Signature} {p : FunctionParam} {c : Code} :
      ctx.Calls u x b sig → p ∈ sig.params → p.default = some c → Made ctx u needs c

namespace Made

variable {ctx : Context} {u : Usage} {needs needs' : List Need} {c : Code}

theorem mono (h : c.Made ctx u needs) (hsub : needs ⊆ needs') : c.Made ctx u needs' := by
  induction h with
  | bars => exact .bars
  | field hneed => exact .field (hsub hneed)
  | average hneed => exact .average (hsub hneed)
  | barIndex hneed => exact .barIndex (hsub hneed)
  | hidden hl => exact .hidden hl
  | bound hx hb hrole => exact .bound hx hb hrole
  | setting hx hb hrole => exact .setting hx hb hrole
  | path hpath => exact .path (hpath.mono hsub)
  | number x => exact .number x
  | integer n => exact .integer n
  | bool b => exact .bool b
  | text s => exact .text s
  | widen _ ih => exact .widen ih
  | borrow _ ih => exact .borrow ih
  | group _ ih => exact .group ih
  | unary op _ ih => exact .unary op ih
  | binary op _ _ ihl ihr => exact .binary op ihl ihr
  | choice _ _ _ ihc iha ihb => exact .choice ihc iha ihb
  | method hm _ _ ih ihargs => exact .method hm ih ihargs
  | call hpath _ ihargs => exact .call (hpath.mono hsub) ihargs
  | function hcalls _ ihargs => exact .function hcalls ihargs
  | default hcalls hp hc => exact .default hcalls hp hc

theorem ops {f : String} {args : List Code} (hf : isWord f = true) (hneed : .ops ∈ needs)
    (hargs : ∀ a ∈ args, a.Made ctx u needs) : (Code.ops f args).Made ctx u needs :=
  .call (.ops hf hneed) hargs

theorem barCount : Code.barCount.Made ctx u needs :=
  .method rfl .bars (by simp)

theorem broadcast (h : c.Made ctx u needs) (hneed : .ops ∈ needs) : c.broadcast.Made ctx u needs :=
  .ops rfl hneed (by simpa using ⟨h, barCount⟩)

end Made

end Code

namespace Lowered

/-- Both forms of the value are made of what an expression may use. -/
structure Made (ctx : Context) (u : Usage) (v : Lowered) : Prop where
  code : v.code.Made ctx u v.needs
  length : ∀ c, v.length = some c → c.Made ctx u v.needs
  needs : Need.Among u.indicator v.needs

variable {ctx : Context} {u : Usage} {needs : List Need}

theorem made_mk {code : Code} {kind : ValueKind} {place : Bool} (h : code.Made ctx u needs)
    (hneeds : Need.Among u.indicator needs) : (Lowered.mk code kind place none needs).Made ctx u :=
  ⟨h, fun _ hc => (by cases hc), hneeds⟩

theorem made_ofNumber (x : Float) (isInt : Bool) : (ofNumber x isInt).Made ctx u := by
  refine ⟨.number x, fun c hc => ?_, Need.among_nil⟩
  cases isInt <;> cases hc
  exact .integer _

theorem made_operand {v : Lowered} (h : v.code.Made ctx u needs) : v.operand.Made ctx u needs := by
  unfold operand
  split
  · exact .borrow h
  · exact h

theorem made_truth {v : Lowered} (h : v.code.Made ctx u needs) : v.truth.Made ctx u needs := by
  unfold truth
  split
  · exact .binary _ h (.number _)
  · exact h

@[simp] theorem bindable_needs (v : Lowered) : v.bindable.needs = v.needs := by
  unfold bindable
  split <;> rfl

theorem Made.bindable {v : Lowered} (h : v.Made ctx u) : v.bindable.Made ctx u := by
  unfold Lowered.bindable
  split
  · next hplace =>
    refine ⟨?_, h.length, h.needs⟩
    simpa [owned, hplace.1, hplace.2] using .method rfl h.code (by simp)
  · exact h

end Lowered

/-! ## Names in an expression -/

def Indicator.averageNames (i : Indicator) : List String :=
  i.params.filterMap fun p =>
    match p.default with
    | some (.price (.average a)) => some a.name
    | _ => none

namespace Expr

def ownReferences : Expr → List String
  | name _ (.plain x) | call _ (.plain x) .. => [x]
  | name _ (.member qualifier f) | call _ (.member qualifier f) .. =>
    if qualifier = "ta" then ((Indicator.find? ("ta." ++ f)).map Indicator.averageNames).getD []
    else []
  | _ => []

def references (e : Expr) : List String :=
  e.nodes.flatMap ownReferences

end Expr

end ChartScript
