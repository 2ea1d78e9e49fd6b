import ChartScript.Proofs.Lowering.Operations
/-!
# Calls in lowered code

Emitted code calls functions of the library, which are members of a module or a type, and functions of
the script, which are local names.
-/
namespace ChartScript

open List

def Scope.IsFunction (scope : Scope) (x : String) : Prop :=
  ∃ b sig, scope.lookup? x = some b ∧ b.role = .function sig

namespace Code

/-- A local name, if the code is nothing else. -/
def ownName : Code → List String
  | name x => [x]
  | _ => []

mutual

/-- The local names that code calls. -/
def callees : Code → List String
  | name _ | path _ | setting _ | number _ | integer _ | bool _ | text _ => []
  | widen c | borrow c | group c | unary _ c => c.callees
  | binary _ l r => l.callees ++ r.callees
  | choice c a b => c.callees ++ a.callees ++ b.callees
  | call f args => f.ownName ++ f.callees ++ calleesAll args
  | method c _ args => c.callees ++ calleesAll args
  | closure _ _ lets value => calleesLets lets ++ value.callees

def calleesAll : List Code → List String
  | [] => []
  | c :: rest => c.callees ++ calleesAll rest

def calleesLets : List (String × Code) → List String
  | [] => []
  | (_, c) :: rest => c.callees ++ calleesLets rest

end

theorem calleesAll_eq (cs : List Code) : calleesAll cs = cs.flatMap callees := by
  induction cs with
  | nil => rw [calleesAll]; rfl
  | cons c rest ih => rw [calleesAll, ih, flatMap_cons]

theorem calleesLets_eq (lets : List (String × Code)) : calleesLets lets = lets.flatMap (·.2.callees) := by
  induction lets with
  | nil => rw [calleesLets]; rfl
  | cons c rest ih => rw [calleesLets, ih, flatMap_cons]

attribute [simp] callees calleesAll_eq calleesLets_eq

theorem Made.callees_eq_nil {ctx : Context} {u : Usage} {needs : List Need} {c : Code}
    (hu : ∀ x, u.function x → ¬ ctx.scope.IsFunction x) (h : c.Made ctx u needs) : c.callees = [] := by
  induction h with
  | widen _ ih | borrow _ ih | group _ ih | unary _ _ ih => exact ih
  | binary _ _ _ ihl ihr => simp [ihl, ihr]
  | choice _ _ _ ihc iha ihb => simp [ihc, iha, ihb]
  | method _ _ _ ih ihargs => simp [ih, flatMap_eq_nil_iff.2 ihargs]
  | call _ _ ihargs => simp [ownName, flatMap_eq_nil_iff.2 ihargs]
  | function hcalls => exact absurd ⟨_, _, hcalls.lookup, hcalls.role⟩ (hu _ hcalls.called)
  | default hcalls => exact absurd ⟨_, _, hcalls.lookup, hcalls.role⟩ (hu _ hcalls.called)
  | _ => simp

end Code

namespace Lowering

theorem expression_callees {ctx : Context} {arity : Option Nat} {e : Expr} {v : Lowered}
    (hcalled : ∀ g ∈ e.called, ¬ ctx.scope.IsFunction g) (h : expression ctx arity e = .ok v) :
    v.bindable.code.callees = [] := by
  have hmade : v.Made ctx ⟨fun _ => True, fun x => ¬ ctx.scope.IsFunction x, fun _ => True⟩ :=
    expression_made (fun _ _ => trivial) hcalled (fun _ _ => trivial) h
  exact hmade.bindable.code.callees_eq_nil fun _ hx => hx

/-! ## Functions -/

theorem function_callees {s : Script} {scope : Scope} {f : FuncDecl} {out : Lowered × Signature}
    (h : function s scope f = .ok out) (hcallees : out.1.code.callees ≠ []) :
    ∃ line ∈ BodyLine.ofFunction s f, ∃ e, parse line.text line.span = .ok e ∧
    ∃ g ∈ e.called, scope.IsFunction g := by
  by_contra hnone
  push Not at hnone
  obtain ⟨exprs, r₀, r, e, v, hexprs, hr₀, -, hr, hlast, hv, hcode, -⟩ := function_eq_ok h
  have hcalled : ∀ e ∈ exprs, ∀ g ∈ e.called, ¬ scope.IsFunction g := by
    intro e he
    obtain ⟨line, hline, hparse⟩ := exists_of_mem_mapM hexprs he
    exact hnone line hline e hparse
  have hparams : r₀.lets = [] := foldlM_keeps (p := fun r : FunctionProgress => r.lets = [])
      (fun _ _ _ hstep hlets => by
        obtain ⟨_, _, hstep⟩ := bind_eq_ok.1 hstep
        rw [← pure_eq_ok.1 hstep]
        exact hlets) hr₀ rfl
  have hlets : ∀ y ∈ r.lets, y.2.callees = [] := by
    refine foldlM_keeps_of_mem (p := fun r : FunctionProgress => ∀ y ∈ r.lets, y.2.callees = [])
      (fun r x hx r' hstep hr => ?_) hr (by simp [hparams])
    obtain ⟨line, e⟩ := x
    rcases addAssignment_eq_ok hstep with ⟨_, rfl⟩ | ⟨_, emitted, w, hw, _, _, hadded, _⟩
    · exact hr
    · rw [hadded, forall_mem_append]
      refine ⟨hr, fun y hy => ?_⟩
      rw [mem_singleton.1 hy]
      exact expression_callees (hcalled e (of_mem_zip hx).2) hw
  refine hcallees ?_
  have hresult := expression_callees (hcalled e (mem_of_getLast? hlast)) hv
  rw [hcode, Code.callees, Code.calleesLets_eq, hresult, flatMap_eq_nil_iff.2 hlets, append_nil]

end Lowering

end ChartScript
