import ChartScript.Lowering.Script
import ChartScript.Proofs.Outcome
/-!
# What an assignment does

An assignment declares one name, declares several names at once, or gives a declared name a new
value.
-/
namespace ChartScript

theorem Scope.redeclare?_eq_some {s t : Scope} {name emitted : String} {role : Role}
    (h : s.redeclare? name role = some (emitted, t)) : ∃ b, s.lookup? name = some b ∧
      emitted = b.emitted ∧ t = { s with bindings := s.bindings ++ [⟨name, b.emitted, role⟩] } := by
  obtain ⟨b, hb, heq⟩ := Option.map_eq_some_iff.1 h
  cases heq
  exact ⟨b, hb, rfl, rfl⟩

namespace Lowering

/-- A way to lower the assignment `d` in a scope: what its value is bound to, the value, and the
scope after it. -/
inductive Assigned (s : Script) (scope : Scope) (d : VarDecl) : Pattern → Lowered → Scope → Prop
  | declared {x : String} {e : Expr} {v w : Lowered} : d.mode = .declare → d.target = .single x →
      parse (s.text d.value) d.value = .ok e → expression ⟨scope, []⟩ none e = .ok v →
      w = (if d.persistence ≠ .each ∧ v.kind = .series then kept v else v) →
      Assigned s scope d (.single (scope.declare x (.value w.kind)).1) w.bindable
        (scope.declare x (.value w.kind)).2
  | unpacked {names : List String} {e : Expr} {v : Lowered} : d.mode = .declare →
      d.target = .tuple names → parse (s.text d.value) d.value = .ok e →
      expression ⟨scope, []⟩ (some names.length) e = .ok v →
      Assigned s scope d (.tuple (declareAll scope names).1) v (declareAll scope names).2
  | reassigned {x : String} {e e' : Expr} {v : Lowered} {b : Binding} {kind : ValueKind} :
      d.mode ≠ .declare → d.target = .single x → parse (s.text d.value) d.value = .ok e →
      e.readsHistoryOf x = false → scope.lookup? x = some b → b.role = .value kind →
      compoundValue d x e = .ok e' → expression ⟨scope, []⟩ none e' = .ok v →
      Assigned s scope d (.single b.emitted) v.bindable
        { scope with bindings := scope.bindings ++ [⟨x, b.emitted, .value v.kind⟩] }

variable {d : VarDecl} {s : Script}

variable {scope scope' : Scope} {pattern : Pattern}

theorem reassignment_eq_ok {x : String} {e : Expr}
    {w : Lowered} (h : reassignment scope d x e = .ok (pattern, w, scope')) :
    ∃ b kind e' v, scope.lookup? x = some b ∧ b.role = .value kind ∧ e.readsHistoryOf x = false ∧
      compoundValue d x e = .ok e' ∧ expression ⟨scope, []⟩ none e' = .ok v ∧
      pattern = .single b.emitted ∧ w = v.bindable ∧
      scope' = { scope with bindings := scope.bindings ++ [⟨x, b.emitted, .value v.kind⟩] } := by
  unfold reassignment at h
  dsimp only at h
  cases hb : scope.lookup? x with
  | none =>
    rw [hb] at h
    cases h
  | some b =>
    rw [hb, Option.map_some] at h
    cases hrole : b.role with
    | input | function =>
      rw [hrole] at h
      cases h
    | value kind =>
      rw [hrole] at h
      obtain ⟨hx, h⟩ := failWhen_eq_ok.1 h
      obtain ⟨e', he', h⟩ := bind_eq_ok.1 h
      obtain ⟨v, hv, h⟩ := bind_eq_ok.1 h
      split at h
      · next hr =>
        obtain ⟨b', hb', rfl, rfl⟩ := Scope.redeclare?_eq_some hr
        cases hb.symm.trans hb'
        cases pure_eq_ok.1 h
        exact ⟨b, kind, e', v, rfl, hrole, by simpa using hx, he', hv, rfl, rfl, rfl⟩
      · cases h

theorem assigned_of_assignment {v : Lowered}
    (h : assignment s scope d = .ok (pattern, v, scope')) : Assigned s scope d pattern v scope' := by
  obtain ⟨e, he, h⟩ := bind_eq_ok.1 h
  split at h
  · next x hmode htarget =>
    obtain ⟨v, hv, h⟩ := bind_eq_ok.1 h
    obtain ⟨-, h⟩ := failWhen_eq_ok.1 h
    cases pure_eq_ok.1 h
    exact .declared hmode htarget he hv rfl
  · next names hmode htarget =>
    obtain ⟨v, hv, h⟩ := bind_eq_ok.1 h
    cases pure_eq_ok.1 h
    exact .unpacked hmode htarget he hv
  · next x htarget hmode =>
    obtain ⟨b, kind, e', v, hb, hrole, hx, he', hv, rfl, rfl, rfl⟩ := reassignment_eq_ok h
    exact .reassigned (fun heq => by simp_all) htarget he hx hb hrole he' hv
  · cases h

end Lowering

end ChartScript
