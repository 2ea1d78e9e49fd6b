import ChartScript.Proofs.Lowering.Items
import ChartScript.Proofs.Series.Aligned
import ChartScript.Script.Parser
import ChartScript.Series.Call
/-!
# Variables that keep their first value

A single variable that is declared to be set once is bound to its value held from the first bar on,
if the value is a series.
-/
namespace ChartScript

open List

/-- On each bar of its operand, the operation gives the value of the first bar. -/
def HoldsFirst (operation : String) : Prop :=
  ∀ a : Operand, ∃ op, Operation.ofCall? operation [a] = some op ∧ op.run.size = a.size ∧
    ∀ bar < a.size, op.run.get? bar = finite? (a.valueAt 0)

theorem holdsFirst : HoldsFirst "hold_first" := by
  intro a
  refine ⟨.holdFirst a, rfl, Operand.size_mapValues _ a, fun bar hbar => ?_⟩
  simp [Operation.run, Operand.holdFirst, Operand.mapValues, Series.get?, Series.ofValues, hbar]

@[simp] theorem Lowered.bindable_kind (v : Lowered) : v.bindable.kind = v.kind := by
  unfold bindable
  split <;> rfl

namespace Lowering

variable {s : Script} {l : LoweredScript} {r r' : Progress} {d : VarDecl} {i : Nat}

def AsAssigned (s : Script) (x : LoweredItem) : Prop :=
  ∀ i, x.key = .assignment i → ∃ d scope pattern scope', s.varDecls[i]? = some d ∧
    x.binding = some pattern ∧ Assigned s scope d pattern x.value scope'

theorem step_asAssigned (h : Step s r r') (hr : ∀ x ∈ r.items, AsAssigned s x) :
    ∀ x ∈ r'.items, AsAssigned s x := by
  cases h with
  | assignment hd ha =>
    refine forall_mem_concat hr fun i hi => ?_
    cases hi
    exact ⟨_, _, _, _, hd, rfl, assigned_of_assignment ha⟩
  | hoisted hkey =>
    refine forall_mem_concat hr fun i hi => ?_
    cases hi
    cases hkey
  | function | plotted => exact forall_mem_concat hr fun i hi => by cases hi
  | directed => exact hr

theorem asAssigned_of_script (h : script s = .ok l) : ∀ x ∈ l.items, AsAssigned s x := by
  obtain ⟨r, hr, hitems, -⟩ := script_keeps step_asAssigned h fun _ _ _ hx => by cases hx
  exact hitems ▸ hr

theorem exists_assignment_item (h : script s = .ok l) (hd : s.varDecls[i]? = some d) :
    ∃ x ∈ l.items, x.key = .assignment i := by
  have hkey : ItemKey.assignment i ∈ l.items.map (·.key) := by
    rw [(script_items h).1, mem_flatMap]
    exact ⟨_, assignment_mem_sites.2 hd, mem_cons_self⟩
  exact mem_map.1 hkey

/-- Which names keep their first value. A series that is declared to be set once under a single name
goes through an operation that holds the first value on all bars. With several names, the items are
the same as if they were to be computed on each bar. -/
theorem first_value_kept (h : script s = .ok l) (hd : s.varDecls[i]? = some d) (hmode : d.mode = .declare)
    (hkept : d.persistence ≠ .each) :
    HoldsFirst "hold_first" ∧ (∃ x ∈ l.items, x.key = .assignment i) ∧
    ∀ x ∈ l.items, x.key = .assignment i → ∃ scope e v, parse (s.text d.value) d.value = .ok e ∧
      ((∃ name, d.target = .single name ∧ expression ⟨scope, []⟩ none e = .ok v ∧ x.value.kind = v.kind ∧
        (v.kind = .series → x.value.code = .ops "hold_first" [v.operand])) ∨
      ∃ names, d.target = .tuple names ∧ expression ⟨scope, []⟩ (some names.length) e = .ok v ∧ x.value = v ∧
        ∀ other, assignment s scope { d with persistence := other } = assignment s scope d) := by
  refine ⟨holdsFirst, exists_assignment_item h hd, fun x hx hkey => ?_⟩
  obtain ⟨d', scope, pattern, scope', hd', -, hassigned⟩ := asAssigned_of_script h x hx i hkey
  cases Option.some.inj (hd.symm.trans hd')
  generalize x.value = value at hassigned ⊢
  cases hassigned with
  | @declared name e v w _ htarget he hv hw =>
    refine ⟨scope, e, v, he, .inl ⟨name, htarget, hv, ?_, fun hseries => ?_⟩⟩
    · rw [Lowered.bindable_kind, hw]
      split <;> rfl
    · rw [if_pos ⟨hkept, hseries⟩] at hw
      rw [hw]
      rfl
  | @unpacked names e _ _ htarget he hv =>
    refine ⟨scope, e, value, he, .inr ⟨names, htarget, hv, rfl, fun other => ?_⟩⟩
    unfold assignment
    simp only [hmode, htarget]
  | reassigned hnot => exact absurd hmode hnot

def keptSource : List Char :=
  ("//@version=5\nindicator(\"F\")\n" ++
   "var x = close\n" ++
   "varip [a, b, c] = ta.macd(close)\n" ++
   "plot(x)\n").toList

def isHeld : Code → Bool
  | .call (.path ["ops", "hold_first"]) _ => true
  | _ => false

theorem kept_lowered : ∃ s l d d', Script.parse keptSource = .ok s ∧ script s = .ok l ∧ s.varDecls = [d, d'] ∧
    (d.mode = .declare ∧ d.persistence = .var ∧ d.target = .single "x") ∧
    (d'.mode = .declare ∧ d'.persistence = .varip ∧ d'.target = .tuple ["a", "b", "c"]) ∧
    ∀ x ∈ l.items, (x.key = .assignment 0 → x.value.kind = .series) ∧
      (x.key = .assignment 1 → isHeld x.value.code = false) := by
  have hrun : ∃ s, Script.parse keptSource = .ok s ∧ s.varDecls.map (fun d => (d.mode, d.persistence, d.target)) =
        [(.declare, .var, .single "x"), (.declare, .varip, .tuple ["a", "b", "c"])] ∧
      ∃ l, script s = .ok l ∧ ∀ x ∈ l.items, (x.key = .assignment 0 → x.value.kind = .series) ∧
        (x.key = .assignment 1 → isHeld x.value.code = false) := by
    decide +kernel
  obtain ⟨s, hs, hdecls, l, hl, hitems⟩ := hrun
  obtain ⟨d, ds, hds, hd, hrest⟩ := map_eq_cons_iff.1 hdecls
  obtain ⟨d', rfl, hd'⟩ := map_eq_singleton_iff.1 hrest
  simp only [Prod.mk.injEq] at hd hd'
  exact ⟨s, l, d, d', hs, hl, hds, hd, hd', hitems⟩

theorem first_value_kept_single : ∃ s l d x c, Script.parse keptSource = .ok s ∧ script s = .ok l ∧
    s.varDecls[0]? = some d ∧ d.persistence = .var ∧ x ∈ l.items ∧ x.key = .assignment 0 ∧
    x.value.code = .ops "hold_first" [c] := by
  obtain ⟨s, l, d, d', hs, hl, hdecls, ⟨hmode, hkept, htarget⟩, -, hitems⟩ := kept_lowered
  have hd : s.varDecls[0]? = some d := by rw [hdecls]; rfl
  obtain ⟨-, ⟨x, hx, hkey⟩, hall⟩ := first_value_kept hl hd hmode (by rw [hkept]; decide)
  obtain ⟨scope, e, v, -, ⟨_, -, -, hkind, hcode⟩ | ⟨names, htuple, -⟩⟩ := hall x hx hkey
  · exact ⟨s, l, d, x, v.operand, hs, hl, hd, hkept, hx, hkey, hcode (hkind ▸ (hitems x hx).1 hkey)⟩
  · rw [htarget] at htuple
    cases htuple

/-- The names of the tuple are not held, although they are to be set once. -/
theorem tuple_not_held : ∃ s l d x, Script.parse keptSource = .ok s ∧ script s = .ok l ∧
    s.varDecls[1]? = some d ∧ d.persistence = .varip ∧ d.target = .tuple ["a", "b", "c"] ∧
    x ∈ l.items ∧ x.key = .assignment 1 ∧ ∀ c, x.value.code ≠ .ops "hold_first" [c] := by
  obtain ⟨s, l, d, d', hs, hl, hdecls, -, ⟨-, hkept, htarget⟩, hitems⟩ := kept_lowered
  have hd : s.varDecls[1]? = some d' := by rw [hdecls]; rfl
  obtain ⟨x, hx, hkey⟩ := exists_assignment_item hl hd
  refine ⟨s, l, d', x, hs, hl, hd, hkept, htarget, hx, hkey, fun c hc => ?_⟩
  have hnot := (hitems x hx).2 hkey
  rw [hc] at hnot
  cases hnot

end Lowering

end ChartScript
