import ChartScript.Lowering.Script
import ChartScript.Proofs.Lowering.FunctionBodies
import ChartScript.Proofs.Script.Places
import ChartScript.Proofs.Script.StatementFaults
/-!
# What lowering relies on

A script that was read has more than the types of its parts say: the default of an input is of the
kind of the input, a compound assignment has an operation, and the body of a function has a line.
-/
namespace ChartScript

/-! ## Inputs -/

variable {value line : List Token} {source : List Char} {s : Script}

namespace InputDecl

theorem value_of_default {kind? : Option InputKind} {kind : InputKind}
    {v : InputValue} (h : default? kind? value = .ok (kind, v)) : value? kind value = some v := by
  unfold default? at h
  dsimp only at h
  split at h
  · cases h
  · split at h
    · next hv =>
      cases h
      exact hv
    · cases h

theorem inputDefault_of_value {d : InputDecl}
    (h : value? d.kind value = some d.default) : ∃ code, Lowering.inputDefault d = .ok code := by
  unfold value? at h
  unfold Lowering.inputDefault
  split at h
  all_goals
    next hkind =>
      obtain ⟨x, -, hx⟩ := Option.map_eq_some_iff.1 h
      rw [hkind, ← hx]
      exact ⟨_, rfl⟩

end InputDecl

/-! ## Assignments -/

theorem Line.outerPosition?_eq_some {p : Token → Bool} {depth : Int} {position : Nat}
    (h : outerPosition? p depth line = some position) : ∃ t, (line)[position]? = some t ∧ p t = true := by
  induction line generalizing depth position with
  | nil => cases h
  | cons t rest ih =>
    rw [outerPosition?] at h
    split at h
    · next hfound =>
      cases h
      exact ⟨t, rfl, hfound.2⟩
    · obtain ⟨n, hn, rfl⟩ := Option.map_eq_some_iff.1 h
      simpa using ih hn

theorem BinaryOp.ofCompound?_isSome (op : Operator) (h : op.isAssignment = true)
    (hassign : op ≠ .assign) (hreassign : op ≠ .reassign) : (ofCompound? op).isSome = true := by
  cases op
  case assign => exact absurd rfl hassign
  case reassign => exact absurd rfl hreassign
  all_goals first | rfl | cases h

theorem Assignment.ofCompound_of_line {a : Assignment}
    {op : Operator} (h : ofLine? source line = some a) (hmode : a.mode = .compound op) :
    (BinaryOp.ofCompound? op).isSome = true := by
  obtain ⟨position, _, hposition, hsign, -, -, hread, -⟩ := ofLine?_eq_some h
  obtain ⟨t, ht, hassigns⟩ := Line.outerPosition?_eq_some hposition
  obtain rfl : t = a.sign := Option.some.inj (ht.symm.trans hsign)
  rw [hmode] at hread
  unfold mode? at hread
  split at hread
  · cases hread
  · cases hread
  · next sign hassign hreassign hkind =>
    cases hread
    rw [isSign, hkind] at hassigns
    exact BinaryOp.ofCompound?_isSome op hassigns hassign hreassign
  · cases hread

/-! ## Functions -/

theorem BodyLine.ofFunction_ne_nil {f : FuncDecl}
    (h : Script.parse source = .ok s) (hf : f ∈ s.functions) : ofFunction s f ≠ [] := by
  cases hsingle : f.singleLine with
  | true => simp [ofFunction, hsingle]
  | false =>
    obtain ⟨⟨head, body⟩, hst, -, hbody⟩ := Script.block_of_function h hf hsingle
    obtain ⟨before, after, hlines⟩ := Statement.lines_of_nodeAll _ hst
    rw [Statement.lines_mk, ← List.singleton_append, List.append_assoc, ← List.append_assoc] at hlines
    obtain ⟨base, hstart, hstop, ⟨first, hfirst, hheld⟩, hcontent, -⟩ := Script.rereads_block hlines hbody
    have hsome : ((tokenize source).filter Token.isContent).filter base.holds ≠ [] :=
      List.ne_nil_of_mem (List.mem_filter.2 ⟨hfirst, hheld⟩)
    rw [ofFunction_of_block hsingle]
    intro hnone
    have hno : (tokenize (s.text f.body)).filter Token.isContent = [] := by
      rw [← Script.filter_tokens, ← Statement.flatten_items, List.map_eq_nil_iff.1 hnone]
      rfl
    rw [Script.text, (Script.walk_of_parse h).1, ← hstart, ← hstop] at hno
    rw [hno] at hcontent
    exact hsome hcontent.symm

/-! ## Whole scripts -/

/-- What lowering relies on. -/
structure Script.Ready (s : Script) : Prop where
  inputs : ∀ d ∈ s.inputs, ∃ code, Lowering.inputDefault d = .ok code
  compounds : ∀ d ∈ s.varDecls, ∀ op, d.mode = .compound op → (BinaryOp.ofCompound? op).isSome = true
  bodies : ∀ f ∈ s.functions, BodyLine.ofFunction s f ≠ []

theorem Script.ready_of_parse (h : parse source = .ok s) : s.Ready where
  inputs d hd := by
    obtain ⟨st, -, hmade⟩ := exists_of_forall₂ (declared_of_parse h (.inputs source) rfl fun _ _ => rfl).flip hd
    obtain ⟨-, kind, value, -, hdefault⟩ := InputDecl.ofLine_eq_ok hmade
    exact InputDecl.inputDefault_of_value (InputDecl.value_of_default hdefault)
  compounds d hd op hop := by
    obtain ⟨st, -, scope, hmade⟩ :=
      exists_of_forall₂ (declared_of_parse h (.varDecls source) rfl fun _ _ => rfl).flip hd
    obtain ⟨a, ha, -, ⟨-, hmode⟩, -⟩ := Statement.varDecl_eq_ok hmade
    exact Assignment.ofCompound_of_line ha (hmode ▸ hop)
  bodies _ hf := BodyLine.ofFunction_ne_nil h hf

end ChartScript
