import ChartScript.Proofs.Lowering.Lets
/-!
# The run of a script is well scoped

The items of a lowered script are emitted one after another, each behind the lets of those before
it.
-/
namespace ChartScript

open List

/-! ## The lets of a script -/

def Pattern.names : Pattern → List String
  | single name => [name]
  | tuple names => names

namespace LoweredItem

def names (item : LoweredItem) : List String :=
  (item.binding.map Pattern.names).getD []

def lets (s : Script) (item : LoweredItem) : List Let :=
  match item.key with
  | .assignment i =>
    match s.varDecls[i]? with
    | some d => List.zipWith (⟨·, some ·, d.mode ≠ .declare⟩) item.names d.target.names
    | none => []
  | .function i =>
    match s.functions[i]? with
    | some f => item.names.map (⟨·, some f.name, false⟩)
    | none => []
  | _ => item.names.map (⟨·, none, false⟩)

end LoweredItem

def sourceLets (inputs : List InputField) : List Let :=
  (inputs.filter (·.kind == .source)).map fun f => ⟨f.field, some f.name, false⟩

def letsBefore (s : Script) (inputs : List InputField) (items : List LoweredItem) : List Let :=
  sourceLets inputs ++ items.flatMap (·.lets s)

/-! ## The names an item is made from -/

namespace ItemKey

def span? (s : Script) : ItemKey → Option Span
  | assignment i => s.varDecls[i]?.map (·.value)
  | function _ => none
  | predicate i => s.conditions[i]?.map (·.predicate)
  | orderWhen i => s.orders[i]?.bind (·.when)
  | orderQuantity i => s.orders[i]?.bind (·.quantity)
  | orderStop i => s.orders[i]?.bind (·.stop)
  | orderLimit i => s.orders[i]?.bind (·.limit)
  | plotSeries i => s.plots[i]?.bind (·.series)

def Reads (s : Script) (key : ItemKey) (x : String) : Prop :=
  (∃ span e, key.span? s = some span ∧ Lowering.parse (s.text span) span = .ok e ∧ x ∈ e.references) ∨
  ∃ i d op, key = .assignment i ∧ s.varDecls[i]? = some d ∧ d.mode = .compound op ∧ d.target = .single x

end ItemKey

namespace Lowering

def scopeAfter (s : Script) (done : List Site) : Except LoweringError Scope := do
  let (scope, _) ← s.inputs.foldlM addInput ({}, [])
  let r ← done.foldlM (add s) { scope := scope }
  return r.scope

/-- An item that is lowered in the scope and emitted behind the lets. -/
structure Resolved (s : Script) (scope : Scope) (lets : List Let) (item : LoweredItem) : Prop where
  /-- The bindings of the scope are the lets, in the same order. -/
  named : lets.filterMap Let.pair? = scope.emittedNames
  /-- What a name of the script is emitted as denotes the binding that is looked up for it. -/
  denotes : ∀ x b, scope.lookup? x = some b → b.role.isEmitted = true → Let.Denotes lets b.emitted x
  /-- A name in the code is bound, and it comes from a name that the item looks up. -/
  bound : ∀ n, .name n ∈ item.value.code.mentions → n ∉ ambientNames →
    (∃ le ∈ lets, le.emitted = n) ∧ scope.Gives (item.key.Reads s) n

/-- The run that a script becomes is well scoped. -/
structure WellScoped (s : Script) (l : LoweredScript) : Prop where
  fields : ∀ f ∈ l.inputs, f.field ∉ reservedNames ∧ ∀ item ∈ l.items, f.field ∉ item.names
  /-- The names that an item binds are those of its lets. -/
  names : ∀ item ∈ l.items, (item.lets s).map (·.emitted) = item.names
  reserved : ∀ le ∈ letsBefore s l.inputs l.items, le.emitted ∉ reservedNames
  shadows : (letsBefore s l.inputs l.items).Pairwise Let.Shadows
  /-- Items other than functions are lowered in the scope behind the statements before theirs. -/
  resolved : ∀ before item after, l.items = before ++ item :: after → (∀ i, item.key ≠ .function i) →
    ∃ done site rest scope, sites s = done ++ site :: rest ∧ item.key ∈ site.keys ∧
      scopeAfter s done = .ok scope ∧ Resolved s scope (letsBefore s l.inputs before) item

/-! ## Inputs -/

/-- The inputs that are read so far: only those that are series have lets. -/
structure InputsRead (scope : Scope) (inputs : List InputField) : Prop where
  binds : ({} : Scope).Binds (sourceLets inputs) scope
  roles : ∀ b ∈ scope.bindings, ∀ kind, b.role ≠ .value kind
  fields : ∀ f ∈ inputs, f.field ∈ scope.taken ∧ f.field ∉ reservedNames

theorem addInput_read {r r' : Scope × List InputField} {d : InputDecl}
    (h : addInput r d = .ok r') (hr : InputsRead r.1 r.2) : InputsRead r'.1 r'.2 := by
  obtain ⟨c, _, rfl⟩ := bind_pure_eq_ok.1 h
  have hnew : (r.1.declare d.name (.input d.kind)).1 ∉ reservedNames := fun hn =>
    EmittedName.unique_not_mem _ _ (hr.binds.scoped.grows.taken_subset hn)
  refine ⟨?_, fun b hb kind => ?_, fun f hf => ?_⟩
  · by_cases hkind : d.kind = .source
    · have hrole : (Role.input d.kind).isEmitted = true := by simp [Role.isEmitted, hkind]
      have := hr.binds.declare d.name hrole fun _ hsig => by cases hsig
      simpa [sourceLets, hkind, Scope.declare] using this
    · simpa [sourceLets, hkind, Scope.declare] using hr.binds.setting d.name hkind
  · rcases mem_append.1 hb with hb | hb
    · exact hr.roles b hb kind
    · rw [mem_singleton.1 hb]
      exact Role.noConfusion
  · rcases mem_append.1 hf with hf | hf
    · exact ⟨mem_cons_of_mem _ (hr.fields f hf).1, (hr.fields f hf).2⟩
    · rw [mem_singleton.1 hf]
      exact ⟨mem_cons_self, hnew⟩

theorem inputs_read {inputs : List InputDecl} {r : Scope × List InputField}
    (h : inputs.foldlM addInput ({}, []) = .ok r) : InputsRead r.1 r.2 :=
  foldlM_keeps (p := fun r : Scope × List InputField => InputsRead r.1 r.2)
    (fun _ _ _ => addInput_read) h ⟨.nil, by simp, by simp⟩

/-! ## One item -/

variable {r r' : Progress} {v : Lowered} {s : Script} {scope : Scope}

variable {d : VarDecl} {n base : String} {scope' : Scope} {i : Nat} {pattern : Pattern}
  {key : ItemKey} {span : Span} {allowed : ValueKind → Bool}

theorem name_mem_bindable (h : .name n ∈ v.bindable.code.mentions) : .name n ∈ v.code.mentions :=
  (Lowered.mem_mentions_bindable h).resolve_right (by simp)

theorem name_mem_kept (h : .name n ∈ (kept v).code.mentions) : .name n ∈ v.code.mentions := by
  have hoperand : v.operand.mentions = v.code.mentions := by
    unfold Lowered.operand
    split <;> simp
  simpa [kept, Code.ops, hoperand] using h

/-- An item is added in a scope: it binds the names of its lets, and what its code names comes from
the names that it looks up. -/
structure Placed (s : Script) (scope : Scope) (item : LoweredItem) (scope' : Scope) : Prop where
  names : (item.lets s).map (·.emitted) = item.names
  binds : scope.Binds (item.lets s) scope'
  reads : (∀ i, item.key ≠ .function i) → ∀ n, .name n ∈ item.value.code.mentions →
    n ∈ ambientNames ∨ scope.Gives (item.key.Reads s) n

theorem declareAll_emitted (scope : Scope) (names : List String) :
    (List.zipWith (fun n x => Let.mk n (some x) false) (declareAll scope names).1 names).map (·.emitted) =
    (declareAll scope names).1 := by
  induction names generalizing scope with
  | nil => rfl
  | cons x rest ih => exact congrArg (_ :: ·) (ih _)

theorem declareAll_binds (scope : Scope) (names : List String) :
    scope.Binds (List.zipWith (⟨·, some ·, false⟩) (declareAll scope names).1 names)
      (declareAll scope names).2 := by
  induction names generalizing scope with
  | nil => exact .nil
  | cons x rest ih => exact (Scope.Binds.declare x .nil rfl fun _ hsig => by cases hsig).trans (ih _)

theorem references_of_compound {x y : String} {e e' : Expr} (h : compoundValue d x e = .ok e')
    (hy : y ∈ e'.references) : y ∈ e.references ∨ (y = x ∧ ∃ op, d.mode = .compound op) := by
  unfold compoundValue at h
  split at h
  · next op hmode =>
    split at h
    · cases h
      simp only [Expr.references, Expr.nodes, Expr.ownReferences, flatMap_cons, flatMap_append, flatMap_nil,
        append_nil, nil_append, mem_append, mem_singleton] at hy
      exact hy.elim (fun hy => .inr ⟨hy, op, hmode⟩) .inl
    · cases h
  · cases h
    exact .inl hy

theorem assignment_placed (hd : s.varDecls[i]? = some d)
    (position : Nat) (h : Assigned s scope d pattern v scope') :
    Placed s scope ⟨.assignment i, position, some pattern, v⟩ scope' := by
  have hreads : ∀ e, parse (s.text d.value) d.value = .ok e → ∀ x ∈ e.references,
      (ItemKey.assignment i).Reads s x := fun e he x hx =>
    .inl ⟨d.value, e, by simp [ItemKey.span?, hd], he, hx⟩
  cases h with
  | @declared x e v w hmode htarget he hv hw =>
    refine ⟨?_, ?_, fun _ n hn => ?_⟩
    · simp [LoweredItem.lets, LoweredItem.names, Pattern.names, Target.names, hd, htarget]
    · have := Scope.Binds.declare x (.nil (s := scope)) (show (Role.value w.kind).isEmitted = true from rfl)
        fun _ hsig => by cases hsig
      simpa [LoweredItem.lets, LoweredItem.names, Pattern.names, Target.names, hd, htarget, hmode] using this
    · have hname : .name n ∈ v.code.mentions := by
        have hn := name_mem_bindable hn
        rw [hw] at hn
        split at hn
        · exact name_mem_kept hn
        · exact hn
      exact (names_of_expression hv hname).imp_right (·.imp (hreads e he))
  | @unpacked names e v hmode htarget he hv =>
    refine ⟨?_, ?_, fun _ n hn => ?_⟩
    · simpa [LoweredItem.lets, LoweredItem.names, Pattern.names, Target.names, hd, htarget, hmode]
        using declareAll_emitted scope names
    · simpa [LoweredItem.lets, LoweredItem.names, Pattern.names, Target.names, hd, htarget, hmode]
        using declareAll_binds scope names
    · exact (names_of_expression hv hn).imp_right (·.imp (hreads e he))
  | @reassigned x e e' v b kind hmode htarget he _ hb hrole he' hv =>
    refine ⟨?_, ?_, fun _ n hn => ?_⟩
    · simp [LoweredItem.lets, LoweredItem.names, Pattern.names, Target.names, hd, htarget]
    · have := Scope.Binds.again v.kind .nil hb hrole
      simpa [LoweredItem.lets, LoweredItem.names, Pattern.names, Target.names, hd, htarget, hmode] using this
    · refine (names_of_expression hv (name_mem_bindable hn)).imp_right (·.imp fun y hy => ?_)
      rcases references_of_compound he' hy with hy | ⟨rfl, op, hop⟩
      · exact hreads e he y hy
      · exact .inr ⟨i, d, op, rfl, hd, hop, htarget⟩

theorem function_placed {s : Script} {scope : Scope} {f : FuncDecl}
    (hf : s.functions[i]? = some f) {out : Lowered × Signature} (position : Nat)
    (h : function s scope f = .ok out) :
    Placed s scope ⟨.function i, position, some (.single (scope.declare f.name (.function out.2)).1), out.1⟩
      (scope.declare f.name (.function out.2)).2 where
  names := by simp [LoweredItem.lets, LoweredItem.names, Pattern.names, hf]
  binds := by
    have := Scope.Binds.declare f.name (.nil (s := scope)) (show (Role.function out.2).isEmitted = true from rfl)
      fun sig hsig p hp c hc n hn => names_of_signature h (by cases hsig; exact hp) hc hn
    simpa [LoweredItem.lets, LoweredItem.names, Pattern.names, hf] using this
  reads hkey := absurd rfl (hkey i)

theorem hoisted_lets (hkey : key.isHoisted = true) (position : Nat) :
    LoweredItem.lets s ⟨key, position, some (.single n), v⟩ = [⟨n, none, false⟩] := by
  cases key with
  | assignment | function | plotSeries => cases hkey
  | predicate | orderWhen | orderQuantity | orderStop | orderLimit => rfl

theorem hoisted_placed {what : String}
    (hkey : key.isHoisted = true) (hspan : key.span? s = some span)
    (position : Nat) (h : hoist s scope span base allowed what = .ok (pattern, v, scope')) :
    Placed s scope ⟨key, position, some pattern, v⟩ scope' := by
  obtain ⟨w, hw, hv, rfl, rfl⟩ := hoist_eq_ok h
  obtain ⟨e, he, hw⟩ := bind_eq_ok.1 hw
  refine ⟨?_, ?_, fun _ n hn => ?_⟩
  · rw [hoisted_lets hkey]
    rfl
  · rw [hoisted_lets hkey]
    exact .fresh base .nil
  · have hname : .name n ∈ w.code.mentions := by
      rw [hv] at hn
      split at hn <;> simpa using hn
    exact (names_of_expression hw hname).imp_right (·.imp fun x hx => .inl ⟨span, e, hspan, he, hx⟩)

theorem plot_placed {s : Script} {scope : Scope} {p : PlotCall}
    (hp : s.plots[i]? = some p) (hspan : p.series = some span) {v : Lowered}
    (position : Nat) (h : text ⟨scope, []⟩ none (s.text span) span = .ok v) :
    Placed s scope ⟨.plotSeries i, position, none, v⟩ scope where
  names := rfl
  binds := .nil
  reads _ n hn := by
    obtain ⟨e, he, h⟩ := bind_eq_ok.1 h
    exact (names_of_expression h hn).imp_right (·.imp fun x hx =>
      .inl ⟨span, e, by simp [ItemKey.span?, hp, hspan], he, hx⟩)

/-! ## The items of one statement -/

/-- The items of a statement in a scope. All of them are lowered with the bindings of that scope,
because what comes before them in the statement is only hoisted. -/
structure Laid (s : Script) (scope : Scope) (items : List LoweredItem) (scope' : Scope) :
    Prop where
  names : ∀ item ∈ items, (item.lets s).map (·.emitted) = item.names
  binds : scope.Binds (items.flatMap (·.lets s)) scope'
  behind : ∀ before item after, items = before ++ item :: after →
    ∃ t : Scope, t.bindings = scope.bindings ∧ scope.Binds (before.flatMap (·.lets s)) t
  reads : ∀ item ∈ items, (∀ i, item.key ≠ .function i) → ∀ n,
    .name n ∈ item.value.code.mentions → n ∈ ambientNames ∨ scope.Gives (item.key.Reads s) n

namespace Laid

variable {s : Script} {scope t u : Scope} {items : List LoweredItem} {item : LoweredItem}

theorem nil : Laid s scope [] scope :=
  ⟨by simp, .nil, by simp, by simp⟩

theorem snoc (h : Laid s scope items t) (hsame : t.bindings = scope.bindings)
    (hitem : Placed s t item u) : Laid s scope (items ++ [item]) u where
  names x hx := by
    rcases mem_append.1 hx with hx | hx
    · exact h.names x hx
    · rw [mem_singleton.1 hx]
      exact hitem.names
  binds := by simpa using h.binds.trans hitem.binds
  behind before x after hsplit := by
    rcases append_eq_append_iff.1 hsplit with ⟨as, rfl, hrest⟩ | ⟨bs, rfl, hrest⟩
    · cases as with
      | nil => exact ⟨t, hsame, by simpa using h.binds⟩
      | cons a as => simp at hrest
    · cases bs with
      | nil => exact ⟨t, hsame, by simpa using h.binds⟩
      | cons b bs =>
        obtain ⟨rfl, rfl⟩ := List.cons.inj hrest
        exact h.behind before x bs rfl
  reads x hx hkey n hn := by
    rcases mem_append.1 hx with hx | hx
    · exact h.reads x hx hkey n hn
    · rw [mem_singleton.1 hx] at hkey hn ⊢
      exact (hitem.reads hkey n hn).imp_right (·.congr hsame)

theorem single (hitem : Placed s scope item u) : Laid s scope [item] u :=
  nil.snoc rfl hitem

end Laid

def PartsLaid (s : Script) (start r : Progress) : Prop :=
  ∃ items, r.items = start.items ++ items ∧ Laid s start.scope items r.scope ∧
    r.scope.bindings = start.scope.bindings

theorem addOrderPart_laid {position : Nat}
    {part : Option Span} {start : Progress} (hkey : key.isHoisted = true) (hpart : key.span? s = part)
    (h : addOrderPart s position key base allowed part r = .ok r') (hr : PartsLaid s start r) :
    PartsLaid s start r' := by
  unfold addOrderPart at h
  split at h
  · cases h
    exact hr
  · obtain ⟨⟨pattern, v, scope⟩, hv, h⟩ := bind_eq_ok.1 h
    cases pure_eq_ok.1 h
    obtain ⟨items, hitems, hlaid, hsame⟩ := hr
    obtain ⟨_, _, _, _, rfl⟩ := hoist_eq_ok hv
    exact ⟨_, by simp [Progress.add, hitems], hlaid.snoc hsame (hoisted_placed hkey hpart position hv), hsame⟩

theorem add_laid {site : Site} (hsite : site ∈ sites s) (h : add s r site = .ok r') :
    ∃ items, r'.items = r.items ++ items ∧ Laid s r.scope items r'.scope := by
  cases site with
  | assignment i d =>
    obtain ⟨⟨pattern, v, scope⟩, hv, h⟩ := bind_eq_ok.1 h
    cases pure_eq_ok.1 h
    have hplaced := assignment_placed (assignment_mem_sites.1 hsite) d.span.start (assigned_of_assignment hv)
    exact ⟨_, rfl, .single hplaced⟩
  | function i f =>
    obtain ⟨⟨v, signature⟩, hv, h⟩ := bind_eq_ok.1 h
    cases pure_eq_ok.1 h
    exact ⟨_, rfl, .single (function_placed (function_mem_sites.1 hsite) f.span.start hv)⟩
  | condition i c =>
    obtain ⟨⟨pattern, v, scope⟩, hv, h⟩ := bind_eq_ok.1 h
    cases pure_eq_ok.1 h
    have hspan : (ItemKey.predicate i).span? s = some c.predicate := by
      simp [ItemKey.span?, condition_mem_sites.1 hsite]
    exact ⟨_, rfl, .single (hoisted_placed rfl hspan c.span.start hv)⟩
  | order i o =>
    have ho := order_mem_sites.1 hsite
    obtain ⟨r₁, h₁, h⟩ := bind_eq_ok.1 h
    obtain ⟨r₂, h₂, h⟩ := bind_eq_ok.1 h
    obtain ⟨r₃, h₃, h⟩ := bind_eq_ok.1 h
    obtain ⟨r₄, h₄, h⟩ := bind_eq_ok.1 h
    have hstart : PartsLaid s r r := ⟨[], by simp, .nil, rfl⟩
    have hwhen := addOrderPart_laid rfl (by simp [ItemKey.span?, ho]) h₁ hstart
    have hquantity := addOrderPart_laid rfl (by simp [ItemKey.span?, ho]) h₂ hwhen
    have hstop := addOrderPart_laid rfl (by simp [ItemKey.span?, ho]) h₃ hquantity
    obtain ⟨items, hitems, hlaid, _⟩ := addOrderPart_laid rfl (by simp [ItemKey.span?, ho]) h₄ hstop
    cases pure_eq_ok.1 h
    split
    · exact ⟨items, hitems, hlaid⟩
    · exact ⟨items, hitems, hlaid⟩
  | plot i p =>
    rcases addPlot_eq_ok h with ⟨_, rfl⟩ | ⟨span, v, _, hspan, hv, rfl⟩
    · exact ⟨[], by simp, .nil⟩
    · exact ⟨_, rfl, .single (plot_placed (plot_mem_sites.1 hsite) hspan p.span.start hv)⟩

/-! ## The whole script -/

/-- The items of the statements so far, from the scope behind the inputs on. -/
structure RunLaid (s : Script) (scope : Scope) (done : List Site) (r : Progress) : Prop where
  run : done.foldlM (add s) { scope := scope } = .ok r
  names : ∀ item ∈ r.items, (item.lets s).map (·.emitted) = item.names
  binds : scope.Binds (r.items.flatMap (·.lets s)) r.scope
  resolved : ∀ before item after, r.items = before ++ item :: after →
    ∃ sitesBefore site sitesAfter r₁ t, done = sitesBefore ++ site :: sitesAfter ∧
      item.key ∈ site.keys ∧ sitesBefore.foldlM (add s) { scope := scope } = .ok r₁ ∧
      t.bindings = r₁.scope.bindings ∧ scope.Binds (before.flatMap (·.lets s)) t ∧
      ((∀ i, item.key ≠ .function i) → ∀ n, .name n ∈ item.value.code.mentions →
        n ∈ ambientNames ∨ r₁.scope.Gives (item.key.Reads s) n)

theorem RunLaid.step {done : List Site} {site : Site} (h : RunLaid s scope done r) (hsite : site ∈ sites s)
    (hadd : add s r site = .ok r') : RunLaid s scope (done ++ [site]) r' := by
  obtain ⟨items, hitems, hlaid⟩ := add_laid hsite hadd
  have hkeys : items.map (·.key) = site.keys := by
    have := (add_adds hadd).keys
    rwa [hitems, map_append, append_cancel_left_eq] at this
  have hbinds := h.binds.trans hlaid.binds
  have hnew : ∀ before item after, items = before ++ item :: after →
      ∃ t : Scope, t.bindings = r.scope.bindings ∧ scope.Binds ((r.items ++ before).flatMap (·.lets s)) t := by
    intro before item after hsplit
    obtain ⟨t, hsame, ht⟩ := hlaid.behind before item after hsplit
    exact ⟨t, hsame, by simpa using h.binds.trans ht⟩
  refine ⟨?_, fun item hitem => ?_, by simpa [hitems] using hbinds, fun before item after hsplit => ?_⟩
  · rw [foldlM_append]
    exact bind_eq_ok.2 ⟨r, h.run, bind_eq_ok.2 ⟨r', hadd, rfl⟩⟩
  · rw [hitems] at hitem
    exact (mem_append.1 hitem).elim (h.names item) (hlaid.names item)
  · rw [hitems] at hsplit
    -- the item is one of this statement, or one of those before
    have hcases : (∃ as, before = r.items ++ as ∧ items = as ++ item :: after) ∨
        ∃ bs, r.items = before ++ item :: bs := by
      rcases append_eq_append_iff.1 hsplit with hnew | ⟨bs, hbs, hrest⟩
      · exact .inl hnew
      · cases bs with
        | nil => exact .inl ⟨[], by simpa using hbs.symm, by simpa using hrest.symm⟩
        | cons b bs =>
          obtain ⟨rfl, _⟩ := List.cons.inj hrest
          exact .inr ⟨bs, hbs⟩
    rcases hcases with ⟨as, rfl, hown⟩ | ⟨bs, hearlier⟩
    · obtain ⟨t, hsame, ht⟩ := hnew as item after hown
      have hmem : item ∈ items := by simp [hown]
      exact ⟨done, site, [], r, t, rfl, hkeys ▸ mem_map_of_mem hmem, h.run, hsame, ht, hlaid.reads item hmem⟩
    · obtain ⟨sb, site', sa, r₁, t, hdone, hrest⟩ := h.resolved before item bs hearlier
      exact ⟨sb, site', sa ++ [site], r₁, t, by simp [hdone], hrest⟩

theorem RunLaid.run_on {done rest : List Site} (h : RunLaid s scope done r) (hrest : ∀ site ∈ rest, site ∈ sites s)
    (hrun : rest.foldlM (add s) r = .ok r') : RunLaid s scope (done ++ rest) r' := by
  induction rest generalizing done r with
  | nil =>
    cases hrun
    simpa using h
  | cons site rest ih =>
    obtain ⟨r₁, h₁, hrun⟩ := bind_eq_ok.1 hrun
    have := ih (h.step (hrest site mem_cons_self) h₁) (fun x hx => hrest x (mem_cons_of_mem _ hx)) hrun
    simpa using this

/-- The run of a script that is lowered is well scoped: its names are kept apart, and each item
behind the lets before it means what the script means. -/
theorem run_wellScoped {s : Script} {l : LoweredScript} (h : script s = .ok l) : WellScoped s l := by
  obtain ⟨⟨scope, inputs⟩, hinputs, h⟩ := bind_eq_ok.1 h
  obtain ⟨r, hr, rfl⟩ := bind_pure_eq_ok.1 h
  have hread := inputs_read hinputs
  have hstart : RunLaid s scope [] { scope := scope } := ⟨rfl, by simp, .nil, by simp⟩
  have hrun : RunLaid s scope (sites s) r := hstart.run_on (fun _ hsite => hsite) hr
  have hbinds : ({} : Scope).Binds (letsBefore s inputs r.items) r.scope := hread.binds.trans hrun.binds
  obtain ⟨_, hnew, _⟩ := hrun.binds.not_taken hread.roles
  obtain ⟨_, hreserved, _⟩ := hbinds.not_taken (by simp)
  refine ⟨fun f hf => ⟨(hread.fields f hf).2, fun item hitem hname => ?_⟩, hrun.names, hreserved,
    hbinds.scoped.shadows, fun before item after hsplit hkey => ?_⟩
  · rw [← hrun.names item hitem] at hname
    obtain ⟨le, hle, heq⟩ := mem_map.1 hname
    exact hnew le (mem_flatMap.2 ⟨item, hitem, hle⟩) (heq ▸ (hread.fields f hf).1)
  · obtain ⟨sb, site, sa, r₁, t, hsites, hmem, hr₁, hsame, ht, hreads⟩ := hrun.resolved before item after hsplit
    have hscoped : Scope.Scoped (letsBefore s inputs before) t := (hread.binds.trans ht).scoped
    refine ⟨sb, site, sa, r₁.scope, hsites, hmem, ?_, ?_, fun x b hb hrole => ?_, fun n hn hn' => ?_⟩
    · exact bind_eq_ok.2 ⟨_, hinputs, bind_eq_ok.2 ⟨r₁, hr₁, rfl⟩⟩
    · rw [hscoped.named, Scope.emittedNames, Scope.emittedNames, hsame]
    · rw [← Scope.lookup?_congr hsame] at hb
      exact hscoped.denotes hb hrole
    · have hgives := (hreads hkey n hn).resolve_left hn'
      exact ⟨(hscoped.bound_of_gives (hgives.congr hsame.symm)).resolve_left hn', hgives⟩

def spreadSource : List Char :=
  ("//@version=5\nstrategy(\"S\")\n" ++
   "src = input.source(close, \"Price\")\n" ++
   "x = src\n" ++
   "[m, sig, hist] = ta.macd(src)\n" ++
   "x := x + m\n" ++
   "f(a, b = sig) => a - b\n" ++
   "if f(x) > x\n" ++
   "    strategy.entry(\"L\", strategy.long, when = x > hist)\n" ++
   "plot(f(x))\n").toList

theorem run_wellScoped_spread : ∃ s l, Script.parse spreadSource = .ok s ∧ script s = .ok l ∧
      l.items.map (·.names) = [["x"], ["m", "sig", "hist"], ["x"], ["f"], ["cond_0"], ["when_0"], []] ∧
      WellScoped s l := by
  have hrun : ∃ s, Script.parse spreadSource = .ok s ∧ ∃ l, script s = .ok l ∧ l.items.map (·.names) =
      [["x"], ["m", "sig", "hist"], ["x"], ["f"], ["cond_0"], ["when_0"], []] := by
    decide +kernel
  obtain ⟨s, hs, l, hl, hnames⟩ := hrun
  exact ⟨s, l, hs, hl, hnames, run_wellScoped hl⟩

end Lowering

end ChartScript
