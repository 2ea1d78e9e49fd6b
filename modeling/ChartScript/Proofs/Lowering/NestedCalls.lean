import ChartScript.Proofs.Conversion.Accepted
import ChartScript.Proofs.Lowering.Calls
import ChartScript.Proofs.Lowering.Neighbours
/-!
# Functions that call functions

A script in which a function calls a function of the script is refused.
-/
namespace ChartScript

open List

/-! ## Names of functions -/

variable {source : List Char} {s : Script} {f : FuncDecl}

namespace Statement

theorem function_name {s : Statement} {x : FuncDecl} (h : s.function source = .ok x) :
    x.name = (s.line.head?.map (·.text)).getD "" := by
  unfold function at h
  dsimp only at h
  split at h
  · obtain ⟨params, -, h⟩ := bind_eq_ok.1 h
    split at h
    · cases h
      rfl
    · cases h
      rfl
    · cases h
    · cases h
  · cases h

theorem head_of_function {line : List Token} (h : StatementForm.ofLine source line = .function) :
    ∃ t rest, line = t :: rest ∧ t.kind = .identifier := by
  have hfunction : StatementForm.isFunction line = true := by
    replace h := else_of_ite (else_of_ite h (by decide)) (by decide)
    by_contra hnot
    rw [if_neg hnot] at h
    -- none of the forms that are left is that of a function
    repeat replace h := else_of_ite h (by decide)
    cases h
  rw [StatementForm.isFunction, Bool.and_eq_true, Bool.and_eq_true] at hfunction
  cases line with
  | nil => cases hfunction.1.1
  | cons t rest => exact ⟨t, rest, rfl, eq_of_beq hfunction.1.1⟩

end Statement

namespace Script

theorem wordKind_of_function (h : parse source = .ok s) (hf : f ∈ s.functions) :
    Lexer.wordKind f.name = .identifier := by
  obtain ⟨st, hst, hform, callees, hmade⟩ := exists_function h hf
  obtain ⟨t, rest, hline, hkind⟩ := Statement.head_of_function hform
  have hname : f.name = t.text := (Statement.function_name hmade).trans (by rw [hline]; rfl)
  have htoken : t ∈ tokenize source := by
    obtain ⟨_, _, before, after, hall, _⟩ := Statement.line_of_mem_items (line_mem_items hst)
    have hword : t ∈ tokens source := by simp [hall, hline]
    exact (mem_filter.1 hword).1
  rw [hname, ← Lexer.kind_of_isWord htoken (by simp [Token.isWord, hkind]), hkind]

/-! ## What is refused -/

theorem mem_calledNames {ts : List Token} {t u : Token} (h : [t, u] <:+: ts)
    (ht : t.kind = .identifier) (hu : u.isDelimiter .openParen = true) : t ∈ calledNames ts := by
  obtain ⟨rest, hsuffix⟩ := exists_suffix_of_pair h
  exact mem_gather.2 ⟨t, u :: rest, hsuffix, if_pos ⟨ht, hu⟩⟩

theorem not_open_of_callees {g : FuncDecl} (h : parse source = .ok s) (hf : f ∈ s.functions)
    (hcallees : f.callees = []) (hg : g ∈ s.functions) {t u : Token}
    (hpair : [t, u] <:+: tokens source) (hheld : f.body.holds t = true) (ht : t.kind = .identifier)
    (hname : t.text = g.name) : u.isDelimiter .openParen = false := by
  obtain ⟨-, -, r, -, hdecl⟩ := walk_of_parse h
  have hfunctions : s.functions = withCallees (calledNames (tokens source)) r.declared.functions := by rw [hdecl]
  rw [hfunctions, withCallees] at hf hg
  obtain ⟨x, hx, rfl⟩ := mem_map.1 hf
  obtain ⟨y, hy, rfl⟩ := mem_map.1 hg
  by_contra hopen
  have hcalled := mem_calledNames hpair ht (by simpa using hopen)
  have hmem : t.text ∈ calleesIn x.body (r.declared.functions.map (·.name)) (calledNames (tokens source)) := by
    refine mem_eraseDups.2 (mem_filter.2 ⟨mem_map_of_mem (mem_filter.2 ⟨hcalled, hheld⟩), ?_⟩)
    rw [contains_iff_mem, hname]
    exact mem_map_of_mem (f := (·.name)) hy
  rw [show calleesIn x.body (r.declared.functions.map (·.name)) (calledNames (tokens source)) = [] from hcallees] at hmem
  cases hmem

end Script

/-! ## Lowered functions -/

namespace Lowering

def FunctionsOf (s : Script) (scope : Scope) : Prop :=
  ∀ b ∈ scope.bindings, ∀ sig, b.role = .function sig → ∃ g ∈ s.functions, g.name = b.name

variable {scope : Scope} {v : Lowered}

theorem FunctionsOf.concat {t : Scope} (h : FunctionsOf s scope) {b : Binding}
    (ht : t.bindings = scope.bindings ++ [b])
    (hb : ∀ sig, b.role = .function sig → ∃ g ∈ s.functions, g.name = b.name) : FunctionsOf s t := by
  intro b' hb' sig hrole
  rw [ht] at hb'
  rcases mem_append.1 hb' with hb' | hb'
  · exact h b' hb' sig hrole
  · rw [mem_singleton.1 hb'] at hrole ⊢
    exact hb sig hrole

theorem declareAll_functionsOf (h : FunctionsOf s scope) (names : List String) :
    FunctionsOf s (declareAll scope names).2 := by
  induction names generalizing scope with
  | nil => exact h
  | cons x rest ih => exact ih (h.concat rfl nofun)

theorem assigned_functionsOf {scope' : Scope} {d : VarDecl} {pattern : Pattern} (h : FunctionsOf s scope)
    (ha : Assigned s scope d pattern v scope') : FunctionsOf s scope' := by
  cases ha with
  | declared => exact h.concat rfl nofun
  | unpacked => exact declareAll_functionsOf h _
  | reassigned => exact h.concat rfl nofun

def SpellsCall (s : Script) (f : FuncDecl) : Prop :=
  ∃ line ∈ BodyLine.ofFunction s f, ∃ e, Expr.parse line.text line.span = .ok e ∧
    ∃ g ∈ s.functions, g.name ∈ e.called

/-- Closures that call a local name come from functions that call one of the script. -/
structure CallsTraced (s : Script) (r : Progress) : Prop where
  scope : FunctionsOf s r.scope
  items : ∀ item ∈ r.items, ∀ i, item.key = .function i → item.value.code.callees ≠ [] →
    ∃ f, s.functions[i]? = some f ∧ SpellsCall s f

namespace CallsTraced

variable {s : Script} {r r' : Progress} {key : ItemKey}

theorem add (h : CallsTraced s r) (hscope : FunctionsOf s scope)
    (hitem : ∀ i, key = .function i → v.code.callees ≠ [] → ∃ f, s.functions[i]? = some f ∧ SpellsCall s f)
    (position : Nat) (binding : Option Pattern) : CallsTraced s (r.add key position binding v scope) := by
  refine ⟨hscope, fun item hmem => ?_⟩
  rcases mem_append.1 hmem with hmem | hmem
  · exact h.items item hmem
  · rw [mem_singleton.1 hmem]
    exact hitem

theorem hoist (h : CallsTraced s r) (hkey : key.isHoisted = true) {span : Span} {base what : String}
    {allowed : ValueKind → Bool} {pattern : Pattern}
    (hv : Lowering.hoist s r.scope span base allowed what = .ok (pattern, v, scope))
    (position : Nat) : CallsTraced s (r.add key position (some pattern) v scope) := by
  obtain ⟨_, _, _, -, rfl⟩ := hoist_eq_ok hv
  have hscope : FunctionsOf s (r.scope.fresh base).2 := h.scope
  refine h.add hscope (fun i hi => ?_) position _
  rw [hi] at hkey
  cases hkey

theorem function (h : CallsTraced s r) {i : Nat} (hf : s.functions[i]? = some f) {out : Lowered × Signature}
    (hout : Lowering.function s r.scope f = .ok out) :
    CallsTraced s (r.add (.function i) f.span.start (some (.single (r.scope.declare f.name (.function out.2)).1))
    out.1 (r.scope.declare f.name (.function out.2)).2) := by
  refine h.add (h.scope.concat rfl fun _ _ => ⟨f, mem_of_getElem? hf, rfl⟩) ?_ _ _
  intro j hj hcallees
  cases hj
  obtain ⟨line, hline, e, he, x, hx, b, sig, hb, hrole⟩ := function_callees hout hcallees
  obtain ⟨hmem, rfl⟩ := Scope.lookup?_mem hb
  obtain ⟨g, hg, hname⟩ := h.scope b hmem sig hrole
  exact ⟨f, hf, line, hline, e, parse_eq_ok he, g, hg, hname ▸ hx⟩

theorem step (hstep : Step s r r') (h : CallsTraced s r) : CallsTraced s r' := by
  cases hstep with
  | assignment _ hv =>
    exact h.add (assigned_functionsOf h.scope (assigned_of_assignment hv)) (fun _ hkey => by cases hkey) _ _
  | function hf hout => exact h.function hf hout
  | hoisted hkey _ hv => exact h.hoist hkey hv _
  | plotted => exact h.add h.scope (fun _ hkey => by cases hkey) _ _
  | directed => exact ⟨h.scope, h.items⟩

end CallsTraced

theorem inputs_functionsOf {inputs : List InputDecl} {r : Scope × List InputField}
    (h : inputs.foldlM addInput ({}, []) = .ok r) : FunctionsOf s r.1 := by
  refine foldlM_keeps (p := fun r : Scope × List InputField => FunctionsOf s r.1)
    (fun r d r' hstep hr => ?_) h (fun b hb => by cases hb)
  obtain ⟨_, _, rfl⟩ := bind_pure_eq_ok.1 hstep
  exact hr.concat rfl nofun

theorem script_callsTraced {l : LoweredScript} (h : script s = .ok l) :
    ∀ item ∈ l.items, ∀ i, item.key = .function i → item.value.code.callees ≠ [] →
    ∃ f, s.functions[i]? = some f ∧ SpellsCall s f := by
  obtain ⟨r, hr, hitems, -⟩ := script_keeps CallsTraced.step h fun scope hinputs =>
    ⟨inputs_functionsOf hinputs, by simp⟩
  exact hitems ▸ hr.items

end Lowering

/-! ## Hidden calls -/

/-- A function is named in the body, with a closing bracket or the end of its row behind it. -/
def Script.HidesCall (s : Script) (f : FuncDecl) : Prop :=
  ∃ g ∈ s.functions, ∃ t v, [t, v] <:+: Script.tokens s.source ∧ f.body.holds t = true ∧
    t.kind = .identifier ∧ t.text = g.name ∧
    (v.isDelimiter .closeParen = true ∨ Statement.isLayout v = true)

theorem Script.hidesCall_of_spellsCall (h : parse source = .ok s) (hf : f ∈ s.functions)
    (hcallees : f.callees = []) (hcall : Lowering.SpellsCall s f) : s.HidesCall f := by
  obtain ⟨line, hline, e, he, g, hg, hcalled⟩ := hcall
  have hword := wordKind_of_function h hg
  obtain ⟨t, u, hpair, hname, hmark⟩ := Expr.spelled_of_parse he (Expr.call_mem_spellings hcalled)
  -- the name is an identifier in the text of the line
  have hmem : t ∈ tokenize line.text := (mem_filter.1 (hpair.subset (by simp))).1
  obtain ⟨htword, htext⟩ : t.isWord = true ∧ t.text = g.name := by
    rcases hname with hname | hna
    · exact hname
    · rw [hna] at hword
      cases hword
  have hkind : t.kind = .identifier := by rw [Lexer.kind_of_isWord hmem htword, htext, hword]
  -- so it is in the source
  obtain ⟨t', u', hsource, hheld, htkind, httext, hukind, -⟩ := BodyLine.pieceOf_source h hf hline hpair
  rw [← filter_tokens] at hsource
  obtain ⟨v, hnext, hv⟩ := next_of_filter hsource
  have hname' : t'.text = g.name := httext.trans htext
  have hopen := not_open_of_callees h hf hcallees hg hnext hheld (htkind.trans hkind) hname'
  refine ⟨g, hg, t', v, ?_, hheld, htkind.trans hkind, hname', ?_⟩
  · rwa [(walk_of_parse h).1]
  · rcases hv with rfl | hv
    · rw [Token.isDelimiter, hukind] at hopen
      left
      rw [Token.isDelimiter, hukind]
      exact hmark.resolve_left (by rw [Token.isDelimiter, hopen]; simp)
    · exact .inr (by simpa using hv)

/-- Whatever the syntax check, in a script that is converted no name of a function is followed by an
opening bracket inside the body of a function. A function is lowered to a closure that calls a local
name only if its body hides a call. -/
theorem nested_calls_hidden (check : SyntaxCheck) {settings : ConversionSettings} {source : List Char}
    {c : Conversion} (h : convert settings source check = .ok (.ok c)) :
    ∃ s l m, Accepted check settings source s l m ∧ c = s.conversion settings m ∧
      (∀ f ∈ s.functions, ∀ g ∈ s.functions, ∀ t u, [t, u] <:+: Script.tokens source →
        f.body.holds t = true → t.kind = .identifier → t.text = g.name →
        u.isDelimiter .openParen = false) ∧
      ∀ i f, s.functions[i]? = some f → (∃ item ∈ l.items, item.key = .function i) ∧
        ∀ item ∈ l.items, item.key = .function i → item.value.code.callees = [] ∨ s.HidesCall f := by
  obtain ⟨s, l, m, haccepted, rfl⟩ := convert_eq_ok.1 h
  have hadmitted := haccepted.not_refused
  refine ⟨s, l, m, haccepted, rfl, fun f hf g hg t u hpair hheld ht hname =>
    Script.not_open_of_callees haccepted.parsed hf (hadmitted.callees f hf) hg hpair hheld ht hname,
    fun i f hf => ⟨?_, fun item hitem hkey => ?_⟩⟩
  · have hkey : .function i ∈ l.items.map (·.key) := by
      rw [(Lowering.script_items haccepted.lowered).1]
      exact mem_flatMap.2 ⟨_, Lowering.function_mem_sites.2 hf, mem_singleton_self _⟩
    obtain ⟨item, hitem, hkey⟩ := mem_map.1 hkey
    exact ⟨item, hitem, hkey⟩
  · by_contra hnot
    obtain ⟨hcallees, hhides⟩ := not_or.1 hnot
    obtain ⟨f', hf', hspells⟩ := Lowering.script_callsTraced haccepted.lowered item hitem i hkey hcallees
    cases hf.symm.trans hf'
    have hmem := mem_of_getElem? hf
    exact hhides (Script.hidesCall_of_spellsCall haccepted.parsed hmem (hadmitted.callees f hmem) hspells)

def splitCallSource : List Char :=
  ("//@version=5\nindicator(\"F\")\n" ++
   "g(x) => x + close\n" ++
   "f(x) =>\n" ++
   "\n" ++
   "  g\n" ++
   "  (x)\n" ++
   "plot(f(open))\n").toList

theorem nested_calls_hidden_by_row : ∃ c, convert {} splitCallSource = .ok (.ok c) ∧
    ∃ s l m, Accepted Module.isWellFormed {} splitCallSource s l m ∧ c = s.conversion {} m ∧
      ∃ f item, s.functions[1]? = some f ∧ item ∈ l.items ∧ item.key = .function 1 ∧
        item.value.code.callees = ["g"] ∧ s.HidesCall f := by
  obtain ⟨s, l, m, haccepted, hc, hf, item, hitem, hkey, hcallees⟩ := exists_accepted {} splitCallSource
    (fun s l => s.functions[1]?.isSome = true ∧
      ∃ item ∈ l.items, item.key = .function 1 ∧ item.value.code.callees = ["g"]) (by decide +kernel)
  obtain ⟨f, hf⟩ := Option.isSome_iff_exists.1 hf
  obtain ⟨s', l', m', haccepted', heq, -, hcalls⟩ := nested_calls_hidden _ hc
  cases haccepted.parsed.symm.trans haccepted'.parsed
  cases haccepted.lowered.symm.trans haccepted'.lowered
  have hhides := ((hcalls 1 f hf).2 item hitem hkey).resolve_left (by rw [hcallees]; simp)
  exact ⟨_, hc, s, l, m', haccepted', heq, f, item, hf, hitem, hkey, hcallees, hhides⟩

def bracketedCallSource : List Char :=
  ("//@version=5\nindicator(\"F\")\n" ++
   "g(x) => x + close\n" ++
   "f(x) => (g)(x)\n" ++
   "plot(f(open))\n").toList

/-- The script is converted, and the closure of `f` calls the one of `g`. -/
theorem bracketed_call_converted : ∃ s l m, Accepted Module.isWellFormed {} bracketedCallSource s l m ∧
    convert {} bracketedCallSource = .ok (.ok (s.conversion {} m)) ∧
    s.functions.map (·.name) = ["g", "f"] ∧ s.functions.map (·.callees) = [[], []] ∧
    ∃ item ∈ l.items, item.key = .function 1 ∧ item.value.code.callees = ["g"] := by
  exact exists_accepted {} bracketedCallSource (fun s l => s.functions.map (·.name) = ["g", "f"] ∧
    s.functions.map (·.callees) = [[], []] ∧ ∃ item ∈ l.items, item.key = .function 1 ∧
      item.value.code.callees = ["g"]) (by decide +kernel)

end ChartScript
