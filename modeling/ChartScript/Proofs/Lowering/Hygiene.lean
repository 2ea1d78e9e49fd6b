import ChartScript.Proofs.Lowering.Items
import ChartScript.Script.Parser
/-!
# Names within functions

Inside the closure that a function becomes, a name of the script and a name of the function can get
the same emitted name, because the names of a function are only kept apart from each other.
-/
namespace ChartScript

open List Lowering BodyLine Context

/-! ## Names kept apart -/

/-- Names with the emitted names they have. No emitted name belongs to two names, and all of them are
taken. -/
structure KeptApart (names : List (String × String)) (taken : List String) : Prop where
  taken : ∀ p ∈ names, p.2 ∈ taken
  inj : ∀ p ∈ names, ∀ q ∈ names, p.2 = q.2 → p.1 = q.1

variable {e x : String}

namespace KeptApart

variable {names : List (String × String)} {taken : List String}

theorem nil (taken : List String) : KeptApart [] taken := by
  constructor <;> simp

theorem declare (h : KeptApart names taken) (he : e ∉ taken) : KeptApart (names ++ [(x, e)]) (e :: taken) := by
  refine ⟨fun p hp => ?_, fun p hp q hq heq => ?_⟩
  · rcases mem_append.1 hp with hp | hp
    · exact mem_cons_of_mem _ (h.taken p hp)
    · rw [mem_singleton.1 hp]
      exact mem_cons_self
  · rcases mem_append.1 hp with hp | hp <;> rcases mem_append.1 hq with hq | hq
    · exact h.inj p hp q hq heq
    · rw [mem_singleton.1 hq] at heq
      exact absurd ((show p.2 = e from heq) ▸ h.taken p hp) he
    · rw [mem_singleton.1 hp] at heq
      exact absurd ((show e = q.2 from heq) ▸ h.taken q hq) he
    · rw [mem_singleton.1 hp, mem_singleton.1 hq]

theorem redeclare (h : KeptApart names taken) (hmem : (x, e) ∈ names) : KeptApart (names ++ [(x, e)]) taken := by
  have hsub : ∀ p ∈ names ++ [(x, e)], p ∈ names := by
    intro p hp
    rcases mem_append.1 hp with hp | hp
    · exact hp
    · rw [mem_singleton.1 hp]
      exact hmem
  exact ⟨fun p hp => h.taken p (hsub p hp), fun p hp q hq => h.inj p (hsub p hp) q (hsub q hq)⟩

theorem fresh (h : KeptApart names taken) (e : String) : KeptApart names (e :: taken) :=
  ⟨fun p hp => mem_cons_of_mem _ (h.taken p hp), h.inj⟩

end KeptApart

namespace Scope

def names (s : Scope) : List (String × String) :=
  s.bindings.map fun b => (b.name, b.emitted)

theorem lookup?_mem {s : Scope} {b : Binding} (h : s.lookup? x = some b) : b ∈ s.bindings ∧ b.name = x := by
  have hmem := mem_of_find?_eq_some h
  exact ⟨mem_reverse.1 hmem, by simpa using find?_some h⟩

theorem Grows.keptApart {s : Scope} (h : ({} : Scope).Grows s) : KeptApart s.names s.taken := by
  induction h with
  | refl => exact .nil _
  | declare name role _ ih =>
    have := ih.declare (x := name) (EmittedName.unique_not_mem _ (EmittedName.ofName name))
    simpa [names, Scope.declare] using this
  | redeclare _ hr ih =>
    obtain ⟨b, hb, _, rfl⟩ := redeclare?_eq_some hr
    obtain ⟨hmem, hname⟩ := lookup?_mem hb
    have := ih.redeclare (mem_map.2 ⟨b, hmem, rfl⟩)
    simpa [names, hname] using this
  | fresh base _ ih => exact ih.fresh _

end Scope

namespace Lowering

/-! ## Names of a function -/

def Locals.pairs (l : Locals) : List (String × String) :=
  l.names.map fun n => (n.name, n.emitted)

theorem Locals.declare_keptApart {l : Locals} (h : KeptApart l.pairs l.taken) (x : String)
    (kind : ValueKind) : KeptApart (l.declare x kind).2.pairs (l.declare x kind).2.taken := by
  have := h.declare (x := x) (EmittedName.unique_not_mem _ (EmittedName.ofName x))
  simpa [Locals.pairs, Locals.declare] using this

theorem Locals.redeclare_keptApart {l l' : Locals} (h : KeptApart l.pairs l.taken)
    {kind : ValueKind} (hr : l.redeclare? x kind = some (e, l')) : KeptApart l'.pairs l'.taken := by
  obtain ⟨old, hold, heq⟩ := Option.map_eq_some_iff.1 hr
  cases heq
  have hmem := mem_reverse.1 (mem_of_find?_eq_some hold)
  have hname : old.name = x := by simpa using find?_some hold
  have := h.redeclare (mem_map.2 ⟨old, hmem, rfl⟩)
  simpa [Locals.pairs, hname] using this

variable {s : Script} {scope : Scope} {r r' : FunctionProgress} {line : BodyLine} {f : FuncDecl}

theorem addParameter_keptApart {body : List Expr} {p : FuncParam} (h : addParameter s scope body r p = .ok r')
    (hr : KeptApart r.locals.pairs r.locals.taken) : KeptApart r'.locals.pairs r'.locals.taken := by
  obtain ⟨_, _, h⟩ := bind_eq_ok.1 h
  rw [← pure_eq_ok.1 h]
  exact Locals.declare_keptApart hr _ _

theorem addAssignment_eq_ok {e : Expr} (h : addAssignment scope r line e = .ok r') :
    (line.target = none ∧ r' = r) ∨ ∃ x emitted v, expression ⟨scope, r.locals.names⟩ none e = .ok v ∧
    (r.locals.redeclare? x v.kind = some (emitted, r'.locals) ∨ r.locals.declare x v.kind = (emitted, r'.locals)) ∧
    r'.params = r.params ∧ r'.lets = r.lets ++ [(emitted, v.bindable.code)] ∧ r'.needs = r.needs ++ v.needs := by
  unfold addAssignment at h
  cases htarget : line.target with
  | none =>
    rw [htarget] at h
    cases h
    exact .inl ⟨rfl, rfl⟩
  | some t =>
    rw [htarget] at h
    obtain ⟨v, hv, h⟩ := bind_eq_ok.1 h
    by_cases hk : v.kind.isOperand = true
    · rw [if_pos hk] at h
      refine .inr ⟨t.1, ?_⟩
      by_cases hre : t.2 = true
      · rw [if_pos hre] at h
        cases hknown : r.locals.redeclare? t.1 v.kind with
        | none =>
          rw [hknown] at h
          cases h
        | some known =>
          rw [hknown] at h
          cases h
          exact ⟨known.1, v, hv, .inl hknown, rfl, rfl, rfl⟩
      · rw [if_neg hre] at h
        cases h
        exact ⟨_, v, hv, .inr rfl, rfl, rfl, rfl⟩
    · rw [if_neg hk] at h
      cases h

theorem addAssignment_keptApart {e : Expr} (h : addAssignment scope r line e = .ok r')
    (hr : KeptApart r.locals.pairs r.locals.taken) : KeptApart r'.locals.pairs r'.locals.taken := by
  rcases addAssignment_eq_ok h with ⟨_, rfl⟩ | ⟨x, emitted, v, _, hagain | hnew, _⟩
  · exact hr
  · exact Locals.redeclare_keptApart hr hagain
  · have := Locals.declare_keptApart hr x v.kind
    rwa [hnew] at this

/-! ## Lines of a function -/

theorem function_eq_ok {out : Lowered × Signature} (h : function s scope f = .ok out) : ∃ exprs r₀ r e v,
      (ofFunction s f).mapM (fun line => parse line.text line.span) = .ok exprs ∧
      f.params.foldlM (addParameter s scope exprs) {} = .ok r₀ ∧
      (∀ line ∈ (ofFunction s f).dropLast, line.target.isSome) ∧
      ((ofFunction s f).dropLast.zip exprs).foldlM
        (fun r (line, e) => addAssignment scope r line e) r₀ = .ok r ∧
      exprs.getLast? = some e ∧ expression ⟨scope, r.locals.names⟩ none e = .ok v ∧
      out.1.code = .closure (r.params.map fun p => (p.emitted, p.kind)) v.kind r.lets v.bindable.code ∧
      out.1.needs = r.needs ++ v.needs ++
        (if v.kind = .series ∨ r.params.any (·.kind == .series) then [.seriesType] else []) ∧
      out.2 = ⟨r.params, v.kind⟩ := by
  obtain ⟨exprs, hexprs, h⟩ := bind_eq_ok.1 h
  cases hlast : (ofFunction s f).getLast? with
  | none =>
    rw [hlast] at h
    cases h
  | some last =>
    rw [hlast] at h
    dsimp only at h
    by_cases ht : last.target.isSome = true
    · rw [if_pos ht] at h
      cases h
    rw [if_neg ht] at h
    cases hstray : (ofFunction s f).dropLast.find? (·.target.isNone) with
    | some stray =>
      rw [hstray] at h
      cases h
    | none =>
      rw [hstray] at h
      obtain ⟨r₀, hr₀, h⟩ := bind_eq_ok.1 h
      obtain ⟨r, hr, h⟩ := bind_eq_ok.1 h
      cases hresult : exprs.getLast? with
      | none =>
        rw [hresult] at h
        cases h
      | some e =>
        rw [hresult] at h
        obtain ⟨v, hv, h⟩ := bind_eq_ok.1 h
        have htargets : ∀ line ∈ (ofFunction s f).dropLast, line.target.isSome := by
          intro line hline
          simpa [Option.isSome_iff_ne_none] using find?_eq_none.1 hstray line hline
        by_cases hk : v.kind.isOperand = true
        · rw [if_pos hk] at h
          cases pure_eq_ok.1 h
          exact ⟨exprs, r₀, r, e, v, hexprs, hr₀, htargets, hr, hresult, hv, rfl, by simp, rfl⟩
        · rw [if_neg hk] at h
          obtain ⟨_, hfail, _⟩ := bind_eq_ok.1 h
          cases hfail

/-- The names of a function in sight on line `k` of its body. -/
def localsAt (s : Script) (scope : Scope) (f : FuncDecl) (k : Nat) :
    Except LoweringError (List LocalName) := do
  let lines := ofFunction s f
  let exprs ← lines.mapM fun line => parse line.text line.span
  let r ← f.params.foldlM (addParameter s scope exprs) {}
  let r ← ((lines.dropLast.zip exprs).take k).foldlM (fun r (line, e) => addAssignment scope r line e) r
  return r.locals.names

theorem localsAt_keptApart {k : Nat} {locals : List LocalName} (h : localsAt s scope f k = .ok locals) :
    ∃ taken, KeptApart (locals.map fun n => (n.name, n.emitted)) taken := by
  obtain ⟨exprs, _, h⟩ := bind_eq_ok.1 h
  obtain ⟨r₀, hr₀, h⟩ := bind_eq_ok.1 h
  obtain ⟨r, hr, h⟩ := bind_eq_ok.1 h
  have hparams : KeptApart r₀.locals.pairs r₀.locals.taken :=
    foldlM_keeps (p := fun r => KeptApart r.locals.pairs r.locals.taken)
      (fun _ _ _ hstep => addParameter_keptApart hstep) hr₀ (.nil _)
  have hlines : KeptApart r.locals.pairs r.locals.taken :=
    foldlM_keeps (p := fun r => KeptApart r.locals.pairs r.locals.taken)
      (fun _ _ _ hstep => addAssignment_keptApart hstep) hr hparams
  rw [← pure_eq_ok.1 h]
  exact ⟨_, hlines⟩

theorem line_lowered {out : Lowered × Signature} (h : function s scope f = .ok out) {k : Nat}
    (hline : (ofFunction s f)[k]? = some line) :
    ∃ locals e v, localsAt s scope f k = .ok locals ∧ parse line.text line.span = .ok e ∧
    expression ⟨scope, locals⟩ none e = .ok v := by
  obtain ⟨exprs, r₀, r, last, v, hexprs, hr₀, htargets, hr, hlast, hv, _⟩ := function_eq_ok h
  obtain ⟨hk, rfl⟩ := List.getElem?_eq_some_iff.1 hline
  have hparsed := forall₂_of_mapM hexprs
  have hlength := hparsed.length_eq
  have he := hparsed.get hk (hlength ▸ hk)
  obtain ⟨c, hc, hrest⟩ := foldlM_take hr k
  have hlocals : localsAt s scope f k = .ok c.locals.names :=
    bind_eq_ok.2 ⟨exprs, hexprs, bind_eq_ok.2 ⟨r₀, hr₀, bind_eq_ok.2 ⟨c, hc, rfl⟩⟩⟩
  -- all lines but the last are lowered by the fold, the last one after it
  by_cases hinner : k < (ofFunction s f).length - 1
  · have hmem : k < ((ofFunction s f).dropLast.zip exprs).length := by
      rw [length_zip, length_dropLast]
      omega
    rw [drop_eq_getElem_cons hmem, foldlM_cons] at hrest
    obtain ⟨c', hstep, _⟩ := bind_eq_ok.1 hrest
    rw [getElem_zip] at hstep
    rcases addAssignment_eq_ok hstep with ⟨hnone, _⟩ | ⟨_, _, w, hw, _⟩
    · have := htargets _ (getElem_mem (by rw [length_dropLast]; omega))
      rw [hnone] at this
      cases this
    · exact ⟨_, _, w, hlocals, he, hw⟩
  · have hdrop : ((ofFunction s f).dropLast.zip exprs).drop k = [] := by
      refine drop_eq_nil_of_le ?_
      rw [length_zip, length_dropLast]
      omega
    rw [hdrop] at hrest
    cases hrest
    have hk' : k = exprs.length - 1 := by omega
    subst hk'
    rw [getLast?_eq_getElem?, getElem?_eq_getElem (by omega)] at hlast
    cases hlast
    exact ⟨_, _, v, hlocals, he, hv⟩

end Lowering

/-! ## References -/

def Role.isEmitted : Role → Bool
  | .input kind => kind = .source
  | .value _ | .function _ => true

namespace Context

/-- The name of the function that `x` refers to is emitted as `e`. -/
def OfFunction (ctx : Context) (x e : String) : Prop :=
  ∃ l, ctx.locals.reverse.find? (·.name == x) = some l ∧ l.emitted = e

/-- The name of the script that `x` refers to is emitted as `e`. -/
def OfScript (ctx : Context) (x e : String) : Prop :=
  ctx.locals.reverse.find? (·.name == x) = none ∧
    ∃ b, ctx.scope.lookup? x = some b ∧ b.role.isEmitted ∧ b.emitted = e

/-- The name `x` is in sight and is emitted as `e`. -/
def Refers (ctx : Context) (x e : String) : Prop :=
  ctx.OfFunction x e ∨ ctx.OfScript x e

/-- The code of a reference to `x` is the name `e`, a value or a function that is called. -/
def EmitsAs (ctx : Context) (x e : String) : Prop :=
  (∃ v, (∀ span, lower ctx (.name span (.plain x)) = .ok v) ∧ v.code = .name e) ∨
  ∃ sig, ∀ span calleeSpan args, lower ctx (.call span (.plain x) calleeSpan args) =
    functionCall x e sig (lowerArguments ctx args) span

/-- Different names in sight are emitted as different names. -/
def Hygienic (ctx : Context) : Prop :=
  ∀ x y e, ctx.Refers x e → ctx.Refers y e → x = y

/-- No name of the script in sight has the emitted name of one of the function. -/
def Uncaptured (ctx : Context) : Prop :=
  ∀ x y e, ctx.OfFunction x e → ¬ ctx.OfScript y e

variable {ctx : Context} {x y e : String}

theorem Refers.emitsAs (h : ctx.Refers x e) : ctx.EmitsAs x e := by
  rcases h with ⟨l, hl, rfl⟩ | ⟨hnone, b, hb, hrole, rfl⟩
  · left
    by_cases hk : l.kind = .series
    · refine ⟨.ofPlace l.emitted [], fun span => ?_, rfl⟩
      simp [lower, name, hl, hk]
    · refine ⟨{ code := .name l.emitted, kind := l.kind }, fun span => ?_, rfl⟩
      simp [lower, name, hl, hk]
  · have hname : ∀ span, lower ctx (.name span (.plain x)) = bound b span :=
      fun span => by simp [lower, name, hnone, hb]
    obtain ⟨_, emitted, role⟩ := b
    cases role with
    | input kind =>
      cases of_decide_eq_true hrole
      exact .inl ⟨_, hname, rfl⟩
    | value kind =>
      left
      cases kind <;> exact ⟨_, hname, rfl⟩
    | function sig =>
      exact .inr ⟨sig, fun span calleeSpan args => by simp [lower, call, hb]⟩

theorem OfFunction.inj {taken : List String} (h : KeptApart (ctx.locals.map fun n => (n.name, n.emitted)) taken)
    (hx : ctx.OfFunction x e) (hy : ctx.OfFunction y e) : x = y := by
  obtain ⟨l, hl, rfl⟩ := hx
  obtain ⟨l', hl', heq⟩ := hy
  have hmem := mem_reverse.1 (mem_of_find?_eq_some hl)
  have hmem' := mem_reverse.1 (mem_of_find?_eq_some hl')
  have hname : l.name = x := by simpa using find?_some hl
  have hname' : l'.name = y := by simpa using find?_some hl'
  rw [← hname, ← hname']
  exact h.inj _ (mem_map_of_mem hmem) _ (mem_map_of_mem hmem') heq.symm

theorem OfScript.inj (h : ({} : Scope).Grows ctx.scope) (hx : ctx.OfScript x e)
    (hy : ctx.OfScript y e) : x = y := by
  obtain ⟨_, b, hb, _, rfl⟩ := hx
  obtain ⟨_, b', hb', _, heq⟩ := hy
  obtain ⟨hmem, rfl⟩ := Scope.lookup?_mem hb
  obtain ⟨hmem', rfl⟩ := Scope.lookup?_mem hb'
  exact h.keptApart.inj _ (mem_map_of_mem hmem) _ (mem_map_of_mem hmem') heq.symm

theorem hygienic_iff {taken : List String} (hscope : ({} : Scope).Grows ctx.scope)
    (hlocals : KeptApart (ctx.locals.map fun n => (n.name, n.emitted)) taken) : ctx.Hygienic ↔ ctx.Uncaptured := by
  constructor
  · intro h x y e hx hy
    obtain ⟨l, hl, _⟩ := id hx
    rw [h x y e (.inl hx) (.inr hy), hy.1] at hl
    cases hl
  · rintro h x y e (hx | hx) (hy | hy)
    · exact hx.inj hlocals hy
    · exact absurd hy (h x y e hx)
    · exact absurd hx (h y x e hy)
    · exact hx.inj hscope hy

end Context

namespace Lowering

/-- On every line of a function that is lowered, references become the names they are emitted as, and
these differ from each other exactly when no name of the script in sight is emitted like one of the
function. -/
theorem function_line_hygienic_iff {s : Script} {scope : Scope} {f : FuncDecl}
    {out : Lowered × Signature} (hscope : ({} : Scope).Grows scope)
    (h : function s scope f = .ok out) {k : Nat} {line : BodyLine}
    (hline : (ofFunction s f)[k]? = some line) :
    ∃ locals e v, localsAt s scope f k = .ok locals ∧ parse line.text line.span = .ok e ∧
      expression ⟨scope, locals⟩ none e = .ok v ∧
      (∀ x n, Refers ⟨scope, locals⟩ x n → EmitsAs ⟨scope, locals⟩ x n) ∧
      (Hygienic ⟨scope, locals⟩ ↔ Uncaptured ⟨scope, locals⟩) := by
  obtain ⟨locals, e, v, hlocals, he, hv⟩ := line_lowered h hline
  obtain ⟨taken, hapart⟩ := localsAt_keptApart hlocals
  exact ⟨locals, e, v, hlocals, he, hv, fun _ _ hrefers => hrefers.emitsAs, hygienic_iff hscope hapart⟩

def averageScope : Scope :=
  (({} : Scope).declare "fast_ma" (.value .series)).2

theorem averageScope_grows : ({} : Scope).Grows averageScope :=
  .declare _ _ .refl

def gapSource : List Char :=
  ("//@version=5\nindicator(\"F\")\n" ++
   "fast_ma = close\n" ++
   "gap(slowMA) =>\n" ++
   "    distance = slowMA - fast_ma\n" ++
   "    distance\n" ++
   "plot(gap(open))\n").toList

theorem function_line_hygienic_iff_gap : ∃ s f out line, Script.parse gapSource = .ok s ∧ f ∈ s.functions ∧
      function s averageScope f = .ok out ∧ (ofFunction s f)[1]? = some line ∧
      ∃ locals e v, localsAt s averageScope f 1 = .ok locals ∧
        parse line.text line.span = .ok e ∧ expression ⟨averageScope, locals⟩ none e = .ok v ∧
        (∀ x n, Refers ⟨averageScope, locals⟩ x n → EmitsAs ⟨averageScope, locals⟩ x n) ∧
        (Hygienic ⟨averageScope, locals⟩ ↔ Uncaptured ⟨averageScope, locals⟩) := by
  have hrun : ∃ s, Script.parse gapSource = .ok s ∧ ∃ f ∈ s.functions, (ofFunction s f)[1]?.isSome = true ∧
      ∃ out, function s averageScope f = .ok out ∧ True := by
    decide +kernel
  obtain ⟨s, hs, f, hf, hsome, out, hout, -⟩ := hrun
  obtain ⟨line, hline⟩ := Option.isSome_iff_exists.1 hsome
  exact ⟨s, f, out, line, hs, hf, hout, hline, function_line_hygienic_iff averageScope_grows hout hline⟩

def capturingSource : List Char :=
  ("//@version=5\nindicator(\"F\")\n" ++
   "fast_ma = close\n" ++
   "f(fastMA) => fastMA - fast_ma\n" ++
   "plot(f(open))\n").toList

/-- The parameter hides the variable: the closure subtracts its argument from itself. -/
theorem parameter_captures_variable : ∃ s f out locals, Script.parse capturingSource = .ok s ∧ f ∈ s.functions ∧
      function s averageScope f = .ok out ∧
      out.1.code.render = "|fast_ma: &Series| -> Series \x7b ops::sub(&fast_ma, &fast_ma) \x7d" ∧
      localsAt s averageScope f 0 = .ok locals ∧ ¬ Hygienic ⟨averageScope, locals⟩ := by
  have hrun : ∃ s, Script.parse capturingSource = .ok s ∧ ∃ f ∈ s.functions,
      (∃ out, function s averageScope f = .ok out ∧
        out.1.code.render = "|fast_ma: &Series| -> Series \x7b ops::sub(&fast_ma, &fast_ma) \x7d") ∧
      ∃ locals, localsAt s averageScope f 0 = .ok locals ∧
        locals.map (fun n => (n.name, n.emitted)) = [("fastMA", "fast_ma")] := by
    decide +kernel
  obtain ⟨s, hs, f, hf, ⟨out, hout, hcode⟩, locals, hlocals, hnames⟩ := hrun
  refine ⟨s, f, out, locals, hs, hf, hout, hcode, hlocals, fun hygienic => ?_⟩
  obtain ⟨l, rfl, hpair⟩ := map_eq_singleton_iff.1 hnames
  obtain ⟨hname, hemitted⟩ := Prod.mk.inj hpair
  have hlookup : averageScope.lookup? "fast_ma" = some ⟨"fast_ma", "fast_ma", .value .series⟩ := rfl
  have hparameter : Refers ⟨averageScope, [l]⟩ "fastMA" "fast_ma" := .inl ⟨l, by simp [hname], hemitted⟩
  have hvariable : Refers ⟨averageScope, [l]⟩ "fast_ma" "fast_ma" := .inr ⟨by simp [hname], _, hlookup, rfl, rfl⟩
  exact absurd (hygienic _ _ _ hparameter hvariable) (by decide)

end Lowering

end ChartScript
