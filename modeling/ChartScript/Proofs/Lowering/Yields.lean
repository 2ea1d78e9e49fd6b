import ChartScript.Proofs.Lowering.Operations
import ChartScript.Proofs.Lowering.Preconditions
/-!
# What lowering yields

Lowering points at places that the tree of an expression or the script has, so its faults lie where
they say. The one exception is a name that nobody wrote.
-/
namespace ChartScript

open List Text Need

variable {i : Indicator} {s : Script} {names : List String} {span : Span} {scope : Scope}

namespace Indicator

theorem qualifiedName_of_find {q : String} (h : find? q = some i) : i.qualifiedName = q := by
  simpa using find?_some h

theorem five_le_size {q : String} (h : find? q = some i) : 5 ≤ byteSize q.toList := by
  have hall : ∀ i ∈ catalogue, 5 ≤ byteSize i.qualifiedName.toList := by decide
  exact qualifiedName_of_find h ▸ hall i (mem_of_find?_eq_some h)

end Indicator

def Scope.BindsOnly (s : Scope) (names : List String) : Prop :=
  ∀ b ∈ s.bindings, b.name ∈ names

theorem Scope.BindsOnly.concat {s t : Scope} (h : s.BindsOnly names) {b : Binding}
    (ht : t.bindings = s.bindings ++ [b]) (hb : b.name ∈ names) : t.BindsOnly names := by
  unfold BindsOnly
  rw [ht]
  exact forall_mem_append.2 ⟨h, by simpa using hb⟩

/-- The script binds none but the given names, and those of a function have values that operations
take. -/
structure Context.Sound (ctx : Context) (names : List String) : Prop where
  scope : ctx.scope.BindsOnly names
  locals : ∀ l ∈ ctx.locals, l.kind.isOperand = true

def LoweringFault.OfAverage (name : String) (fault : LoweringFault) : Prop :=
  fault = .functionAsValue name ∨ ∃ what kind, fault = .notSeries what kind

namespace Lowering

section

variable {bad : LoweringError → Prop} {ctx : Context} {names : List String} {span : Span}

theorem average_yields (hctx : ctx.Sound names) (a : Average)
    (hbad : a.name ∈ names → bad ⟨span, .functionAsValue a.name⟩) :
    Yields (fun v => v.kind.isOperand = true ∨ a.name ∈ names) bad (name ctx a.name span) := by
  have hofName : Average.ofName? a.name = some a := by cases a <;> rfl
  unfold name
  split
  · next l hl =>
    have hkind := hctx.locals l (mem_reverse.1 (mem_of_find?_eq_some hl))
    split
    · exact .inl rfl
    · exact .inl hkind
  · next b _ hb =>
    obtain ⟨hmem, hname⟩ := Scope.lookup?_mem hb
    have hin : a.name ∈ names := hname ▸ hctx.scope b hmem
    unfold bound
    split
    case h_9 => exact hname ▸ hbad hin
    all_goals exact .inr hin
  · exact .inl rfl
  · next hnone => simp [hofName] at hnone

theorem atDefault (hctx : ctx.Sound names)
    (hbad : "hlc3" ∈ names → ∀ fault : LoweringFault, fault.OfAverage "hlc3" →
      bad ⟨{ span with stop := span.start + 4 }, fault⟩) : AtDefault bad ctx span := by
  refine (average_yields hctx .hlc3 fun hin => hbad hin _ (.inl rfl)).mono (fun v hv what => ?_) fun _ he => he
  unfold Lowered.seriesArgument
  split
  · trivial
  · trivial
  · trivial
  · rcases hv with hv | hin
    · cases hk : v.kind <;> simp_all [ValueKind.isOperand]
    · exact hbad hin _ (.inr ⟨what, _, rfl⟩)

end

end Lowering

/-! ## Expressions -/

def Expr.Spelling.Among (p : String → Prop) (ws : List Spelling) : Prop :=
  ∀ x, .member "ta" x ∈ ws → p ("ta." ++ x)

def Usage.spelling (p : String → Prop) : Usage :=
  ⟨fun _ => True, fun _ => True, p⟩

namespace Lowering

/-- A fault with an average price that a call leaves out. It begins where the call does, and its length
is that of the name. -/
structure OfDefault (source : List Char) (names : List String) (e : LoweringError) : Prop where
  begins : e.span.BeginsIn source
  stop : e.span.stop = e.span.start + 4
  stop_le : e.span.stop ≤ byteSize source
  bound : "hlc3" ∈ names
  cause : e.cause.OfAverage "hlc3"

def Blamed (source : List Char) (names : List String) (e : LoweringError) : Prop :=
  e.span.Exact source ∨ OfDefault source names e

/-- The fault lies where it says, or with an average price that a call leaves out, and it is none that
scripts cannot have. -/
structure Arises (source : List Char) (names : List String) (e : LoweringError) : Prop where
  place : Blamed source names e
  cause : e.cause.isGuard = false

section

variable {p : String → Prop} {source : List Char} {names : List String} {ctx : Context} {span : Span}

theorem arises_at (h : span.Exact source) : At (Arises source names) span :=
  fun _ hcause => ⟨.inl h, hcause⟩

theorem arises_default (hctx : ctx.Sound names) {x : String}
    (hi : Indicator.find? ("ta." ++ x) = some i) (h : span.Exact source)
    (hfits : (Reference.member "ta" x).Fits source span) :
    AtDefault (Arises source names) ctx span := by
  refine atDefault hctx fun hin fault hfault => ?_
  refine ⟨.inr ⟨h.begins, rfl, ?_, hin, hfault⟩, by rcases hfault with rfl | ⟨_, _, rfl⟩ <;> rfl⟩
  have hsize := Indicator.five_le_size hi
  rw [String.toList_append, Lexer.byteSize_append] at hsize
  have hta : byteSize "ta.".toList = 3 := by decide
  have hqualifier : byteSize "ta".toList = 2 := by decide
  unfold Reference.Fits at hfits
  show span.start + 4 ≤ byteSize source
  omega

theorem expression_arises (hctx : ctx.Sound names) (arity : Option Nat) {e : Expr}
    (he : e.Exact source) (hspelled : Expr.Spelling.Among p e.spellings) :
    Lowers ctx (.spelling p) (Arises source names) (expression ctx arity e) := by
  refine expression_yields arity fun n hn =>
    ⟨fun _ _ => trivial, fun _ _ => trivial, fun x i hx hi => ⟨?_, ?_⟩, fun s hs => ?_⟩
  · rw [Indicator.qualifiedName_of_find hi]
    exact hspelled x (mem_flatMap.2 ⟨n, hn, hx⟩)
  · refine arises_default hctx hi (he n hn).span ?_
    have hsited := he n hn
    cases n with
    | name span reference =>
      cases reference <;> simp only [Expr.ownSpellings, mem_singleton, not_mem_nil] at hx
      cases hx
      exact hsited.2
    | call span callee =>
      cases callee <;> cases mem_singleton.1 hx
      exact hsited.2.1
    | _ => cases hx
  · refine arises_at ?_
    have hsited := he n hn
    cases n with
    | call =>
      obtain ⟨hspan, _, hcallee, hargs⟩ := hsited
      rcases mem_cons.1 hs with rfl | hs
      · exact hspan
      rcases mem_cons.1 hs with rfl | hs
      · exact hcallee
      · obtain ⟨arg, harg, rfl⟩ := mem_map.1 hs
        exact hargs arg harg
    | _ => exact mem_singleton.1 hs ▸ hsited.span

abbrev SpellsAmong (p : String → Prop) (text : List Char) (span : Span) : Prop :=
  ∀ e, Expr.parse text span = .ok e → Expr.Spelling.Among p e.spellings

theorem parse_yields {text : List Char} (h : span.Cuts source text) (hspelled : SpellsAmong p text span) :
    Yields (fun e => e.Exact source ∧ Expr.Spelling.Among p e.spellings) (Arises source names)
      (parse text span) := by
  have hparse : Yields (fun e => e.Exact source ∧ Expr.parse text span = .ok e)
      (Arises source names) (parse text span) :=
    (Expr.parse_exact h).with_eq.mapError fun _ he => ⟨.inl he.exact, he.cause⟩
  exact hparse.mono (fun e he => ⟨he.1, hspelled e he.2⟩) fun _ he => he

theorem text_yields (hctx : ctx.Sound names) (arity : Option Nat) {txt : List Char}
    (h : span.Cuts source txt) (hspelled : SpellsAmong p txt span) :
    Lowers ctx (.spelling p) (Arises source names) (text ctx arity txt span) :=
  (parse_yields h hspelled).bind fun _ he => expression_arises hctx arity he.1 he.2

end

end Lowering

/-! ## Functions -/

namespace BodyLine

variable {source : List Char}

theorem cuts_ofTokens {text : List Char} {base : Span} {tokens : List Token}
    (hbase : base.Cuts source text) (hne : tokens ≠ []) (htokens : ExactTokens text tokens) :
    (ofTokens text base tokens).span.Cuts source (ofTokens text base tokens).text := by
  obtain ⟨-, before, hsplit⟩ := valueTokens_suffix hne
  have hvalue : ExactTokens text (valueTokens tokens) := fun t ht => htokens t (hsplit ▸ mem_append_right before ht)
  have hspan : ((Line.span? (valueTokens tokens)).getD .origin).Exact text := by
    cases hs : Line.span? (valueTokens tokens) with
    | none => exact Span.exact_origin text
    | some s => exact Line.exact_span hvalue hs
  exact hbase.offsetBy hspan.cuts

theorem cuts_ofFunction {f : FuncDecl} (hbody : f.body.Cuts source (s.text f.body)) :
    ∀ line ∈ ofFunction s f, line.span.Cuts source line.text := by
  cases hsingle : f.singleLine with
  | true => simpa [ofFunction, hsingle] using hbody
  | false =>
    rw [ofFunction_of_block hsingle]
    intro line hline
    obtain ⟨tokens, htokens, rfl⟩ := mem_map.1 hline
    obtain ⟨item, hitem, hitem'⟩ := mem_filterMap.1 htokens
    cases item with
    | indent | dedent => cases hitem'
    | line =>
      cases hitem'
      obtain ⟨hne, -, before, after, hsplit, -⟩ := Statement.line_of_mem_items hitem
      refine cuts_ofTokens hbody hne fun t ht => Script.exact_tokens _ t ?_
      rw [hsplit]
      simp [ht]

end BodyLine

/-- The members of `ta` in the expressions of the script and in the lines of its functions have the
property. -/
structure Script.SpellsAmong (p : String → Prop) (s : Script) : Prop where
  expressions : ∀ span ∈ s.expressions, Lowering.SpellsAmong p (s.text span) span
  lines : ∀ f ∈ s.functions, ∀ line ∈ BodyLine.ofFunction s f, Lowering.SpellsAmong p line.text line.span

theorem Script.cuts_text {source : List Char} (h : parse source = .ok s) (hspan : span.Exact source) :
    span.Cuts source (s.text span) := by
  unfold Script.text
  rw [(walk_of_parse h).1]
  exact hspan.cuts

namespace Lowering

def Locals.Operands (l : Locals) : Prop :=
  ∀ x ∈ l.names, x.kind.isOperand = true

theorem Locals.Operands.concat {l l' : Locals} (h : l.Operands) {x : LocalName}
    (hnames : l'.names = l.names ++ [x]) (hx : x.kind.isOperand = true) : l'.Operands := by
  unfold Operands
  rw [hnames]
  exact forall_mem_append.2 ⟨h, by simpa using hx⟩

theorem hintedKind?_isOperand {hint : String} {kind : ValueKind} (h : hintedKind? hint = some kind) :
    kind.isOperand = true := by
  unfold hintedKind? at h
  dsimp only at h
  split at h
  · split at h <;> cases h <;> rfl
  · split at h
    · cases h
      rfl
    · cases h

theorem parameterKind_isOperand (s : Script) (p : FuncParam) (body : List Expr) :
    (parameterKind s p body).isOperand = true := by
  unfold parameterKind
  split
  · next kind hkind =>
    obtain ⟨hint, _, hhint⟩ := Option.bind_eq_some_iff.1 hkind
    exact hintedKind?_isOperand hhint
  · dsimp only
    split <;> rfl

/-- A function that is read in part. -/
structure FunctionProgress.Sound (p : String → Prop) (r : FunctionProgress) : Prop where
  locals : r.locals.Operands
  needs : Among p r.needs

variable {d : VarDecl}

section

variable {p : String → Prop} {source : List Char} {s : Script} {names : List String} {scope : Scope}
  (hparse : Script.parse source = .ok s) (hspelled : s.SpellsAmong p)
  (hscope : scope.BindsOnly names)

include hparse hspelled hscope

theorem expressionText_yields (hspan : span ∈ s.expressions) :
    Lowers ⟨scope, []⟩ (.spelling p) (Arises source names) (text ⟨scope, []⟩ none (s.text span) span) :=
  text_yields ⟨hscope, by simp⟩ none
    (Script.cuts_text hparse ((Script.exact_of_parse hparse).expressions span hspan))
    (hspelled.expressions span hspan)

theorem parameterDefault_yields {param : FuncParam} (kind : ValueKind)
    (hdefault : ∀ span, param.default = some span → span ∈ s.expressions) :
    Yields (fun y => Among p y.2) (Arises source names) (parameterDefault s scope param kind) := by
  unfold parameterDefault
  split
  · exact among_nil
  · next span hspan =>
    have hmem := hdefault span hspan
    have hexact := (Script.exact_of_parse hparse).expressions span hmem
    refine (expressionText_yields hparse hspelled hscope hmem).bind fun v hv => ?_
    exact (parameterArgument_yields hv kind _ (arises_at hexact)).bind fun y hy =>
      among_append.2 ⟨hv.needs, hy.needs⟩

theorem addParameter_yields {body : List Expr} {r : FunctionProgress} {param : FuncParam}
    (hr : r.Sound p) (hdefault : ∀ span, param.default = some span → span ∈ s.expressions) :
    Yields (fun r' => r'.Sound p) (Arises source names) (addParameter s scope body r param) := by
  refine (parameterDefault_yields hparse hspelled hscope _ hdefault).bind fun y hy => ?_
  exact ⟨hr.locals.concat rfl (parameterKind_isOperand s param body), among_append.2 ⟨hr.needs, hy⟩⟩

omit hparse hspelled in
theorem addAssignment_yields {r : FunctionProgress} {line : BodyLine} {e : Expr} (hr : r.Sound p)
    (hline : line.span.Exact source) (he : e.Exact source) (hown : Expr.Spelling.Among p e.spellings) :
    Yields (fun r' => r'.Sound p) (Arises source names) (addAssignment scope r line e) := by
  unfold addAssignment
  split
  · exact hr
  · next x reassigned htarget =>
    have hctx : (⟨scope, r.locals.names⟩ : Context).Sound names := ⟨hscope, hr.locals⟩
    refine (expression_arises hctx none he hown).bind fun v hv => ?_
    have hneeds := among_append.2 ⟨hr.needs, hv.needs⟩
    by_cases hk : v.kind.isOperand = true
    · rw [if_pos hk]
      by_cases hre : reassigned = true
      · rw [if_pos hre]
        cases hknown : r.locals.redeclare? x v.kind with
        | none => exact ⟨.inl hline, rfl⟩
        | some known =>
          obtain ⟨old, _, rfl⟩ := Option.map_eq_some_iff.1 hknown
          exact ⟨hr.locals.concat rfl hk, hneeds⟩
      · rw [if_neg hre]
        exact ⟨hr.locals.concat rfl hk, hneeds⟩
    · rw [if_neg hk]
      exact ⟨.inl hline, rfl⟩

theorem function_yields {f : FuncDecl} (hf : f ∈ s.functions) :
    Yields (fun out => Among p out.1.needs) (Arises source names) (function s scope f) := by
  have hs := Script.exact_of_parse hparse
  have hready := Script.ready_of_parse hparse
  have hlines := BodyLine.cuts_ofFunction (Script.cuts_text hparse (hs.functions f hf).2)
  refine (Yields.mapM fun line hline =>
    parse_yields (hlines line hline) (hspelled.lines f hf line hline)).with_eq.bind ?_
  rintro exprs ⟨hexprs, hparsed⟩
  cases hlast : (BodyLine.ofFunction s f).getLast? with
  | none => exact absurd (getLast?_eq_none_iff.1 hlast) (hready.bodies f hf)
  | some last =>
    have hlastSpan := (hlines last (mem_of_getLast? hlast)).exact
    dsimp only
    split
    · exact ⟨.inl hlastSpan, rfl⟩
    split
    · next stray hstray =>
      have hmem := dropLast_subset _ (mem_of_find?_eq_some hstray)
      exact ⟨.inl (hlines stray hmem).exact, rfl⟩
    have hparams : ∀ r : FunctionProgress, ∀ param ∈ f.params, r.Sound p →
        Yields (fun r' => r'.Sound p) (Arises source names) (addParameter s scope exprs r param) :=
      fun r param hparam hr => addParameter_yields hparse hspelled hscope hr fun _ =>
        Declarations.default_mem_expressions hf hparam
    have hassign : ∀ r : FunctionProgress, ∀ x ∈ (BodyLine.ofFunction s f).dropLast.zip exprs,
        r.Sound p → Yields (fun r' => r'.Sound p) (Arises source names) (addAssignment scope r x.1 x.2) := by
      intro r x hx hr
      obtain ⟨hline, he⟩ := of_mem_zip hx
      obtain ⟨hexact, hown⟩ := hexprs _ he
      exact addAssignment_yields hscope hr (hlines _ (dropLast_subset _ hline)).exact hexact hown
    have hnone : ({} : FunctionProgress).Sound p := ⟨fun _ hx => (by cases hx), among_nil⟩
    refine (Yields.foldlM hparams hnone).bind fun r₀ hr₀ => ?_
    refine (Yields.foldlM hassign hr₀).bind fun r hr => ?_
    cases hresult : exprs.getLast? with
    | none =>
      -- each line has its expression, and there is a line
      rw [getLast?_eq_none_iff.1 hresult] at hparsed
      exact absurd (forall₂_nil_right_iff.1 (forall₂_of_mapM hparsed)) (hready.bodies f hf)
    | some e =>
      obtain ⟨hexact, hown⟩ := hexprs e (mem_of_getLast? hresult)
      have hctx : (⟨scope, r.locals.names⟩ : Context).Sound names := ⟨hscope, hr.locals⟩
      refine (expression_arises hctx none hexact hown).bind fun v hv => ?_
      split
      · refine among_append.2 ⟨among_append.2 ⟨hr.needs, hv.needs⟩, ?_⟩
        split
        · simp
        · exact among_nil
      · exact ⟨.inl hlastSpan, rfl⟩

/-! ## Statements -/

omit hparse hspelled in
theorem reassignment_yields {x : String} {e : Expr} (hspan : d.span.Exact source) (hvalue : d.value.Exact source)
    (hop : ∀ op, d.mode = .compound op → (BinaryOp.ofCompound? op).isSome = true) (he : e.Exact source)
    (hown : Expr.Spelling.Among p e.spellings) :
    Yields (fun out => Among p out.2.1.needs) (Arises source names) (reassignment scope d x e) := by
  have hcompound : Yields (fun e' => e'.Exact source ∧ Expr.Spelling.Among p e'.spellings)
      (Arises source names) (compoundValue d x e) := by
    unfold compoundValue
    split
    · next op hmode =>
      split
      · have hname : (Expr.name d.span (.plain x)).Exact source := Expr.exact_name.2 ⟨hspan, trivial⟩
        refine ⟨Expr.exact_binary.2 ⟨hspan.through he.span, hname, he⟩, ?_⟩
        simpa [Expr.spellings, Expr.nodes, Expr.ownSpellings] using hown
      · next hnone =>
        have hsome := hop op hmode
        simp [hnone] at hsome
    · exact ⟨he, hown⟩
  unfold reassignment
  dsimp only
  split
  · next hrole =>
    split
    · exact ⟨.inl hvalue, rfl⟩
    refine hcompound.bind fun e' he' => ?_
    refine (expression_arises ⟨hscope, by simp⟩ none he'.1 he'.2).bind fun v hv => ?_
    split
    · exact hv.bindable.needs
    · next hnone =>
      -- the name was found before
      rw [Scope.redeclare?, Option.map_eq_none_iff] at hnone
      simp [hnone] at hrole
  · exact ⟨.inl hspan, rfl⟩
  · exact ⟨.inl hspan, rfl⟩

theorem assignment_yields (hd : d ∈ s.varDecls) :
    Yields (fun out => Among p out.2.1.needs) (Arises source names) (assignment s scope d) := by
  have hs := Script.exact_of_parse hparse
  have hspan := hs.varDecls d hd
  have hvalue := hs.value hd
  have hown := hspelled.expressions d.value (Declarations.value_mem_expressions hd)
  have hctx : (⟨scope, []⟩ : Context).Sound names := ⟨hscope, by simp⟩
  refine (parse_yields (Script.cuts_text hparse hvalue) hown).bind fun e he => ?_
  split
  · refine (expression_arises hctx none he.1 he.2).bind fun v hv => ?_
    dsimp only
    split
    · exact ⟨.inl hspan, rfl⟩
    · have hkept : (if d.persistence ≠ .each ∧ v.kind = .series then kept v else v).Made ⟨scope, []⟩
          (.spelling p) := by
        split
        · exact kept_made hv
        · exact hv
      exact hkept.bindable.needs
  · exact (expression_arises hctx _ he.1 he.2).bind fun _ hv => hv.needs
  · have hop := (Script.ready_of_parse hparse).compounds d hd
    exact reassignment_yields hscope hspan hvalue hop he.1 he.2
  · exact ⟨.inl hspan, rfl⟩

theorem hoist_yields (hspan : span ∈ s.expressions) (base : String) (allowed : ValueKind → Bool) (what : String) :
    Yields (fun out => Among p out.2.1.needs ∧
    out.2.2.BindsOnly names) (Arises source names) (hoist s scope span base allowed what) := by
  refine (expressionText_yields hparse hspelled hscope hspan).bind fun v hv => ?_
  by_cases hk : allowed v.kind = true
  · rw [if_pos hk]
    refine ⟨?_, hscope⟩
    split
    · exact hv.needs
    · exact hv.needs
  · rw [if_neg hk]
    exact ⟨.inl ((Script.exact_of_parse hparse).expressions span hspan), rfl⟩

end

/-! ## Scripts -/

theorem declareAll_bindsOnly {xs : List String} (h : scope.BindsOnly names)
    (hxs : ∀ x ∈ xs, x ∈ names) : (declareAll scope xs).2.BindsOnly names := by
  induction xs generalizing scope with
  | nil => exact h
  | cons x rest ih =>
    obtain ⟨hx, hrest⟩ := forall_mem_cons.1 hxs
    exact ih (h.concat rfl hx) hrest

theorem assigned_bindsOnly {scope' : Scope} {pattern : Pattern} {v : Lowered} (h : scope.BindsOnly names)
    (hd : ∀ x ∈ d.target.names, x ∈ names) (ha : Assigned s scope d pattern v scope') : scope'.BindsOnly names := by
  cases ha with
  | declared _ htarget =>
    rw [htarget] at hd
    exact h.concat rfl (hd _ (by simp [Target.names]))
  | unpacked _ htarget =>
    rw [htarget] at hd
    exact declareAll_bindsOnly h hd
  | reassigned _ htarget =>
    rw [htarget] at hd
    exact h.concat rfl (hd _ (by simp [Target.names]))

end Lowering

/-- The names that the script binds. -/
def Script.boundNames (s : Script) : List String :=
  s.inputs.map (·.name) ++ s.varDecls.flatMap (·.target.names) ++ s.functions.map (·.name)

namespace Lowering

/-- A script that is lowered in part. -/
structure Progress.Sound (p : String → Prop) (names : List String) (r : Progress) : Prop where
  scope : r.scope.BindsOnly names
  needs : Among p r.needs

variable {r : Progress}

theorem Progress.Sound.add {p : String → Prop} (h : r.Sound p names) {v : Lowered}
    (hv : Among p v.needs) (hscope : scope.BindsOnly names) (key : ItemKey) (position : Nat)
    (binding : Option Pattern) : (r.add key position binding v scope).Sound p names :=
  ⟨hscope, among_append.2 ⟨h.needs, hv⟩⟩

section

variable {p : String → Prop} {source : List Char} {s : Script}
  (hparse : Script.parse source = .ok s) (hspelled : s.SpellsAmong p)

include hparse hspelled

theorem addOrderPart_yields (hr : r.Sound p s.boundNames) {position : Nat} {key : ItemKey} {base : String}
    {allowed : ValueKind → Bool} {part : Option Span} (hpart : ∀ span, part = some span → span ∈ s.expressions) :
    Yields (fun r' => r'.Sound p s.boundNames) (Arises source s.boundNames) (addOrderPart s position key base
    allowed part r) := by
  unfold addOrderPart
  split
  · exact hr
  · next span =>
    refine (hoist_yields hparse hspelled hr.scope (hpart span rfl) _ _ _).bind fun _ h => ?_
    exact hr.add h.1 h.2 _ _ _

theorem addOrder_yields (hr : r.Sound p s.boundNames) (i : Nat) {o : OrderCall} (ho : o ∈ s.orders) :
    Yields (fun r' => r'.Sound p s.boundNames) (Arises source s.boundNames) (addOrder s r i o) := by
  have hpart : ∀ part ∈ [o.when, o.quantity, o.stop, o.limit], ∀ span, part = some span →
      span ∈ s.expressions := fun part hpart span hspan =>
    Declarations.order_mem_expressions ho (mem_filterMap.2 ⟨part, hpart, hspan⟩)
  refine (addOrderPart_yields hparse hspelled hr (hpart o.when (by simp))).bind fun r₁ hr₁ => ?_
  refine (addOrderPart_yields hparse hspelled hr₁ (hpart o.quantity (by simp))).bind fun r₂ hr₂ => ?_
  refine (addOrderPart_yields hparse hspelled hr₂ (hpart o.stop (by simp))).bind fun r₃ hr₃ => ?_
  refine (addOrderPart_yields hparse hspelled hr₃ (hpart o.limit (by simp))).bind fun r₄ hr₄ => ?_
  split
  · exact ⟨hr₄.scope, among_append.2 ⟨hr₄.needs, by simp⟩⟩
  · exact hr₄

theorem addPlot_yields (hr : r.Sound p s.boundNames) (i : Nat) {call : PlotCall} (hcall : call ∈ s.plots) :
    Yields (fun r' => r'.Sound p s.boundNames) (Arises source s.boundNames) (addPlot s r i call) := by
  unfold addPlot
  split
  · next mark span hkind hseries =>
    have hmem : span ∈ s.expressions :=
      Declarations.plot_mem_expressions hcall (by simp [PlotCall.expressions, hseries])
    have hspan := (Script.exact_of_parse hparse).expressions span hmem
    refine (expressionText_yields hparse hspelled hr.scope hmem).bind fun v hv => ?_
    by_cases hk : v.kind.isOperand = true
    · split
      · exact ⟨.inl hspan, rfl⟩
      · exact hr.add hv.needs hr.scope _ _ _
    · rw [if_neg hk]
      exact ⟨.inl hspan, rfl⟩
  · exact hr

theorem add_yields (hr : r.Sound p s.boundNames) {site : Site} (hsite : site ∈ sites s) :
    Yields (fun r' => r'.Sound p s.boundNames) (Arises source s.boundNames) (add s r site) := by
  cases site with
  | assignment i d =>
    have hd := mem_of_getElem? (assignment_mem_sites.1 hsite)
    have hnames : ∀ x ∈ d.target.names, x ∈ s.boundNames := fun x hx =>
      mem_append_left _ (mem_append_right _ (mem_flatMap.2 ⟨d, hd, hx⟩))
    refine (assignment_yields hparse hspelled hr.scope hd).with_eq.bind fun _ h => ?_
    exact hr.add h.1 (assigned_bindsOnly hr.scope hnames (assigned_of_assignment h.2)) _ _ _
  | function i f =>
    have hf := mem_of_getElem? (function_mem_sites.1 hsite)
    refine (function_yields hparse hspelled hr.scope hf).bind fun _ h => ?_
    exact hr.add h (hr.scope.concat rfl (mem_append_right _ (mem_map.2 ⟨f, hf, rfl⟩))) _ _ _
  | condition i c =>
    have hc := mem_of_getElem? (condition_mem_sites.1 hsite)
    have hspan := Declarations.predicate_mem_expressions hc
    refine (hoist_yields hparse hspelled hr.scope hspan _ _ _).bind fun _ h => ?_
    exact hr.add h.1 h.2 _ _ _
  | order i o => exact addOrder_yields hparse hspelled hr i (mem_of_getElem? (order_mem_sites.1 hsite))
  | plot i call => exact addPlot_yields hparse hspelled hr i (mem_of_getElem? (plot_mem_sites.1 hsite))

omit hspelled in
theorem inputDefault_faults {bad : LoweringError → Prop} {d : InputDecl} (hd : d ∈ s.inputs) :
    Faults bad (inputDefault d) := by
  obtain ⟨code, hcode⟩ := (Script.ready_of_parse hparse).inputs d hd
  rw [hcode]
  trivial

theorem script_yields : Yields (fun l => Among p l.needs) (Arises source s.boundNames) (script s) := by
  have hinput : ∀ r : Scope × List InputField, ∀ d ∈ s.inputs, r.1.BindsOnly s.boundNames →
      Yields (fun r' => r'.1.BindsOnly s.boundNames) (Arises source s.boundNames) (addInput r d) := by
    intro r d hd hr
    refine (inputDefault_faults hparse hd).bind fun _ _ => ?_
    exact hr.concat rfl (mem_append_left _ (mem_append_left _ (mem_map.2 ⟨d, hd, rfl⟩)))
  have hsites : ∀ r : Progress, ∀ site ∈ sites s, r.Sound p s.boundNames →
      Yields (fun r' => r'.Sound p s.boundNames) (Arises source s.boundNames) (add s r site) :=
    fun r site hsite hr => add_yields hparse hspelled hr hsite
  have hnone : ({} : Scope).BindsOnly s.boundNames := fun b hb => by cases hb
  refine Yields.bind (Yields.foldlM hinput hnone) fun inputs hinputs => ?_
  exact Yields.bind (Yields.foldlM hsites ⟨hinputs, among_nil⟩) fun _ hr => hr.needs

omit hspelled

theorem script_arises : Faults (Arises source s.boundNames) (script s) := by
  have hany : s.SpellsAmong fun _ => True := ⟨fun _ _ _ _ _ _ => trivial, fun _ _ _ _ _ _ _ _ => trivial⟩
  exact (script_yields hparse hany).mono (fun _ _ => trivial) fun _ he => he

theorem script_faults : Faults (Blamed source s.boundNames) (script s) :=
  (script_arises hparse).mono (fun _ h => h) fun _ he => he.place

end

end Lowering

end ChartScript
