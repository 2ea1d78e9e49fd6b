import ChartScript.Proofs.Script.Expressions
/-!
# What a statement can be at fault for

An error about a statement points at the beginning of a token of the statement or of its block, with
one exception: an input whose default is named and left empty has no token to point at.

Some checks never fail, since the form of the line was found out before. They are the guards.
-/
namespace ChartScript

open List StatementForm Line

/-- Faults that no text has: the form of a line rules them out. -/
def SyntaxFault.isGuard : SyntaxFault → Bool
  | malformedInput | tupleInput | malformedAssignment | unknownOrder _ | unknownPlot _ => true
  | _ => false

/-- The fault lies in the default of an input. -/
def SyntaxFault.isDefault : SyntaxFault → Bool
  | defaultNotLiteral _ => true
  | _ => false

/-! ## Places that begin with a token -/

/-- The place begins with the first character of one of the tokens. -/
def Span.Begins (s : Span) (ts : List Token) : Prop :=
  ∃ t ∈ ts, s.line = t.span.line ∧ s.column = t.span.column

namespace Span.Begins

variable {s : Span} {ts us : List Token}

theorem token {t : Token} (ht : t ∈ ts) : t.span.Begins ts :=
  ⟨t, ht, rfl, rfl⟩

theorem mono (h : s.Begins ts) (hsub : ts ⊆ us) : s.Begins us := by
  obtain ⟨t, ht, hbegin⟩ := h
  exact ⟨t, hsub ht, hbegin⟩

theorem through (h : s.Begins ts) (b : Span) : (s.through b).Begins ts := h

end Span.Begins

variable {line ts : List Token} {source : List Char} {start : Nat}

theorem Line.span?_begins {s : Span} (h : span? ts = some s) : s.Begins ts := by
  unfold span? at h
  split at h
  · next first last hfirst hlast =>
    cases h
    exact (Span.Begins.token (mem_of_head? hfirst)).through _
  · cases h

namespace Statement

theorem headSpan_begins (h : ts ≠ []) : (headSpan ts).Begins ts := by
  obtain ⟨t, rest, rfl⟩ := exists_cons_of_ne_nil h
  exact .token mem_cons_self

theorem span_begins {s : Statement} (h : s.line ≠ []) : s.span.Begins s.line := by
  cases s with
  | mk line body =>
    obtain ⟨own, hown⟩ : ∃ own, span? line = some own := span?_isSome h
    rw [span, hown]
    cases blockSpan? body with
    | none => exact span?_begins hown
    | some inner => exact (span?_begins hown).through inner

theorem blockSpan_begins {ss : List Statement} {b : Span} (hne : ∀ line ∈ linesAll ss, line ≠ [])
    (h : blockSpan? ss = some b) : b.Begins (tokensAll ss) := by
  cases ss with
  | nil => simp [blockSpan?] at h
  | cons s rest =>
    have hfirst : s.span.Begins (tokensAll (s :: rest)) := by
      cases s with
      | mk line body =>
        have hline : (mk line body).line ≠ [] := hne line (by simp)
        refine (span_begins hline).mono fun t ht => ?_
        rw [tokensAll_cons, tokens_mk]
        exact mem_append_left _ (mem_append_left _ ht)
    rw [blockSpan?] at h
    split at h
    · cases h
      exact hfirst.through _
    · cases h
      exact hfirst

end Statement

/-- The fault is neither a guard nor that of a default, and it stands where one of the tokens
begins. -/
structure FaultAt (ts : List Token) (e : SyntaxError) : Prop where
  guard : e.cause.isGuard = false
  default : e.cause.isDefault = false
  place : e.span.Begins ts

theorem FaultAt.mono {ts us : List Token} {e : SyntaxError} (h : FaultAt ts e) (hsub : ts ⊆ us) : FaultAt us e :=
  ⟨h.guard, h.default, h.place.mono hsub⟩

/-! ## The form of a line -/

namespace StatementForm

def Fits (source : List Char) (line : List Token) : StatementForm → Prop
  | .input => isInput source line = true
  | .function => isFunction line = true
  | .order => isOrder line = true
  | .plot => isCallOf (fun name => (PlotKind.ofName? name).isSome) line = true
  | .assignment => (Assignment.ofLine? source line).isSome = true
  | _ => True

theorem Fits.ite {a b : StatementForm} {p : Prop} [Decidable p] (ha : p → a.Fits source line)
    (hb : b.Fits source line) :
    (if p then a else b).Fits source line := by
  split
  · next hp => exact ha hp
  · exact hb

theorem fits_ofLine (source : List Char) (line : List Token) : (ofLine source line).Fits source line := by
  refine .ite (fun _ => trivial) (.ite (fun hinput => hinput) (.ite (fun hfunction => hfunction) ?_))
  -- the forms from a type to a conditional expression say nothing here
  iterate 8 refine .ite (fun _ => trivial) ?_
  refine .ite (fun horder => horder) (.ite (fun hplot => hplot) ?_)
  iterate 2 refine .ite (fun _ => trivial) ?_
  exact .ite (fun hassignment => hassignment) trivial

end StatementForm

/-! ## Brackets and arguments -/

variable {bracket : Token} {v : List Token} {value : Option (List Token)} {kind : OrderKind}
  {name : String}

namespace Line

theorem checkBracketsFrom_faults {opened : List Token} (hopened : opened ⊆ line) (hts : ts ⊆ line) :
    Faults (FaultAt line) (checkBracketsFrom opened ts) := by
  have hdrop : ∀ {opened : List Token}, opened ⊆ line → opened.drop 1 ⊆ line :=
    fun hsub => List.Subset.trans (drop_subset 1 _) hsub
  fun_induction checkBracketsFrom opened ts with
  | case1 => trivial
  | case2 t _ =>
    refine ⟨?_, ?_, .token (hopened mem_cons_self)⟩
    · split <;> rfl
    · split <;> rfl
  | case3 opened t rest hkind ih | case4 opened t rest hkind ih =>
    obtain ⟨ht, hrest⟩ := cons_subset.1 hts
    exact ih (cons_subset.2 ⟨ht, hopened⟩) hrest
  | case5 opened t rest hkind hclosed ih | case7 opened t rest hkind hclosed ih =>
    exact ih (hdrop hopened) (cons_subset.1 hts).2
  | case6 opened t rest hkind hclosed | case8 opened t rest hkind hclosed =>
    exact ⟨rfl, rfl, .token (cons_subset.1 hts).1⟩
  | case9 opened t rest _ _ _ _ ih => exact ih hopened (cons_subset.1 hts).2

theorem checkBrackets_faults (line : List Token) : Faults (FaultAt line) (checkBrackets line) :=
  checkBracketsFrom_faults (nil_subset line) (List.Subset.refl line)

theorem arguments_yields (h : (line)[start]? = some bracket) :
    Yields (fun args => ∀ arg ∈ args.1, Run line arg.value) (FaultAt line) (arguments line start) := by
  refine Yields.of_faults ?_ fun args hargs => arguments_run hargs
  unfold arguments
  split
  · trivial
  · rw [h]
    exact ⟨rfl, rfl, .token (mem_of_getElem? h)⟩

theorem lookup_run {args : List Arg} (hargs : ∀ arg ∈ args, Run line arg.value) {ps : List String}
    {key : String} (h : (bind args ps).lookup key = some v) : Run line v := by
  obtain ⟨arg, harg, hvalue⟩ := mem_of_mem_bind (lookup_mem h)
  rw [← show arg.value = v from hvalue]
  exact hargs arg harg

end Line

/-! ## Assignments and inputs -/

theorem Assignment.ofLine?_eq_some {a : Assignment} (h : ofLine? source line = some a) : ∃ position typeTokens,
      outerPosition? isSign 0 line = some position ∧ (line)[position]? = some a.sign ∧
      target? ((line.take position).drop (if persistenceOf line = .each then 0 else 1)) =
        some (a.target, typeTokens) ∧
      (∀ t ∈ typeTokens, isTypeToken t = true) ∧ mode? a.sign = some a.mode ∧
      a.value = line.drop (position + 1) := by
  obtain ⟨position, hposition, h⟩ := Option.bind_eq_some_iff.1 h
  obtain ⟨sign, hsign, h⟩ := Option.bind_eq_some_iff.1 h
  obtain ⟨⟨target, typeTokens⟩, htarget, h⟩ := Option.bind_eq_some_iff.1 h
  obtain ⟨⟨⟩, hguard, h⟩ := Option.bind_eq_some_iff.1 h
  obtain ⟨mode, hmode, h⟩ := Option.bind_eq_some_iff.1 h
  cases h
  refine ⟨position, typeTokens, hposition, hsign, htarget, ?_, hmode, rfl⟩
  by_contra hnone
  rw [guard, if_neg (by simpa using hnone)] at hguard
  cases hguard

/-- The tokens that an input gives as its default. -/
def InputDecl.defaultTokens? (source : List Char) (line : List Token) : Option (List Token) := do
  let a ← Assignment.ofLine? source line
  let (_, start) ← call? a.value
  let (args, _) ← (arguments a.value start).toOption
  (bind args ["defval", "title"]).lookup "defval"

theorem InputDecl.arguments_of_call {value : List Token} {kind : Option InputKind}
    (h : call? value = some (kind, start)) : ∃ args close, arguments value start = .ok (args, close) := by
  obtain ⟨⟨kind', start'⟩, -, h⟩ := Option.bind_eq_some_iff.1 h
  obtain ⟨close, hclose, h⟩ := Option.bind_eq_some_iff.1 h
  obtain ⟨⟨⟩, -, h⟩ := Option.bind_eq_some_iff.1 h
  cases h
  unfold arguments
  rw [hclose]
  exact ⟨_, _, rfl⟩

theorem InputDecl.default?_faults {bad : SyntaxError → Prop} {kind : Option InputKind} {value : List Token}
    (h : ∀ accepted, bad ⟨(span? value).getD .origin, .defaultNotLiteral accepted⟩) :
    Faults bad (default? kind value) := by
  unfold default?
  split
  · exact h _
  · split
    · trivial
    · exact h _

namespace Statement

/-- What the own step of a statement fails with: a fault at one of its tokens, or that of an input
whose default is no literal. -/
inductive Blames (source : List Char) (s : Statement) (e : SyntaxError) : Prop
  | token : FaultAt s.tokens e → Blames source s e
  | default {value : List Token} {accepted : List String} : s.form source = .input →
      InputDecl.defaultTokens? source s.line = some value → value ⊆ s.line →
      e = ⟨(span? value).getD .origin, .defaultNotLiteral accepted⟩ → Blames source s e

/-- The fault is that the default of an input is named and left empty. -/
def EmptyDefault (source : List Char) (s : Statement) (e : SyntaxError) : Prop :=
  InputDecl.defaultTokens? source s.line = some [] ∧ e.cause.isDefault = true

theorem Blames.isGuard {s : Statement} {e : SyntaxError} (h : Blames source s e) : e.cause.isGuard = false := by
  cases h with
  | token hfault => exact hfault.guard
  | default _ _ _ he => rw [he]; rfl

theorem line_subset (s : Statement) : s.line ⊆ s.tokens := by
  cases s
  exact subset_append_left _ _

section

variable {source : List Char} {s : Statement} (hne : ∀ line ∈ s.lines, line ≠ [])

include hne

theorem line_ne_nil : s.line ≠ [] := by
  cases s
  exact hne _ (by simp [Statement.line])

variable {fault : SyntaxFault}

theorem span_faultAt (hguard : fault.isGuard = false) (hdefault : fault.isDefault = false) :
    FaultAt s.tokens ⟨s.span, fault⟩ :=
  ⟨hguard, hdefault, (span_begins (line_ne_nil hne)).mono s.line_subset⟩

theorem head_faultAt (hguard : fault.isGuard = false) (hdefault : fault.isDefault = false) :
    FaultAt s.tokens ⟨headSpan s.line, fault⟩ :=
  ⟨hguard, hdefault, (headSpan_begins (line_ne_nil hne)).mono s.line_subset⟩

theorem block_faultAt {block : Span} (h : s.bodySpan? = some block) (hguard : fault.isGuard = false)
    (hdefault : fault.isDefault = false) : FaultAt s.tokens ⟨block, fault⟩ := by
  cases s with
  | mk line body =>
    refine ⟨hguard, hdefault, (blockSpan_begins (fun l hl => hne l (mem_cons_of_mem _ hl)) h).mono ?_⟩
    exact subset_append_right _ _

theorem requireBlock_faults (what : String) : Faults (FaultAt s.tokens) (s.requireBlock what) := by
  unfold requireBlock
  split
  · trivial
  · exact head_faultAt hne rfl rfl

theorem checkBlock_faults (form : StatementForm) : Faults (FaultAt s.tokens) (s.checkBlock form) := by
  unfold checkBlock
  split
  · next hblock =>
    split
    · trivial
    · exact block_faultAt hne hblock rfl rfl
  · trivial

theorem requireTop_faults (p : Place) (what : String) : Faults (FaultAt s.tokens) (requireTop p s what) := by
  unfold requireTop
  split
  · exact span_faultAt hne rfl rfl
  · trivial

theorem input_blames (hform : s.form source = .input) (h : isInput source s.line = true) :
    Faults (Blames source s) (InputDecl.ofLine source s.line s.span) := by
  unfold isInput at h
  unfold InputDecl.ofLine
  cases hassign : Assignment.ofLine? source s.line with
  | none => simp [hassign] at h
  | some a =>
    rw [hassign, Option.any_some, Bool.and_eq_true, Bool.and_eq_true] at h
    obtain ⟨⟨-, htarget⟩, hcall⟩ := h
    obtain ⟨⟨kind, start⟩, hstart⟩ := Option.isSome_iff_exists.1 hcall
    cases hname : a.target with
    | tuple names => simp [hname] at htarget
    | single name =>
      obtain ⟨args, close, hargs⟩ := InputDecl.arguments_of_call hstart
      have hok : Yields (fun x => x = (args, close)) (Blames source s) (arguments a.value start) := by
        rw [hargs]
        rfl
      dsimp only
      rw [hstart]
      rw [hname]
      refine hok.bind ?_
      rintro _ rfl
      split
      · next value hvalue =>
        have htokens : InputDecl.defaultTokens? source s.line = some value := by
          simp [InputDecl.defaultTokens?, hassign, hstart, hargs, Except.toOption, hvalue]
        have hsub : value ⊆ s.line := by
          obtain ⟨n, hn⟩ := ofLine?_value hassign
          have hrun := lookup_run (arguments_run hargs) hvalue
          exact List.Subset.trans hrun.subset (hn ▸ drop_subset n s.line)
        exact (InputDecl.default?_faults fun accepted =>
          Blames.default hform htokens hsub rfl).bind fun _ _ => trivial
      · exact .token (span_faultAt hne rfl rfl)

/-! ## Functions and types -/

omit hne in
theorem parameter_faults {part : List Token} (hsub : part ⊆ ts) (hpart : part ≠ []) :
    Faults (FaultAt ts) (parameter source part) := by
  have hname : ∀ {declared : List Token} {name : Token}, declared ⊆ part →
      declared.getLast? = some name → FaultAt ts ⟨name.span, .parameterName⟩ :=
    fun hdeclared hlast => ⟨rfl, rfl, .token (hsub (hdeclared (mem_of_getLast? hlast)))⟩
  unfold parameter
  cases part.findIdx? (·.isOperator .assign) with
  | none =>
    dsimp only
    split
    · exact ⟨rfl, rfl, (headSpan_begins hpart).mono hsub⟩
    · next name hlast =>
      split
      · trivial
      · exact hname (List.Subset.refl _) hlast
  | some i =>
    dsimp only
    split
    · exact ⟨rfl, rfl, (headSpan_begins hpart).mono hsub⟩
    · next name hlast =>
      split
      · trivial
      · exact hname (take_subset i part) hlast

theorem function_faults (h : isFunction s.line = true) : Faults (FaultAt s.tokens) (s.function source) := by
  rw [isFunction, Bool.and_eq_true] at h
  obtain ⟨-, h⟩ := h
  unfold function
  dsimp only
  cases hclose : matchingClose? s.line 1 with
  | none =>
    rw [hclose] at h
    cases h
  | some close =>
    rw [hclose, Option.any_some] at h
    have hparameter : ∀ part ∈ parts s.line 1 close, Faults (FaultAt s.tokens) (parameter source part) := by
      intro part hpart
      have hfull := (mem_filter.1 hpart).2
      have hsub := List.Subset.trans (parts_run hclose hpart).subset s.line_subset
      exact parameter_faults hsub (by simpa using hfull)
    refine (Yields.mapM hparameter).bind fun params _ => ?_
    split
    · trivial
    · trivial
    · next hblock => exact block_faultAt hne hblock rfl rfl
    · cases harrow : (s.line)[close + 1]? with
      | none =>
        rw [harrow] at h
        cases h
      | some arrow => exact ⟨rfl, rfl, .token (s.line_subset (mem_of_getElem? harrow))⟩

theorem typeDecl_faults : Faults (FaultAt s.tokens) s.typeDecl := by
  unfold typeDecl
  split
  · trivial
  · exact span_faultAt hne rfl rfl

/-! ## Orders and plots -/

omit hne in
theorem pastCall_faults (close : Nat) : Faults (FaultAt s.tokens) (pastCall s.line close) := by
  unfold pastCall
  split
  · next extra hextra =>
    exact ⟨rfl, rfl, .token (s.line_subset (mem_of_getElem? hextra))⟩
  · trivial

theorem argument_faultAt (hv : v ⊆ s.line) (hguard : fault.isGuard = false)
    (hdefault : fault.isDefault = false) : FaultAt s.tokens ⟨(span? v).getD s.span, fault⟩ := by
  cases hspan : span? v with
  | none => exact span_faultAt hne hguard hdefault
  | some span =>
    have hsub := List.Subset.trans hv s.line_subset
    exact ⟨hguard, hdefault, (span?_begins hspan).mono hsub⟩

theorem literalArgument_faults {α : Type} {read : List Token → Option α} {missing : SyntaxFault} {needed : Bool}
    (hguard : fault.isGuard = false ∧ missing.isGuard = false)
    (hdefault : fault.isDefault = false ∧ missing.isDefault = false) (hvalue : ∀ v, value = some v → v ⊆ s.line) :
    Faults (FaultAt s.tokens) (literalArgument read fault needed missing value s.span) := by
  unfold literalArgument
  split
  · next v =>
    split
    · trivial
    · exact argument_faultAt hne (hvalue v rfl) hguard.1 hdefault.1
  · split
    · exact span_faultAt hne hguard.2 hdefault.2
    · trivial

omit hne in
theorem arguments_faultAt (h : (s.line)[start]? = some bracket) :
    Yields (fun args => ∀ arg ∈ args.1, Run s.line arg.value) (FaultAt s.tokens) (arguments s.line start) :=
  (arguments_yields h).mono (fun _ hargs => hargs) fun _ he => he.mono s.line_subset

theorem order_faults (scope : Option BodyRef) (h : isOrder s.line = true) :
    Faults (FaultAt s.tokens) (s.order scope) := by
  obtain ⟨qualifier, name, bracket, rest, hline⟩ :
      ∃ qualifier name bracket rest, s.line = qualifier :: name :: bracket :: rest := by
    unfold isOrder at h
    split at h
    · next heq => exact ⟨_, _, _, _, heq⟩
    · cases h
  have hsecond : (s.line)[1]? = some name := by rw [hline]; rfl
  have hthird : (s.line)[2]? = some bracket := by rw [hline]; rfl
  rw [hline, isOrder, Bool.and_eq_true, Bool.and_eq_true] at h
  obtain ⟨kind, hkind⟩ := Option.isSome_iff_exists.1 h.1.2
  unfold order
  dsimp only
  rw [hsecond, Option.getD_some, hkind]
  refine (arguments_faultAt hthird).bind ?_
  rintro ⟨args, close⟩ hargs
  have hbound : ∀ key v, (bind args kind.positional).lookup key = some v → v ⊆ s.line :=
    fun key v hv => (lookup_run hargs hv).subset
  refine (pastCall_faults close).bind fun _ _ => ?_
  refine (literalArgument_faults hne ⟨rfl, rfl⟩ ⟨rfl, rfl⟩ (hbound "id")).bind fun id _ => ?_
  refine (literalArgument_faults hne ⟨rfl, rfl⟩ ⟨rfl, rfl⟩ (hbound "direction")).bind fun direction _ => ?_
  trivial

theorem plot_faults (scope : Option BodyRef)
    (h : isCallOf (fun name => (PlotKind.ofName? name).isSome) s.line = true) :
    Faults (FaultAt s.tokens) (s.plot scope) := by
  obtain ⟨name, bracket, rest, hline⟩ : ∃ name bracket rest, s.line = name :: bracket :: rest := by
    unfold isCallOf at h
    split at h
    · next heq => exact ⟨_, _, _, heq⟩
    · cases h
  have hfirst : s.line.head? = some name := by rw [hline]; rfl
  have hsecond : (s.line)[1]? = some bracket := by rw [hline]; rfl
  rw [hline, isCallOf, Bool.and_eq_true, Bool.and_eq_true] at h
  obtain ⟨kind, hkind⟩ := Option.isSome_iff_exists.1 h.1.2
  unfold plot
  dsimp only
  rw [hfirst, Option.getD_some, hkind]
  refine (arguments_faultAt hsecond).bind fun args _ => ?_
  refine (pastCall_faults args.2).bind fun _ _ => ?_
  split
  · exact span_faultAt hne rfl rfl
  · trivial

omit hne in
theorem varDecl_faults (scope : Option BodyRef) (h : (Assignment.ofLine? source s.line).isSome = true) :
    Faults (FaultAt s.tokens) (s.varDecl source scope) := by
  obtain ⟨a, ha⟩ := Option.isSome_iff_exists.1 h
  unfold varDecl
  rw [ha]
  dsimp only
  split
  · trivial
  · refine ⟨rfl, rfl, .token (s.line_subset ?_)⟩
    obtain ⟨_, _, -, hsign, -⟩ := Assignment.ofLine?_eq_some ha
    exact mem_of_getElem? hsign

/-! ## Single statements -/

theorem add_blames (p : Place) (r : Progress) : Faults (Blames source s) (r.add source p s (s.form source)) := by
  have hfits : (s.form source).Fits source s.line := fits_ofLine source s.line
  have htoken : ∀ {α : Type} {x : Except SyntaxError α}, Faults (FaultAt s.tokens) x → Faults (Blames source s) x :=
    fun h => h.mono (fun _ _ => trivial) fun _ he => .token he
  cases hform : s.form source with
  | header =>
    refine (htoken (requireTop_faults hne p _)).bind fun _ _ => ?_
    split
    · exact .token (span_faultAt hne rfl rfl)
    · trivial
  | input =>
    rw [hform] at hfits
    refine (htoken (requireTop_faults hne p _)).bind fun _ _ => ?_
    exact (input_blames hne hform hfits).bind fun _ _ => trivial
  | function =>
    rw [hform] at hfits
    refine (htoken (requireTop_faults hne p _)).bind fun _ _ => ?_
    exact (htoken (function_faults hne hfits)).bind fun _ _ => trivial
  | typeDecl => exact (htoken (typeDecl_faults hne)).bind fun _ _ => trivial
  | loop | switch => exact (htoken (requireBlock_faults hne _)).bind fun _ _ => trivial
  | order =>
    rw [hform] at hfits
    exact (htoken (order_faults hne p.scope hfits)).bind fun _ _ => trivial
  | plot =>
    rw [hform] at hfits
    exact (htoken (plot_faults hne p.scope hfits)).bind fun _ _ => trivial
  | assignment =>
    rw [hform] at hfits
    exact (htoken (varDecl_faults p.scope hfits)).bind fun _ _ => trivial
  | method | importDecl | conditionalExpr | alert | drawing | expression | condition | alternative => trivial

omit hne in
theorem predicate_faults {keyword : Span} (h : keyword.Begins s.tokens) (ts : List Token) :
    Faults (FaultAt s.tokens) (predicate keyword ts) := by
  unfold predicate
  split
  · trivial
  · exact ⟨rfl, rfl, h⟩

end

end Statement

end ChartScript
