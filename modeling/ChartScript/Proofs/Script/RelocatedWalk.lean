import ChartScript.Proofs.Script.Relocated
/-!
# Scripts at other places

A tree of statements whose lines are moved is walked over as before: the same statements succeed, and
what they declare has its places moved. So does the tree itself follow its tokens, and so do the
lists of names that are used and called.
-/
namespace ChartScript

open List Line

/-! ## Declarations -/

def VarDecl.relocate (φ : Span → Span) (d : VarDecl) : VarDecl :=
  { d with value := φ d.value, span := φ d.span }

def FuncParam.relocate (φ : Span → Span) (p : FuncParam) : FuncParam :=
  { p with default := p.default.map φ }

def FuncDecl.relocate (φ : Span → Span) (f : FuncDecl) : FuncDecl :=
  { f with params := f.params.map (·.relocate φ), body := φ f.body, span := φ f.span }

def OrderCall.relocate (φ : Span → Span) (o : OrderCall) : OrderCall :=
  { o with
    quantity := o.quantity.map φ
    when := o.when.map φ
    stop := o.stop.map φ
    limit := o.limit.map φ
    span := φ o.span }

def PlotCall.relocate (φ : Span → Span) (p : PlotCall) : PlotCall :=
  { p with series := p.series.map φ, color := p.color.map φ, span := φ p.span }

def Condition.relocate (φ : Span → Span) (c : Condition) : Condition :=
  { c with
    predicate := φ c.predicate
    trueBody := φ c.trueBody
    falseBody := c.falseBody.map φ
    span := φ c.span }

def TypeDecl.relocate (φ : Span → Span) (d : TypeDecl) : TypeDecl :=
  { d with span := φ d.span }

def OtherStatement.relocate (φ : Span → Span) (o : OtherStatement) : OtherStatement :=
  { o with span := φ o.span }

def MemberUse.relocate (φ : Span → Span) (u : MemberUse) : MemberUse :=
  { u with span := φ u.span }

def Declarations.relocate (φ : Span → Span) (d : Declarations) : Declarations where
  inputs := d.inputs.map (·.relocate φ)
  varDecls := d.varDecls.map (·.relocate φ)
  functions := d.functions.map (·.relocate φ)
  orders := d.orders.map (·.relocate φ)
  plots := d.plots.map (·.relocate φ)
  conditions := d.conditions.map (·.relocate φ)
  types := d.types.map (·.relocate φ)
  others := d.others.map (·.relocate φ)

namespace Statement

def Progress.relocate (φ : Span → Span) (r : Progress) : Progress :=
  { r with declared := r.declared.relocate φ }

/-! ## Statements -/

mutual

def relocate (φ : Span → Span) : Statement → Statement
  | mk line body => mk (line.map (·.relocate φ)) (relocateAll φ body)

def relocateAll (φ : Span → Span) : List Statement → List Statement
  | [] => []
  | s :: rest => s.relocate φ :: relocateAll φ rest

end

variable {φ : Span → Span}

@[simp] theorem relocate_mk (line : List Token) (body : List Statement) :
    (mk line body).relocate φ = mk (line.map (·.relocate φ)) (relocateAll φ body) := by
  rw [relocate]

theorem relocateAll_eq (ss : List Statement) : relocateAll φ ss = ss.map (·.relocate φ) := by
  induction ss with
  | nil => rw [relocateAll, map_nil]
  | cons s ss ih => rw [relocateAll, ih, map_cons]

@[simp] theorem relocate_line (s : Statement) : (s.relocate φ).line = s.line.map (·.relocate φ) := by
  cases s
  rfl

mutual

theorem span_relocate (hφ : Span.Respects φ) : (s : Statement) → (∀ line ∈ s.lines, line ≠ []) →
    (s.relocate φ).span = φ s.span
  | mk line body, h => by
    obtain ⟨hline, hbody⟩ := forall_mem_cons.1 h
    rw [relocate_mk, span, span, span?_relocate hφ, blockSpan_relocate hφ body hbody]
    obtain ⟨own, hown⟩ := span?_isSome hline
    rw [hown]
    cases blockSpan? body with
    | none => rfl
    | some inner => exact (hφ own inner).symm

theorem blockSpan_relocate (hφ : Span.Respects φ) : (ss : List Statement) →
    (∀ line ∈ linesAll ss, line ≠ []) → blockSpan? (relocateAll φ ss) = (blockSpan? ss).map φ
  | [], _ => by rw [relocateAll, blockSpan?, Option.map_none]
  | s :: rest, h => by
    have hfirst := span_relocate hφ s fun line hl => h line (mem_append_left _ hl)
    have hlast := lastSpan_relocate hφ rest fun line hl => h line (mem_append_right _ hl)
    rw [relocateAll, blockSpan?, blockSpan?, hfirst, hlast]
    cases lastSpan? rest with
    | none => rfl
    | some last => simp [hφ s.span last]

theorem lastSpan_relocate (hφ : Span.Respects φ) : (ss : List Statement) →
    (∀ line ∈ linesAll ss, line ≠ []) → lastSpan? (relocateAll φ ss) = (lastSpan? ss).map φ
  | [], _ => by rw [relocateAll, lastSpan?, Option.map_none]
  | s :: rest, h => by
    have hfirst := span_relocate hφ s fun line hl => h line (mem_append_left _ hl)
    have hlast := lastSpan_relocate hφ rest fun line hl => h line (mem_append_right _ hl)
    rw [relocateAll, lastSpan?, lastSpan?, hfirst, hlast]
    cases lastSpan? rest with
    | none => rfl
    | some last => rfl

end

/-- Each line has a token, and its text is found again at its new place. -/
def Movable (φ : Span → Span) (source source' : List Char) (lines : List (List Token)) : Prop :=
  ∀ line ∈ lines, line ≠ [] ∧ Keeps φ source source' line

section

variable {source source' : List Char} {s : Statement}

theorem Movable.span (hφ : Span.Respects φ) (h : Movable φ source source' s.lines) :
    (s.relocate φ).span = φ s.span :=
  span_relocate hφ s fun line hl => (h line hl).1

theorem Movable.bodySpan (hφ : Span.Respects φ) (h : Movable φ source source' s.lines) :
    (s.relocate φ).bodySpan? = s.bodySpan?.map φ := by
  cases s with
  | mk line body =>
    exact blockSpan_relocate hφ body fun line hl => (h line (mem_cons_of_mem _ hl)).1

theorem Movable.line (h : Movable φ source source' s.lines) : Keeps φ source source' s.line := by
  cases s with
  | mk line body =>
    exact (h line mem_cons_self).2

theorem pastCall_relocate (ts : List Token) (close : Nat) :
    Mirrors id (pastCall ts close) (pastCall (ts.map (·.relocate φ)) close) := by
  rw [pastCall, pastCall, getElem?_map]
  cases (ts)[close + 1]? with
  | none => exact .ok ()
  | some extra => exact .error _ _

theorem predicate_relocate (hφ : Span.Respects φ) (ts : List Token) (keyword keyword' : Span) :
    Mirrors φ (predicate keyword ts) (predicate keyword' (ts.map (·.relocate φ))) := by
  rw [predicate, predicate, span?_relocate hφ]
  cases span? ts with
  | none => exact .error _ _
  | some span => exact .ok span

theorem requireBlock_relocate (hφ : Span.Respects φ) (h : Movable φ source source' s.lines)
    (what : String) : Mirrors φ (s.requireBlock what) ((s.relocate φ).requireBlock what) := by
  rw [requireBlock, requireBlock, h.bodySpan hφ]
  cases s.bodySpan? with
  | none => exact .error _ _
  | some span => exact .ok span

theorem checkBlock_relocate (hφ : Span.Respects φ) (h : Movable φ source source' s.lines)
    (form : StatementForm) : Mirrors id (s.checkBlock form) ((s.relocate φ).checkBlock form) := by
  rw [checkBlock, checkBlock, h.bodySpan hφ]
  cases s.bodySpan? with
  | none => exact .ok ()
  | some block =>
    cases form.takesBlock with
    | true => exact .ok ()
    | false => exact .error _ _

def declaredParameter (source : List Char) (ts declared : List Token) (default : Option Span) :
    Except SyntaxError FuncParam :=
  match declared.getLast? with
  | none => .error ⟨headSpan ts, .parameterName⟩
  | some name =>
    if name.kind = .identifier then
      .ok {
        name := name.text
        typeHint := (span? declared.dropLast).map fun s =>
          String.ofList ((Text.slice source s.start s.stop).getD [])
        default := default }
    else .error ⟨name.span, .parameterName⟩

theorem parameter_eq (source : List Char) (ts : List Token) : parameter source ts =
    match ts.findIdx? (·.isOperator .assign) with
    | some i => declaredParameter source ts (ts.take i) (span? (ts.drop (i + 1)))
    | none => declaredParameter source ts ts none := by
  unfold parameter
  cases ts.findIdx? (·.isOperator .assign) <;> rfl

variable {ts part : List Token}

theorem declaredParameter_relocate {declared : List Token} (hφ : Span.Respects φ)
    (h : Keeps φ source source' ts) (hsub : declared ⊆ ts) (default : Option Span) :
    Mirrors (·.relocate φ) (declaredParameter source ts declared default) (declaredParameter source' (ts.map
    (·.relocate φ)) (declared.map (·.relocate φ)) (default.map φ)) := by
  have hkeeps := h.mono (List.Subset.trans (dropLast_subset declared) hsub)
  rw [declaredParameter, declaredParameter, getLast?_map, ← map_dropLast, Assignment.textOf_relocate hφ hkeeps]
  cases declared.getLast? with
  | none => exact .error _ _
  | some name =>
    simp only [Option.map_some, Token.relocate_kind, Token.relocate_text]
    split
    · exact .ok _
    · exact .error _ _

theorem parameter_relocate (hφ : Span.Respects φ) (h : Keeps φ source source' ts) :
    Mirrors (·.relocate φ) (parameter source ts) (parameter source' (ts.map (·.relocate φ))) := by
  have hsign : (ts.map (·.relocate φ)).findIdx? (·.isOperator .assign) = ts.findIdx? (·.isOperator .assign) := by
    rw [findIdx?_map]
    rfl
  rw [parameter_eq, parameter_eq, hsign]
  cases ts.findIdx? (·.isOperator .assign) with
  | none => exact declaredParameter_relocate hφ h (List.Subset.refl _) none
  | some i =>
    have hdeclared := declaredParameter_relocate hφ h (take_subset i ts) (span? (ts.drop (i + 1)))
    rwa [map_take, ← span?_relocate hφ, map_drop] at hdeclared

theorem subset_of_mem_splitAtCommas {depth : Int}
    (h : part ∈ splitAtCommas depth ts) : part ⊆ ts := by
  induction ts generalizing depth part with
  | nil =>
    rw [splitAtCommas, mem_singleton] at h
    rw [h]
    exact nil_subset _
  | cons t ts ih =>
    rw [splitAtCommas] at h
    split at h
    · rcases mem_cons.1 h with rfl | h
      · exact nil_subset _
      · exact List.Subset.trans (ih h) (subset_cons_self t ts)
    · split at h
      · rw [mem_singleton] at h
        rw [h]
        exact cons_subset_cons t (nil_subset ts)
      · next first more heq =>
        rcases mem_cons.1 h with rfl | h
        · exact cons_subset_cons t (ih (by rw [heq]; exact mem_cons_self))
        · have hrest := ih (by rw [heq]; exact mem_cons_of_mem _ h)
          exact List.Subset.trans hrest (subset_cons_self t ts)

theorem subset_of_mem_parts {start close : Nat}
    (h : part ∈ parts ts start close) : part ⊆ ts := by
  have hpart := subset_of_mem_splitAtCommas (mem_filter.1 h).1
  exact List.Subset.trans hpart (List.Subset.trans (drop_subset _ _) (take_subset _ _))

theorem function_relocate (hφ : Span.Respects φ) (h : Movable φ source source' s.lines) :
    Mirrors (·.relocate φ) (s.function source) ((s.relocate φ).function source') := by
  unfold function
  dsimp only
  rw [relocate_line, matchingClose?_relocate, h.bodySpan hφ, h.span hφ]
  have hname : ((s.line.map (·.relocate φ)).head?.map (·.text)).getD "" =
      (s.line.head?.map (·.text)).getD "" := by
    cases s.line <;> rfl
  cases hclose : matchingClose? s.line 1 with
  | none => exact .error _ _
  | some close =>
    simp only [parts_relocate, ← map_drop, span?_relocate hφ, hname]
    refine (Mirrors.mapM fun part hpart =>
      parameter_relocate hφ (h.line.mono (subset_of_mem_parts hpart))).bind fun params => ?_
    cases span? (s.line.drop (close + 2)) with
    | none =>
      cases s.bodySpan? with
      | none => exact .error _ _
      | some block => exact .ok _
    | some inline =>
      cases s.bodySpan? with
      | none => exact .ok _
      | some block => exact .error _ _

theorem typeDecl_relocate (hφ : Span.Respects φ) (h : Movable φ source source' s.lines) :
    Mirrors (·.relocate φ) s.typeDecl (s.relocate φ).typeDecl := by
  rw [typeDecl, typeDecl, relocate_line, find?_map, h.span hφ]
  cases hname : s.line.find? (·.kind == .identifier) with
  | none =>
    have hnone : s.line.find? ((·.kind == .identifier) ∘ (·.relocate φ)) = none := hname
    rw [hnone]
    exact .error _ _
  | some name =>
    have hsome : s.line.find? ((·.kind == .identifier) ∘ (·.relocate φ)) = some name := hname
    rw [hsome]
    exact .ok _

theorem literalArgument_relocate {α : Type} {read : List Token → Option α}
    (hread : ∀ v, read (v.map (·.relocate φ)) = read v) (malformed : SyntaxFault) (needed : Bool)
    (missing : SyntaxFault) (value : Option (List Token)) (span span' : Span) :
    Mirrors id (literalArgument read malformed needed missing value span)
      (literalArgument read malformed needed missing (value.map (List.map (·.relocate φ))) span') := by
  unfold literalArgument
  cases value with
  | none =>
    cases needed with
    | true => exact .error _ _
    | false => exact .ok _
  | some v =>
    simp only [Option.map_some, hread]
    cases read v with
    | none => exact .error _ _
    | some x => exact .ok _

theorem text_getD_relocate (t : Option Token) (default : Token) :
    ((t.map (·.relocate φ)).getD default).text = (t.getD default).text := by
  cases t <;> rfl

theorem place_relocate (hφ : Span.Respects φ) (value : Option (List Token)) :
    (value.map (List.map (·.relocate φ))).bind span? = (value.bind span?).map φ := by
  cases value with
  | none => rfl
  | some v => exact span?_relocate hφ v

theorem literal_relocate (value : Option (List Token)) :
    (value.map (List.map (·.relocate φ))).bind Literal.text? = value.bind Literal.text? := by
  cases value with
  | none => rfl
  | some v => exact Literal.text?_relocate v

section

variable (hφ : Span.Respects φ) (h : Movable φ source source' s.lines) (scope : Option BodyRef)
include hφ h scope

theorem order_relocate : Mirrors (·.relocate φ) (s.order scope) ((s.relocate φ).order scope) := by
  unfold order
  simp only [relocate_line, getElem?_map, text_getD_relocate, h.span hφ]
  generalize ((s.line)[1]?.getD _).text = name
  cases OrderKind.ofName? name with
  | none => exact .error _ _
  | some kind =>
    refine (arguments_relocate s.line 2).bind fun found => ?_
    obtain ⟨args, close⟩ := found
    refine (pastCall_relocate s.line close).bind fun _ => ?_
    simp only [Prod.map_apply, lookup_bind_relocate, place_relocate hφ, literal_relocate]
    refine (literalArgument_relocate Literal.text?_relocate _ _ _ _ s.span (φ s.span)).bind fun id => ?_
    refine (literalArgument_relocate Literal.direction?_relocate _ _ _ _ s.span (φ s.span)).bind fun direction => ?_
    exact .ok _

theorem plot_relocate : Mirrors (·.relocate φ) (s.plot scope) ((s.relocate φ).plot scope) := by
  unfold plot
  simp only [relocate_line, head?_map, text_getD_relocate, h.span hφ]
  generalize (s.line.head?.getD _).text = name
  cases PlotKind.ofName? name with
  | none => exact .error _ _
  | some kind =>
    refine (arguments_relocate s.line 1).bind fun found => ?_
    obtain ⟨args, close⟩ := found
    refine (pastCall_relocate s.line close).bind fun _ => ?_
    have hseries : (kind.seriesParameter?.bind fun key =>
        (((bind args kind.positional).lookup key).bind span?).map φ) =
          (kind.seriesParameter?.bind fun key =>
            ((bind args kind.positional).lookup key).bind span?).map φ := by
      cases kind.seriesParameter? <;> rfl
    simp only [Prod.map_apply, lookup_bind_relocate, place_relocate hφ, literal_relocate,
      hseries, Option.isNone_map]
    split
    · exact .error _ _
    · exact .ok _

theorem varDecl_relocate :
    Mirrors (·.relocate φ) (s.varDecl source scope) ((s.relocate φ).varDecl source' scope) := by
  unfold varDecl
  rw [relocate_line, Assignment.ofLine?_relocate hφ h.line, h.span hφ]
  cases Assignment.ofLine? source s.line with
  | none => exact .error _ _
  | some a =>
    simp only [Option.map_some, Assignment.relocate, span?_relocate hφ]
    cases span? a.value with
    | none => exact .error _ _
    | some value => exact .ok _

end

/-! ## The walk -/

theorem requireTop_relocate (p : Place) (s s' : Statement) (what : String) :
    Mirrors id (requireTop p s what) (requireTop p s' what) := by
  unfold requireTop
  split
  · exact .error _ _
  · exact .ok ()

theorem addOther_relocate (hφ : Span.Respects φ) (h : Movable φ source source' s.lines)
    (r : Progress) (kind : OtherKind) (p : Place) :
    (r.relocate φ).addOther kind p (s.relocate φ) = (r.addOther kind p s).relocate φ := by
  simp [Progress.addOther, Progress.relocate, Declarations.relocate, OtherStatement.relocate, h.span hφ]

theorem add_relocate (hφ : Span.Respects φ) (h : Movable φ source source' s.lines) (p : Place)
    (r : Progress) (form : StatementForm) :
    Mirrors (·.relocate φ) (r.add source p s form) ((r.relocate φ).add source' p (s.relocate φ) form) := by
  have hother := addOther_relocate hφ h r
  cases form with
  | header =>
    refine (requireTop_relocate p s _ _).bind fun _ => ?_
    show Mirrors _ (if r.opened = true then _ else _) (if r.opened = true then _ else _)
    split
    · exact .error _ _
    · exact .ok _
  | input =>
    refine (requireTop_relocate p s _ _).bind fun _ => ?_
    rw [relocate_line, h.span hφ]
    refine (InputDecl.ofLine_relocate hφ h.line s.span).bind fun x => ?_
    simp only [Progress.relocate, Declarations.relocate, ← map_singleton, ← map_append]
    exact .ok _
  | function =>
    refine (requireTop_relocate p s _ _).bind fun _ => ?_
    refine (function_relocate hφ h).bind fun x => ?_
    simp only [Progress.relocate, Declarations.relocate, ← map_singleton, ← map_append]
    exact .ok _
  | typeDecl =>
    refine (typeDecl_relocate hφ h).bind fun x => ?_
    simp only [Progress.relocate, Declarations.relocate, ← map_singleton, ← map_append]
    exact .ok _
  | loop =>
    have hfor : (s.line.map (·.relocate φ)).head?.any (·.isKeyword .for_) =
        s.line.head?.any (·.isKeyword .for_) := by
      cases s.line <;> rfl
    refine (requireBlock_relocate hφ h "loop").bind fun _ => ?_
    rw [relocate_line, hfor, hother]
    exact .ok _
  | switch =>
    refine (requireBlock_relocate hφ h "`switch`").bind fun _ => ?_
    rw [hother]
    exact .ok _
  | order =>
    refine (order_relocate hφ h p.scope).bind fun x => ?_
    simp only [Progress.relocate, Declarations.relocate, ← map_singleton, ← map_append]
    exact .ok _
  | plot =>
    refine (plot_relocate hφ h p.scope).bind fun x => ?_
    simp only [Progress.relocate, Declarations.relocate, ← map_singleton, ← map_append]
    exact .ok _
  | assignment =>
    refine (varDecl_relocate hφ h p.scope).bind fun x => ?_
    simp only [Progress.relocate, Declarations.relocate, ← map_singleton, ← map_append]
    exact .ok _
  | method | importDecl | conditionalExpr | alert | drawing | expression =>
    simp only [Progress.add, hother]
    exact .ok _
  | condition | alternative => exact .ok _

theorem addCondition_relocate (r : Progress) (c : Condition) :
    (r.relocate φ).addCondition (c.relocate φ) = (r.addCondition c).relocate φ := by
  simp [Progress.addCondition, Progress.relocate, Declarations.relocate]

theorem setFalseBody_relocate (hφ : Span.Respects φ) (r : Progress) (chain : List Nat) (span : Span) :
    (r.relocate φ).setFalseBody chain (φ span) = (r.setFalseBody chain span).relocate φ := by
  simp only [Progress.setFalseBody, Progress.relocate, Declarations.relocate]
  congr 2
  apply ext_getElem?
  intro i
  simp only [getElem?_mapIdx, getElem?_map]
  cases (r.declared.conditions)[i]? with
  | none => rfl
  | some c =>
    simp only [Option.map_some, Condition.relocate, Option.some.injEq]
    split
    · cases c.falseBody with
      | none => rfl
      | some known =>
        simp only [Option.map_some]
        split
        · rfl
        · simp [hφ known span]
    · rfl

@[simp] theorem length_conditions_relocate (r : Progress) :
    (r.relocate φ).declared.conditions.length = r.declared.conditions.length :=
  length_map _

mutual

theorem collect_relocate (hφ : Span.Respects φ) (p : Place) (r : Progress) : (s : Statement) →
    Movable φ source source' s.lines →
    Mirrors (Prod.map (·.relocate φ) id) (collect source p r s) (collect source' p (r.relocate φ) (s.relocate φ))
  | mk line body, h => by
    have hspan := h.span hφ
    have hblock := requireBlock_relocate hφ h
    have hcheck := checkBlock_relocate hφ h
    have hadd := add_relocate hφ h p r
    have hbody := fun line hl => h line (by rw [lines_mk]; exact mem_cons_of_mem _ hl)
    have hform := StatementForm.ofLine_relocate hφ h.line
    simp only [relocate_mk] at hspan hblock hcheck hadd ⊢
    rw [collect, collect, show StatementForm.ofLine source' (line.map (·.relocate φ)) =
      StatementForm.ofLine source line from hform]
    refine (checkBracketsFrom_relocate line []).bind fun _ => ?_
    refine (hcheck _).bind fun _ => ?_
    cases StatementForm.ofLine source line with
    | condition =>
      simp only [← map_drop]
      refine (predicate_relocate hφ (line.drop 1) _ _).bind fun predicate => ?_
      refine (hblock "`if`").bind fun block => ?_
      rw [length_conditions_relocate, hspan]
      have hcondition := addCondition_relocate (φ := φ) r
        ⟨predicate, block, none, p.depth, p.scope, none, (mk line body).span⟩
      simp only [Condition.relocate, Option.map_none] at hcondition
      rw [hcondition]
      refine (collectAll_relocate hφ _ _ body hbody).bind fun r' => ?_
      exact .ok _
    | alternative =>
      cases p.chain.head? with
      | none => exact .error _ _
      | some head =>
        refine (hblock "`else`").bind fun block => ?_
        simp only [getElem?_map, Option.any_map, ← map_drop, Token.relocate_isKeyword]
        split
        · next hif =>
          obtain ⟨second, hsecond⟩ : ∃ second, (line)[1]? = some second := by
            cases hsecond : (line)[1]? with
            | none => rw [hsecond] at hif; cases hif
            | some second => exact ⟨second, rfl⟩
          have hthrough := (hφ second.span (mk line body).span).symm
          simp only [hsecond, Option.map_some, Option.getD_some, Token.relocate_span, hspan, hthrough,
            setFalseBody_relocate hφ, length_conditions_relocate]
          refine (predicate_relocate hφ (line.drop 2) _ _).bind fun predicate => ?_
          have hcondition := addCondition_relocate (φ := φ)
            (r.setFalseBody p.chain (second.span.through (mk line body).span))
            ⟨predicate, block, none, p.depth, p.scope, some head, second.span.through (mk line body).span⟩
          simp only [Condition.relocate, Option.map_none] at hcondition
          rw [hcondition]
          refine (collectAll_relocate hφ _ _ body hbody).bind fun r' => ?_
          exact .ok _
        · rw [setFalseBody_relocate hφ]
          refine (collectAll_relocate hφ _ _ body hbody).bind fun r' => ?_
          exact .ok _
    | _ =>
      refine (hadd _).bind fun r' => ?_
      exact .ok _

theorem collectAll_relocate (hφ : Span.Respects φ) (p : Place) (r : Progress) :
    (ss : List Statement) → Movable φ source source' (linesAll ss) →
    Mirrors (·.relocate φ) (collectAll source p r ss) (collectAll source' p (r.relocate φ) (relocateAll φ ss))
  | [], _ => by
    exact .ok r
  | s :: rest, h => by
    rw [relocateAll, collectAll, collectAll]
    refine (collect_relocate hφ p r s fun line hl => h line (mem_append_left _ hl)).bind fun found => ?_
    exact collectAll_relocate hφ _ _ rest fun line hl => h line (mem_append_right _ hl)

end

end

/-! ## The tree -/

def Item.relocate (φ : Span → Span) : Item → Item
  | line tokens => line (tokens.map (·.relocate φ))
  | indent => indent
  | dedent => dedent

theorem items_relocate (ts : List Token) : items (ts.map (·.relocate φ)) = (items ts).map (·.relocate φ) := by
  induction ts with
  | nil => rfl
  | cons t ts ih =>
    have hnext : (ts.map (·.relocate φ)).head?.any (!isLayout ·) = ts.head?.any (!isLayout ·) := by
      cases ts <;> rfl
    rw [map_cons, items, items, ih, hnext, Token.relocate_kind]
    split
    · rfl
    · rfl
    · rfl
    · rfl
    · cases ts.head?.any (!isLayout ·) with
      | false => rfl
      | true =>
        cases items ts with
        | nil => rfl
        | cons item more => cases item <;> rfl

theorem closeBlock_relocate {f g : List Statement → List Statement → List Statement}
    (h : ∀ ss rest, g (relocateAll φ ss) (relocateAll φ rest) = relocateAll φ (f ss rest))
    (levels : List (List Statement)) :
    closeBlock g (levels.map (relocateAll φ)) = (closeBlock f levels).map (relocateAll φ) := by
  have hnil : relocateAll φ [] = [] := by rw [relocateAll]
  rcases levels with _ | ⟨inner, _ | ⟨outer, levels⟩⟩
  · simp [closeBlock, ← h, hnil]
  · simp [closeBlock, ← h, hnil]
  · simp [closeBlock, h]

theorem levels_line {line : List Token} {rest : List Item}
    (h : ∀ more, rest = .indent :: more → False) : levels (.line line :: rest) =
      match levels rest with
      | block :: outer => (mk line [] :: block) :: outer
      | [] => [[mk line []]] := by
  cases rest with
  | nil => rfl
  | cons item rest =>
    cases item with
    | indent => exact absurd rfl (h rest)
    | line _ => rfl
    | dedent => rfl

theorem not_indent_relocate {is : List Item} (h : ∀ more, is = .indent :: more → False) :
    ∀ more, is.map (·.relocate φ) = .indent :: more → False := by
  intro more hmore
  cases is with
  | nil => cases hmore
  | cons item is =>
    cases item with
    | indent => exact h is rfl
    | line _ => cases hmore
    | dedent => cases hmore

theorem levels_relocate (is : List Item) : levels (is.map (·.relocate φ)) = (levels is).map (relocateAll φ) := by
  fun_induction levels is with
  | case1 => simp [levels, relocateAll]
  | case2 rest ih => rw [map_cons, Item.relocate, levels, ih, map_cons, relocateAll]
  | case3 rest ih =>
    rw [map_cons, Item.relocate, levels, ih]
    exact closeBlock_relocate (by simp [relocateAll_eq]) _
  | case4 line rest ih =>
    rw [map_cons, map_cons, Item.relocate, Item.relocate, levels, ih]
    exact closeBlock_relocate (by simp [relocateAll_eq]) _
  | case5 line rest hrest block outer hl ih | case6 line rest hrest hl ih =>
    rw [map_cons, Item.relocate, levels_line (not_indent_relocate hrest), ih, hl]
    simp [relocateAll_eq]

theorem flatten_relocate (levels : List (List Statement)) :
    (levels.map (relocateAll φ)).flatten = relocateAll φ levels.flatten := by
  simp only [relocateAll_eq, map_flatten]
  congr 2
  funext ss
  exact relocateAll_eq ss

theorem tree_relocate (ts : List Token) : tree (ts.map (·.relocate φ)) = relocateAll φ (tree ts) := by
  rw [tree, items_relocate, levels_relocate, flatten_relocate, tree]

end Statement

/-! ## Names -/

namespace Script

variable {φ : Span → Span}

theorem gather_relocate {α : Type} {find? : Token → List Token → Option α} {f : α → α}
    (h : ∀ t rest, find? (t.relocate φ) (rest.map (·.relocate φ)) = (find? t rest).map f) (ts : List Token) :
    gather find? (ts.map (·.relocate φ)) = (gather find? ts).map f := by
  induction ts with
  | nil => rfl
  | cons t ts ih => rw [map_cons, gather, gather, h, ih, map_append, Option.toList_map]

theorem memberUses_relocate (hφ : Span.Respects φ) (ts : List Token) :
    memberUses (ts.map (·.relocate φ)) = (memberUses ts).map (Prod.map (·.relocate φ) id) := by
  refine gather_relocate (fun qualifier rest => ?_) ts
  cases rest with
  | nil => rfl
  | cons name rest =>
    simp only [map_cons, memberUse?, Token.relocate_kind, Token.relocate_isWord]
    split
    · simp [MemberUse.relocate, hφ qualifier.span name.span, Option.any_map]
    · rfl

theorem calledNames_relocate (ts : List Token) :
    calledNames (ts.map (·.relocate φ)) = (calledNames ts).map (·.relocate φ) := by
  refine gather_relocate (fun name rest => ?_) ts
  simp only [calledName?, Token.relocate_kind, head?_map, Option.any_map,
    Token.relocate_isDelimiter]
  split
  · rfl
  · rfl

end Script

end ChartScript
