import ChartScript.Proofs.Script.Extent
import ChartScript.Proofs.Script.Walk
import ChartScript.Proofs.Token.Words
/-!
# Parsed scripts

What a script that parses came from: the walk over the statement tree of its tokens. A plain
statement of the walk adds one declaration, in one of the ways that `Adds` lists.
-/
namespace ChartScript

variable {source : List Char}

namespace Statement

def otherKind? (s : Statement) : StatementForm → Option OtherKind
  | .method => some .method
  | .importDecl => some .importDecl
  | .loop => some (if s.line.head?.any (·.isKeyword .for_) then .forLoop else .whileLoop)
  | .switch => some .switch
  | .conditionalExpr => some .conditionalExpr
  | .alert => some .alert
  | .drawing => some .drawing
  | .expression => some .expression
  | _ => none

/-- What a plain statement of the given form declares. -/
inductive Adds (source : List Char) (p : Place) (s : Statement) (r : Progress) :
    StatementForm → Progress → Prop
  | header : p.scope = none → r.opened = false → Adds source p s r .header { r with opened := true }
  | input {x : InputDecl} : p.scope = none → InputDecl.ofLine source s.line s.span = .ok x →
      Adds source p s r .input { r with declared.inputs := r.declared.inputs ++ [x] }
  | function {x : FuncDecl} : p.scope = none → s.function source = .ok x →
      Adds source p s r .function { r with declared.functions := r.declared.functions ++ [x] }
  | typeDecl {x : TypeDecl} : s.typeDecl = .ok x →
      Adds source p s r .typeDecl { r with declared.types := r.declared.types ++ [x] }
  | other {form : StatementForm} {kind : OtherKind} : s.otherKind? form = some kind →
      Adds source p s r form (r.addOther kind p s)
  | order {x : OrderCall} : s.order p.scope = .ok x →
      Adds source p s r .order { r with declared.orders := r.declared.orders ++ [x] }
  | plot {x : PlotCall} : s.plot p.scope = .ok x →
      Adds source p s r .plot { r with declared.plots := r.declared.plots ++ [x] }
  | assignment {x : VarDecl} : s.varDecl source p.scope = .ok x →
      Adds source p s r .assignment { r with declared.varDecls := r.declared.varDecls ++ [x] }

variable {s : Statement} {scope : Option BodyRef}

variable {p : Place} {kind : OrderKind} {name : String} {value : Option (List Token)} {span : Span}

theorem requireTop_eq_ok {what : String} (h : requireTop p s what = .ok ()) : p.scope = none := by
  unfold requireTop at h
  split at h
  · cases h
  · next hp => simpa using hp

theorem adds_of_add {r r' : Progress} {form : StatementForm} (hc : form ≠ .condition)
    (ha : form ≠ .alternative) (h : r.add source p s form = .ok r') : Adds source p s r form r' := by
  cases form with
  | header =>
    obtain ⟨⟨⟩, htop, h⟩ := bind_eq_ok.1 h
    split at h
    · obtain ⟨_, hthrow, _⟩ := bind_eq_ok.1 h
      cases hthrow
    · next ho =>
      cases pure_eq_ok.1 h
      exact .header (requireTop_eq_ok htop) (by simpa using ho)
  | input =>
    obtain ⟨⟨⟩, htop, h⟩ := bind_eq_ok.1 h
    obtain ⟨x, hx, rfl⟩ := bind_pure_eq_ok.1 h
    exact .input (requireTop_eq_ok htop) hx
  | function =>
    obtain ⟨⟨⟩, htop, h⟩ := bind_eq_ok.1 h
    obtain ⟨x, hx, rfl⟩ := bind_pure_eq_ok.1 h
    exact .function (requireTop_eq_ok htop) hx
  | typeDecl =>
    obtain ⟨x, hx, rfl⟩ := bind_pure_eq_ok.1 h
    exact .typeDecl hx
  | loop | switch =>
    obtain ⟨_, _, rfl⟩ := bind_pure_eq_ok.1 h
    exact .other rfl
  | order =>
    obtain ⟨x, hx, rfl⟩ := bind_pure_eq_ok.1 h
    exact .order hx
  | plot =>
    obtain ⟨x, hx, rfl⟩ := bind_pure_eq_ok.1 h
    exact .plot hx
  | assignment =>
    obtain ⟨x, hx, rfl⟩ := bind_pure_eq_ok.1 h
    exact .assignment hx
  | method | importDecl | conditionalExpr | alert | drawing | expression =>
    cases h
    exact .other rfl
  | condition => exact absurd rfl hc
  | alternative => exact absurd rfl ha

/-! ## Single declarations -/

theorem order_eq_ok {x : OrderCall} (h : s.order scope = .ok x) :
    ∃ (name : String) (args : List Line.Arg) (close : Nat), let bound := Line.bind args x.kind.positional
      Line.arguments s.line 2 = .ok (args, close) ∧
      literalArgument Literal.text? .orderIdNotText x.kind.needsId (.noOrderId name)
        (bound.lookup "id") s.span = .ok x.id ∧
      literalArgument Literal.direction? .badDirection x.kind.needsDirection (.noDirection name)
        (bound.lookup "direction") s.span = .ok x.direction ∧
      x.quantity = (bound.lookup "qty").bind Line.span? ∧
      x.when = (bound.lookup "when").bind Line.span? ∧
      x.stop = (bound.lookup "stop").bind Line.span? ∧
      x.limit = (bound.lookup "limit").bind Line.span? ∧
      x.scope = scope ∧ x.span = s.span := by
  unfold order at h
  dsimp only at h
  split at h
  · obtain ⟨⟨args, close⟩, hargs, h⟩ := bind_eq_ok.1 h
    obtain ⟨⟨⟩, _, h⟩ := bind_eq_ok.1 h
    obtain ⟨id, hid, h⟩ := bind_eq_ok.1 h
    obtain ⟨direction, hdir, rfl⟩ := bind_pure_eq_ok.1 h
    exact ⟨_, args, close, hargs, hid, hdir, rfl, rfl, rfl, rfl, rfl, rfl⟩
  · cases h

theorem isSome_of_literalArgument {α : Type} {read : List Token → Option α} {malformed missing : SyntaxFault}
    {needed : Bool} {x : Option α} (h : literalArgument read malformed needed missing value span = .ok x)
    (hneeded : needed = true) : x.isSome = true := by
  unfold literalArgument at h
  split at h
  · split at h <;> cases h
    rfl
  · rw [if_pos hneeded] at h
    cases h

theorem plot_eq_ok {x : PlotCall} (h : s.plot scope = .ok x) : ∃ (args : List Line.Arg) (close : Nat),
      let bound := Line.bind args x.kind.positional
      Line.arguments s.line 1 = .ok (args, close) ∧
      x.series = x.kind.seriesParameter?.bind (fun key => (bound.lookup key).bind Line.span?) ∧
      x.color = (bound.lookup x.kind.colorParameter).bind Line.span? ∧
      x.scope = scope ∧ x.span = s.span := by
  unfold plot at h
  dsimp only at h
  split at h
  · obtain ⟨⟨args, close⟩, hargs, h⟩ := bind_eq_ok.1 h
    obtain ⟨⟨⟩, _, h⟩ := bind_eq_ok.1 h
    split at h
    · obtain ⟨_, hthrow, _⟩ := bind_eq_ok.1 h
      cases hthrow
    · cases pure_eq_ok.1 h
      exact ⟨args, close, hargs, rfl, rfl, rfl, rfl⟩
  · cases h

theorem varDecl_eq_ok {x : VarDecl} (h : s.varDecl source scope = .ok x) :
    ∃ a, Assignment.ofLine? source s.line = some a ∧ Line.span? a.value = some x.value ∧
    (x.target = a.target ∧ x.mode = a.mode) ∧ x.scope = scope ∧ x.span = s.span := by
  unfold varDecl at h
  split at h
  · next a ha =>
    split at h
    · next value hv =>
      cases pure_eq_ok.1 h
      exact ⟨a, ha, hv, ⟨rfl, rfl⟩, rfl, rfl⟩
    · cases h
  · cases h

end Statement

/-! ## Whole scripts -/

/-- The tokens that the statements of a script are made of. -/
def Script.tokens (source : List Char) : List Token :=
  (tokenize source).filter (·.kind != .comment)

namespace Script

theorem ordered_words (source : List Char) : Ordered ((tokens source).filter (!Statement.isLayout ·)) := by
  have hsub : ((tokens source).filter (!Statement.isLayout ·)).Sublist (Lexer.words 0 ⟨0, 1, 1⟩ source) := by
    rw [← Lexer.filter_tokenize]
    exact List.filter_sublist.filter _
  exact ⟨(Lexer.words_pairwise source 0 _).sublist hsub, fun t ht => Lexer.start_lt_stop_of_mem_words (hsub.mem ht)⟩

theorem proper_tree (source : List Char) : Statement.Proper (Statement.tree (tokens source)) := by
  refine ⟨fun line hl => ?_, ?_⟩
  · rw [Statement.linesAll_tree, List.mem_filterMap] at hl
    obtain ⟨item, hitem, hline⟩ := hl
    cases item with
    | line line' =>
      cases hline
      exact (Statement.line_of_mem_items hitem).1
    | indent | dedent => cases hline
  · rw [Statement.tokensAll_tree]
    exact ordered_words source

theorem walk_of_parse {s : Script} (h : parse source = .ok s) :
    s.source = source ∧ (∀ t ∈ tokenize source, t.kind ≠ .unknown) ∧
      ∃ r, Statement.Walk source .top ⟨{}, false⟩ (Statement.tree (tokens source)) r ∧
        s.toDeclarations = { r.declared with
          functions := withCallees (calledNames (tokens source)) r.declared.functions } := by
  unfold parse at h
  simp only at h
  split at h
  · obtain ⟨_, hthrow, _⟩ := bind_eq_ok.1 h
    cases hthrow
  · next hbad =>
    obtain ⟨header, _, h⟩ := bind_eq_ok.1 h
    obtain ⟨r, hr, rfl⟩ := bind_pure_eq_ok.1 h
    refine ⟨rfl, fun t ht hk => ?_, r, Statement.walk_of_collectAll _ hr, rfl⟩
    have hsome : ((tokenize source).find? (·.kind == .unknown)).isSome = true :=
      List.find?_isSome.2 ⟨t, ht, by simp [hk]⟩
    obtain ⟨bad, hfound⟩ := Option.isSome_iff_exists.1 hsome
    exact hbad bad hfound

theorem mem_gather {α : Type} {find? : Token → List Token → Option α} {x : α} {ts : List Token} :
    x ∈ gather find? ts ↔ ∃ t rest, t :: rest <:+ ts ∧ find? t rest = some x := by
  induction ts with
  | nil => simp [gather]
  | cons t ts ih => simp [gather, ih, List.suffix_cons_iff, or_and_right, exists_or]

theorem exists_suffix_of_pair {t u : Token} {ts : List Token} (h : [t, u] <:+: ts) :
    ∃ rest, t :: u :: rest <:+ ts := by
  obtain ⟨before, rest, rfl⟩ := h
  exact ⟨rest, before, by simp⟩

end Script

end ChartScript
