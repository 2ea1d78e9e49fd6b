import ChartScript.Proofs.Script.Collected
import ChartScript.Proofs.Sorted
/-!
# What the statements of a script declare

The statements that a walk reaches, at the top level and in the bodies of conditions, sorted by their
forms: those of each form are the declarations of one kind, one for one and in the order of the
source.
-/
namespace ChartScript

open List

/-! ## Kinds of declarations -/

def StatementForm.isOther : StatementForm → Bool
  | .method | .importDecl | .loop | .switch | .conditionalExpr | .alert | .drawing
  | .expression => true
  | _ => false

variable {p : Place} {r r' : Progress} {f : Statement → Nat} {α : Type}

namespace Statement

theorem otherKind?_isSome (s : Statement) (form : StatementForm) : (s.otherKind? form).isSome = form.isOther := by
  cases form <;> rfl

def plotKind? (s : Statement) : Option PlotKind :=
  PlotKind.ofName? (s.line.head?.getD ⟨.eof, .origin, ""⟩).text

theorem plot_kind {scope : Option BodyRef} {s : Statement} {x : PlotCall} (h : s.plot scope = .ok x) :
    s.plotKind? = some x.kind ∧ (x.kind.isDecoration = false → x.series.isSome = true) := by
  unfold plot at h
  dsimp only at h
  split at h
  · next kind hkind =>
    obtain ⟨⟨args, close⟩, hargs, h⟩ := bind_eq_ok.1 h
    obtain ⟨⟨⟩, _, h⟩ := bind_eq_ok.1 h
    split at h
    · obtain ⟨_, hthrow, _⟩ := bind_eq_ok.1 h
      cases hthrow
    · next hseries =>
      cases pure_eq_ok.1 h
      refine ⟨hkind, fun hmark => ?_⟩
      have hsome : kind.seriesParameter?.isSome = true := by
        cases kind with
        | mark m => cases m <;> rfl
        | decoration => cases hmark
      simpa [hsome, Option.isSome_iff_ne_none] using hseries
  · cases h

def Kind.inputs (source : List Char) : Kind source InputDecl :=
  .ofForm (·.inputs) .input (fun s x => InputDecl.ofLine source s.line s.span = .ok x) (by decide)
    (fun _ _ => rfl) fun h => by
      cases h with
      | input _ hx => exact ⟨fun _ => ⟨_, hx, rfl⟩, (absurd rfl ·)⟩
      | other hkind => exact ⟨(by rintro rfl; cases hkind), fun _ => rfl⟩
      | _ => exact ⟨nofun, fun _ => rfl⟩

def Kind.varDecls (source : List Char) : Kind source VarDecl :=
  .ofForm (·.varDecls) .assignment (fun s x => ∃ scope, s.varDecl source scope = .ok x) (by decide)
    (fun _ _ => rfl) fun h => by
      cases h with
      | assignment hx => exact ⟨fun _ => ⟨_, ⟨_, hx⟩, rfl⟩, (absurd rfl ·)⟩
      | other hkind => exact ⟨(by rintro rfl; cases hkind), fun _ => rfl⟩
      | _ => exact ⟨nofun, fun _ => rfl⟩

def Kind.plots (source : List Char) : Kind source PlotCall :=
  .ofForm (·.plots) .plot (fun s x => ∃ scope, s.plot scope = .ok x) (by decide) (fun _ _ => rfl) fun h => by
      cases h with
      | plot hx => exact ⟨fun _ => ⟨_, ⟨_, hx⟩, rfl⟩, (absurd rfl ·)⟩
      | other hkind => exact ⟨(by rintro rfl; cases hkind), fun _ => rfl⟩
      | _ => exact ⟨nofun, fun _ => rfl⟩

def Kind.types (source : List Char) : Kind source TypeDecl :=
  .ofForm (·.types) .typeDecl (fun s x => s.typeDecl = .ok x) (by decide) (fun _ _ => rfl) fun h => by
      cases h with
      | typeDecl hx => exact ⟨fun _ => ⟨_, hx, rfl⟩, (absurd rfl ·)⟩
      | other hkind => exact ⟨(by rintro rfl; cases hkind), fun _ => rfl⟩
      | _ => exact ⟨nofun, fun _ => rfl⟩

def Kind.others (source : List Char) : Kind source OtherStatement where
  all d := d.others
  own s := (s.form source).isOther
  made s x := s.otherKind? (s.form source) = some x.kind ∧ x.span = s.span
  adds hform _ _ h := by
    cases h with
    | other hkind =>
      refine .one ?_ (x := OtherStatement.mk ..) ⟨hform ▸ hkind, rfl⟩ rfl
      rw [hform, ← otherKind?_isSome, hkind, Option.isSome_some]
    | _ => exact .none (by rw [hform]; rfl) rfl
  makes := @fun s _ _ hcondition _ => by
    refine .none (Bool.eq_false_iff.2 fun hother => ?_) rfl
    cases hform : s.form source with
    | condition | alternative => rw [hform] at hother; cases hother
    | _ => simp [isCondition, hform] at hcondition
  closes hform _ := by rw [hform]; rfl
  setFalseBody _ _ _ := rfl

/-! ## The script declaration -/

theorem opened_of_adds {source : List Char} {s : Statement} {form : StatementForm}
    (h : Adds source p s r form r') : (form == .header).toNat + r.opened.toNat = r'.opened.toNat := by
  cases h with
  | header _ hopened => simp [hopened]
  | other hkind =>
    cases form with
    | header => cases hkind
    | _ => exact Nat.zero_add _
  | _ => exact Nat.zero_add _

theorem opened_of_walk {source : List Char} {ss : List Statement}
    (h : Walk source p r ss r') :
    (reachedAll source ss).countP (·.form source == .header) + r.opened.toNat = r'.opened.toNat := by
  induction h with
  | done => simp
  | @plain p r r₁ r₂ line body rest form hform hc ha hadd _ ih =>
    subst hform
    have hadds := opened_of_adds (adds_of_add hc ha hadd)
    have hown : [mk line body].countP (·.form source == .header) =
        (StatementForm.ofLine source line == .header).toNat := by
      cases hh : StatementForm.ofLine source line == .header <;> simp [Statement.form, Statement.line, hh]
    rw [reachedAll_cons, reached_plain body hc ha, countP_append, hown]
    omega
  | @block p r r₀ r₁ r₂ line body rest _ _ _ henter _ _ ihbody ih =>
    -- The line of a condition is no declaration, so its block and what follows count.
    have hown : ((mk line body).form source == .header) = false := by
      rcases henter.form with hform | hform <;> simp [form, Statement.line, hform]
    have hopened : r₀.opened = r.opened := by cases henter <;> rfl
    rw [reachedAll_cons, reached_condition body henter.form, countP_append, countP_cons_of_neg (by simp [hown])]
    rw [hopened] at ihbody
    omega

end Statement

/-! ## Whole scripts -/

namespace Script

open Statement

def statements (source : List Char) : List Statement :=
  reachedAll source (tree (tokens source))

/-- The statements of a form. -/
def statementsOf (source : List Char) (form : StatementForm) : List Statement :=
  (statements source).filter (·.form source == form)

theorem statements_pairwise {source : List Char}
    (hf : ∀ s, Proper [s] → ∃ t ∈ s.line, t.span.start = f s) : (statements source).Pairwise (f · < f ·) := by
  have hrising := (rising_nodesAll hf _ (proper_tree source)).pairwise
  exact (pairwise_map.1 hrising).sublist (reachedAll_sublist source _)

variable {source : List Char} {s : Script}

section

variable (h : parse source = .ok s)
include h

theorem declaration_once : (statementsOf source .header).length ≤ 1 := by
  obtain ⟨-, -, r, hwalk, -⟩ := walk_of_parse h
  have hopened := opened_of_walk hwalk
  rw [statementsOf, statements, ← countP_eq_length_filter]
  have := Bool.toNat_le r.opened
  omega

theorem declared_of_parse (k : Kind source α) (hempty : k.all {} = [])
    (hfunctions : ∀ d fs, k.all { d with functions := fs } = k.all d) :
    List.Forall₂ k.made ((statements source).filter k.own) (k.all s.toDeclarations) := by
  obtain ⟨-, -, r, hwalk, hdecl⟩ := walk_of_parse h
  obtain ⟨new, hmade, hall⟩ := collected k hwalk
  rw [hdecl, hfunctions, hall, hempty, nil_append]
  exact hmade

theorem exists_statement (k : Kind source α) (hempty : k.all {} = [])
    (hfunctions : ∀ d fs, k.all { d with functions := fs } = k.all d) {x : α}
    (hx : x ∈ k.all s.toDeclarations) : ∃ n ∈ statements source, k.made n x := by
  obtain ⟨n, hn, hmade⟩ := exists_of_forall₂ (declared_of_parse h k hempty hfunctions).flip hx
  exact ⟨n, (mem_filter.1 hn).1, hmade⟩

theorem functions_of_parse :
    List.Forall₂ (fun st f => ∃ callees, st.function source = .ok { f with callees := callees })
      (statementsOf source .function) s.functions := by
  obtain ⟨-, -, r, hwalk, hdecl⟩ := walk_of_parse h
  obtain ⟨new, hmade, hall⟩ := collected (.functions source) hwalk
  have hnew : new = r.declared.functions := hall.symm
  rw [hdecl, ← hnew]
  exact forall₂_map_right_iff.2 (hmade.imp fun st f hf => ⟨f.callees, hf⟩)

theorem exists_function {f : FuncDecl} (hf : f ∈ s.functions) : ∃ n ∈ statements source, n.form source = .function ∧
      ∃ callees, n.function source = .ok { f with callees := callees } := by
  obtain ⟨n, hn, hmade⟩ := exists_of_forall₂ (functions_of_parse h).flip hf
  obtain ⟨hn, hform⟩ := mem_filter.1 hn
  exact ⟨n, hn, eq_of_beq hform, hmade⟩

theorem conditions_of_parse :
    List.Forall₂ (Makes source) ((statements source).filter (isCondition source)) s.conditions := by
  have hmakes := declared_of_parse h (.conditions source) rfl fun _ _ => rfl
  exact (forall₂_map_right_iff.1 hmakes).imp fun _ _ ho => ⟨ho.span, ho.predicate, ho.block⟩

theorem exists_condition {c : Condition} (hc : c ∈ s.conditions) : ∃ n ∈ statements source, n.Makes source c := by
  obtain ⟨n, hn, hmakes⟩ := exists_of_forall₂ (conditions_of_parse h).flip hc
  exact ⟨n, (mem_filter.1 hn).1, hmakes⟩

end

theorem pairwise_of_statements {own : Statement → Bool} {made : Statement → α → Prop}
    {xs : List α} (h : List.Forall₂ made ((statements source).filter own) xs)
    (hf : ∀ s, Proper [s] → ∃ t ∈ s.line, t.span.start = f s) {g : α → Nat}
    (hg : ∀ n x, made n x → f n = g x) : xs.Pairwise (g · < g ·) := by
  have hstarts : (xs.map g).Pairwise (· < ·) := by
    rw [← map_eq_of_forall₂ hg h, pairwise_map]
    exact (statements_pairwise hf).sublist filter_sublist
  exact pairwise_map.1 hstarts

theorem orders_starts (h : parse source = .ok s) : s.orders.Pairwise (·.span.start < ·.span.start) := by
  refine pairwise_of_statements (declared_of_parse h (.orders source) rfl fun _ _ => rfl) exists_start ?_
  rintro n x ⟨scope, hx⟩
  obtain ⟨_, _, _, _, _, _, _, _, _, _, _, hspan⟩ := order_eq_ok hx
  rw [hspan]

theorem conditions_starts (h : parse source = .ok s) : s.conditions.Pairwise (·.span.start < ·.span.start) :=
  pairwise_of_statements (conditions_of_parse h) (exists_mark source)
    fun _ _ hmakes => congrArg Span.start hmakes.span.symm

theorem line_mem_items {n : Statement} (hn : n ∈ statements source) : .line n.line ∈ items (tokens source) := by
  have hline : n.line ∈ linesAll (tree (tokens source)) := by
    rw [← map_line_nodesAll]
    exact mem_map_of_mem ((reachedAll_sublist source _).mem hn)
  rw [linesAll_tree] at hline
  obtain ⟨item, hitem, hown⟩ := mem_filterMap.1 hline
  cases item with
  | line => cases hown; exact hitem
  | indent | dedent => cases hown

end Script

end ChartScript
