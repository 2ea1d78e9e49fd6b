import ChartScript.Proofs.Conversion.Accepted
import ChartScript.Proofs.Lowering.Sites
import ChartScript.Proofs.Module.Listing
/-!
# What becomes of each statement

Every statement that a script is made of has a fate that its form decides.
-/
namespace ChartScript

open List Module

/-- What a conversion makes of a statement. -/
inductive Fate where
  /-- It declares the script. -/
  | declaration
  /-- It becomes a field of the parameters. -/
  | field
  /-- Its value is bound to names. -/
  | binding
  /-- It only opens what is done when no condition of a chain holds. -/
  | otherwise
  | order
  | plot
  /-- It is left out, with a warning. -/
  | warning
  /-- A script that holds it is not converted. -/
  | refused
deriving DecidableEq, Repr

def StatementForm.fate (hasIf shown : Bool) : StatementForm → Fate
  | .header => .declaration
  | .input => .field
  | .assignment | .function | .condition => .binding
  | .alternative => if hasIf then .binding else .otherwise
  | .order => .order
  | .plot => if shown then .plot else .warning
  | .alert | .drawing | .expression => .warning
  | .typeDecl | .method | .importDecl | .loop | .switch | .conditionalExpr => .refused

variable {st : Statement}

namespace Statement

def isShown (emitPlots : Bool) (st : Statement) : Bool :=
  emitPlots && !st.plotKind?.any (·.isDecoration)

def fate (source : List Char) (emitPlots : Bool) (st : Statement) : Fate :=
  (st.form source).fate st.hasIf (st.isShown emitPlots)

section

variable (source : List Char) (emitPlots : Bool) (st : Statement)

theorem fate_beq_binding : (st.fate source emitPlots == .binding) =
    (st.form source == .assignment || st.form source == .function || st.isCondition source) := by
  unfold fate isCondition
  cases st.form source <;> cases st.hasIf <;> cases st.isShown emitPlots <;> rfl

theorem fate_beq_plot : (st.fate source emitPlots == .plot) =
    (st.form source == .plot && st.isShown emitPlots) := by
  unfold fate
  cases st.form source <;> cases st.hasIf <;> cases st.isShown emitPlots <;> rfl

theorem fate_beq_warning :
    (st.fate source emitPlots == .warning) = (st.fate source emitPlots == .warning && (st.form source).isOther ||
    st.fate source emitPlots == .warning && st.form source == .plot) := by
  unfold fate
  cases st.form source <;> cases st.hasIf <;> cases st.isShown emitPlots <;> rfl

theorem fate_beq_refused : (st.fate source emitPlots == .refused) =
    (st.form source == .typeDecl || (st.form source).isOther && st.fate source emitPlots == .refused) := by
  unfold fate
  cases st.form source <;> cases st.hasIf <;> cases st.isShown emitPlots <;> rfl

end

theorem fate_of_other {source : List Char} {emitPlots : Bool} {kind : OtherKind}
    (h : st.otherKind? (st.form source) = some kind) :
    st.fate source emitPlots = if kind.isUnsupported then .refused else .warning := by
  unfold fate
  cases hform : st.form source <;> rw [hform] at h <;> cases h <;> first | rfl | (split <;> rfl)

theorem span_place (h : st.line ≠ []) :
    st.span.line = (headSpan st.line).line ∧ st.span.column = (headSpan st.line).column := by
  obtain ⟨line, body⟩ := st
  obtain ⟨t, rest, rfl⟩ := exists_cons_of_ne_nil (show line ≠ [] from h)
  obtain ⟨own, hown⟩ := Line.span?_isSome (show t :: rest ≠ [] by simp)
  have hplace : own.line = t.span.line ∧ own.column = t.span.column := by
    cases hown
    exact ⟨rfl, rfl⟩
  rw [span, hown]
  cases blockSpan? body <;> exact hplace

end Statement

namespace Script

open Statement

def fated (source : List Char) (emitPlots : Bool) (f : Fate) : List Statement :=
  (statements source).filter (·.fate source emitPlots == f)

end Script

namespace Module

def traced (s : Script) (l : LoweredScript) (options : GeneratorOptions) : List (ItemKey × Step) :=
  l.items.filterMap fun x => (step? s options x).map (x.key, ·)

end Module

/-- Every statement of the source has left what its fate says, and nothing else of the kind is there.
The numbers that the orders of a module carry are those of the orders of the script. -/
structure Accounted (settings : ConversionSettings) (source : List Char) (s : Script)
    (l : LoweredScript) (m : Module) (warnings : List Warning) : Prop where
  declaration : (Script.fated source settings.generator.emitPlots .declaration).length ≤ 1
  refused : Script.fated source settings.generator.emitPlots .refused = []
  fields : List.Forall₂ (fun st f => ∃ d, InputDecl.ofLine source st.line st.span = .ok d ∧ Lowering.FieldOf d f)
    (Script.fated source settings.generator.emitPlots .field) m.inputs
  steps : m.steps = (traced s l settings.generator).map (·.2)
  bindings : List.Forall₂ (fun st x => x.1.IsOf source s st ∧ ∃ pattern code, x.2 = .bind pattern code)
    (Script.fated source settings.generator.emitPlots .binding)
    ((traced s l settings.generator).filter (·.1.isOwn))
  plots : List.Forall₂ (fun st x => x.1.IsOf source s st ∧ ∃ p, x.2 = .plot p)
    (Script.fated source settings.generator.emitPlots .plot)
    ((traced s l settings.generator).filter (·.1.isPlot))
  orders : List.Forall₂ (fun st o => ∃ scope, st.order scope = .ok o)
    (Script.fated source settings.generator.emitPlots .order) s.orders
  numbered : (m.listed.map (·.1)).Perm (List.range s.orders.length)
  listed : ∀ x ∈ m.listed, ∃ o t, s.orders[x.1]? = some o ∧ orderAction l x.1 o = .ok (.order x.1 t x.2)
  warnings : List.Forall₂ (fun st w => w.span = st.span ∧ w.span.line = (Statement.headSpan st.line).line ∧
      w.span.column = (Statement.headSpan st.line).column)
    (Script.fated source settings.generator.emitPlots .warning) warnings

variable {scope : Option BodyRef} {p : PlotCall} {key : ItemKey} {i : Nat} {site : Site}
  {x : LoweredItem}

namespace Script

open Statement

variable {source : List Char} {s : Script}

theorem line_ne_nil (h : st ∈ statements source) : st.line ≠ [] := by
  refine (proper_tree source).ne_nil _ ?_
  rw [← map_line_nodesAll]
  exact mem_map_of_mem ((reachedAll_sublist source _).mem h)

theorem forall₂_others (h : parse source = .ok s) :
    List.Forall₂ (fun st o => st.otherKind? (st.form source) = some o.kind ∧
    o.span = st.span) ((statements source).filter fun st => (st.form source).isOther) s.others :=
  declared_of_parse h (.others source) rfl fun _ _ => rfl

theorem forall₂_plots (h : parse source = .ok s) :
    List.Forall₂ (fun st p => ∃ scope, st.plot scope = .ok p) (statementsOf source .plot) s.plots :=
  declared_of_parse h (.plots source) rfl fun _ _ => rfl

theorem fated_refused (h : parse source = .ok s) (hadmitted : s.Admitted) (emitPlots : Bool) :
    fated source emitPlots .refused = [] := by
  refine filter_eq_nil_iff.2 fun st hst hfate => ?_
  rw [fate_beq_refused, Bool.or_eq_true, Bool.and_eq_true, beq_iff_eq] at hfate
  rcases hfate with htype | ⟨hother, hfate⟩
  · obtain ⟨x, hx, -⟩ := exists_of_forall₂ (declared_of_parse h (.types source) rfl fun _ _ => rfl)
      (mem_filter.2 ⟨hst, beq_iff_eq.2 htype⟩)
    have hx : x ∈ s.types := hx
    rw [hadmitted.types] at hx
    cases hx
  · obtain ⟨o, ho, hmade, -⟩ := exists_of_forall₂ (forall₂_others h) (mem_filter.2 ⟨hst, hother⟩)
    rw [fate_of_other hmade, hadmitted.others o ho] at hfate
    cases hfate

theorem span_plotWarning? (hform : st.form source = .plot)
    (hp : st.plot scope = .ok p) (emitPlots : Bool) :
    (plotWarning? emitPlots p).map (·.span) =
      if st.fate source emitPlots == .warning then some st.span else none := by
  obtain ⟨_, _, _, _, _, _, hspan⟩ := plot_eq_ok hp
  rw [fate, hform, isShown, (plot_kind hp).1, Option.any_some, plotWarning?, ← hspan]
  cases p.kind.isDecoration <;> cases emitPlots <;> rfl

theorem forall₂_warnings (h : parse source = .ok s) (hadmitted : s.Admitted) (emitPlots : Bool) :
    List.Forall₂ (fun st (w : Warning) => w.span =
    st.span) (fated source emitPlots .warning) (s.warnings emitPlots) := by
  have hothers : List.Forall₂ (fun st (w : Warning) => w.span = st.span)
      (((statements source).filter fun st => (st.form source).isOther).filter
        (·.fate source emitPlots == .warning)) (s.others.filterMap s.statementWarning?) := by
    refine forall₂_filterMap (forall₂_and_right (forall₂_others h) hadmitted.others) ?_ ?_
    · rintro st o ⟨⟨-, hspan⟩, hsupported⟩ -
      exact ⟨_, by rw [statementWarning?, if_neg (by simp [hsupported])], hspan⟩
    · rintro st o ⟨⟨hkind, -⟩, hsupported⟩ hfate
      rw [fate_of_other hkind, hsupported] at hfate
      cases hfate
  have hplots : List.Forall₂ (fun st (w : Warning) => w.span = st.span)
      ((statementsOf source .plot).filter (·.fate source emitPlots == .warning))
      (s.plots.filterMap (plotWarning? emitPlots)) := by
    have hform : ∀ st ∈ statementsOf source .plot, st.form source = .plot :=
      fun st hst => by simpa using (mem_filter.1 hst).2
    refine forall₂_filterMap ((forall₂_and_left _ _).2 ⟨hform, forall₂_plots h⟩) ?_ ?_
    · rintro st p ⟨hform, scope, hp⟩ hfate
      have hspan := span_plotWarning? hform hp emitPlots
      rw [if_pos hfate] at hspan
      exact Option.map_eq_some_iff.1 hspan
    · rintro st p ⟨hform, scope, hp⟩ hfate
      have hspan := span_plotWarning? hform hp emitPlots
      rw [if_neg (by simp [hfate])] at hspan
      exact Option.map_eq_none_iff.1 hspan
  have hperm : (((statements source).filter fun st => (st.form source).isOther).filter
        (·.fate source emitPlots == .warning) ++
      (statementsOf source .plot).filter (·.fate source emitPlots == .warning)).Perm
      (fated source emitPlots .warning) := by
    rw [statementsOf, filter_filter, filter_filter, fated,
      filter_congr fun st _ => fate_beq_warning source emitPlots st]
    refine filter_or_perm fun st _ hother => ?_
    cases hform : st.form source with
    | plot => simp [hform, StatementForm.isOther] at hother
    | _ => exact Bool.and_false _
  refine forall₂_mergeSort (f := (·.span.start)) (rel_append hothers hplots)
    (fun st w hspan => by rw [hspan]) hperm ?_
  exact (statements_pairwise exists_start).sublist filter_sublist

end Script

namespace Module

open Statement Script Lowering

variable {source : List Char} {s : Script} {l : LoweredScript} {options : GeneratorOptions}

/-! ## Steps -/

theorem mem_traced {step : Step} : (key, step) ∈ traced s l options ↔
    ∃ x ∈ l.items, x.key = key ∧ step? s options x = some step := by
  simp only [traced, mem_filterMap, Option.map_eq_some_iff, Prod.mk.injEq]
  constructor
  · rintro ⟨x, hx, _, hstep, rfl, rfl⟩
    exact ⟨x, hx, rfl, hstep⟩
  · rintro ⟨x, hx, rfl, hstep⟩
    exact ⟨x, hx, step, hstep, rfl, rfl⟩

theorem map_traced : (traced s l options).map (·.2) = l.items.filterMap (step? s options) := by
  rw [traced, map_filterMap]
  congr 1
  funext x
  cases step? s options x <;> rfl

theorem map_traced_filter {p : ItemKey → Bool}
    (h : ∀ x ∈ l.items, p x.key = true → (step? s options x).isSome = true) :
    ((traced s l options).filter (p ·.1)).map (·.1) = (l.items.map (·.key)).filter p := by
  unfold traced
  generalize l.items = items at h
  induction items with
  | nil => rfl
  | cons x xs ih =>
    have hrest := ih fun y hy => h y (mem_cons_of_mem _ hy)
    rw [map_cons]
    cases hp : p x.key with
    | true =>
      obtain ⟨step, hstep⟩ := Option.isSome_iff_exists.1 (h x mem_cons_self hp)
      rw [filterMap_cons_some (by rw [hstep]; rfl), filter_cons_of_pos hp,
        filter_cons_of_pos (by exact hp), map_cons, hrest]
    | false =>
      rw [filter_cons_of_neg (by simp [hp]), ← hrest]
      cases hstep : step? s options x with
      | none => rw [filterMap_cons_none (by rw [hstep]; rfl)]
      | some step => rw [filterMap_cons_some (by rw [hstep]; rfl), filter_cons_of_neg (by simp [hp])]

theorem forall₂_traced (hs : Script.parse source = .ok s) (hl : Lowering.script s = .ok l) {p : ItemKey → Bool}
    {selects : Statement → Bool} {q : Step → Prop} (hsite : ∀ st, selects st = true → hasSite source st = true)
    (hone : ∀ st (site : Site), site.IsOf source st → (site.keys.filter p).length = (selects st).toNat)
    (hstep : ∀ x ∈ l.items, p x.key = true → ∃ step, step? s options x = some step ∧ q step) :
    List.Forall₂ (fun st x => x.1.IsOf source s st ∧
    q x.2) ((statements source).filter selects) ((traced s l options).filter (p ·.1)) := by
  have hmap : ((traced s l options).filter (p ·.1)).map (·.1) = _ := map_traced_filter fun x hx hp => by
      obtain ⟨step, hstep, -⟩ := hstep x hx hp
      rw [hstep]
      rfl
  have hkeys := forall₂_keys hs hsite hone
  rw [← (script_items hl).1, ← hmap] at hkeys
  refine forall₂_and_right (forall₂_map_right_iff.1 hkeys) ?_
  rintro ⟨key, step⟩ hmem
  obtain ⟨hmem, hp⟩ := mem_filter.1 hmem
  obtain ⟨x, hx, rfl, hx'⟩ := mem_traced.1 hmem
  obtain ⟨step', hstep', hmade⟩ := hstep x hx hp
  cases hx'.symm.trans hstep'
  exact hmade

theorem order_keys {o : OrderCall} (h : key ∈ (Site.order i o).keys) :
    key.isOwn = false ∧ key.isPlot = false := by
  simp only [Site.keys, mem_append, mem_map] at h
  rcases h with ((⟨_, _, rfl⟩ | ⟨_, _, rfl⟩) | ⟨_, _, rfl⟩) | ⟨_, _, rfl⟩ <;> exact ⟨rfl, rfl⟩

theorem plot_keys (h : st.plot scope = .ok p) :
    (Site.plot i p).keys = if p.kind.isDecoration then [] else [.plotSeries i] := by
  obtain ⟨-, hseries⟩ := plot_kind h
  cases hkind : p.kind with
  | mark mark =>
    obtain ⟨span, hspan⟩ := Option.isSome_iff_exists.1 (hseries (by rw [hkind]; rfl))
    simp [Site.keys, hkind, hspan, PlotKind.isDecoration]
  | decoration d => simp [Site.keys, hkind, PlotKind.isDecoration]

theorem own_keys (emitPlots : Bool) (h : site.IsOf source st) :
    (site.keys.filter (·.isOwn)).length = (st.fate source emitPlots == .binding).toNat := by
  rw [fate_beq_binding]
  cases site with
  | assignment i d =>
    rw [h.1]
    rfl
  | function i f =>
    rw [h.1]
    rfl
  | condition i c =>
    rw [h.1, Bool.or_true]
    rfl
  | order i o =>
    rw [isCondition, h.1, filter_eq_nil_iff.2 fun key hkey => by simp [(order_keys hkey).1]]
    rfl
  | plot i p =>
    obtain ⟨hform, scope, hp⟩ := h
    rw [isCondition, hform, plot_keys hp]
    cases p.kind.isDecoration <;> rfl

theorem shown_keys (h : site.IsOf source st) :
    (site.keys.filter (·.isPlot)).length = (st.fate source true == .plot).toNat := by
  rw [fate_beq_plot]
  cases site with
  | assignment i d =>
    rw [h.1]
    rfl
  | function i f =>
    rw [h.1]
    rfl
  | condition i c =>
    have hform : (st.form source == .plot) = false := by
      have hcondition := h.1
      unfold isCondition at hcondition
      cases hform : st.form source <;> rw [hform] at hcondition <;> first | rfl | cases hcondition
    rw [hform]
    rfl
  | order i o =>
    rw [h.1, filter_eq_nil_iff.2 fun key hkey => by simp [(order_keys hkey).2]]
    rfl
  | plot i p =>
    obtain ⟨hform, scope, hp⟩ := h
    rw [plot_keys hp, hform, isShown, (plot_kind hp).1, Option.any_some]
    cases p.kind.isDecoration <;> rfl

theorem step_of_binding (hl : Lowering.script s = .ok l) (hx : x ∈ l.items)
    (hkey : x.key.isPlot = false) :
    ∃ step, step? s options x = some step ∧ ∃ pattern code, step = .bind pattern code := by
  obtain ⟨pattern, hpattern⟩ := Option.isSome_iff_exists.1 ((binding_isSome hl x hx).trans (by rw [hkey]; rfl))
  exact ⟨_, by rw [step?, hpattern], pattern, _, rfl⟩

theorem step_of_plot (hl : Lowering.script s = .ok l) (hx : x ∈ l.items)
    (hkey : x.key.isPlot = true) :
    (options.emitPlots = true → ∃ step, step? s options x = some step ∧ ∃ p, step = .plot p) ∧
    (options.emitPlots = false → step? s options x = none) := by
  have hbinding : x.binding = none := by simpa [hkey] using binding_isSome hl x hx
  cases hk : x.key with
  | plotSeries i =>
    obtain ⟨p, mark, hp, hmark⟩ := plot_of_key hl hx hk
    obtain ⟨e, he⟩ : ∃ e, plot? s i x.value = some e := ⟨_, by simp only [plot?, hp, hmark]; rfl⟩
    unfold step?
    rw [hbinding, hk]
    exact ⟨fun hemit => ⟨.plot e, by simp [hemit, he], e, rfl⟩, fun hemit => by simp [hemit]⟩
  | _ =>
    rw [hk] at hkey
    cases hkey

end Module

/-! ## Conversions -/

namespace Script

open Statement

variable {source : List Char} {s : Script} {emitPlots : Bool}

theorem fated_eq {f : Fate} {g : StatementForm}
    (h : (f, g) ∈ [(.declaration, .header), (.field, .input), (.order, .order)]) :
    fated source emitPlots f = statementsOf source g := by
  refine filter_congr fun st _ => ?_
  unfold Statement.fate
  simp only [mem_cons, Prod.mk.injEq, not_mem_nil, or_false] at h
  rcases h with ⟨rfl, rfl⟩ | ⟨rfl, rfl⟩ | ⟨rfl, rfl⟩ <;>
    cases st.form source <;> cases st.hasIf <;> cases st.isShown emitPlots <;> rfl

end Script

namespace Module

open Statement Script

variable {source : List Char} {s : Script} {l : LoweredScript} {options : GeneratorOptions}

theorem forall₂_bindings (hs : Script.parse source = .ok s) (hl : Lowering.script s = .ok l) :
    List.Forall₂ (fun st x => x.1.IsOf source s st ∧ ∃ pattern code, x.2 = .bind pattern code)
      (fated source options.emitPlots .binding) ((traced s l options).filter (·.1.isOwn)) := by
  refine forall₂_traced hs hl (fun st hst => ?_) (fun st site => own_keys options.emitPlots)
    fun x hx hown => step_of_binding hl hx ?_
  · rw [fate_beq_binding] at hst
    rw [Lowering.hasSite, hst]
    rfl
  · cases hk : x.key <;> rw [hk] at hown <;> first | rfl | cases hown

theorem forall₂_shown (hs : Script.parse source = .ok s) (hl : Lowering.script s = .ok l) :
    List.Forall₂ (fun st x => x.1.IsOf source s st ∧
    ∃ p, x.2 = .plot p) (fated source options.emitPlots .plot) ((traced s l options).filter (·.1.isPlot)) := by
  cases hemit : options.emitPlots with
  | true =>
    refine forall₂_traced (q := fun step => ∃ p, step = .plot p) hs hl (fun st hst => ?_)
      (fun st site => shown_keys) fun x hx hplot => (step_of_plot hl hx hplot).1 hemit
    rw [fate_beq_plot, Bool.and_eq_true] at hst
    rw [Lowering.hasSite, hst.1, Bool.or_true]
  | false =>
    have hnone : fated source false .plot = [] :=
      filter_eq_nil_iff.2 fun st _ => by rw [fate_beq_plot, isShown]; simp
    have hsteps : (traced s l options).filter (·.1.isPlot) = [] := by
      refine filter_eq_nil_iff.2 ?_
      rintro ⟨key, step⟩ hmem hplot
      obtain ⟨x, hx, rfl, hstep⟩ := mem_traced.1 hmem
      rw [(step_of_plot hl hx hplot).2 hemit] at hstep
      cases hstep
    rw [hnone, hsteps]
    exact .nil

end Module

/-- Whatever the syntax check, each statement of a script that is converted leaves what its fate says,
and nothing more. A line that declares the script or opens the other side of a condition leaves
nothing, whatever else stands on it. -/
theorem accounted_of_convert (check : SyntaxCheck) {settings : ConversionSettings} {source : List Char}
    {c : Conversion} (h : convert settings source check = .ok (.ok c)) :
    ∃ s l m, Accepted check settings source s l m ∧ c = s.conversion settings m ∧
      Accounted settings source s l m c.warnings := by
  obtain ⟨s, l, m, haccepted, rfl⟩ := convert_eq_ok.1 h
  have hs := haccepted.parsed
  have hl := haccepted.lowered
  have hadmitted := haccepted.not_refused
  obtain ⟨hm, -⟩ := build_cases haccepted.built
  have hlists := build_lists (Script.shaped_of_parse hs) haccepted.built
  refine ⟨s, l, m, haccepted, rfl, ?_, ?_, ?_, ?_, ?_, ?_, ?_, ?_, ?_, ?_⟩
  · rw [Script.fated_eq (g := .header) (by simp)]
    exact Script.declaration_once hs
  · exact Script.fated_refused hs hadmitted _
  · rw [Script.fated_eq (g := .input) (by simp), hm]
    exact forall₂_comp (Script.declared_of_parse hs (.inputs source) rfl fun _ _ => rfl)
      (Lowering.forall₂_inputs hl)
  · rw [hm, map_traced]
  · exact forall₂_bindings hs hl
  · exact forall₂_shown hs hl
  · rw [Script.fated_eq (g := .order) (by simp)]
    exact Script.declared_of_parse hs (.orders source) rfl fun _ _ => rfl
  · exact hlists.perm_range (complete_of_script hs hl).request
  · rintro ⟨i, e⟩ hx
    exact (hlists.mem i e).1 hx
  · refine ((forall₂_and_left _ _).2
      ⟨fun st hst => Statement.span_place (Script.line_ne_nil (mem_filter.1 hst).1),
        Script.forall₂_warnings hs hadmitted _⟩).imp fun st w hw => ?_
    exact ⟨hw.2, hw.2 ▸ hw.1.1, hw.2 ▸ hw.1.2⟩

def mixedSource : List Char :=
  ("//@version=5\nstrategy(\"S\")\n" ++
   "n = input.int(5)\n" ++
   "x = close + n\n" ++
   "if x > open\n" ++
   "    strategy.close(\"A\")\n" ++
   "else\n" ++
   "    strategy.close(\"B\")\n" ++
   "plot(x)\n" ++
   "alert(\"done\")\n").toList

theorem accounted_mixed : ∃ c, convert {} mixedSource = .ok (.ok c) ∧
    (∃ s l m, Accepted Module.isWellFormed {} mixedSource s l m ∧ c = s.conversion {} m ∧
      Accounted {} mixedSource s l m c.warnings) ∧
    (Script.statements mixedSource).map (·.fate mixedSource true) =
      [.declaration, .field, .binding, .binding, .order, .otherwise, .order, .plot, .warning] := by
  obtain ⟨s, l, m, -, hc, -⟩ := exists_accepted {} mixedSource (fun _ _ => True) (by decide +kernel)
  exact ⟨_, hc, accounted_of_convert _ hc, by decide +kernel⟩

def declaredPlotSource : List Char :=
  ("//@version=5\nindicator(\"T\"), plot(close)\n" ++
   "plot(open)\n").toList

def elseOrderSource : List Char :=
  ("//@version=5\nstrategy(\"S\")\n" ++
   "if close > open\n" ++
   "    strategy.close(\"A\")\n" ++
   "else strategy.close(\"B\")\n" ++
   "    strategy.close(\"C\")\n").toList

def Step.plotTitle? : Step → Option String
  | .plot p => some p.title
  | .bind _ _ => none

/-- Both scripts are converted without a warning, and neither the plot nor the order is there. -/
theorem words_behind_lost : (∃ s l m, Accepted Module.isWellFormed {} declaredPlotSource s l m ∧
      convert {} declaredPlotSource = .ok (.ok (s.conversion {} m)) ∧
      (s.conversion {} m).warnings = [] ∧ m.steps.filterMap Step.plotTitle? = ["open"]) ∧
    ∃ s l m, Accepted Module.isWellFormed {} elseOrderSource s l m ∧
      convert {} elseOrderSource = .ok (.ok (s.conversion {} m)) ∧
      (s.conversion {} m).warnings = [] ∧ m.listed.length = 2 ∧
      s.orders.map (·.id) = [some "A", some "C"] := by
  have hwarnings : ∀ s : Script, s.others = [] →
      s.plots.filterMap (Script.plotWarning? true) = [] → s.warnings true = [] := by
    intro s hothers hplots
    rw [Script.warnings, hothers, hplots]
    simp
  constructor
  · obtain ⟨s, l, m, haccepted, hc, hothers, hplots, htitles⟩ := exists_accepted {} declaredPlotSource
      (fun s l => s.others = [] ∧ s.plots.filterMap (Script.plotWarning? true) = [] ∧
        (l.items.filterMap (step? s {})).filterMap Step.plotTitle? = ["open"]) (by decide +kernel)
    refine ⟨s, l, m, haccepted, hc, hwarnings s hothers hplots, ?_⟩
    rw [(build_cases haccepted.built).1]
    exact htitles
  · obtain ⟨s, l, m, haccepted, hc, hothers, hplots, hids⟩ := exists_accepted {} elseOrderSource
      (fun s _ => s.others = [] ∧ s.plots.filterMap (Script.plotWarning? true) = [] ∧
        s.orders.map (·.id) = [some "A", some "C"]) (by decide +kernel)
    have hlists := build_lists (Script.shaped_of_parse haccepted.parsed) haccepted.built
    have hlength := (hlists.perm_range (complete_of_script haccepted.parsed haccepted.lowered).request).length_eq
    refine ⟨s, l, m, haccepted, hc, hwarnings s hothers hplots, ?_, hids⟩
    rw [length_map, length_range] at hlength
    rw [hlength, ← length_map (f := (·.id)), hids]
    rfl

end ChartScript
