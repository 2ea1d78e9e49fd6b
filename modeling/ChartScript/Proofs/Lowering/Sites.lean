import ChartScript.Proofs.Lowering.Items
import ChartScript.Proofs.Script.Expressions
/-!
# The statements behind the items of a lowered script

The sites that lowering goes through are the statements of the source that hold expressions, in the
order of the source.
-/
namespace ChartScript

open List Statement Script

variable {source : List Char} {s : Script}

namespace Lowering

/-! ## Sites -/

/-- The site stands for the statement. -/
def Site.IsOf (source : List Char) (st : Statement) : Site → Prop
  | .assignment _ d => st.form source = .assignment ∧ ∃ scope, st.varDecl source scope = .ok d
  | .function _ f => st.form source = .function ∧ ∃ callees, st.function source = .ok { f with callees := callees }
  | .condition _ c => st.isCondition source = true ∧ c.span = st.mark source
  | .order _ o => st.form source = .order ∧ ∃ scope, st.order scope = .ok o
  | .plot _ p => st.form source = .plot ∧ ∃ scope, st.plot scope = .ok p

theorem position_of_isOf {source : List Char} {st : Statement} {site : Site}
    (h : site.IsOf source st) : (st.mark source).start = site.position := by
  cases site with
  | assignment i d =>
    obtain ⟨hform, scope, hd⟩ := h
    obtain ⟨_, _, _, _, _, hspan⟩ := varDecl_eq_ok hd
    rw [mark_of_ne (by simp [hform]), ← hspan]
    rfl
  | function i f =>
    obtain ⟨hform, callees, hf⟩ := h
    obtain ⟨_, _, _, hspan, _⟩ := Statement.function_eq_ok hf
    rw [mark_of_ne (by simp [hform]), ← hspan]
    rfl
  | condition i c =>
    obtain ⟨-, hspan⟩ := h
    rw [← hspan]
    rfl
  | order i o =>
    obtain ⟨hform, scope, ho⟩ := h
    obtain ⟨_, _, _, _, _, _, _, _, _, _, _, hspan⟩ := order_eq_ok ho
    rw [mark_of_ne (by simp [hform]), ← hspan]
    rfl
  | plot i p =>
    obtain ⟨hform, scope, hp⟩ := h
    obtain ⟨_, _, _, _, _, _, hspan⟩ := plot_eq_ok hp
    rw [mark_of_ne (by simp [hform]), ← hspan]
    rfl

def hasSite (source : List Char) (st : Statement) : Bool :=
  st.form source == .assignment || st.form source == .function || st.isCondition source ||
    st.form source == .order || st.form source == .plot

theorem hasSite_perm (source : List Char) : (statementsOf source .assignment ++ statementsOf source .function ++
    (statements source).filter (isCondition source) ++ statementsOf source .order ++
    statementsOf source .plot).Perm ((statements source).filter (hasSite source)) := by
  -- A statement has one form, and conditions have two forms of their own.
  have hcondition : ∀ {st : Statement}, isCondition source st = true →
      st.form source = .condition ∨ st.form source = .alternative := by
    intro st hst
    simp only [isCondition, Bool.or_eq_true, Bool.and_eq_true, beq_iff_eq] at hst
    exact hst.imp id And.left
  refine ((((filter_or_perm fun st _ hp => ?_).append_right _).trans
    (filter_or_perm fun st _ hp => ?_)).append_right _).trans (filter_or_perm fun st _ hp => ?_)
    |>.append_right _ |>.trans (filter_or_perm fun st _ hp => ?_)
  all_goals simp only [Bool.or_eq_true, beq_iff_eq] at hp
  · simp [hp]
  · by_contra hcond
    have := hcondition (by simpa using hcond)
    rcases hp with hp | hp <;> simp [hp] at this
  · rcases hp with (hp | hp) | hp
    · simp [hp]
    · simp [hp]
    · rcases hcondition hp with hform | hform <;> simp [hform]
  · rcases hp with ((hp | hp) | hp) | hp
    · simp [hp]
    · simp [hp]
    · rcases hcondition hp with hform | hform <;> simp [hform]
    · simp [hp]

theorem forall₂_sites_of_form {α : Type} {form : StatementForm} {made : Statement → α → Prop}
    {site : Nat → α → Site} {xs : List α} (h : List.Forall₂ made (statementsOf source form) xs)
    (hsite : ∀ i st x, st.form source = form → made st x → (site i x).IsOf source st) :
    List.Forall₂ (fun st x => x.IsOf source st) (statementsOf source form) (xs.mapIdx site) := by
  have hform : ∀ st ∈ statementsOf source form, st.form source = form :=
    fun st hst => by simpa using (mem_filter.1 hst).2
  exact forall₂_mapIdx ((forall₂_and_left _ _).2 ⟨hform, h⟩) fun i st x hx => hsite i st x hx.1 hx.2

theorem forall₂_sites (h : Script.parse source = .ok s) :
    List.Forall₂ (fun st site => site.IsOf source st) ((statements source).filter (hasSite source)) (sites s) := by
  have hassignments : List.Forall₂ (fun st site => site.IsOf source st)
      (statementsOf source .assignment) (s.varDecls.mapIdx Site.assignment) :=
    forall₂_sites_of_form (declared_of_parse h (.varDecls source) rfl fun _ _ => rfl)
      fun _ _ _ hform hd => ⟨hform, hd⟩
  have hfunctions : List.Forall₂ (fun st site => site.IsOf source st)
      (statementsOf source .function) (s.functions.mapIdx Site.function) :=
    forall₂_sites_of_form (functions_of_parse h) fun _ _ _ hform hf => ⟨hform, hf⟩
  have hconditions : List.Forall₂ (fun st site => site.IsOf source st)
      ((statements source).filter (isCondition source)) (s.conditions.mapIdx Site.condition) :=
    forall₂_mapIdx ((forall₂_and_left _ _).2
      ⟨fun _ hst => (mem_filter.1 hst).2, conditions_of_parse h⟩) fun _ _ _ hc =>
      ⟨hc.1, hc.2.span⟩
  have horders : List.Forall₂ (fun st site => site.IsOf source st)
      (statementsOf source .order) (s.orders.mapIdx Site.order) :=
    forall₂_sites_of_form (declared_of_parse h (.orders source) rfl fun _ _ => rfl)
      fun _ _ _ hform ho => ⟨hform, ho⟩
  have hplots : List.Forall₂ (fun st site => site.IsOf source st)
      (statementsOf source .plot) (s.plots.mapIdx Site.plot) :=
    forall₂_sites_of_form (declared_of_parse h (.plots source) rfl fun _ _ => rfl) fun _ _ _ hform hp => ⟨hform, hp⟩
  have hall := rel_append (rel_append (rel_append (rel_append hassignments hfunctions) hconditions) horders) hplots
  refine forall₂_mergeSort hall (fun st site hsite => position_of_isOf hsite) (hasSite_perm source) ?_
  exact (statements_pairwise (exists_mark source)).sublist filter_sublist

/-! ## Items -/

end Lowering

namespace ItemKey

def isOwn : ItemKey → Bool
  | assignment _ | function _ | predicate _ => true
  | _ => false

def isPlot : ItemKey → Bool
  | plotSeries _ => true
  | _ => false

/-- The key belongs to an expression of the statement. -/
def IsOf (source : List Char) (s : Script) (st : Statement) (key : ItemKey) : Prop :=
  ∃ site ∈ Lowering.sites s, key ∈ site.keys ∧ site.IsOf source st

end ItemKey

namespace Lowering

theorem forall₂_keys (h : Script.parse source = .ok s) {p : ItemKey → Bool} {selects : Statement → Bool}
    (hsite : ∀ st, selects st = true → hasSite source st = true)
    (hone : ∀ st (site : Site), site.IsOf source st → (site.keys.filter p).length = (selects st).toNat) :
    List.Forall₂ (fun st key => key.IsOf source s st) ((statements source).filter selects) (((sites s).flatMap
    Site.keys).filter p) := by
  have hall : ∀ {sts : List Statement} {xs : List Site},
      List.Forall₂ (fun st site => site.IsOf source st) sts xs → (∀ x ∈ xs, x ∈ sites s) →
      List.Forall₂ (fun st key => key.IsOf source s st) (sts.filter selects) ((xs.flatMap Site.keys).filter p) := by
    intro sts xs hsts hxs
    induction hsts with
    | nil => exact .nil
    | @cons st site sts xs hst _ ih =>
      have hrest := ih fun x hx => hxs x (mem_cons_of_mem _ hx)
      have hlength := hone st site hst
      rw [flatMap_cons, filter_append]
      cases hs : selects st with
      | true =>
        rw [hs, Bool.toNat_true, length_eq_one_iff] at hlength
        obtain ⟨key, hkey⟩ := hlength
        have hmem : key ∈ site.keys.filter p := by rw [hkey]; simp
        rw [filter_cons_of_pos hs, hkey, singleton_append]
        exact .cons ⟨site, hxs site (by simp), (mem_filter.1 hmem).1, hst⟩ hrest
      | false =>
        rw [hs, Bool.toNat_false, length_eq_zero_iff] at hlength
        rw [filter_cons_of_neg (by simp [hs]), hlength, nil_append]
        exact hrest
  have hselected : (statements source).filter selects =
      ((statements source).filter (hasSite source)).filter selects := by
    rw [filter_filter]
    refine filter_congr fun st _ => ?_
    cases hs : selects st with
    | true => simp [hsite st hs]
    | false => simp
  rw [hselected]
  exact hall (forall₂_sites h) fun _ hx => hx

def Bound (r : Progress) : Prop :=
  ∀ x ∈ r.items, x.binding.isSome = !x.key.isPlot

theorem step_bound {r r' : Progress} (h : Step s r r') (hr : Bound r) : Bound r' := by
  cases h with
  | @hoisted key _ _ _ _ _ _ _ _ hkey =>
    have hplot : key.isPlot = false := by
      cases key with
      | plotSeries => cases hkey
      | _ => rfl
    exact forall_mem_concat hr (by rw [hplot]; rfl)
  | directed => exact hr
  | assignment | function | plotted => exact forall_mem_concat hr rfl

theorem binding_isSome {l : LoweredScript} (h : script s = .ok l) :
    ∀ x ∈ l.items, x.binding.isSome = !x.key.isPlot := by
  obtain ⟨r, hr, hitems, -⟩ := script_keeps step_bound h fun _ _ _ hx => by cases hx
  exact hitems ▸ hr

theorem plot_of_key {l : LoweredScript} (h : script s = .ok l) {x : LoweredItem} (hx : x ∈ l.items) {i : Nat}
    (hkey : x.key = .plotSeries i) : ∃ p mark, s.plots[i]? = some p ∧ p.kind = .mark mark := by
  have hmem : ItemKey.plotSeries i ∈ (sites s).flatMap Site.keys := by
    rw [← (script_items h).1, ← hkey]
    exact mem_map_of_mem hx
  obtain ⟨site, hsite, hkey⟩ := mem_flatMap.1 hmem
  cases site with
  | assignment | function | condition | order => simp [Site.keys] at hkey
  | plot j p =>
    simp only [Site.keys] at hkey
    split at hkey
    · next mark _ hkind _ =>
      obtain rfl : i = j := by simpa using hkey
      refine ⟨p, mark, ?_, hkind⟩
      simpa [sites, sitesByKind, mem_mapIdx, List.getElem?_eq_some_iff] using hsite
    · cases hkey

/-! ## Inputs -/

/-- The field of the parameters stands for the input. -/
def FieldOf (d : InputDecl) (f : InputField) : Prop :=
  f.name = d.name ∧ f.kind = d.kind ∧ f.title = d.title ∧ inputDefault d = .ok f.default

theorem forall₂_inputs {l : LoweredScript} (h : script s = .ok l) : List.Forall₂ FieldOf s.inputs l.inputs := by
  have hall : ∀ {ds : List InputDecl} {r r' : Scope × List InputField},
      ds.foldlM addInput r = .ok r' → ∃ new, List.Forall₂ FieldOf ds new ∧ r'.2 = r.2 ++ new := by
    intro ds r r' hr
    induction ds generalizing r with
    | nil =>
      cases hr
      exact ⟨[], .nil, by simp⟩
    | cons d ds ih =>
      rw [foldlM_cons] at hr
      obtain ⟨r₁, h₁, hr⟩ := bind_eq_ok.1 hr
      obtain ⟨default, hdefault, rfl⟩ := bind_pure_eq_ok.1 h₁
      obtain ⟨new, hnew, hr'⟩ := ih hr
      exact ⟨⟨d.name, _, d.kind, d.title, default⟩ :: new, .cons ⟨rfl, rfl, rfl, hdefault⟩ hnew,
        by rw [hr', append_assoc]; rfl⟩
  obtain ⟨⟨scope, inputs⟩, hinputs, h⟩ := bind_eq_ok.1 h
  obtain ⟨r, _, rfl⟩ := bind_pure_eq_ok.1 h
  obtain ⟨new, hnew, heq⟩ := hall hinputs
  rw [show inputs = new from heq]
  exact hnew

end Lowering

end ChartScript
