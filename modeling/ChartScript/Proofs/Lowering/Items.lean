import ChartScript.Proofs.Lowering.Assigned
import ChartScript.Proofs.Lowering.Names
import ChartScript.Proofs.Sorted
import Mathlib.Data.List.Sort
/-!
# The items of a lowered script

Lowering goes through the statements of a script in the order of the source and adds the items of
each.
-/
namespace ChartScript

open List

variable {α : Type} {allowed : ValueKind → Bool} {key : ItemKey} {o : OrderCall} {site : Site}
  {l : LoweredScript} {f : FuncDecl} {P : Progress → Prop}

theorem forall_mem_concat {p : α → Prop} {xs : List α} {x : α} (h : ∀ y ∈ xs, p y) (hx : p x) :
    ∀ y ∈ xs ++ [x], p y :=
  forall_mem_append.2 ⟨h, forall_mem_singleton.2 hx⟩

theorem exists_mem_append_left {p : α → Prop} {xs ys : List α} (h : ∃ x ∈ xs, p x) :
    ∃ x ∈ xs ++ ys, p x :=
  h.imp fun _ => And.imp_left (mem_append_left _)

/-! ## Scopes -/

/-- A scope that came from another one by binding names and by taking fresh ones. -/
inductive Scope.Grows (s : Scope) : Scope → Prop
  | refl : Grows s s
  | declare {t : Scope} (name : String) (role : Role) : Grows s t → Grows s (t.declare name role).2
  | redeclare {t t' : Scope} {name emitted : String} {role : Role} : Grows s t →
      t.redeclare? name role = some (emitted, t') → Grows s t'
  | fresh {t : Scope} (base : String) : Grows s t → Grows s (t.fresh base).2

namespace Scope

theorem Grows.trans {s t u : Scope} (h : s.Grows t) (h' : t.Grows u) : s.Grows u := by
  induction h' with
  | refl => exact h
  | declare name role _ ih => exact .declare name role ih
  | redeclare _ hr ih => exact .redeclare ih hr
  | fresh base _ ih => exact .fresh base ih

theorem Grows.taken_subset {s t : Scope} (h : s.Grows t) : s.taken ⊆ t.taken := by
  induction h with
  | refl => exact fun _ hx => hx
  | declare name role _ ih => exact fun x hx => mem_cons_of_mem _ (ih hx)
  | redeclare _ hr ih =>
    obtain ⟨_, _, _, rfl⟩ := redeclare?_eq_some hr
    exact ih
  | fresh base _ ih => exact fun x hx => mem_cons_of_mem _ (ih hx)

end Scope

variable {s : Script}

namespace Lowering

theorem declareAll_grows (scope : Scope) (names : List String) : scope.Grows (declareAll scope names).2 := by
  induction names generalizing scope with
  | nil => exact .refl
  | cons x rest ih => exact (Scope.Grows.declare x _ .refl).trans (ih _)

variable {scope scope' : Scope} {pattern : Pattern} {v : Lowered}

theorem Assigned.grows {d : VarDecl} (h : Assigned s scope d pattern v scope') : scope.Grows scope' := by
  cases h with
  | declared => exact .declare _ _ .refl
  | unpacked => exact declareAll_grows _ _
  | reassigned _ _ _ _ hb => exact .redeclare .refl (by rw [Scope.redeclare?, hb, Option.map_some])

theorem hoist_eq_ok {span : Span} {base what : String}
    (h : hoist s scope span base allowed what = .ok (pattern, v, scope')) :
    ∃ w, text ⟨scope, []⟩ none (s.text span) span = .ok w ∧
      v = (if w.place then { w with code := .borrow w.code, place := false } else w) ∧
      pattern = .single (scope.fresh base).1 ∧ scope' = (scope.fresh base).2 := by
  obtain ⟨w, hw, h⟩ := bind_eq_ok.1 h
  obtain ⟨-, h⟩ := failUnless_eq_ok.1 h
  cases pure_eq_ok.1 h
  exact ⟨w, hw, rfl, rfl, rfl⟩

/-! ## The items of a statement -/

end Lowering

namespace ItemKey

def isHoisted : ItemKey → Bool
  | predicate _ | orderWhen _ | orderQuantity _ | orderStop _ | orderLimit _ => true
  | assignment _ | function _ | plotSeries _ => false

end ItemKey

namespace Lowering

/-- The keys of the items that a statement adds. -/
def Site.keys : Site → List ItemKey
  | assignment i _ => [.assignment i]
  | function i _ => [.function i]
  | condition i _ => [.predicate i]
  | order i o =>
    o.when.toList.map (fun _ => .orderWhen i) ++ o.quantity.toList.map (fun _ => .orderQuantity i) ++
      o.stop.toList.map (fun _ => .orderStop i) ++ o.limit.toList.map (fun _ => .orderLimit i)
  | plot i p =>
    match p.kind, p.series with
    | .mark _, some _ => [.plotSeries i]
    | _, _ => []

/-- Hoisted values have names of their own. -/
structure Distinct (r : Progress) : Prop where
  named : ∀ x ∈ r.items, x.key.isHoisted = true → ∃ n ∈ r.scope.taken, x.binding = some (.single n)
  apart : r.items.Pairwise fun x y => x.key.isHoisted = true → y.key.isHoisted = true → x.binding ≠ y.binding

/-- Items were added with the given keys, and hoisted values still have names of their own. -/
structure Adds (r : Progress) (keys : List ItemKey) (r' : Progress) : Prop where
  keys : r'.items.map (·.key) = r.items.map (·.key) ++ keys
  distinct : Distinct r → Distinct r'

namespace Adds

variable {r r₁ r₂ : Progress}

theorem refl : Adds r [] r := ⟨by simp, id⟩

theorem trans {ks ks' : List ItemKey} (h : Adds r ks r₁) (h' : Adds r₁ ks' r₂) : Adds r (ks ++ ks') r₂ :=
  ⟨by rw [h'.keys, h.keys, append_assoc], fun hd => h'.distinct (h.distinct hd)⟩

theorem add_plain (hkey : key.isHoisted = false) {scope : Scope}
    (hs : r.scope.Grows scope) (position : Nat) (binding : Option Pattern) (v : Lowered) :
    Adds r [key] (r.add key position binding v scope) where
  keys := by simp [Progress.add]
  distinct hd := by
    refine ⟨forall_mem_concat (fun x hx hk => ?_) fun hk => ?_, ?_⟩
    · obtain ⟨n, hn, hb⟩ := hd.named x hx hk
      exact ⟨n, hs.taken_subset hn, hb⟩
    · rw [hkey] at hk
      cases hk
    · refine pairwise_append.2 ⟨hd.apart, by simp, fun x _ y hy _ hk => ?_⟩
      rw [mem_singleton.1 hy, hkey] at hk
      cases hk

theorem add_hoisted (key : ItemKey) (base : String) (position : Nat) (v : Lowered) :
    Adds r [key] (r.add key position (some (.single (r.scope.fresh base).1)) v (r.scope.fresh base).2) where
  keys := by simp [Progress.add]
  distinct hd := by
    refine ⟨forall_mem_concat (fun x hx hk => ?_) fun _ => ⟨_, mem_cons_self, rfl⟩, ?_⟩
    · obtain ⟨n, hn, hb⟩ := hd.named x hx hk
      exact ⟨n, mem_cons_of_mem _ hn, hb⟩
    · refine pairwise_append.2 ⟨hd.apart, by simp, fun x hx y hy hk _ hb => ?_⟩
      obtain ⟨n, hn, hx'⟩ := hd.named x hx hk
      rw [mem_singleton.1 hy, hx'] at hb
      cases hb
      exact EmittedName.numbered_not_mem _ _ hn

end Adds

variable {r r' : Progress} {i : Nat} {p : PlotCall}

theorem addOrderPart_adds {position : Nat} {base : String}
    {part : Option Span} (h : addOrderPart s position key base allowed part r = .ok r') :
    Adds r (part.toList.map fun _ => key) r' := by
  unfold addOrderPart at h
  split at h
  · cases h
    exact .refl
  · obtain ⟨⟨pattern, v, scope⟩, hv, h⟩ := bind_eq_ok.1 h
    obtain ⟨_, _, _, rfl, rfl⟩ := hoist_eq_ok hv
    cases pure_eq_ok.1 h
    exact .add_hoisted key base position v

theorem addOrder_adds (h : addOrder s r i o = .ok r') : Adds r (Site.order i o).keys r' := by
  obtain ⟨r₁, h₁, h⟩ := bind_eq_ok.1 h
  obtain ⟨r₂, h₂, h⟩ := bind_eq_ok.1 h
  obtain ⟨r₃, h₃, h⟩ := bind_eq_ok.1 h
  obtain ⟨r₄, h₄, h⟩ := bind_eq_ok.1 h
  have hall := (((addOrderPart_adds h₁).trans (addOrderPart_adds h₂)).trans
    (addOrderPart_adds h₃)).trans (addOrderPart_adds h₄)
  cases pure_eq_ok.1 h
  split
  · exact ⟨hall.keys, fun hd => ⟨(hall.distinct hd).named, (hall.distinct hd).apart⟩⟩
  · exact hall

theorem addPlot_eq_ok (h : addPlot s r i p = .ok r') :
    ((Site.plot i p).keys = [] ∧ r' = r) ∨ ∃ span v, (Site.plot i p).keys = [.plotSeries i] ∧ p.series = some span ∧
    text ⟨r.scope, []⟩ none (s.text span) span = .ok v ∧
    r' = r.add (.plotSeries i) p.span.start none v r.scope := by
  cases hkind : p.kind with
  | mark mark =>
    cases hseries : p.series with
    | some span =>
      simp only [addPlot, hkind, hseries] at h
      obtain ⟨v, hv, h⟩ := bind_eq_ok.1 h
      obtain ⟨-, h⟩ := failUnless_eq_ok.1 h
      obtain ⟨-, h⟩ := failWhen_eq_ok.1 h
      cases pure_eq_ok.1 h
      exact .inr ⟨span, v, by simp only [Site.keys, hkind, hseries], rfl, hv, rfl⟩
    | none =>
      simp only [addPlot, hkind, hseries, Except.ok.injEq] at h
      exact .inl ⟨by simp only [Site.keys, hkind, hseries], h.symm⟩
  | decoration d =>
    simp only [addPlot, hkind, Except.ok.injEq] at h
    exact .inl ⟨by simp only [Site.keys, hkind], h.symm⟩

theorem addPlot_adds (h : addPlot s r i p = .ok r') : Adds r (Site.plot i p).keys r' := by
  rcases addPlot_eq_ok h with ⟨hkeys, rfl⟩ | ⟨span, v, hkeys, _, _, rfl⟩
  · rw [hkeys]
    exact .refl
  · rw [hkeys]
    exact .add_plain rfl .refl _ _ _

theorem add_adds (h : add s r site = .ok r') : Adds r site.keys r' := by
  cases site with
  | assignment i d =>
    obtain ⟨⟨pattern, v, scope⟩, hv, h⟩ := bind_eq_ok.1 h
    cases pure_eq_ok.1 h
    exact .add_plain rfl (assigned_of_assignment hv).grows _ _ _
  | function i f =>
    obtain ⟨⟨v, signature⟩, _, h⟩ := bind_eq_ok.1 h
    cases pure_eq_ok.1 h
    exact .add_plain rfl (.declare _ _ .refl) _ _ _
  | condition i c =>
    obtain ⟨⟨pattern, v, scope⟩, hv, h⟩ := bind_eq_ok.1 h
    obtain ⟨_, _, _, rfl, rfl⟩ := hoist_eq_ok hv
    cases pure_eq_ok.1 h
    exact .add_hoisted _ _ _ _
  | order i o => exact addOrder_adds h
  | plot i p => exact addPlot_adds h

/-! ## The items of a script -/

theorem foldlM_adds {sites : List Site} (h : sites.foldlM (add s) r = .ok r') :
    Adds r (sites.flatMap Site.keys) r' := by
  induction sites generalizing r with
  | nil =>
    cases h
    exact .refl
  | cons site rest ih =>
    obtain ⟨r₁, h₁, h⟩ := bind_eq_ok.1 h
    exact (add_adds h₁).trans (ih h)

theorem script_items (h : script s = .ok l) :
    l.items.map (·.key) = (sites s).flatMap Site.keys ∧
    (∀ x ∈ l.items, x.key.isHoisted = true → ∃ n, x.binding = some (.single n)) ∧
    l.items.Pairwise fun x y => x.key.isHoisted = true → y.key.isHoisted = true → x.binding ≠ y.binding := by
  obtain ⟨⟨scope, inputs⟩, _, h⟩ := bind_eq_ok.1 h
  obtain ⟨r, hr, rfl⟩ := bind_pure_eq_ok.1 h
  have hadds := foldlM_adds hr
  have hd := hadds.distinct ⟨by simp, by simp⟩
  refine ⟨by simpa using hadds.keys, fun x hx hk => ?_, hd.apart⟩
  obtain ⟨n, _, hb⟩ := hd.named x hx hk
  exact ⟨n, hb⟩

/-- The sites in the order of the source, by a sort that can be evaluated. -/
def sitesInserted (s : Script) : List Site :=
  (sitesByKind s).insertionSort (·.position ≤ ·.position)

/-- The lowered script, which can be evaluated if no two sites are at one place. -/
def evaluated (s : Script) : Except LoweringError LoweredScript :=
  if (sitesInserted s).Pairwise (·.position < ·.position) then do
    let (scope, inputs) ← s.inputs.foldlM addInput ({}, [])
    let r ← (sitesInserted s).foldlM (add s) { scope := scope }
    return ⟨r.items, inputs, r.needs⟩
  else script s

theorem evaluated_eq (s : Script) : evaluated s = script s := by
  unfold evaluated
  split
  · next h =>
    have hsites : sites s = sitesInserted s := mergeSort_eq_of_perm (perm_insertionSort _ _).symm h
    rw [script, hsites]
  · rfl

instance decidableExistsLowered (s : Script) (p : LoweredScript → Prop) [DecidablePred p] :
    Decidable (∃ l, script s = .ok l ∧ p l) :=
  decidable_of_iff (∃ l, evaluated s = .ok l ∧ p l) (by rw [evaluated_eq])

instance decidableExistsRefused (s : Script) (p : LoweringError → Prop) [DecidablePred p] :
    Decidable (∃ e, script s = .error e ∧ p e) :=
  decidable_of_iff (∃ e, evaluated s = .error e ∧ p e) (by rw [evaluated_eq])

theorem assignment_mem_sites : .assignment i d ∈ sites s ↔ s.varDecls[i]? = some d := by
  simp [sites, sitesByKind, mem_mapIdx, List.getElem?_eq_some_iff]

theorem function_mem_sites : .function i f ∈ sites s ↔ s.functions[i]? = some f := by
  simp [sites, sitesByKind, mem_mapIdx, List.getElem?_eq_some_iff]

theorem condition_mem_sites {c : Condition} : .condition i c ∈ sites s ↔ s.conditions[i]? = some c := by
  simp [sites, sitesByKind, mem_mapIdx, List.getElem?_eq_some_iff]

theorem order_mem_sites : .order i o ∈ sites s ↔ s.orders[i]? = some o := by
  simp [sites, sitesByKind, mem_mapIdx, List.getElem?_eq_some_iff]

theorem plot_mem_sites : .plot i p ∈ sites s ↔ s.plots[i]? = some p := by
  simp [sites, sitesByKind, mem_mapIdx, List.getElem?_eq_some_iff]

/-! ## One step -/

/-- What a statement adds at a time: an item for a variable, a function, a value that is hoisted or one
that is plotted, or the need for the directions of orders. -/
inductive Step (s : Script) (r : Progress) : Progress → Prop
  | assignment {i : Nat} {d : VarDecl} {pattern : Pattern} {v : Lowered} {scope : Scope} :
      s.varDecls[i]? = some d → assignment s r.scope d = .ok (pattern, v, scope) →
      Step s r (r.add (.assignment i) d.span.start (some pattern) v scope)
  | function {i : Nat} {f : FuncDecl} {out : Lowered × Signature} : s.functions[i]? = some f →
      function s r.scope f = .ok out → Step s r (r.add (.function i) f.span.start
        (some (.single (r.scope.declare f.name (.function out.2)).1)) out.1
        (r.scope.declare f.name (.function out.2)).2)
  | hoisted {key : ItemKey} {position : Nat} {span : Span} {base what : String} {allowed : ValueKind → Bool}
      {pattern : Pattern} {v : Lowered} {scope : Scope} : key.isHoisted = true →
      base ∈ ["cond", "when", "qty", "stop", "limit"] →
      hoist s r.scope span base allowed what = .ok (pattern, v, scope) →
      Step s r (r.add key position (some pattern) v scope)
  | plotted {i : Nat} {p : PlotCall} {span : Span} {v : Lowered} : p.series = some span →
      text ⟨r.scope, []⟩ none (s.text span) span = .ok v →
      Step s r (r.add (.plotSeries i) p.span.start none v r.scope)
  | directed : Step s r { r with needs := r.needs ++ [.direction] }

theorem add_keeps (hstep : ∀ {r r' : Progress}, Step s r r' → P r → P r')
    (hsite : site ∈ sites s) (h : add s r site = .ok r') (hr : P r) : P r' := by
  have part : ∀ {position : Nat} {key : ItemKey} {base : String} {allowed : ValueKind → Bool}
      {span : Option Span} {r r' : Progress}, key.isHoisted = true →
      base ∈ ["cond", "when", "qty", "stop", "limit"] →
      addOrderPart s position key base allowed span r = .ok r' → P r → P r' := by
    intro _ _ _ _ _ _ _ hkey hbase h hr
    unfold addOrderPart at h
    split at h
    · cases h
      exact hr
    · obtain ⟨⟨pattern, v, scope⟩, hv, h⟩ := bind_eq_ok.1 h
      cases pure_eq_ok.1 h
      exact hstep (.hoisted hkey hbase hv) hr
  cases site with
  | assignment i d =>
    obtain ⟨⟨pattern, v, scope⟩, hv, h⟩ := bind_eq_ok.1 h
    cases pure_eq_ok.1 h
    exact hstep (.assignment (assignment_mem_sites.1 hsite) hv) hr
  | function i f =>
    obtain ⟨out, hout, rfl⟩ := bind_pure_eq_ok.1 h
    exact hstep (.function (function_mem_sites.1 hsite) hout) hr
  | condition i c =>
    obtain ⟨⟨pattern, v, scope⟩, hv, h⟩ := bind_eq_ok.1 h
    cases pure_eq_ok.1 h
    exact hstep (.hoisted rfl (by simp) hv) hr
  | order i o =>
    obtain ⟨r₁, h₁, h⟩ := bind_eq_ok.1 h
    obtain ⟨r₂, h₂, h⟩ := bind_eq_ok.1 h
    obtain ⟨r₃, h₃, h⟩ := bind_eq_ok.1 h
    obtain ⟨r₄, h₄, h⟩ := bind_eq_ok.1 h
    have hwhen := part rfl (by simp) h₁ hr
    have hquantity := part rfl (by simp) h₂ hwhen
    have hstop := part rfl (by simp) h₃ hquantity
    have hlimit := part rfl (by simp) h₄ hstop
    cases pure_eq_ok.1 h
    split
    · exact hstep .directed hlimit
    · exact hlimit
  | plot i p =>
    rcases addPlot_eq_ok h with ⟨_, rfl⟩ | ⟨span, v, _, hspan, hv, rfl⟩
    · exact hr
    · exact hstep (.plotted hspan hv) hr

theorem script_keeps (hstep : ∀ {r r' : Progress}, Step s r r' → P r → P r')
    (h : script s = .ok l)
    (hinputs : ∀ scope, s.inputs.foldlM addInput ({}, []) = .ok (scope, l.inputs) → P { scope := scope }) :
    ∃ r, P r ∧ r.items = l.items ∧ r.needs = l.needs := by
  obtain ⟨⟨scope, inputs⟩, hin, h⟩ := bind_eq_ok.1 h
  obtain ⟨r, hr, rfl⟩ := bind_pure_eq_ok.1 h
  exact ⟨r, foldlM_keeps_of_mem (fun _ _ hsite _ hadd => add_keeps hstep hsite hadd) hr (hinputs scope hin), rfl, rfl⟩

/-! ## The statements of a script -/

theorem site_lowered (h : script s = .ok l) (hsite : site ∈ sites s) :
    ∃ r r', add s r site = .ok r' := by
  obtain ⟨⟨scope, inputs⟩, _, h⟩ := bind_eq_ok.1 h
  obtain ⟨r, hr, _⟩ := bind_eq_ok.1 h
  obtain ⟨before, after, hsplit⟩ := append_of_mem hsite
  rw [hsplit, foldlM_append] at hr
  obtain ⟨r₁, _, hr⟩ := bind_eq_ok.1 hr
  obtain ⟨r₂, hr₂, _⟩ := bind_eq_ok.1 hr
  exact ⟨r₁, r₂, hr₂⟩

theorem assignment_lowered (h : script s = .ok l) (hd : d ∈ s.varDecls) :
    ∃ scope pattern v scope', Assigned s scope d pattern v scope' := by
  obtain ⟨i, hi⟩ := mem_iff_getElem?.1 hd
  obtain ⟨r, r', hadd⟩ := site_lowered h (assignment_mem_sites.2 hi)
  obtain ⟨⟨pattern, v, scope'⟩, hv, _⟩ := bind_eq_ok.1 hadd
  exact ⟨r.scope, pattern, v, scope', assigned_of_assignment hv⟩

theorem function_lowered (h : script s = .ok l) (hf : f ∈ s.functions) :
    ∃ scope out, function s scope f = .ok out := by
  obtain ⟨i, hi⟩ := mem_iff_getElem?.1 hf
  obtain ⟨r, r', hadd⟩ := site_lowered h (function_mem_sites.2 hi)
  obtain ⟨out, hout, _⟩ := bind_eq_ok.1 hadd
  exact ⟨r.scope, out, hout⟩

theorem predicate_mem_keys : .predicate i ∈ (sites s).flatMap Site.keys ↔ i < s.conditions.length := by
  rw [mem_flatMap]
  constructor
  · rintro ⟨site, hsite, hkey⟩
    cases site with
    | condition j c =>
      obtain rfl : i = j := by simpa [Site.keys] using hkey
      exact (List.getElem?_eq_some_iff.1 (condition_mem_sites.1 hsite)).1
    | assignment | function => simp [Site.keys] at hkey
    | order => simp [Site.keys] at hkey
    | plot j p =>
      simp only [Site.keys] at hkey
      split at hkey <;> simp at hkey
  · intro hi
    exact ⟨_, condition_mem_sites.2 (getElem?_eq_getElem hi), by simp [Site.keys]⟩

theorem orderWhen_mem_keys :
    .orderWhen i ∈ (sites s).flatMap Site.keys ↔ ∃ o, s.orders[i]? = some o ∧ o.when.isSome = true := by
  rw [mem_flatMap]
  constructor
  · rintro ⟨site, hsite, hkey⟩
    cases site with
    | order j o =>
      have hj : o.when.isSome = true ∧ i = j := by
        cases hw : o.when <;> simp [Site.keys, hw] at hkey ⊢
        exact hkey
      exact ⟨o, by rw [hj.2]; exact order_mem_sites.1 hsite, hj.1⟩
    | assignment | function | condition => simp [Site.keys] at hkey
    | plot j p =>
      simp only [Site.keys] at hkey
      split at hkey <;> simp at hkey
  · rintro ⟨o, ho, hw⟩
    obtain ⟨span, hspan⟩ := Option.isSome_iff_exists.1 hw
    exact ⟨_, order_mem_sites.2 ho, by simp [Site.keys, hspan]⟩

end Lowering

end ChartScript
