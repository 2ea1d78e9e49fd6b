import ChartScript.Proofs.Lowering.Items
import ChartScript.Proofs.Module.CarriedOut
import ChartScript.Proofs.Module.Entries
import Mathlib.Data.List.Pairwise
import Mathlib.Tactic.Choose
/-!
# Control flow is kept

On every bar the actions of a module make exactly the orders of the script whose path of bodies is
entered, each once and in the order of the source.
-/
namespace ChartScript.Module

open List Lowering

open Condition (Reached Entered head)

/-- The order is reached from the body `outer`, and its own condition holds. -/
def Due (s : Script) (predicate when : Nat → Bool) (outer : Option BodyRef) (i : Nat)
    (o : OrderCall) : Prop :=
  s.orders[i]? = some o ∧ Reached s.conditions predicate outer o.scope ∧ (o.when.isSome = true → when i = true)

/-- The tests of a module hold as the predicates and the order conditions of the script do. -/
structure Agrees (l : LoweredScript) (holds : Test → Bool) (predicate when : Nat → Bool) :
    Prop where
  predicate : ∀ i v, named? l (.predicate i) = some v → holds (test v) = predicate i
  when : ∀ i v, named? l (.orderWhen i) = some v → holds (test v) = when i

/-- The orders with the property `p` are made, each once and with numbers that follow each other as
`r` says. -/
structure Issues (r : Nat → Nat → Prop) (l : LoweredScript) (p : Nat → OrderCall → Prop)
    (out : List (Nat × EmittedOrder)) : Prop where
  pairwise : out.Pairwise fun a b => r a.1 b.1
  mem : ∀ i e, (i, e) ∈ out ↔ ∃ o t, p i o ∧ orderAction l i o = .ok (.order i t e)

namespace Issues

variable {r : Nat → Nat → Prop} {l : LoweredScript} {p q : Nat → OrderCall → Prop}
  {out out' : List (Nat × EmittedOrder)}

theorem congr (h : Issues r l p out) (hpq : ∀ i o, p i o ↔ q i o) : Issues r l q out :=
  ⟨h.pairwise, fun i e => by simp only [h.mem, hpq]⟩

theorem nil (h : ∀ i o, ¬ p i o) : Issues r l p [] :=
  ⟨.nil, fun i e => ⟨fun hm => (by cases hm), fun ⟨o, _, hp, _⟩ => (h i o hp).elim⟩⟩

theorem one {i : Nat} {o : OrderCall} {t : Option Test} {e : EmittedOrder}
    (he : orderAction l i o = .ok (.order i t e)) : Issues r l (fun j o' => j = i ∧ o' = o) [(i, e)] := by
  refine ⟨by simp, fun j e' => ?_⟩
  rw [mem_singleton]
  constructor
  · rintro ⟨rfl, rfl⟩
    exact ⟨o, _, ⟨rfl, rfl⟩, he⟩
  · rintro ⟨o', t, ⟨rfl, rfl⟩, he'⟩
    cases he.symm.trans he'
    rfl

theorem append (h : Issues r l p out) (h' : Issues r l q out')
    (hr : ∀ i o j o', p i o → q j o' → r i j) : Issues r l (fun i o => p i o ∨ q i o) (out ++ out') := by
  refine ⟨pairwise_append.2 ⟨h.pairwise, h'.pairwise, ?_⟩, fun i e => ?_⟩
  · rintro ⟨i, e⟩ hi ⟨j, e'⟩ hj
    obtain ⟨o, _, hp, _⟩ := (h.mem i e).1 hi
    obtain ⟨o', _, hq, _⟩ := (h'.mem j e').1 hj
    exact hr i o j o' hp hq
  · rw [mem_append, h.mem, h'.mem]
    constructor
    · rintro (⟨o, t, hp, ha⟩ | ⟨o, t, hq, ha⟩)
      · exact ⟨o, t, .inl hp, ha⟩
      · exact ⟨o, t, .inr hq, ha⟩
    · rintro ⟨o, t, hp | hq, ha⟩
      · exact .inl ⟨o, t, hp, ha⟩
      · exact .inr ⟨o, t, hq, ha⟩

theorem all {α β : Type} {read : β → List (Nat × EmittedOrder)} {part : α → Nat → OrderCall → Prop}
    {es : List α} {as : List β} (h : List.Forall₂ (fun e a => Issues r l (part e) (read a)) es as)
    (hr : es.Pairwise fun e e' => ∀ i o j o', part e i o → part e' j o' → r i j) :
    Issues r l (fun i o => ∃ e ∈ es, part e i o) (as.flatMap read) := by
  induction h with
  | nil => exact nil (by simp)
  | cons he _ ih =>
    rw [pairwise_cons] at hr
    refine (he.append (ih hr.2) ?_).congr fun i o => by simp
    rintro i o j o' hp ⟨e', he', hp'⟩
    exact hr.1 e' he' i o j o' hp hp'

end Issues

/-- What the actions of a module are put together from is there. -/
structure Complete (s : Script) (l : LoweredScript) : Prop where
  predicate : ∀ i < s.conditions.length, ∃ v, named? l (.predicate i) = some v
  when : ∀ i o, s.orders[i]? = some o → (named? l (.orderWhen i)).isSome = o.when.isSome
  request : ∀ o ∈ s.orders, ∃ r, request o = .ok r

variable {o : OrderCall} {l : LoweredScript} {key : ItemKey} {s : Script} {v : ValueKind × String}

variable {e : Entry} {b : BodyRef} {h k : Nat} {c : Condition} {scope : Option BodyRef}
  {v' : ValueKind × String}

section
variable {s : Script} {l : LoweredScript} {holds : Test → Bool} {predicate when : Nat → Bool}

theorem mapM_eq_ok {ε α β : Type} {f : α → Except ε β} {r : α → β → Prop} {xs : List α}
    (h : ∀ x ∈ xs, ∃ y, f x = .ok y ∧ r x y) : ∃ ys, xs.mapM f = .ok ys ∧ List.Forall₂ r xs ys := by
  induction xs with
  | nil => exact ⟨[], rfl, .nil⟩
  | cons x xs ih =>
    obtain ⟨y, hy, hr⟩ := h x (by simp)
    obtain ⟨ys, hys, hrs⟩ := ih fun x hx => h x (by simp [hx])
    refine ⟨y :: ys, ?_, .cons hr hrs⟩
    rw [mapM_cons, hy, hys]
    rfl

variable {i last : Nat}

theorem orderAction_eq_ok {r : OrderRequest} (h : request o = .ok r) :
    ∃ e, orderAction l i o = .ok (.order i ((named? l (.orderWhen i)).map test) e) :=
  ⟨_, by rw [orderAction, h]; rfl⟩

theorem runAll_eq (holds : Test → Bool) (as : List Action) : runAll holds as = as.flatMap (·.run holds) := by
  induction as with
  | nil => rfl
  | cons a as ih => rw [runAll, ih, flatMap_cons]

theorem orderTest_iff (hl : Complete s l) (ha : Agrees l holds predicate when) (ho : s.orders[i]? = some o) :
    ((named? l (.orderWhen i)).map test).all holds = true ↔ (o.when.isSome = true → when i = true) := by
  have hsome := hl.when i o ho
  cases hv : named? l (.orderWhen i) with
  | none => simp [← hsome, hv]
  | some v => simp [← hsome, hv, ha.when i v hv]

theorem orderAction_issues (hl : Complete s l) (ho : s.orders[i]? = some o) :
    ∃ a, orderAction l i o = .ok a ∧ ∀ holds predicate when, Agrees l holds predicate when →
    Issues (· < ·) l (fun j o' => j = i ∧ o' = o ∧ (o.when.isSome = true → when i = true)) (a.run holds) := by
  obtain ⟨r, hr⟩ := hl.request o (mem_of_getElem? ho)
  obtain ⟨e, he⟩ := orderAction_eq_ok (l := l) (i := i) hr
  refine ⟨_, he, fun holds predicate when ha => ?_⟩
  have htest := orderTest_iff hl ha ho
  rw [Action.run]
  split
  · next hw => exact (Issues.one he).congr fun j o' =>
      ⟨fun h => ⟨h.1, h.2, htest.1 hw⟩, fun h => ⟨h.1, h.2.1⟩⟩
  · next hw => exact .nil fun j o' h => hw (htest.2 h.2.2)

theorem arms_run (hl : Complete s l) (body : Option BodyRef → Except GenerationFault (List Action))
    (acts : BodyRef → List Action)
    (hlast : body (some ⟨last, .onFalse⟩) = .ok (acts ⟨last, .onFalse⟩)) {ks : List Nat}
    (hks : ∀ k ∈ ks, k < s.conditions.length ∧ body (some ⟨k, .onTrue⟩) = .ok (acts ⟨k, .onTrue⟩)) :
    ∃ chain, arms s l body last ks = .ok chain ∧
      ∀ holds predicate when, Agrees l holds predicate when → chain.run holds =
        match ks.find? predicate with
        | some k => runAll holds (acts ⟨k, .onTrue⟩)
        | none => if isUsed s ⟨last, .onFalse⟩ then runAll holds (acts ⟨last, .onFalse⟩) else [] := by
  induction ks with
  | nil =>
    rw [arms]
    split
    · refine ⟨.otherwise (acts ⟨last, .onFalse⟩), by rw [hlast]; rfl, fun holds _ _ _ => ?_⟩
      rfl
    · exact ⟨.stop, rfl, fun holds _ _ _ => by rw [Chain.run]; rfl⟩
  | cons k ks ih =>
    obtain ⟨rest, hrest, hrun⟩ := ih fun k' hk' => hks k' (by simp [hk'])
    obtain ⟨hk, hbody⟩ := hks k (by simp)
    obtain ⟨v, hv⟩ := hl.predicate k hk
    refine ⟨.arm (test v) (acts ⟨k, .onTrue⟩) rest, ?_, fun holds predicate when ha => ?_⟩
    · rw [arms, conditionTest, hv, hbody, hrest]
      rfl
    · rw [Chain.run, ha.predicate k v hv, hrun holds predicate when ha, find?_cons]
      cases predicate k <;> rfl

/-! ## Chains -/

theorem used_of_leads (ho : s.orders[i]? = some o)
    (hr : Condition.Leads s.conditions (some b) o.scope) :
    isUsed s b = true ∧ some b ∈ Condition.scopes s.conditions s.toDeclarations.placed := by
  rcases Condition.leads_iff.1 hr with hscope | ⟨b', c, hc, hparent, -⟩
  · have hmem := mem_of_getElem? ho
    refine ⟨?_, mem_append_right _ (mem_map.2 ⟨_, Script.order_mem_placed ho, hscope⟩)⟩
    simp only [isUsed, Bool.or_eq_true, any_eq_true]
    exact .inl ⟨o, hmem, by simp [hscope]⟩
  · have hmem := mem_of_getElem? hc
    refine ⟨?_, mem_append_left _ (mem_map.2 ⟨c, hmem, hparent⟩)⟩
    simp only [isUsed, Bool.or_eq_true, any_eq_true]
    exact .inr ⟨c, hmem, by simp [hparent]⟩

theorem eq_last_of_leads (hs : s.Shaped) (hc : s.conditions[h]? = some c)
    (hnone : c.chainedFrom = none) (hlast : (h :: links s h).getLast? = some last)
    (hk : k < s.conditions.length) (hhead : head s.conditions k = h) (ho : s.orders[i]? = some o)
    (hleads : Condition.Leads s.conditions (some ⟨k, .onFalse⟩) o.scope) : k = last := by
  have hsorted := chain_pairwise hs h
  obtain ⟨hllt, hlh⟩ := (mem_chain hc hnone).1 (mem_of_getLast? hlast)
  have hle : last ≤ k := hs.nested.last k (used_of_leads ho hleads).2 last hllt (hlh.trans hhead.symm)
  have hge : k ≤ last := by
    obtain ⟨before, hb⟩ := getLast?_eq_some_iff.1 hlast
    have hk' := (mem_chain hc hnone).2 ⟨hk, hhead⟩
    rw [hb] at hk' hsorted
    rcases mem_append.1 hk' with hk' | hk'
    · exact ((pairwise_append.1 hsorted).2.2 k hk' last (by simp)).le
    · exact (mem_singleton.1 hk').le
  exact Nat.le_antisymm hge hle

def DueBelow (s : Script) (predicate when : Nat → Bool) (h i : Nat) (o : OrderCall) : Prop :=
  ∃ b : BodyRef, b.condition < s.conditions.length ∧ head s.conditions b.condition = h ∧
    Entered s.conditions predicate b ∧ Due s predicate when (some b) i o

theorem chain_issues (hs : s.Shaped) (hc : s.conditions[h]? = some c)
    (hnone : c.chainedFrom = none) {acts : BodyRef → List Action}
    (hlast : (h :: links s h).getLast? = some last)
    (hacts : ∀ b : BodyRef, b.condition ∈ h :: links s h →
      Issues (· < ·) l (Due s predicate when (some b)) (runAll holds (acts b))) :
    Issues (· < ·) l (DueBelow s predicate when h)
      (match (h :: links s h).find? predicate with
        | some k => runAll holds (acts ⟨k, .onTrue⟩)
        | none => if isUsed s ⟨last, .onFalse⟩ then runAll holds (acts ⟨last, .onFalse⟩) else []) := by
  have hmem : ∀ {k}, k ∈ h :: links s h ↔ k < s.conditions.length ∧ head s.conditions k = h := mem_chain hc hnone
  have hsorted := chain_pairwise hs h
  cases hfind : (h :: links s h).find? predicate with
  | some k =>
    obtain ⟨hk, before, after, hsplit, hfalse⟩ := find?_eq_some_iff_append.1 hfind
    have hkmem : k ∈ h :: links s h := by rw [hsplit]; simp
    obtain ⟨hklt, hkh⟩ := hmem.1 hkmem
    -- The members of the chain before `k` do not hold, those behind it come later.
    have hmember : ∀ {d}, d < s.conditions.length → head s.conditions d = h →
        predicate d = false ∨ d = k ∨ k < d := by
      intro d hd hdh
      have hd' := hmem.2 ⟨hd, hdh⟩
      rw [hsplit] at hd' hsorted
      rcases mem_append.1 hd' with hd' | hd'
      · exact .inl (by simpa using hfalse d hd')
      · rcases mem_cons.1 hd' with rfl | hd'
        · exact .inr (.inl rfl)
        · exact .inr (.inr ((pairwise_cons.1 (pairwise_append.1 hsorted).2.1).1 d hd'))
    refine (hacts ⟨k, .onTrue⟩ hkmem).congr fun i o => ⟨fun hdue => ?_, ?_⟩
    · refine ⟨⟨k, .onTrue⟩, hklt, hkh, ⟨hk, fun d hd hdh => ?_⟩, hdue⟩
      have hd : d < k := hd
      rcases hmember (hd.trans hklt) (hdh.trans hkh) with hd' | rfl | hd'
      · exact hd'
      · exact absurd hd (Nat.lt_irrefl _)
      · exact absurd hd (by omega)
    · rintro ⟨⟨m, branch⟩, hm, hmh, hentered, hdue⟩
      cases branch with
      | onTrue =>
        rcases hmember hm hmh with hm' | rfl | hlt
        · exact absurd (hentered.1.symm.trans hm') (by simp)
        · exact hdue
        · have := hentered.2 k hlt (hkh.trans hmh.symm)
          rw [hk] at this
          cases this
      | onFalse =>
        have := hentered k hklt (hkh.trans hmh.symm)
        rw [hk] at this
        cases this
  | none =>
    have hfalse : ∀ k, k < s.conditions.length → head s.conditions k = h → predicate k = false := by
      intro k hk hkh
      simpa using find?_eq_none.1 hfind k (hmem.2 ⟨hk, hkh⟩)
    have hlastmem := mem_of_getLast? hlast
    obtain ⟨hllt, hlh⟩ := hmem.1 hlastmem
    -- An order is only reached through the last condition of the chain.
    have honly : ∀ {i o}, DueBelow s predicate when h i o →
        isUsed s ⟨last, .onFalse⟩ = true ∧ Due s predicate when (some ⟨last, .onFalse⟩) i o := by
      rintro i o ⟨⟨k, branch⟩, hk, hkh, hentered, hdue⟩
      cases branch with
      | onTrue => exact absurd (hentered.1.symm.trans (hfalse k hk hkh)) (by simp)
      | onFalse =>
        obtain rfl := eq_last_of_leads hs hc hnone hlast hk hkh hdue.1 hdue.2.1.leads
        have hused := (used_of_leads hdue.1 hdue.2.1.leads).1
        exact ⟨hused, hdue⟩
    by_cases hu : isUsed s ⟨last, .onFalse⟩ = true
    · simp only [if_pos hu]
      have hentered : Entered s.conditions predicate ⟨last, .onFalse⟩ := fun d hd hdh => hfalse d hd (hdh.trans hlh)
      exact (hacts ⟨last, .onFalse⟩ hlastmem).congr fun i o =>
        ⟨fun hdue => ⟨_, hllt, hlh, hentered, hdue⟩, fun hdue => (honly hdue).2⟩
    · simp only [if_neg hu]
      exact .nil fun i o hdue => hu (honly hdue).1

/-! ## Bodies -/

def depthBelow (s : Script) : Option BodyRef → Nat
  | none => s.conditions.length + 1
  | some b => s.conditions.length - b.condition

theorem depthBelow_pos
    (hscope : ∀ b, scope = some b → b.condition < s.conditions.length) : 0 < depthBelow s scope := by
  cases scope with
  | none => exact Nat.succ_pos _
  | some b => exact Nat.sub_pos_of_lt (hscope b rfl)

theorem depthBelow_lt (hs : s.Shaped)
    (he : .condition i c ∈ entries s scope) (hb : b.condition < s.conditions.length)
    (hhead : head s.conditions b.condition = i) : depthBelow s (some b) < depthBelow s scope := by
  obtain ⟨hc, hparent, -⟩ := condition_mem_entries.1 he
  have hle : i ≤ b.condition := hhead ▸ hs.nested.head_le hb
  cases scope with
  | none => simp only [depthBelow]; omega
  | some b₀ =>
    have := (hs.nested.parent hc hparent).1
    simp only [depthBelow]
    omega

def Below (s : Script) (outer : Option BodyRef) (i : Nat) (o : OrderCall) : Prop :=
  s.orders[i]? = some o ∧ Condition.Leads s.conditions outer o.scope

def Entry.Holds (s : Script) : Entry → Nat → OrderCall → Prop
  | .order i o, j, o' => j = i ∧ o' = o
  | .condition h _, j, o' => ∃ b : BodyRef, b.condition < s.conditions.length ∧
      head s.conditions b.condition = h ∧ Below s (some b) j o'

def Entry.Part (s : Script) (predicate when : Nat → Bool) : Entry → Nat → OrderCall → Prop
  | .order i o, j, o' => j = i ∧ o' = o ∧ (o.when.isSome = true → when i = true)
  | .condition h _, j, o' => DueBelow s predicate when h j o'

theorem holds_of_part (h : e.Part s predicate when i o) : e.Holds s i o := by
  cases e with
  | order j o' => exact ⟨h.1, h.2.1⟩
  | condition j c =>
    obtain ⟨b, hb, hhead, -, hdue⟩ := h
    exact ⟨b, hb, hhead, hdue.1, hdue.2.1.leads⟩

theorem holds_within (hs : s.Shaped) (he : e ∈ entries s scope)
    (h : e.Holds s i o) : s.orders[i]? = some o ∧ e.position ≤ o.span.start ∧ o.span.start < e.limit := by
  cases e with
  | order j o' =>
    obtain ⟨rfl, rfl⟩ := h
    exact ⟨(order_mem_entries.1 he).1, Nat.le_refl _, Nat.lt_succ_self _⟩
  | condition j c =>
    obtain ⟨b, _, hhead, ho, hleads⟩ := h
    obtain ⟨hc, -⟩ := condition_mem_entries.1 he
    have hplaced := Script.order_mem_placed ho
    have hin := hleads.within hs.nested (hhead ▸ hc) (fun b' hb' => hs.nested.scope _ hplaced b' hb')
    have := hs.nested.filled _ hplaced
    exact ⟨ho, hin.1, by simp only [Entry.limit] at *; omega⟩

theorem entries_in_order (hs : s.Shaped) (scope : Option BodyRef) :
    (entries s scope).Pairwise fun e e' => ∀ i o j o', e.Holds s i o → e'.Holds s j o' → i < j := by
  refine (entries_pairwise s scope).imp_of_mem fun {e e'} he he' hpos i o j o' h h' => ?_
  obtain ⟨ho, -, hlt⟩ := holds_within hs he h
  obtain ⟨ho', hge, -⟩ := holds_within hs he' h'
  have := limit_le_position hs he he' hpos.1 hpos.2
  exact (hs.order_lt_iff ho ho').2 (by omega)

theorem parent_of_head (hs : s.Shaped)
    (he : .condition h c ∈ entries s scope) {m : Condition} (hm : s.conditions[k]? = some m)
    (hhead : head s.conditions k = h) : m.parent = scope := by
  obtain ⟨hc, hparent, -⟩ := condition_mem_entries.1 he
  obtain ⟨c', hc', -, hp⟩ := hs.nested.first hm
  cases hc.symm.trans (hhead ▸ hc')
  exact hp.symm.trans hparent

theorem part_iff_due (hs : s.Shaped) :
    (∃ e ∈ entries s scope, e.Part s predicate when i o) ↔ Due s predicate when scope i o := by
  constructor
  · rintro ⟨e, he, hp⟩
    cases e with
    | order j o' =>
      obtain ⟨rfl, rfl, hwhen⟩ := hp
      obtain ⟨ho, hscope⟩ := order_mem_entries.1 he
      exact ⟨ho, hscope ▸ .here, hwhen⟩
    | condition h c =>
      obtain ⟨b, hb, hhead, hentered, ho, hr, hwhen⟩ := hp
      have hm := getElem?_eq_getElem hb
      have hparent := parent_of_head hs he hm hhead
      exact ⟨ho, Condition.reached_iff.2 (.inr ⟨b, _, hm, hparent, hentered, hr⟩), hwhen⟩
  · rintro ⟨ho, hr, hwhen⟩
    rcases Condition.reached_iff.1 hr with hscope | ⟨b, m, hm, hparent, hentered, hr⟩
    · exact ⟨.order i o, order_mem_entries.2 ⟨ho, hscope⟩, rfl, rfl, hwhen⟩
    · obtain ⟨c, hc, hnone, hp⟩ := hs.nested.first hm
      exact ⟨.condition _ c, condition_mem_entries.2 ⟨hc, hp.trans hparent, hnone⟩, b,
        (List.getElem?_eq_some_iff.1 hm).1, rfl, hentered, ho, hr, hwhen⟩

def entryAction (s : Script) (l : LoweredScript) (depth : Nat) : Entry → Except GenerationFault Action
  | .order i o => orderAction l i o
  | .condition i _ => do
    let chain := i :: links s i
    return .choose (← arms s l (actionsOf s l depth) (chain.getLast?.getD i) chain)

theorem actionsOf_succ (s : Script) (l : LoweredScript) (depth : Nat) (scope : Option BodyRef) :
    actionsOf s l (depth + 1) scope = (entries s scope).mapM (entryAction s l depth) := by
  congr 1

theorem actionsOf_issues (hs : s.Shaped) (hl : Complete s l) (depth : Nat) (scope : Option BodyRef)
    (hd : depthBelow s scope ≤ depth) (hscope : ∀ b, scope = some b → b.condition < s.conditions.length) :
    ∃ as, actionsOf s l depth scope = .ok as ∧ ∀ holds predicate when, Agrees l holds predicate when →
    Issues (· < ·) l (Due s predicate when scope) (runAll holds as) := by
  induction depth generalizing scope with
  | zero => exact absurd (depthBelow_pos hscope) (by omega)
  | succ depth ih =>
    have hentry : ∀ e ∈ entries s scope, ∃ a, entryAction s l depth e = .ok a ∧
        ∀ holds predicate when, Agrees l holds predicate when →
          Issues (· < ·) l (e.Part s predicate when) (a.run holds) := by
      intro e he
      cases e with
      | order i o => exact orderAction_issues hl (order_mem_entries.1 he).1
      | condition i c =>
        obtain ⟨hc, -, hnone⟩ := condition_mem_entries.1 he
        have hbody : ∀ b : BodyRef, ∃ as, b.condition ∈ i :: links s i →
            actionsOf s l depth (some b) = .ok as ∧ ∀ holds predicate when,
              Agrees l holds predicate when → Issues (· < ·) l (Due s predicate when (some b)) (runAll holds as) := by
          intro b
          by_cases hb : b.condition ∈ i :: links s i
          · obtain ⟨hlt, hhead⟩ := (mem_chain hc hnone).1 hb
            have hdepth := depthBelow_lt hs he hlt hhead
            obtain ⟨as, has⟩ := ih (some b) (by omega) fun b' hb' => by cases hb'; exact hlt
            exact ⟨as, fun _ => has⟩
          · exact ⟨[], fun h => absurd h hb⟩
        choose acts hacts using hbody
        obtain ⟨last, hlast⟩ : ∃ last, (i :: links s i).getLast? = some last := ⟨_, getLast?_cons⟩
        obtain ⟨chain, hchain, hrun⟩ := arms_run hl (actionsOf s l depth) acts
          (hacts ⟨last, .onFalse⟩ (mem_of_getLast? hlast)).1
          (fun k hk => ⟨((mem_chain hc hnone).1 hk).1, (hacts ⟨k, .onTrue⟩ hk).1⟩)
        refine ⟨.choose chain, ?_, fun holds predicate when ha => ?_⟩
        · simp only [entryAction, hlast, Option.getD_some, hchain]
          rfl
        · rw [Action.run, hrun holds predicate when ha]
          exact chain_issues hs hc hnone hlast fun b hb => (hacts b hb).2 holds predicate when ha
    obtain ⟨as, has, hissues⟩ := mapM_eq_ok hentry
    refine ⟨as, (actionsOf_succ s l depth scope).trans has, fun holds predicate when ha => ?_⟩
    have hall := hissues.imp fun e a h => h holds predicate when ha
    rw [runAll_eq]
    refine (Issues.all hall ?_).congr fun i o => part_iff_due hs
    exact (entries_in_order hs scope).imp fun h i o j o' hp hp' => h i o j o' (holds_of_part hp) (holds_of_part hp')

end

/-! ## Whole scripts -/

theorem get?_isSome : (l.get? key).isSome = true ↔ key ∈ l.items.map (·.key) := by
  simp [LoweredScript.get?, find?_isSome]

theorem named?_isSome (h : script s = .ok l) (hk : key.isHoisted = true) :
    (named? l key).isSome = true ↔ key ∈ (sites s).flatMap Site.keys := by
  obtain ⟨hkeys, hnamed, -⟩ := script_items h
  rw [← hkeys, ← get?_isSome]
  cases hg : l.get? key with
  | none => simp [named?, hg]
  | some x =>
    have hx : x.key = key := by simpa using find?_some hg
    obtain ⟨n, hn⟩ := hnamed x (mem_of_find?_eq_some hg) (hx ▸ hk)
    simp [named?, hg, hn]

theorem named?_eq_some (h : script s = .ok l) (hk : key.isHoisted = true)
    (hv : named? l key = some v) : ∃ x ∈ l.items, x.key = key ∧ x.binding = some (.single v.2) := by
  obtain ⟨-, hnamed, -⟩ := script_items h
  obtain ⟨x, hx, hv⟩ := Option.bind_eq_some_iff.1 hv
  obtain ⟨pattern, hp, hv⟩ := Option.bind_eq_some_iff.1 hv
  have hkey : x.key = key := by simpa using find?_some hx
  have hmem := mem_of_find?_eq_some hx
  obtain ⟨n, hn⟩ := hnamed x hmem (hkey ▸ hk)
  cases hp.symm.trans hn
  cases hv
  exact ⟨x, hmem, hkey, hn⟩

theorem name_eq_of_test (h : test v = test v') : v.2 = v'.2 := by
  obtain ⟨k, n⟩ := v
  obtain ⟨k', n'⟩ := v'
  cases k <;> cases k' <;> cases h <;> rfl

theorem test_inj (h : script s = .ok l) {key' : ItemKey} (hk : key.isHoisted = true)
    (hk' : key'.isHoisted = true) (hv : named? l key = some v)
    (hv' : named? l key' = some v') (heq : test v = test v') : key = key' := by
  obtain ⟨-, -, hapart⟩ := script_items h
  obtain ⟨x, hx, rfl, hb⟩ := named?_eq_some h hk hv
  obtain ⟨x', hx', rfl, hb'⟩ := named?_eq_some h hk' hv'
  by_contra hne
  have : Std.Symm fun x y : LoweredItem =>
      x.key.isHoisted = true → y.key.isHoisted = true → x.binding ≠ y.binding :=
    ⟨fun _ _ hxy hy hx heq => hxy hx hy heq.symm⟩
  refine hapart.forall hx hx' (fun heq => hne (congrArg LoweredItem.key heq)) hk hk' ?_
  rw [hb, hb', name_eq_of_test heq]

theorem request_eq_ok (hid : o.kind.needsId = true → o.id.isSome = true)
    (hdir : o.kind.needsDirection = true → o.direction.isSome = true) : ∃ r, request o = .ok r := by
  unfold request
  cases hk : o.kind with
  | entry | order =>
    obtain ⟨id, hid⟩ := Option.isSome_iff_exists.1 (hid (by rw [hk]; rfl))
    obtain ⟨direction, hdir⟩ := Option.isSome_iff_exists.1 (hdir (by rw [hk]; rfl))
    exact ⟨_, by rw [needId, hid, needDirection, hdir]; rfl⟩
  | close | exit | cancel =>
    obtain ⟨id, hid⟩ := Option.isSome_iff_exists.1 (hid (by rw [hk]; rfl))
    exact ⟨_, by rw [needId, hid]; rfl⟩
  | closeAll | cancelAll => exact ⟨_, rfl⟩

theorem complete_of_script {source : List Char} {s : Script} {l : LoweredScript}
    (hs : Script.parse source = .ok s) (h : script s = .ok l) : Complete s l where
  predicate i hi := Option.isSome_iff_exists.1 ((named?_isSome h rfl).2 (predicate_mem_keys.2 hi))
  when i o ho := by
    rw [Bool.eq_iff_iff, named?_isSome h rfl, orderWhen_mem_keys]
    constructor
    · rintro ⟨o', ho', hw⟩
      cases ho.symm.trans ho'
      exact hw
    · exact fun hw => ⟨o, ho, hw⟩
  request o ho := by
    obtain ⟨n, -, scope, hn⟩ := Script.exists_statement hs (.orders source) rfl (fun _ _ => rfl) ho
    obtain ⟨_, _, _, -, hid, hdir, -⟩ := Statement.order_eq_ok hn
    exact request_eq_ok (Statement.isSome_of_literalArgument hid) (Statement.isSome_of_literalArgument hdir)

theorem exists_agrees (h : script s = .ok l) (predicate when : Nat → Bool) :
    ∃ holds, Agrees l holds predicate when := by
  classical
  refine ⟨fun t => decide ((∃ i v, named? l (.predicate i) = some v ∧ test v = t ∧ predicate i = true) ∨
    ∃ i v, named? l (.orderWhen i) = some v ∧ test v = t ∧ when i = true), ?_, ?_⟩
  · intro i v hv
    rw [Bool.eq_iff_iff, decide_eq_true_iff]
    constructor
    · rintro (⟨j, v', hv', ht, hj⟩ | ⟨j, v', hv', ht, hj⟩)
      · cases test_inj h rfl rfl hv' hv ht
        exact hj
      · cases test_inj h rfl rfl hv' hv ht
    · exact fun hi => .inl ⟨i, v, hv, rfl, hi⟩
  · intro i v hv
    rw [Bool.eq_iff_iff, decide_eq_true_iff]
    constructor
    · rintro (⟨j, v', hv', ht, hj⟩ | ⟨j, v', hv', ht, hj⟩)
      · cases test_inj h rfl rfl hv' hv ht
      · cases test_inj h rfl rfl hv' hv ht
        exact hj
    · exact fun hi => .inr ⟨i, v, hv, rfl, hi⟩

theorem build_eq_ok {as : List Action} (h : actionsOf s l (s.conditions.length + 1) none = .ok as)
    (options : GeneratorOptions) :
    ∃ m, build s l options = .ok m ∧ m.actions = if s.orders.isEmpty then none else some as := by
  unfold build
  split
  · exact ⟨_, rfl, rfl⟩
  · exact ⟨_, by rw [h]; rfl, rfl⟩

theorem build_cases {options : GeneratorOptions} {m : Module} (h : build s l options = .ok m) : m = {
      typeName := typeNameOf s.name
      title := s.name
      kind := s.kind
      version := s.version
      runtimePath := options.runtimePath
      inputs := l.inputs
      needs := l.needs
      steps := l.items.filterMap (step? s options)
      actions := m.actions } ∧
    (s.orders = [] ∧ m.actions = none ∨ ∃ as,
      actionsOf s l (s.conditions.length + 1) none = .ok as ∧ m.actions = some as) := by
  unfold build at h
  split at h
  · next hempty =>
    cases h
    exact ⟨rfl, .inl ⟨isEmpty_iff.1 hempty, rfl⟩⟩
  · obtain ⟨actions, hactions, h⟩ := bind_eq_ok.1 h
    obtain ⟨as, has, rfl⟩ := map_eq_ok.1 hactions
    cases pure_eq_ok.1 h
    exact ⟨rfl, .inr ⟨as, has, rfl⟩⟩

theorem build_carries {options : GeneratorOptions} {m : Module} (h : build s l options = .ok m)
    (truth : String → Bool) : carryOut truth [] ((actionsLines 3 (m.actions.getD [])).map Row.read) =
      (runAll (fun t => truth (renderTest t)) (m.actions.getD [])).map (orderRow ·.2) := by
  have hmakes : Makes (actionsLines · (m.actions.getD [])) (runAll · (m.actions.getD [])) := by
    rcases (build_cases h).2 with ⟨-, hnone⟩ | ⟨as, has, hsome⟩
    · rw [hnone]
      exact actions_make (by simp)
    · rw [hsome]
      exact actionsOf_makes _ _ as has
  simpa [running, carryOut] using hmakes truth 3 [] []

theorem build_issues (hs : s.Shaped) (hl : Complete s l) (options : GeneratorOptions) :
    ∃ m, build s l options = .ok m ∧ ∀ holds predicate when, Agrees l holds predicate when →
    Issues (· < ·) l (Due s predicate when none) (runAll holds (m.actions.getD [])) := by
  obtain ⟨as, has, hissues⟩ := actionsOf_issues hs hl (s.conditions.length + 1) none
    (Nat.le_refl _) (fun _ h => by cases h)
  obtain ⟨m, hm, hactions⟩ := build_eq_ok has options
  refine ⟨m, hm, fun holds predicate when ha => ?_⟩
  rw [hactions]
  split
  · next hempty =>
    refine .nil fun i o hdue => ?_
    have := hdue.1
    rw [isEmpty_iff.1 hempty] at this
    cases this
  · exact hissues holds predicate when ha

/-- On every bar, whatever predicates and order conditions hold, the module makes exactly the orders
whose path of bodies is entered and whose own condition holds, each once and in source order. The
nested blocks of its text, carried out row by row, make the orders that its actions make. -/
theorem control_flow_kept {source : List Char} {s : Script} {l : LoweredScript}
    (hs : Script.parse source = .ok s) (hl : script s = .ok l)
    (options : GeneratorOptions) :
    s.orders.Pairwise (·.span.start < ·.span.start) ∧
    ∃ m, build s l options = .ok m ∧
      (∀ truth, carryOut truth [] ((actionsLines 3 (m.actions.getD [])).map Row.read) =
        (runAll (fun t => truth (renderTest t)) (m.actions.getD [])).map (orderRow ·.2)) ∧
      ∀ predicate when : Nat → Bool, (∃ holds, Agrees l holds predicate when) ∧
      ∀ holds, Agrees l holds predicate when → (runAll holds (m.actions.getD [])).Pairwise (·.1 < ·.1) ∧
        (∀ i, i ∈ (runAll holds (m.actions.getD [])).map (·.1) ↔
          ∃ o, s.orders[i]? = some o ∧ Reached s.conditions predicate none o.scope ∧
            (o.when.isSome = true → when i = true)) ∧
        ∀ i e, (i, e) ∈ runAll holds (m.actions.getD []) →
          ∃ o t, s.orders[i]? = some o ∧ orderAction l i o = .ok (.order i t e) := by
  have hshape := Script.shaped_of_parse hs
  have hcomplete := complete_of_script hs hl
  obtain ⟨m, hm, hissues⟩ := build_issues hshape hcomplete options
  refine ⟨hshape.orders, m, hm, build_carries hm, fun predicate when => ⟨exists_agrees hl predicate when, ?_⟩⟩
  intro holds ha
  have hout := hissues holds predicate when ha
  refine ⟨hout.pairwise, fun i => ⟨fun hi => ?_, fun ⟨o, hdue⟩ => ?_⟩, fun i e hi => ?_⟩
  · obtain ⟨⟨i, e⟩, hmem, rfl⟩ := mem_map.1 hi
    obtain ⟨o, _, hdue, _⟩ := (hout.mem i e).1 hmem
    exact ⟨o, hdue⟩
  · obtain ⟨r, hr⟩ := hcomplete.request o (mem_of_getElem? hdue.1)
    obtain ⟨e, he⟩ := orderAction_eq_ok (l := l) (i := i) hr
    exact mem_map.2 ⟨(i, e), (hout.mem i e).2 ⟨o, _, hdue, he⟩, rfl⟩
  · obtain ⟨o, t, hdue, he⟩ := (hout.mem i e).1 hi
    exact ⟨o, t, hdue.1, he⟩

def nestedSource : List Char :=
  ("//@version=5\nstrategy(\"T\")\n" ++
   "if close > open\n" ++
   "    if high > low\n" ++
   "        strategy.close(\"A\", when = close > low)\n" ++
   "    else\n" ++
   "        strategy.close(\"B\")\n" ++
   "else\n" ++
   "    strategy.close_all()\n").toList

theorem control_flow_kept_nested : ∃ s l, Script.parse nestedSource = .ok s ∧
    script s = .ok l ∧ s.orders.map (·.scope) = [some ⟨1, .onTrue⟩, some ⟨1, .onFalse⟩, some ⟨0, .onFalse⟩] ∧
    ∃ m, build s l {} = .ok m ∧ ∃ holds, Agrees l holds (· == 0) (fun _ => true) ∧
      ∀ i, i ∈ (runAll holds (m.actions.getD [])).map (·.1) ↔
        ∃ o, s.orders[i]? = some o ∧ Reached s.conditions (· == 0) none o.scope ∧
          (o.when.isSome = true → true = true) := by
  have hparse : ∃ s, Script.parse nestedSource = .ok s ∧ ∃ l, script s = .ok l ∧
      s.orders.map (·.scope) = [some ⟨1, .onTrue⟩, some ⟨1, .onFalse⟩, some ⟨0, .onFalse⟩] := by
    decide +kernel
  obtain ⟨s, hs, l, hl, hscopes⟩ := hparse
  obtain ⟨-, m, hm, -, hrun⟩ := control_flow_kept hs hl {}
  obtain ⟨⟨holds, ha⟩, hall⟩ := hrun (· == 0) fun _ => true
  exact ⟨s, l, hs, hl, hscopes, m, hm, holds, ha, (hall holds ha).2.1⟩

end ChartScript.Module
