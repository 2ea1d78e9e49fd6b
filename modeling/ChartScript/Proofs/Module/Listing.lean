import ChartScript.Proofs.Module.ControlFlow
/-!
# The orders of a module

The actions of a module hold each order of the script once, whatever tests stand before it: an order
stands in one body, and one path of bodies leads to it.
-/
namespace ChartScript

open List

mutual

def Action.listed : Action → List (Nat × EmittedOrder)
  | .order index _ order => [(index, order)]
  | .choose chain => chain.listed

def Chain.listed : Chain → List (Nat × EmittedOrder)
  | .stop => []
  | .otherwise body => listedAll body
  | .arm _ body rest => listedAll body ++ rest.listed

def listedAll : List Action → List (Nat × EmittedOrder)
  | [] => []
  | action :: rest => action.listed ++ listedAll rest

end

/-- The orders that a module holds, with their numbers. -/
def Module.listed (m : Module) : List (Nat × EmittedOrder) :=
  listedAll (m.actions.getD [])

namespace Module

open Condition (Leads head)

/-! ## Listings -/

/-- The orders with the property `p` are listed, each once. -/
abbrev Lists (l : LoweredScript) (p : Nat → OrderCall → Prop) (out : List (Nat × EmittedOrder)) : Prop :=
  Issues (· ≠ ·) l p out

theorem listedAll_eq (as : List Action) : listedAll as = as.flatMap Action.listed := by
  induction as with
  | nil => rfl
  | cons a as ih => rw [listedAll, ih, flatMap_cons]

section
variable {s : Script} {l : LoweredScript}

def armBodies (last : Nat) : List Nat → List BodyRef
  | [] => [⟨last, .onFalse⟩]
  | index :: rest => ⟨index, .onTrue⟩ :: armBodies last rest

variable {i last : Nat} {ks : List Nat} {scope : Option BodyRef} {o : OrderCall}

theorem mem_armBodies {b : BodyRef} :
    b ∈ armBodies last ks ↔ b = ⟨last, .onFalse⟩ ∨ b.condition ∈ ks ∧ b.branch = .onTrue := by
  induction ks with
  | nil => simp [armBodies]
  | cons k ks ih =>
    obtain ⟨j, branch⟩ := b
    simp only [armBodies, mem_cons, ih, BodyRef.mk.injEq]
    grind

theorem armBodies_nodup (h : ks.Nodup) : (armBodies last ks).Nodup := by
  induction ks with
  | nil => simp [armBodies]
  | cons k ks ih =>
    rw [nodup_cons] at h
    rw [armBodies, nodup_cons, mem_armBodies]
    refine ⟨?_, ih h.2⟩
    rintro (heq | ⟨hmem, -⟩)
    · cases heq
    · exact h.1 hmem

variable {body : Option BodyRef → Except GenerationFault (List Action)} {chain : Chain}

theorem arms_lists (h : arms s l body last ks = .ok chain)
    (hbody : ∀ b ∈ armBodies last ks, ∀ as, body (some b) = .ok as →
      Lists l (Below s (some b)) (listedAll as)) (hapart : (armBodies last ks).Pairwise fun b b' =>
      ∀ i o j o', Below s (some b) i o → Below s (some b') j o' → i ≠ j) :
    Lists l (fun i o => ∃ b ∈ armBodies last ks, Below s (some b) i o) chain.listed := by
  induction ks generalizing chain with
  | nil =>
    rw [arms] at h
    split at h
    · obtain ⟨as, has, rfl⟩ := bind_pure_eq_ok.1 h
      rw [Chain.listed]
      exact (hbody _ (by simp [armBodies]) as has).congr fun i o => by simp [armBodies]
    · next hused =>
      cases h
      rw [Chain.listed]
      refine .nil fun i o hheld => hused ?_
      obtain ⟨b, hb, hbelow⟩ := hheld
      obtain rfl : b = ⟨last, .onFalse⟩ := by simpa [armBodies] using hb
      exact (used_of_leads hbelow.1 hbelow.2).1
  | cons k ks ih =>
    rw [arms] at h
    obtain ⟨test, _, h⟩ := bind_eq_ok.1 h
    obtain ⟨as, has, h⟩ := bind_eq_ok.1 h
    obtain ⟨rest, hrest, rfl⟩ := bind_pure_eq_ok.1 h
    rw [armBodies] at hapart hbody ⊢
    rw [pairwise_cons] at hapart
    have hk := hbody ⟨k, .onTrue⟩ mem_cons_self as has
    have hlisted := ih hrest (fun b hb => hbody b (mem_cons_of_mem _ hb)) hapart.2
    rw [Chain.listed]
    refine (hk.append hlisted ?_).congr fun i o => by simp
    rintro i o j o' hbelow ⟨b, hb, hbelow'⟩
    exact hapart.1 b hb i o j o' hbelow hbelow'

/-! ## Bodies -/

theorem holds_iff_below (hs : s.Shaped) : (∃ e ∈ entries s scope, e.Holds s i o) ↔ Below s scope i o := by
  constructor
  · rintro ⟨e, he, hholds⟩
    cases e with
    | order j o' =>
      obtain ⟨rfl, rfl⟩ := hholds
      obtain ⟨ho, hscope⟩ := order_mem_entries.1 he
      exact ⟨ho, hscope ▸ .here⟩
    | condition h c =>
      obtain ⟨b, hb, hhead, ho, hleads⟩ := hholds
      have hm := getElem?_eq_getElem hb
      exact ⟨ho, Condition.leads_iff.2 (.inr ⟨b, _, hm, parent_of_head hs he hm hhead, hleads⟩)⟩
  · rintro ⟨ho, hleads⟩
    rcases Condition.leads_iff.1 hleads with hscope | ⟨b, m, hm, hparent, hleads⟩
    · exact ⟨.order i o, order_mem_entries.2 ⟨ho, hscope⟩, rfl, rfl⟩
    · obtain ⟨c, hc, hnone, hp⟩ := hs.nested.first hm
      exact ⟨.condition _ c, condition_mem_entries.2 ⟨hc, hp.trans hparent, hnone⟩, b,
        (List.getElem?_eq_some_iff.1 hm).1, rfl, ho, hleads⟩

theorem orderAction_lists {a : Action} (h : orderAction l i o = .ok a) :
    Lists l ((Entry.order i o).Holds s) a.listed := by
  obtain ⟨r, hr, -⟩ := bind_eq_ok.1 h
  obtain ⟨e, he⟩ := orderAction_eq_ok (l := l) (i := i) hr
  cases h.symm.trans he
  rw [Action.listed]
  exact Issues.one he

theorem chain_lists (hs : s.Shaped) {h : Nat} {c : Condition} (he : .condition h c ∈ entries s scope)
    (hlast : (h :: links s h).getLast? = some last)
    (harms : arms s l body last (h :: links s h) = .ok chain)
    (hbody : ∀ b : BodyRef, b.condition < s.conditions.length →
      head s.conditions b.condition = h → ∀ as, body (some b) = .ok as →
      Lists l (Below s (some b)) (listedAll as)) :
    Lists l ((Entry.condition h c).Holds s) chain.listed := by
  obtain ⟨hc, -, hnone⟩ := condition_mem_entries.1 he
  have hmem : ∀ {b}, b ∈ armBodies last (h :: links s h) →
      b.condition < s.conditions.length ∧ head s.conditions b.condition = h := by
    intro b hb
    rw [← mem_chain hc hnone]
    rcases mem_armBodies.1 hb with rfl | ⟨hb, -⟩
    · exact mem_of_getLast? hlast
    · exact hb
  have hnodup : (h :: links s h).Nodup := (chain_pairwise hs h).imp Nat.ne_of_lt
  have hapart : (armBodies last (h :: links s h)).Pairwise fun b b' =>
      ∀ i o j o', Below s (some b) i o → Below s (some b') j o' → i ≠ j := by
    refine (armBodies_nodup hnodup).imp_of_mem fun {b b'} hb hb' hne i o j o' hbelow hbelow' => ?_
    rintro rfl
    cases hbelow.1.symm.trans hbelow'.1
    have hm := getElem?_eq_getElem (hmem hb).1
    have hm' := getElem?_eq_getElem (hmem hb').1
    have hp := (parent_of_head hs he hm (hmem hb).2).trans (parent_of_head hs he hm' (hmem hb').2).symm
    exact hne (hbelow.2.unique hs.nested hm hm' hp hbelow'.2)
  refine (arms_lists harms (fun b hb => hbody b (hmem hb).1 (hmem hb).2) hapart).congr fun i o => ⟨?_, ?_⟩
  · rintro ⟨b, hb, hbelow⟩
    exact ⟨b, (hmem hb).1, (hmem hb).2, hbelow⟩
  · rintro ⟨⟨k, branch⟩, hk, hhead, hbelow⟩
    refine ⟨⟨k, branch⟩, mem_armBodies.2 ?_, hbelow⟩
    cases branch with
    | onTrue => exact .inr ⟨(mem_chain hc hnone).2 ⟨hk, hhead⟩, rfl⟩
    | onFalse =>
      obtain rfl : k = last := eq_last_of_leads hs hc hnone hlast hk hhead hbelow.1 hbelow.2
      exact .inl rfl

theorem actionsOf_lists (hs : s.Shaped) {depth : Nat} {as : List Action} (hd : depthBelow s scope ≤ depth)
    (hscope : ∀ b, scope = some b → b.condition < s.conditions.length) (h : actionsOf s l depth scope = .ok as) :
    Lists l (Below s scope) (listedAll as) := by
  induction depth generalizing scope as with
  | zero => exact absurd (depthBelow_pos hscope) (by omega)
  | succ depth ih =>
    rw [actionsOf_succ] at h
    have hentry : ∀ e ∈ entries s scope, ∀ a, entryAction s l depth e = .ok a → Lists l (e.Holds s) a.listed := by
      intro e he a ha
      cases e with
      | order i o => exact orderAction_lists ha
      | condition i c =>
        obtain ⟨chain, hchain, rfl⟩ := bind_pure_eq_ok.1 ha
        obtain ⟨last, hlast⟩ : ∃ last, (i :: links s i).getLast? = some last := ⟨_, getLast?_cons⟩
        rw [hlast, Option.getD_some] at hchain
        rw [Action.listed]
        refine chain_lists hs he hlast hchain fun b hb hhead as' has' => ih ?_ ?_ has'
        · have := depthBelow_lt hs he hb hhead
          omega
        · rintro b' hb'
          cases hb'
          exact hb
    have hall : List.Forall₂ (fun e a => Lists l (e.Holds s) a.listed) (entries s scope) as :=
      ((forall₂_and_left _ _).2 ⟨hentry, forall₂_of_mapM h⟩).imp fun e a ha => ha.1 a ha.2
    rw [listedAll_eq]
    refine (Issues.all hall ?_).congr fun i o => holds_iff_below hs
    exact (entries_in_order hs scope).imp fun h i o j o' hp hp' => Nat.ne_of_lt (h i o j o' hp hp')

theorem build_lists (hs : s.Shaped) {options : GeneratorOptions} {m : Module}
    (h : build s l options = .ok m) : Lists l (fun i o => s.orders[i]? = some o) m.listed := by
  have hbelow : ∀ i o, s.orders[i]? = some o → Below s none i o := by
    intro i o ho
    refine ⟨ho, Condition.leads_from_top hs.nested (Nat.le_refl _) fun b hb => ?_⟩
    obtain ⟨c, _, hc, _⟩ := hs.nested.scope _ (Script.order_mem_placed ho) b hb
    exact (List.getElem?_eq_some_iff.1 hc).1
  obtain ⟨-, ⟨hempty, hnone⟩ | ⟨as, has, hsome⟩⟩ := build_cases h
  · rw [listed, hnone]
    exact .nil fun i o => by simp [hempty]
  · have hlists : Lists l (Below s none) (listedAll as) :=
      actionsOf_lists hs (Nat.le_refl _) (fun _ hnone => by cases hnone) has
    rw [listed, hsome]
    exact hlists.congr fun i o => ⟨And.left, hbelow i o⟩

theorem Issues.perm_range {out : List (Nat × EmittedOrder)} (h : Lists l (fun i o => s.orders[i]? = some o) out)
    (hrequest : ∀ o ∈ s.orders, ∃ r, request o = .ok r) : (out.map (·.1)).Perm (List.range s.orders.length) := by
  refine (perm_ext_iff_of_nodup (pairwise_map.2 h.pairwise) nodup_range).2 fun i => ?_
  rw [mem_range, mem_map]
  constructor
  · rintro ⟨⟨_, e⟩, he, rfl⟩
    obtain ⟨o, _, ho, _⟩ := (h.mem _ e).1 he
    exact (List.getElem?_eq_some_iff.1 ho).1
  · intro hi
    have ho := getElem?_eq_getElem hi
    obtain ⟨r, hr⟩ := hrequest _ (getElem_mem hi)
    obtain ⟨e, he⟩ := orderAction_eq_ok (l := l) (i := i) hr
    exact ⟨(i, e), (h.mem i e).2 ⟨_, _, ho, he⟩, rfl⟩

end

end Module

end ChartScript
