import ChartScript.Proofs.Module.Run
/-!
# The members of a body

The orders and chains that stand in a body, and the conditions of a chain, as the flat lists of a
script give them: complete, each once, and in the order of the source.
-/
namespace ChartScript

open List

variable {i : Nat} {s : Script} {scope : Option BodyRef} {o : OrderCall}

variable {α : Type} {c : Condition} {k : Nat}

namespace Module

theorem pairwise_mapIdx_pair {xs : List α} {r : α → α → Prop} (h : xs.Pairwise r) :
    (xs.mapIdx fun i x => (i, x)).Pairwise fun a b => a.1 < b.1 ∧ r a.2 b.2 := by
  rw [pairwise_iff_getElem] at h ⊢
  intro i j hi hj hij
  simp only [getElem_mapIdx]
  exact ⟨hij, h i j _ _ hij⟩

theorem nodup_mapIdx_pair (xs : List α) : (xs.mapIdx fun i x => (i, x)).Nodup := by
  have h : xs.Pairwise fun _ _ => True := pairwise_iff_getElem.2 fun _ _ _ _ _ => trivial
  refine (pairwise_mapIdx_pair h).imp fun {a b} hlt heq => ?_
  rw [heq] at hlt
  exact Nat.lt_irrefl _ hlt.1

theorem mem_mapIdx_pair {xs : List α} {x : α} :
    (i, x) ∈ xs.mapIdx (fun i x => (i, x)) ↔ xs[i]? = some x := by
  simp [mem_mapIdx, List.getElem?_eq_some_iff]

/-! ## Entries -/

theorem order_mem_entries : .order i o ∈ entries s scope ↔ s.orders[i]? = some o ∧ o.scope = scope := by
  simp only [entries, mem_mergeSort, mem_append, mem_map, mem_filter]
  simp only [Prod.exists, mem_mapIdx_pair]
  simp

theorem condition_mem_entries :
    .condition i c ∈ entries s scope ↔ s.conditions[i]? = some c ∧ c.parent = scope ∧ c.chainedFrom = none := by
  simp only [entries, mem_mergeSort, mem_append, mem_map, mem_filter]
  simp only [Prod.exists, mem_mapIdx_pair]
  simp

theorem entries_nodup (s : Script) (scope : Option BodyRef) : (entries s scope).Nodup := by
  rw [entries, (mergeSort_perm _ _).nodup_iff]
  refine List.Nodup.append ?_ ?_ ?_
  · exact ((nodup_mapIdx_pair _).filter _).map fun _ _ h => Prod.ext (Entry.order.inj h).1 (Entry.order.inj h).2
  · exact ((nodup_mapIdx_pair _).filter _).map fun _ _ h =>
      Prod.ext (Entry.condition.inj h).1 (Entry.condition.inj h).2
  · intro e ho hc
    obtain ⟨_, _, rfl⟩ := mem_map.1 ho
    obtain ⟨_, _, h⟩ := mem_map.1 hc
    cases h

theorem entries_pairwise (s : Script) (scope : Option BodyRef) :
    (entries s scope).Pairwise fun a b => a.position ≤ b.position ∧ a ≠ b :=
  (pairwise_mergeSort Entry.position _).and (entries_nodup s scope)

/-! ## Chains -/

theorem mem_links : k ∈ links s i ↔ ∃ c, s.conditions[k]? = some c ∧ c.chainedFrom = some i := by
  simp only [links, mem_map, mem_mergeSort, mem_filter, Prod.exists, mem_mapIdx_pair]
  simp

theorem links_pairwise (hs : s.conditions.Pairwise (·.span.start < ·.span.start)) (i : Nat) :
    (links s i).Pairwise (· < ·) := by
  have hpairs := (pairwise_mapIdx_pair hs).filter (·.2.chainedFrom == some i)
  rw [links, mergeSort_of_pairwise, pairwise_map]
  · exact hpairs.imp And.left
  · exact hpairs.imp fun h => decide_eq_true h.2.le

end Module

/-- The shape of a parsed script: its conditions nest, and orders and conditions are in the order of
the source. -/
structure Script.Shaped (s : Script) : Prop where
  nested : Condition.Nested s.conditions s.toDeclarations.placed
  orders : s.orders.Pairwise (·.span.start < ·.span.start)
  conditions : s.conditions.Pairwise (·.span.start < ·.span.start)

namespace Script

theorem shaped_of_parse {source : List Char} (h : parse source = .ok s) : s.Shaped :=
  ⟨Condition.nested_of_parse h, orders_starts h, conditions_starts h⟩

theorem order_mem_placed (h : s.orders[i]? = some o) : ⟨o.scope, o.span⟩ ∈ s.toDeclarations.placed := by
  have := mem_of_getElem? h
  simp only [Declarations.placed, mem_append, mem_map]
  exact .inl (.inl (.inr ⟨o, this, rfl⟩))

theorem Shaped.order_lt_iff (hs : s.Shaped) {j : Nat} {o' : OrderCall} (ho : s.orders[i]? = some o)
    (ho' : s.orders[j]? = some o') : i < j ↔ o.span.start < o'.span.start := by
  have hlt : ∀ {i j : Nat} {o o' : OrderCall}, s.orders[i]? = some o → s.orders[j]? = some o' →
      i < j → o.span.start < o'.span.start := by
    intro i j o o' ho ho' hij
    obtain ⟨hi, rfl⟩ := List.getElem?_eq_some_iff.1 ho
    obtain ⟨hj, rfl⟩ := List.getElem?_eq_some_iff.1 ho'
    exact pairwise_iff_getElem.1 hs.orders i j hi hj hij
  refine ⟨hlt ho ho', fun h => ?_⟩
  rcases Nat.lt_trichotomy i j with hij | rfl | hij
  · exact hij
  · cases ho.symm.trans ho'
    omega
  · have := hlt ho' ho hij
    omega

end Script

namespace Module

open Condition (Nested head)

def Entry.limit : Entry → Nat
  | order _ o => o.span.start + 1
  | condition _ c => c.reach

theorem limit_le_position (hs : s.Shaped) {a b : Entry} (ha : a ∈ entries s scope) (hb : b ∈ entries s scope)
    (hle : a.position ≤ b.position) (hne : a ≠ b) : a.limit ≤ b.position := by
  have hn := hs.nested
  have hfilled : ∀ {i : Nat} {c : Condition}, s.conditions[i]? = some c → c.span.start < c.reach := by
    intro i c hc
    have := (hn.trueBody c (mem_of_getElem? hc)).2.2
    simp only [Condition.reach]
    omega
  cases a with
  | order i o =>
    obtain ⟨ho, hscope⟩ := order_mem_entries.1 ha
    cases b with
    | order j o' =>
      obtain ⟨ho', -⟩ := order_mem_entries.1 hb
      have hij : i ≠ j := by
        rintro rfl
        cases ho.symm.trans ho'
        exact hne rfl
      have := hs.order_lt_iff ho ho'
      have := hs.order_lt_iff ho' ho
      simp only [Entry.position, Entry.limit] at hle ⊢
      omega
    | condition j c =>
      obtain ⟨hc, hparent, hnone⟩ := condition_mem_entries.1 hb
      have hx := Script.order_mem_placed ho
      have hx' : o.span.start < o.span.stop := hn.filled _ hx
      have := hfilled hc
      have hapart := (hn.apart hc hnone).1 _ hx (hscope.trans hparent.symm)
      simp only [Entry.position, Entry.limit] at hle hapart ⊢
      omega
  | condition i c =>
    obtain ⟨hc, hparent, hnone⟩ := condition_mem_entries.1 ha
    have hfc := hfilled hc
    cases b with
    | order j o =>
      obtain ⟨ho, hscope⟩ := order_mem_entries.1 hb
      have hx := Script.order_mem_placed ho
      have hx' : o.span.start < o.span.stop := hn.filled _ hx
      have hapart := (hn.apart hc hnone).1 _ hx (hscope.trans hparent.symm)
      simp only [Entry.position, Entry.limit] at hle hapart ⊢
      omega
    | condition j d =>
      obtain ⟨hd, hparent', hnone'⟩ := condition_mem_entries.1 hb
      simp only [Entry.position, Entry.limit] at hle ⊢
      -- conditions are in source order, so the one read first ends first
      rcases Nat.lt_trichotomy i j with hij | rfl | hij
      · exact (hn.apart hd hnone').2 hij hc hnone (hparent.trans hparent'.symm)
      · cases hc.symm.trans hd
        exact absurd rfl hne
      · have := (hn.apart hc hnone).2 hij hd hnone' (hparent'.trans hparent.symm)
        have := hfilled hd
        omega

theorem mem_chain {h : Nat} (hc : s.conditions[h]? = some c) (hnone : c.chainedFrom = none)
    : k ∈ h :: links s h ↔ k < s.conditions.length ∧ head s.conditions k = h := by
  rw [mem_cons, mem_links]
  constructor
  · rintro (rfl | ⟨m, hm, hk⟩)
    · exact ⟨(List.getElem?_eq_some_iff.1 hc).1, by rw [Condition.head_of_getElem hc, hnone]; rfl⟩
    · exact ⟨(List.getElem?_eq_some_iff.1 hm).1, by rw [Condition.head_of_getElem hm, hk]; rfl⟩
  · rintro ⟨hk, hhead⟩
    have hm := getElem?_eq_getElem hk
    rw [Condition.head_of_getElem hm] at hhead
    cases hf : s.conditions[k].chainedFrom with
    | none => rw [hf] at hhead; exact .inl hhead
    | some h' => rw [hf] at hhead; exact .inr ⟨_, hm, hf.trans (congrArg some hhead)⟩

theorem chain_pairwise (hs : s.Shaped) (h : Nat) : (h :: links s h).Pairwise (· < ·) := by
  refine pairwise_cons.2 ⟨fun k hk => ?_, links_pairwise hs.conditions h⟩
  obtain ⟨m, hm, hk⟩ := mem_links.1 hk
  exact (hs.nested.chained hm hk).1

end Module

end ChartScript
