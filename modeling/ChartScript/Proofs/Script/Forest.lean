import ChartScript.Proofs.Script.Nesting
/-!
# The conditions of a parsed script nest

What the walk over a block leaves alone, and from it, by induction on the walk, that the conditions
of every parsed script are nested.
-/
namespace ChartScript.Condition

open List Statement

def Inside (p : Place) (n : Nat) (scope : Option BodyRef) : Prop :=
  scope = p.scope ∨ ∃ b, scope = some b ∧
    (n ≤ b.condition ∨ b.branch = .onFalse ∧ p.chain.getLast? = some b.condition)

variable {p : Place} {i : Nat} {o : Option BodyRef} {source : List Char} {r r' : Progress}

theorem Inside.of_body {n m : Nat} {branch : Branch} (hnm : n ≤ m)
    (hi : n ≤ i ∨ branch = .onFalse ∧ p.chain.getLast? = some i) (h : Inside (p.body i branch) m o) :
    Inside p n o := by
  rcases h with rfl | ⟨b, rfl, hle | ⟨_, hlast⟩⟩
  · exact .inr ⟨_, rfl, hi⟩
  · exact .inr ⟨b, rfl, .inl (hnm.trans hle)⟩
  · cases hlast

theorem Inside.of_chain {n m : Nat} {chain : List Nat} (hnm : n ≤ m) (hl : ∀ i, chain.getLast? = some i → n ≤ i)
    (h : Inside { p with chain := chain } m o) : Inside p n o := by
  rcases h with rfl | ⟨b, rfl, hle | ⟨_, hlast⟩⟩
  · exact .inl rfl
  · exact .inr ⟨b, rfl, .inl (hnm.trans hle)⟩
  · exact .inr ⟨b, rfl, .inl (hl _ hlast)⟩

/-- What is read at `p` leaves alone the conditions outside the chain, and goes into the body itself,
into new ones, or into what the chain does when it does not hold. -/
structure Extends (p : Place) (cs : List Condition) (xs : List Placed) (cs' : List Condition)
    (xs' : List Placed) : Prop where
  length_le : cs.length ≤ cs'.length
  kept : ∀ {i : Nat} {c : Condition}, cs[i]? = some c → i ∉ p.chain → cs'[i]? = some c
  get : ∀ {i : Nat} {c : Condition}, cs[i]? = some c → ∃ f, cs'[i]? = some { c with falseBody := f }
  condition : ∀ {i : Nat} {c : Condition}, cs.length ≤ i → cs'[i]? = some c →
    Inside p cs.length c.parent ∧ ∀ k, c.chainedFrom = some k → cs.length ≤ k ∨ p.chain.head? = some k
  placed : ∀ x ∈ xs', x ∈ xs ∨ Inside p cs.length x.scope

namespace Extends

variable {p q : Place} {cs cs₁ cs₂ : List Condition} {xs xs₁ xs₂ : List Placed}

theorem refl : Extends p cs xs cs xs where
  length_le := Nat.le_refl _
  kept hc _ := hc
  get hc := ⟨_, hc⟩
  condition hi hc := absurd (List.getElem?_eq_some_iff.1 hc).1 (by omega)
  placed _ hx := .inl hx

theorem trans (h : Extends p cs xs cs₁ xs₁) (h' : Extends q cs₁ xs₁ cs₂ xs₂)
    (hin : ∀ o, Inside q cs₁.length o → Inside p cs.length o)
    (hchain : ∀ i ∈ q.chain, i ∈ p.chain ∨ cs.length ≤ i)
    (hhead : ∀ k, q.chain.head? = some k → cs.length ≤ k ∨ p.chain.head? = some k) :
    Extends p cs xs cs₂ xs₂ where
  length_le := h.length_le.trans h'.length_le
  kept {i c} hc hi := by
    refine h'.kept (h.kept hc hi) fun hq => ?_
    have := (List.getElem?_eq_some_iff.1 hc).1
    rcases hchain i hq with hp | hle
    · exact hi hp
    · omega
  get {i c} hc := by
    obtain ⟨f, hf⟩ := h.get hc
    obtain ⟨g, hg⟩ := h'.get hf
    exact ⟨g, hg⟩
  condition {i c} hi hc := by
    rcases Nat.lt_or_ge i cs₁.length with hlt | hge
    · obtain ⟨f, hf⟩ := h'.get (getElem?_eq_getElem hlt)
      cases hf.symm.trans hc
      have hold := h.condition hi (getElem?_eq_getElem hlt)
      exact hold
    · obtain ⟨hparent, hchained⟩ := h'.condition hge hc
      refine ⟨hin _ hparent, fun k hk => ?_⟩
      rcases hchained k hk with hle | hk
      · exact .inl (h.length_le.trans hle)
      · exact hhead k hk
  placed x hx := by
    rcases h'.placed x hx with hx | hx
    · exact h.placed x hx
    · exact .inr (hin _ hx)

theorem of_placed {y : Placed} (hy : y.scope = p.scope) (h : ∀ x ∈ xs₁, x ∈ xs ∨ x = y) : Extends p cs xs cs xs₁ :=
  { (refl : Extends p cs xs cs xs) with
    placed := fun x hx => (h x hx).imp_right fun (hxy : x = y) => .inl (hxy ▸ hy) }

theorem of_widened {span : Span} (h : Widened p.chain span cs cs₁) : Extends p cs xs cs₁ xs where
  length_le := h.length.ge
  kept hc hi := (h.kept hi).trans hc
  get hc := h.get hc
  condition hi hc := absurd (List.getElem?_eq_some_iff.1 hc).1 (by rw [h.length]; omega)
  placed _ hx := .inl hx

theorem of_concat {c : Condition} (hp : c.parent = p.scope)
    (hc : ∀ k, c.chainedFrom = some k → p.chain.head? = some k) :
    Extends p cs xs (cs ++ [c]) xs where
  length_le := by simp
  kept hd _ := Nested.getElem?_concat.2 (.inl hd)
  get hd := ⟨_, Nested.getElem?_concat.2 (.inl hd)⟩
  condition {i d} hi hd := by
    rcases Nested.getElem?_concat.1 hd with hd | ⟨-, rfl⟩
    · exact absurd (List.getElem?_eq_some_iff.1 hd).1 (by omega)
    · exact ⟨.inl hp, fun k hk => .inr (hc k hk)⟩
  placed _ hx := .inl hx

end Extends

/-! ## What the walk changes -/

theorem placed_of_adds {s : Statement} {form : StatementForm} (h : Adds source p s r form r') :
    r'.declared.conditions = r.declared.conditions ∧ ∀ x ∈ r'.declared.placed, x ∈ r.declared.placed ∨
    x = ⟨p.scope, s.span⟩ := by
  cases h with
  | header | input | function | typeDecl => exact ⟨rfl, fun x hx => .inl hx⟩
  | other =>
    refine ⟨rfl, fun x hx => ?_⟩
    simp only [Declarations.placed, Progress.addOther, map_append, map_cons, map_nil] at hx ⊢
    grind
  | order ho =>
    obtain ⟨_, _, _, _, _, _, _, _, _, _, hscope, hspan⟩ := order_eq_ok ho
    refine ⟨rfl, fun x hx => ?_⟩
    simp only [Declarations.placed, map_append, map_cons, map_nil, hscope, hspan] at hx ⊢
    grind
  | plot hp =>
    obtain ⟨_, _, _, _, _, hscope, hspan⟩ := plot_eq_ok hp
    refine ⟨rfl, fun x hx => ?_⟩
    simp only [Declarations.placed, map_append, map_cons, map_nil, hscope, hspan] at hx ⊢
    grind
  | assignment hv =>
    obtain ⟨_, _, _, _, hscope, hspan⟩ := varDecl_eq_ok hv
    refine ⟨rfl, fun x hx => ?_⟩
    simp only [Declarations.placed, map_append, map_cons, map_nil, hscope, hspan] at hx ⊢
    grind

section Enter

variable {line : List Token} {body : List Statement} {branch : Branch} {chain : List Nat}
  (h : Enters source p r line body i branch r' chain)
include h

theorem extends_of_enters : Extends p r.declared.conditions r.declared.placed r'.declared.conditions
    r'.declared.placed := by
  cases h with
  | opening => exact .of_concat rfl (by simp)
  | chained _ hhead =>
    refine Extends.trans (.of_widened (widened_setFalseBody r p.chain _))
      (.of_concat (p := p) rfl (by simp [hhead])) ?_ (fun i hi => .inl hi) (fun k hk => .inr hk)
    exact fun o ho => by rwa [Progress.setFalseBody_length] at ho
  | closing => exact .of_widened (widened_setFalseBody r p.chain _)

theorem owner_of_enters : r.declared.conditions.length ≤ i ∨ branch = .onFalse ∧ p.chain.getLast? = some i := by
  cases h with
  | opening | chained => exact .inl (Nat.le_refl _)
  | closing _ hlast => exact .inr ⟨rfl, hlast⟩

theorem chain_of_enters : ∀ k ∈ chain, k ∈ p.chain ∨ r.declared.conditions.length ≤ k := by
  cases h with
  | opening | closing => simp
  | chained =>
    intro k hk
    rcases mem_append.1 hk with hk | hk
    · exact .inl hk
    · exact .inr (mem_singleton.1 hk).ge

theorem ends_of_enters : (∀ k, chain.head? = some k → r.declared.conditions.length ≤ k ∨ p.chain.head? = some k) ∧
    ∀ k, chain.getLast? = some k → r.declared.conditions.length ≤ k := by
  cases h with
  | opening | closing => simp
  | chained _ hhead => simp [head?_append, hhead]

end Enter

theorem extends_of_walk {ss : List Statement} (h : Walk source p r ss r') :
    Extends p r.declared.conditions r.declared.placed r'.declared.conditions r'.declared.placed := by
  induction h with
  | done => exact .refl
  | plain _ hc ha hadd _ ih =>
    obtain ⟨hsame, hplaced⟩ := placed_of_adds (adds_of_add hc ha hadd)
    rw [hsame] at ih
    exact Extends.trans (.of_placed rfl hplaced) ih
      (fun o => Inside.of_chain (Nat.le_refl _) (by simp)) (by simp) (by simp)
  | block henter _ _ ihbody ih =>
    have hopen := extends_of_enters henter
    have hbody := hopen.trans ihbody (fun o => Inside.of_body hopen.length_le (owner_of_enters henter))
      (by simp [Place.body]) (by simp [Place.body])
    exact hbody.trans ih (fun o => Inside.of_chain hbody.length_le (ends_of_enters henter).2)
      (chain_of_enters henter) (ends_of_enters henter).1

/-! ## After a block -/

section Frame

variable {p q : Place} {cs cs' : List Condition} {xs xs' : List Placed} {ts : List Token}

theorem Extends.head_eq (he : Extends q cs xs cs' xs') (hq : q.chain = []) (hi : i < cs.length) :
    head cs' i = head cs i := by
  have hc := getElem?_eq_getElem hi
  rw [head_of_getElem hc, head_of_getElem (he.kept hc (by simp [hq]))]

theorem Extends.le_head (he : Extends q cs xs cs' xs') (hq : q.chain = []) (hi : cs.length ≤ i) :
    cs.length ≤ head cs' i := by
  cases hc : cs'[i]? with
  | none => rw [head, hc]; exact hi
  | some c =>
    rw [head_of_getElem hc]
    cases hf : c.chainedFrom with
    | none => exact hi
    | some k => exact ((he.condition hi hc).2 k hf).resolve_right (by simp [hq])

theorem Inside.ne_outer (h : Inside q cs.length o) (hq : q.chain = []) (hne : q.scope ≠ p.scope)
    (hs : Standing cs xs p ts) : o ≠ p.scope := by
  rintro rfl
  rcases h with h | ⟨b, hb, hle | ⟨_, hlast⟩⟩
  · exact hne h.symm
  · obtain ⟨c, _, hc, -⟩ := hs.scope b hb
    have := (List.getElem?_eq_some_iff.1 hc).1
    omega
  · simp [hq] at hlast

theorem Extends.of_get (he : Extends q cs xs cs' xs') (hq : q.chain = []) {c : Condition}
    (hc : cs'[i]? = some c) : cs[i]? = some c ∨ cs.length ≤ i ∧ Inside q cs.length c.parent := by
  rcases Nat.lt_or_ge i cs.length with hi | hi
  · have := he.kept (getElem?_eq_getElem hi) (by simp [hq])
    exact .inl ((getElem?_eq_getElem hi).trans (this.symm.trans hc))
  · exact .inr ⟨hi, (he.condition hi hc).1⟩

theorem Extends.scopes (he : Extends q cs xs cs' xs') (hq : q.chain = [])
    (ho : o ∈ Condition.scopes cs' xs') : o ∈ Condition.scopes cs xs ∨ Inside q cs.length o := by
  rcases mem_append.1 ho with ho | ho
  · obtain ⟨c, hc, rfl⟩ := mem_map.1 ho
    obtain ⟨i, hi⟩ := getElem?_of_mem hc
    rcases he.of_get hq hi with hi | ⟨-, hin⟩
    · exact .inl (mem_append_left _ (mem_map.2 ⟨c, mem_of_getElem? hi, rfl⟩))
    · exact .inr hin
  · obtain ⟨x, hx, rfl⟩ := mem_map.1 ho
    rcases he.placed x hx with hx | hin
    · exact .inl (mem_append_right _ (mem_map.2 ⟨x, hx, rfl⟩))
    · exact .inr hin

theorem Standing.frame (hn : Nested cs xs) (hs : Standing cs xs p ts)
    (he : Extends q cs xs cs' xs') (hq : q.chain = []) (hne : q.scope ≠ p.scope)
    (hbr : p.chain = [] ∨ ∃ k, q.scope = some ⟨k, .onTrue⟩) : Standing cs' xs' p ts where
  top := hs.top
  scope b hb := by
    obtain ⟨c, f, hc, hrest⟩ := hs.scope b hb
    exact ⟨c, f, he.kept hc (by simp [hq]), hrest⟩
  last k hk i hi hhead := by
    obtain ⟨c, _, hc, -⟩ := hs.scope _ hk
    have hklt : k < cs.length := (List.getElem?_eq_some_iff.1 hc).1
    rw [he.head_eq hq hklt] at hhead
    have hle := hn.head_le hklt
    rcases Nat.lt_or_ge i cs.length with hi' | hi'
    · rw [he.head_eq hq hi'] at hhead
      exact hs.last k hk i hi' hhead
    · have := he.le_head hq hi'
      omega
  chain k hk := by
    obtain ⟨c, hc⟩ := hs.chain k hk
    have hklt : k < cs.length := (List.getElem?_eq_some_iff.1 hc.first).1
    refine ⟨c, he.kept hc.first (by simp [hq]), hc.unchained, hc.parent, hc.depth, fun i => ?_,
      hc.sorted, fun i hi => ?_, fun x hx hx' => ?_, fun {j d} hd hnone hpar => ?_⟩
    · rw [hc.mem i]
      have := he.length_le
      constructor
      · rintro ⟨hi, hhead⟩
        exact ⟨by omega, (he.head_eq hq hi).trans hhead⟩
      · rintro ⟨-, hhead⟩
        rcases Nat.lt_or_ge i cs.length with hi | hi
        · exact ⟨hi, (he.head_eq hq hi).symm.trans hhead⟩
        · have := he.le_head hq hi
          omega
    · rcases he.scopes hq hi with hi | hi | ⟨b, hb, hle | ⟨_, hlast⟩⟩
      · rw [he.head_eq hq (hn.condition_lt hi)]
        exact hc.unused i hi
      · rcases hbr with hbr | ⟨m, hm⟩
        · simp [hbr] at hk
        · rw [hm] at hi
          cases hi
      · cases hb
        have : cs.length ≤ head cs' i := he.le_head hq hle
        omega
      · simp [hq] at hlast
    · exact hc.after_placed x ((he.placed x hx).resolve_right fun hin => hin.ne_outer hq hne hs hx') hx'
    · rcases he.of_get hq hd with hd | ⟨-, hin⟩
      · exact hc.newest hd hnone hpar
      · exact absurd hpar (hin.ne_outer hq hne hs)

theorem Behind.frame (hs : Standing cs xs p ts) (hb : Behind cs xs p.scope ts) (he : Extends q cs xs cs' xs')
    (hq : q.chain = []) (hne : q.scope ≠ p.scope) : Behind cs' xs' p.scope ts := by
  refine fun t ht => ⟨fun x hx hx' => ?_, fun c hc hc' => ?_⟩
  · exact (hb t ht).1 x ((he.placed x hx).resolve_right fun hin => hin.ne_outer hq hne hs hx') hx'
  · obtain ⟨i, hi⟩ := getElem?_of_mem hc
    rcases he.of_get hq hi with hi | ⟨-, hin⟩
    · exact (hb t ht).2 c (mem_of_getElem? hi) hc'
    · exact absurd hc' (hin.ne_outer hq hne hs)

end Frame

/-! ## One step -/

section Step

variable {p : Place} {cs cs' : List Condition} {xs xs' : List Placed} {ts us : List Token}
  {c : Condition} {h : Nat} {span : Span}

theorem Behind.of_not_mem {scope : Option BodyRef} (h : scope ∉ scopes cs xs) : Behind cs xs scope ts := by
  refine fun t _ => ⟨fun x hx hx' => absurd ?_ h, fun c hc hc' => absurd ?_ h⟩
  · exact mem_append_right _ (mem_map.2 ⟨x, hx, hx'⟩)
  · exact mem_append_left _ (mem_map.2 ⟨c, hc, hc'⟩)

theorem Standing.next (hs : Standing cs xs p ts) (hsub : us ⊆ ts) : Standing cs xs' { p with chain := [] } us where
  top := hs.top
  scope b hb := by
    obtain ⟨c, f, hc, hf, hdepth, hin⟩ := hs.scope b hb
    exact ⟨c, f, hc, hf, hdepth, fun t ht => hin t (hsub ht)⟩
  last := hs.last
  chain _ hk := by cases hk

theorem Standing.body (hdepth : c.depth = p.depth)
    (hin : ∀ t ∈ us, c.trueBody.start ≤ t.span.start ∧ t.span.stop ≤ c.trueBody.stop) :
    Standing (cs ++ [c]) xs (p.body cs.length .onTrue) us where
  top hp := by cases hp
  scope b hb := by
    cases hb
    exact ⟨c, c.trueBody, Nested.getElem?_concat.2 (.inr ⟨rfl, rfl⟩), rfl, by rw [hdepth]; rfl, hin⟩
  last _ hk := by cases hk
  chain _ hk := by cases hk

theorem Standing.scope_ne (hs : Standing cs xs p ts) (branch : Branch) : some ⟨cs.length, branch⟩ ≠ p.scope := by
  intro hp
  obtain ⟨d, _, hd, -⟩ := hs.scope _ hp.symm
  exact absurd (List.getElem?_eq_some_iff.1 hd).1 (Nat.lt_irrefl _)

theorem not_mem_scopes (hn : Nested cs xs) (hs : Standing cs xs p ts) (hparent : c.parent = p.scope)
    (branch : Branch) : some ⟨cs.length, branch⟩ ∉ scopes (cs ++ [c]) xs := by
  intro hmem
  rcases mem_scopes_concat.1 hmem with hp | hold
  · exact hs.scope_ne branch (hp.trans hparent)
  · exact absurd (hn.condition_lt hold) (Nat.lt_irrefl _)

theorem head_concat : head (cs ++ [c]) cs.length = c.chainedFrom.getD cs.length :=
  head_of_getElem (Nested.getElem?_concat.2 (.inr ⟨rfl, rfl⟩))

theorem Pending.of_concat (hn : Nested cs xs) (hs : Standing cs xs p ts)
    (hb : Behind cs xs p.scope ts) (hm : c.span.Among ts) (hparent : c.parent = p.scope)
    (hdepth : c.depth = p.depth) (hc : c.chainedFrom = none) :
    Pending (cs ++ [c]) xs { p with chain := [cs.length] } cs.length c := by
  have hlast : head (cs ++ [c]) cs.length = cs.length := by rw [head_concat, hc, Option.getD_none]
  have hlt : ∀ {i}, i < cs.length → head (cs ++ [c]) i < cs.length := by
    intro i hi
    rw [head_append hi]
    exact (hn.head_le hi).trans_lt hi
  refine ⟨Nested.getElem?_concat.2 (.inr ⟨rfl, rfl⟩), hc, hparent, hdepth, fun i => ?_, by simp,
    fun k hk hhead => ?_, (hb.among hm).1, fun {j d} hd _ _ => ?_⟩
  · rw [mem_singleton, length_append, length_singleton]
    constructor
    · rintro rfl
      exact ⟨Nat.lt_succ_self _, hlast⟩
    · rintro ⟨hi, hhead⟩
      rcases Nat.lt_or_ge i cs.length with hi' | hi'
      · have := hlt hi'
        omega
      · omega
  · rcases Nat.lt_trichotomy k cs.length with hk' | rfl | hk'
    · have := hlt hk'
      omega
    · exact not_mem_scopes hn hs hparent .onFalse hk
    · rw [head, List.getElem?_eq_none_iff.2 (by simp; omega)] at hhead
      simp at hhead
      omega
  · have := (List.getElem?_eq_some_iff.1 hd).1
    simp at this
    omega

theorem Pending.concat (hn : Nested cs xs) (hs : Standing cs xs p ts) {d : Condition}
    (hp : Pending cs xs p h d) (hparent : c.parent = p.scope) (hc : c.chainedFrom = some h) :
    Pending (cs ++ [c]) xs { p with chain := p.chain ++ [cs.length] } h d := by
  refine ⟨Nested.getElem?_concat.2 (.inl hp.first), hp.unchained, hp.parent, hp.depth, fun i => ?_,
    ?_, fun k hk hhead => ?_, hp.after_placed, fun {j e} he hnone hpar => ?_⟩
  · rw [mem_append, hp.mem i, mem_singleton, length_append, length_singleton]
    constructor
    · rintro (⟨hi, hhead⟩ | rfl)
      · exact ⟨by omega, by rw [head_append hi, hhead]⟩
      · exact ⟨Nat.lt_succ_self _, by rw [head_concat, hc, Option.getD_some]⟩
    · rintro ⟨hi, hhead⟩
      rcases Nat.lt_or_ge i cs.length with hi' | hi'
      · exact .inl ⟨hi', by rw [← hhead, head_append hi']⟩
      · exact .inr (by omega)
  · refine pairwise_append.2 ⟨hp.sorted, by simp, fun i hi j hj => ?_⟩
    rw [mem_singleton.1 hj]
    exact ((hp.mem i).1 hi).1
  · rcases mem_scopes_concat.1 hk with hk | hk
    · have hk := hparent.symm.trans hk.symm
      obtain ⟨e, _, he, -⟩ := hs.scope _ hk
      rw [head_append (List.getElem?_eq_some_iff.1 he).1] at hhead
      exact hp.head_ne hn hk hhead
    · rw [head_append (hn.condition_lt hk)] at hhead
      exact hp.unused k hk hhead
  · rcases Nested.getElem?_concat.1 he with he | ⟨-, rfl⟩
    · exact hp.newest he hnone hpar
    · rw [hc] at hnone
      cases hnone

/-- What the walk needs and keeps at every statement. -/
structure Ready (cs : List Condition) (xs : List Placed) (p : Place) (ts : List Token) : Prop where
  nested : Nested cs xs
  standing : Standing cs xs p ts
  behind : Behind cs xs p.scope ts

namespace Ready

theorem top (ts : List Token) : Ready [] [] .top ts :=
  ⟨.nil, ⟨fun _ => rfl, fun _ h => (by cases h), fun _ h => (by cases h), fun _ h => (by cases h)⟩,
    fun _ _ => by simp⟩

theorem frame {q : Place} (hr : Ready cs xs p ts) (he : Extends q cs xs cs' xs') (hn : Nested cs' xs')
    (hq : q.chain = []) (hne : q.scope ≠ p.scope)
    (hbr : p.chain = [] ∨ ∃ k, q.scope = some ⟨k, .onTrue⟩) : Ready cs' xs' p ts :=
  ⟨hn, hr.standing.frame hr.nested he hq hne hbr, hr.behind.frame hr.standing he hq hne⟩

theorem plain (hr : Ready cs xs p (ts ++ us)) (ho : Ordered (ts ++ us)) (hcov : span.Covers ts)
    (hxs : ∀ x ∈ xs', x ∈ xs ∨ x = ⟨p.scope, span⟩) : Ready cs xs' { p with chain := [] } us := by
  have hm := (hcov.among ho.left).mono (subset_append_left ts us)
  refine ⟨hr.nested.add_placed hr.standing hr.behind hxs hm,
    hr.standing.next (subset_append_right _ _), fun t ht => ?_⟩
  have hold := hr.behind t (mem_append_right _ ht)
  refine ⟨fun x hx hx' => ?_, hold.2⟩
  rcases hxs x hx with hx | rfl
  · exact hold.1 x hx hx'
  · exact hcov.stop_le ho t ht

theorem opening (hr : Ready cs xs p (ts ++ us)) (ho : Ordered (ts ++ us)) {body : List Token}
    (hsub : body ⊆ ts) (hparent : c.parent = p.scope) (hdepth : c.depth = p.depth)
    (hfalse : c.falseBody = none) (hchained : c.chainedFrom = none) (hcov : c.span.Covers ts)
    (hbody : c.trueBody.Covers body) :
    Ready (cs ++ [c]) xs (p.body cs.length .onTrue) body ∧
      Ready (cs ++ [c]) xs { p with chain := [cs.length] } us := by
  have hm := (hcov.among ho.left).mono (subset_append_left ts us)
  have hnew : Nested (cs ++ [c]) xs := hr.nested.add_condition hr.standing hparent hdepth hfalse hm
    (hcov.within hbody hsub) (fun _ => hr.behind) (by simp [hchained])
  have hpend := Pending.of_concat hr.nested hr.standing hr.behind hm hparent hdepth hchained
  refine ⟨⟨hnew, .body hdepth fun t ht => ⟨hbody.start_le t ht, hbody.le_stop t ht⟩,
    .of_not_mem (not_mem_scopes hr.nested hr.standing hparent _)⟩, hnew, ?_, ?_⟩
  · exact hr.standing.concat hr.nested (subset_append_right _ _) (by simp [hchained])
      fun k hk => by cases hk; exact ⟨c, hpend⟩
  · refine fun t ht => ⟨(hr.behind t (mem_append_right _ ht)).1, fun d hd hd' => ?_⟩
    rcases mem_append.1 hd with hd | hd
    · exact (hr.behind t (mem_append_right _ ht)).2 d hd hd'
    · rw [mem_singleton.1 hd, reach, hfalse]
      simpa using hcov.stop_le ho t ht

theorem widen (hr : Ready cs xs p ts) (hp : Pending cs xs p h c) (hm : span.Among ts)
    (hw : Widened p.chain span cs cs') (hsub : us ⊆ ts) (hspan : ∀ t ∈ us, span.stop ≤ t.span.start) :
    Behind cs' xs p.scope us := by
  refine fun t ht => ⟨(hr.behind t (hsub ht)).1, fun d hd hd' => ?_⟩
  obtain ⟨i, hi⟩ := getElem?_of_mem hd
  by_cases hin : i ∈ p.chain
  · obtain ⟨_, -, -, -, -, hreach, -⟩ := hr.nested.widen_body hp hr.behind hm hw hin hi
    exact hreach ▸ hspan t ht
  · rw [hw.kept hin] at hi
    exact (hr.behind t (hsub ht)).2 d (mem_of_getElem? hi) hd'

theorem chained (hr : Ready cs xs p (ts ++ us)) (ho : Ordered (ts ++ us)) {body : List Token}
    (hhead : p.chain.head? = some h) (hw : Widened p.chain c.span cs cs')
    (hparent : c.parent = p.scope) (hdepth : c.depth = p.depth)
    (hfalse : c.falseBody = none) (hchained : c.chainedFrom = some h) (hm : c.span.Among ts)
    (hin : c.span.start ≤ c.trueBody.start ∧ c.trueBody.stop ≤ c.span.stop)
    (hbody : c.trueBody.Covers body) :
    Ready (cs' ++ [c]) xs (p.body cs.length .onTrue) body ∧
      Ready (cs' ++ [c]) xs { p with chain := p.chain ++ [cs.length] } us := by
  obtain ⟨d, hpend⟩ := hr.standing.chain h hhead
  have hm' := hm.mono (subset_append_left ts us)
  have hafter : ∀ t ∈ us, c.span.stop ≤ t.span.start := by
    intro t ht
    obtain ⟨u, hu, hus⟩ := hm.last
    exact hus ▸ ho.stop_le_start hu ht
  have hnest := hr.nested.widen hr.standing hpend hr.behind hm' hw
  have hstand := hr.standing.widen hr.nested hw
  obtain ⟨d', hpend'⟩ := hstand.chain h hhead
  -- the chain is widened first, so that it reaches to the end of the condition it gets
  have hnew : Nested (cs' ++ [c]) xs := by
    refine hnest.add_condition hstand hparent hdepth hfalse hm' hin (by simp [hchained]) ?_
    intro k hk
    cases hchained.symm.trans hk
    obtain ⟨f, hf, -, hlo, hhi, -⟩ := hr.nested.widen_body hpend hr.behind hm' hw hpend.first_mem hpend'.first
    exact ⟨hhead, d', f, hpend'.first, hf, hlo, hhi.ge⟩
  rw [← hw.length]
  refine ⟨⟨hnew, .body hdepth fun t ht => ⟨hbody.start_le t ht, hbody.le_stop t ht⟩,
    .of_not_mem (not_mem_scopes hnest hstand hparent _)⟩, hnew, ?_, ?_⟩
  · refine hstand.concat hnest (subset_append_right _ _) ?_ ?_
    · intro k hk
      exact hhead.trans (hchained.symm.trans hk)
    · intro k hk
      rw [head?_append, hhead] at hk
      cases hk
      exact ⟨d', hpend'.concat hnest hstand hparent hchained⟩
  · have hb := hr.widen hpend hm' hw (subset_append_right _ _) hafter
    refine fun t ht => ⟨(hb t ht).1, fun e he he' => ?_⟩
    rcases mem_append.1 he with he | he
    · exact (hb t ht).2 e he he'
    · rw [mem_singleton.1 he, reach, hfalse]
      simpa using hafter t ht

theorem closing (hr : Ready cs xs p (ts ++ us)) (ho : Ordered (ts ++ us)) {body : List Token}
    {last : Nat} (hlast : p.chain.getLast? = some last) (hw : Widened p.chain span cs cs')
    (hsub : body ⊆ ts) (hbody : span.Covers body) (hob : Ordered body) :
    Ready cs' xs (p.body last .onFalse) body ∧ Ready cs' xs { p with chain := [] } us ∧
      some ⟨last, .onFalse⟩ ≠ p.scope := by
  obtain ⟨h, hhead⟩ : ∃ h, p.chain.head? = some h := by
    cases hc : p.chain with
    | nil => simp [hc] at hlast
    | cons k _ => exact ⟨k, rfl⟩
  obtain ⟨d, hpend⟩ := hr.standing.chain h hhead
  have hm := (hbody.among hob).mono hsub
  have hm' := hm.mono (subset_append_left ts us)
  have hnest := hr.nested.widen hr.standing hpend hr.behind hm' hw
  have hmem := mem_of_getLast? hlast
  obtain ⟨hlt, hlh⟩ := (hpend.mem last).1 hmem
  have he := getElem?_eq_getElem hlt
  obtain ⟨f, hf, hcase⟩ := hw.widened hmem he
  -- the last condition of the chain does just the block when it is false
  obtain rfl : f = span := by
    rcases hcase with ⟨-, hfs⟩ | ⟨hnot, -⟩
    · exact hfs
    · exact absurd hlast hnot
  refine ⟨⟨hnest, ⟨fun hp => (by cases hp), fun b hb => ?_, fun k hk => ?_, fun _ hk => (by cases hk)⟩,
    .of_not_mem fun hused => ?_⟩, ⟨hnest, (hr.standing.widen hr.nested hw).next
      (subset_append_right _ _), hr.widen hpend hm' hw (subset_append_right _ _) ?_⟩,
    fun hscope => hpend.head_ne hr.nested hscope.symm hlh⟩
  · cases hb
    exact ⟨_, f, hf, rfl, congrArg (· + 1) (hpend.of_mem hr.nested hmem he).2.1.symm, fun t ht =>
      ⟨hbody.start_le t ht, hbody.le_stop t ht⟩⟩
  · cases hk
    intro i hi hsame
    rw [hw.head_eq, hw.head_eq] at hsame
    exact hpend.le_last ((hpend.mem i).2 ⟨hw.length ▸ hi, hsame.trans hlh⟩) hlast
  · rw [hw.scopes_eq] at hused
    exact hpend.unused last hused hlh
  · intro t ht
    obtain ⟨u, hu, hus⟩ := hm.last
    exact hus ▸ ho.stop_le_start hu ht

end Ready

end Step

/-! ## Whole walks -/

theorem ready_of_enters {line : List Token} {body rest : List Statement} {branch : Branch}
    {chain : List Nat} (h : Enters source p r line body i branch r' chain)
    (hp : Proper (.mk line body :: rest))
    (hr : Ready r.declared.conditions r.declared.placed p (tokensAll (.mk line body :: rest))) :
    Ready r'.declared.conditions r'.declared.placed (p.body i branch) (tokensAll body) ∧
      Ready r'.declared.conditions r'.declared.placed { p with chain := chain } (tokensAll rest) ∧
      some ⟨i, branch⟩ ≠ p.scope ∧ (chain = [] ∨ branch = .onTrue) := by
  have ho := hp.ordered
  rw [tokensAll_cons] at hr ho
  have hcov := covers_span _ hp.head
  cases h with
  | opening _ _ hblock =>
    obtain ⟨hbody, hnext⟩ := hr.opening ho (c := ⟨_, _, none, p.depth, p.scope, none, _⟩) (by simp) rfl
      rfl rfl rfl hcov (covers_blockSpan body hp.body hblock)
    exact ⟨hbody, hnext, hr.standing.scope_ne _, .inr rfl⟩
  | @chained head second predicate block _ hhead hsecond _ _ hblock =>
    have hblock' := covers_blockSpan body hp.body hblock
    have hmem : second ∈ line := mem_of_getElem? hsecond
    have hmem' : second ∈ (Statement.mk line body).tokens := by simp [hmem]
    have hlt := ho.left.nonempty second hmem'
    have hle := hcov.le_stop second hmem'
    -- the place begins at the `if` behind the `else`, not at the line
    have hstop : (second.span.through (Statement.mk line body).span).stop =
        (Statement.mk line body).span.stop := by simp only [Span.through]; omega
    have hm : (second.span.through (Statement.mk line body).span).Among (Statement.mk line body).tokens :=
      ⟨by rw [hstop]; simp only [Span.through]; omega, ⟨second, hmem', rfl⟩, hstop ▸ hcov.last⟩
    have hin : second.span.start ≤ block.start := by
      obtain ⟨t, ht, hts⟩ := hblock'.first
      have := hp.line_ordered.stop_le_start hmem ht
      omega
    obtain ⟨hbody, hnext⟩ := hr.chained ho (c := ⟨predicate, block, none, p.depth, p.scope, some head,
        second.span.through (Statement.mk line body).span⟩)
      hhead (widened_setFalseBody r p.chain _) rfl rfl rfl rfl hm
      ⟨hin, hstop ▸ (hcov.within hblock' (by simp)).2⟩ hblock'
    exact ⟨hbody, hnext, hr.standing.scope_ne _, .inr rfl⟩
  | closing _ hlast _ hblock =>
    obtain ⟨hbody, hnext, hne⟩ := hr.closing ho hlast (widened_setFalseBody r p.chain _)
      (by simp) (covers_blockSpan body hp.body hblock) hp.body.ordered
    exact ⟨hbody, hnext, hne, .inl rfl⟩

theorem nested_of_walk {ss : List Statement} (h : Walk source p r ss r') (hp : Proper ss)
    (hr : Ready r.declared.conditions r.declared.placed p (tokensAll ss)) :
    Nested r'.declared.conditions r'.declared.placed := by
  -- `Ready` carries the induction: each step makes it for the block and for what follows the block,
  -- and `frame` takes the second of them past the block.
  induction h with
  | done => exact hr.nested
  | plain _ hc ha hadd _ ih =>
    obtain ⟨hsame, hplaced⟩ := placed_of_adds (adds_of_add hc ha hadd)
    have ho := hp.ordered
    rw [tokensAll_cons] at hr ho
    rw [hsame] at ih
    exact ih hp.tail (hr.plain ho (covers_span _ hp.head) hplaced)
  | block henter hwalk _ ihbody ih =>
    obtain ⟨hbody, hnext, hne, hbranch⟩ := ready_of_enters henter hp hr
    exact ih hp.tail (hnext.frame (extends_of_walk hwalk) (ihbody hp.body hbody) rfl hne
      (hbranch.imp_right fun htrue => ⟨_, by rw [htrue]; rfl⟩))

theorem nested_of_parse {s : Script} (h : Script.parse source = .ok s) :
    Nested s.conditions s.toDeclarations.placed := by
  obtain ⟨-, -, r, hwalk, hdecl⟩ := Script.walk_of_parse h
  rw [hdecl]
  exact nested_of_walk hwalk (Script.proper_tree source) (.top _)

/-- The conditions of a parsed script are a forest. A condition at the top has depth zero; any other
lies within the body of an earlier one that it names, one level deeper. One that goes on a chain lies
beside its unchained first member, within what is done when that is false. Whatever stands in a body
names a condition that is there, and only the last of a chain has statements for the other case. -/
theorem conditions_form_forest {source : List Char} {s : Script} (h : Script.parse source = .ok s) :
    (∀ (i : Nat) (c : Condition), s.conditions[i]? = some c → (c.parent = none → c.depth = 0) ∧
      (∀ b, c.parent = some b → b.condition < i ∧ ∃ (m : Condition) (body : Span),
        s.conditions[b.condition]? = some m ∧ m.body? b.branch = some body ∧ c.depth = m.depth + 1 ∧
        body.start ≤ c.span.start ∧ c.span.stop ≤ body.stop) ∧
      (∀ k, c.chainedFrom = some k → k < i ∧ ∃ (m : Condition) (body : Span),
        s.conditions[k]? = some m ∧ m.chainedFrom = none ∧ m.parent = c.parent ∧ m.depth = c.depth ∧
        m.falseBody = some body ∧ body.start ≤ c.span.start ∧ c.span.stop ≤ body.stop)) ∧
    (∀ b, some b ∈ scopes s.conditions s.toDeclarations.placed →
      b.condition < s.conditions.length ∧ (b.branch = .onFalse → IsLast s.conditions b.condition)) := by
  have hnested := nested_of_parse h
  refine ⟨fun i c hc => ⟨hnested.top c (mem_of_getElem? hc), ?_, ?_⟩, ?_⟩
  · intro b hb
    obtain ⟨hlt, m, body, hm, hbody, hstart, hstop⟩ := hnested.parent hc hb
    exact ⟨hlt, m, body, hm, hbody, hnested.depth hc hb hm, hstart, (le_max_left _ _).trans hstop⟩
  · intro k hk
    obtain ⟨hlt, m, body, hm, hfirst, hparent, hdepth, hbody, hstart, hstop⟩ := hnested.chained hc hk
    exact ⟨hlt, m, body, hm, hfirst, hparent, hdepth, hbody, hstart, (le_max_left _ _).trans hstop⟩
  · rintro ⟨k, branch⟩ hb
    refine ⟨hnested.condition_lt hb, fun hbranch => ?_⟩
    cases hbranch
    exact hnested.last k hb

def chainSource : List Char :=
  ("//@version=5\nindicator(\"N\")\n" ++
   "if close > open\n" ++
   "    if high > low\n" ++
   "        x = 1\n" ++
   "else if open > 2\n" ++
   "    y = 1\n" ++
   "else\n" ++
   "    if close > 3\n" ++
   "        plot(close)\n").toList

theorem conditions_form_forest_chain : ∃ s, Script.parse chainSource = .ok s ∧
    s.conditions.map (·.parent) = [none, some ⟨0, .onTrue⟩, none, some ⟨2, .onFalse⟩] ∧
    s.conditions.map (·.chainedFrom) = [none, none, some 0, none] ∧
    s.conditions.map (·.depth) = [0, 1, 0, 1] ∧ IsLast s.conditions 2 := by
  have hrun : ∃ s, Script.parse chainSource = .ok s ∧
      s.conditions.map (·.parent) = [none, some ⟨0, .onTrue⟩, none, some ⟨2, .onFalse⟩] ∧
      s.conditions.map (·.chainedFrom) = [none, none, some 0, none] ∧
      s.conditions.map (·.depth) = [0, 1, 0, 1] := by
    decide +kernel
  obtain ⟨s, hs, hparents, hchained, hdepths⟩ := hrun
  have hscope : some ⟨2, .onFalse⟩ ∈ scopes s.conditions s.toDeclarations.placed := by
    rw [scopes, hparents]
    simp
  exact ⟨s, hs, hparents, hchained, hdepths, ((conditions_form_forest hs).2 _ hscope).2 rfl⟩

end ChartScript.Condition
