import ChartScript.Proofs.Script.Parsed
/-!
# How conditions nest

The conditions of a parsed script form a forest: a condition stands in a body of an earlier one, the
members of a chain stand side by side, and everything that names a body lies within its place.
`Nested` lists what makes up the forest. Each step of the walk keeps it, as long as the walk stands
where `Standing` says.
-/
namespace ChartScript

open List Statement.Progress

/-- A recorded statement as the body it stands in and its place. -/
structure Placed where
  scope : Option BodyRef
  span : Span

/-- The scopes and places of all that stands in bodies. -/
def Declarations.placed (d : Declarations) : List Placed :=
  d.varDecls.map (fun x => ⟨x.scope, x.span⟩) ++ d.orders.map (fun x => ⟨x.scope, x.span⟩) ++
    d.plots.map (fun x => ⟨x.scope, x.span⟩) ++ d.others.map (fun x => ⟨x.scope, x.span⟩)

namespace Condition

/-- The place of a body, if the condition has it. -/
def body? (c : Condition) : Branch → Option Span
  | .onTrue => some c.trueBody
  | .onFalse => c.falseBody

def reach (c : Condition) : Nat :=
  max c.span.stop ((c.falseBody.map (·.stop)).getD 0)

def head (cs : List Condition) (i : Nat) : Nat :=
  (cs[i]?.bind (·.chainedFrom)).getD i

/-- The bodies that conditions and statements stand in. -/
def scopes (cs : List Condition) (xs : List Placed) : List (Option BodyRef) :=
  cs.map (·.parent) ++ xs.map (·.scope)

/-- The condition at `k` is the last of its chain. -/
def IsLast (cs : List Condition) (k : Nat) : Prop :=
  ∀ i < cs.length, head cs i = head cs k → i ≤ k

def Holds (cs : List Condition) (b : BodyRef) (start stop : Nat) : Prop :=
  ∃ c f, cs[b.condition]? = some c ∧ c.body? b.branch = some f ∧ f.start ≤ start ∧ stop ≤ f.stop

structure Nested (cs : List Condition) (xs : List Placed) : Prop where
  filled : ∀ x ∈ xs, x.span.start < x.span.stop
  trueBody : ∀ c ∈ cs, c.span.start ≤ c.trueBody.start ∧ c.trueBody.stop ≤ c.span.stop ∧ c.span.start < c.span.stop
  falseBody : ∀ c ∈ cs, ∀ f, c.falseBody = some f → c.span.start ≤ f.start ∧ f.start < f.stop
  top : ∀ c ∈ cs, c.parent = none → c.depth = 0
  parent : ∀ {i : Nat} {c : Condition} {b : BodyRef}, cs[i]? = some c → c.parent = some b →
    b.condition < i ∧ Holds cs b c.span.start c.reach
  depth : ∀ {i : Nat} {c m : Condition} {b : BodyRef}, cs[i]? = some c → c.parent = some b →
    cs[b.condition]? = some m → c.depth = m.depth + 1
  scope : ∀ x ∈ xs, ∀ b, x.scope = some b → Holds cs b x.span.start x.span.stop
  chained : ∀ {i h : Nat} {c : Condition}, cs[i]? = some c → c.chainedFrom = some h → h < i ∧
    ∃ m f, cs[h]? = some m ∧ m.chainedFrom = none ∧ m.parent = c.parent ∧ m.depth = c.depth ∧
      m.falseBody = some f ∧ f.start ≤ c.span.start ∧ c.reach ≤ f.stop
  last : ∀ k, some ⟨k, .onFalse⟩ ∈ scopes cs xs → IsLast cs k
  /-- Neither a statement nor a chain reaches into a chain beside it. -/
  apart : ∀ {i : Nat} {c : Condition}, cs[i]? = some c → c.chainedFrom = none →
    (∀ x ∈ xs, x.scope = c.parent → x.span.stop ≤ c.span.start ∨ c.reach ≤ x.span.start) ∧
    ∀ {j : Nat} {d : Condition}, j < i → cs[j]? = some d → d.chainedFrom = none → d.parent = c.parent →
      d.reach ≤ c.span.start

open Statement (Place)

/-- The chain at `p`, which begins with the condition `c` at `h`, can go on: it is whole, nothing
stands yet in what is done when it does not hold, and nothing comes after it in its body. -/
structure Pending (cs : List Condition) (xs : List Placed) (p : Place) (h : Nat) (c : Condition) :
    Prop where
  first : cs[h]? = some c
  unchained : c.chainedFrom = none
  parent : c.parent = p.scope
  depth : c.depth = p.depth
  mem : ∀ i, i ∈ p.chain ↔ i < cs.length ∧ head cs i = h
  sorted : p.chain.Pairwise (· < ·)
  unused : ∀ k, some ⟨k, .onFalse⟩ ∈ scopes cs xs → head cs k ≠ h
  after_placed : ∀ x ∈ xs, x.scope = p.scope → x.span.stop ≤ c.span.start
  newest : ∀ {j : Nat} {d : Condition}, cs[j]? = some d → d.chainedFrom = none → d.parent = p.scope → j ≤ h

/-- The walk stands at `p`, with the tokens `ts` of the block still to come. -/
structure Standing (cs : List Condition) (xs : List Placed) (p : Place) (ts : List Token) :
    Prop where
  top : p.scope = none → p.depth = 0
  scope : ∀ b, p.scope = some b → ∃ c f, cs[b.condition]? = some c ∧ c.body? b.branch = some f ∧
    p.depth = c.depth + 1 ∧ ∀ t ∈ ts, f.start ≤ t.span.start ∧ t.span.stop ≤ f.stop
  last : ∀ k, p.scope = some ⟨k, .onFalse⟩ → IsLast cs k
  chain : ∀ h, p.chain.head? = some h → ∃ c, Pending cs xs p h c

def Behind (cs : List Condition) (xs : List Placed) (scope : Option BodyRef) (ts : List Token) :
    Prop :=
  ∀ t ∈ ts, (∀ x ∈ xs, x.scope = scope → x.span.stop ≤ t.span.start) ∧
    ∀ c ∈ cs, c.parent = scope → c.reach ≤ t.span.start

/-! ## Chains -/

variable {i k : Nat} {c d : Condition} {b : BodyRef}

theorem head_append {cs : List Condition} (h : i < cs.length) (cs' : List Condition) :
    head (cs ++ cs') i = head cs i := by
  rw [head, getElem?_append_left h, head]

theorem head_of_getElem {cs : List Condition} (h : cs[i]? = some c) : head cs i = c.chainedFrom.getD i := by
  rw [head, h, Option.bind_some]

namespace Nested

variable {cs : List Condition} {xs : List Placed}

theorem nil : Nested [] [] := by
  constructor <;> simp [scopes]

theorem head_le (h : Nested cs xs) (hi : i < cs.length) : head cs i ≤ i := by
  have hc := getElem?_eq_getElem hi
  rw [head_of_getElem hc]
  cases hf : cs[i].chainedFrom with
  | none => simp
  | some k => exact (h.chained hc hf).1.le

theorem condition_lt (h : Nested cs xs) (hb : some b ∈ scopes cs xs) : b.condition < cs.length := by
  have hlt : ∀ {start stop}, Holds cs b start stop → b.condition < cs.length := by
    rintro start stop ⟨c, f, hc, -⟩
    exact (List.getElem?_eq_some_iff.1 hc).1
  rcases mem_append.1 hb with hb | hb
  · obtain ⟨c, hc, hp⟩ := mem_map.1 hb
    obtain ⟨i, hi⟩ := getElem?_of_mem hc
    exact hlt (h.parent hi hp).2
  · obtain ⟨x, hx, hs⟩ := mem_map.1 hb
    exact hlt (h.scope x hx b hs)

end Nested

section
variable {cs : List Condition} {xs : List Placed} {p : Place} {ts : List Token} {s : Span}

theorem Standing.holds (hs : Standing cs xs p ts) (hm : s.Among ts) (hb : p.scope = some b) :
    Holds cs b s.start s.stop := by
  obtain ⟨c, f, hc, hf, -, hin⟩ := hs.scope b hb
  obtain ⟨t, ht, hts⟩ := hm.first
  obtain ⟨u, hu, hus⟩ := hm.last
  exact ⟨c, f, hc, hf, hts ▸ (hin t ht).1, hus ▸ (hin u hu).2⟩

theorem Behind.among {scope : Option BodyRef} (hb : Behind cs xs scope ts) (hm : s.Among ts) :
    (∀ x ∈ xs, x.scope = scope → x.span.stop ≤ s.start) ∧ ∀ c ∈ cs, c.parent = scope → c.reach ≤ s.start := by
  obtain ⟨t, ht, hts⟩ := hm.first
  exact hts ▸ hb t ht

theorem Pending.head_ne (hp : Pending cs xs p k c) (h : Nested cs xs)
    (hi : p.scope = some ⟨i, .onFalse⟩) : head cs i ≠ k := by
  have hlt : i < k := (h.parent hp.first (hp.parent.trans hi)).1
  have := h.head_le (hlt.trans (List.getElem?_eq_some_iff.1 hp.first).1)
  omega

theorem mem_scopes_concat {o : Option BodyRef} : o ∈ scopes (cs ++ [c]) xs ↔ o = c.parent ∨ o ∈ scopes cs xs := by
  simp [scopes, or_left_comm]

end

namespace Nested

variable {cs : List Condition} {xs : List Placed} {p : Place} {ts : List Token}

/-! ## A statement is added -/

theorem add_placed (h : Nested cs xs) (hs : Standing cs xs p ts) (hb : Behind cs xs p.scope ts)
    {span : Span} {xs' : List Placed} (hsub : ∀ y ∈ xs', y ∈ xs ∨ y = ⟨p.scope, span⟩)
    (hm : span.Among ts) : Nested cs xs' where
  filled y hy := (hsub y hy).elim (h.filled y) (by rintro rfl; exact hm.start_lt_stop)
  trueBody := h.trueBody
  falseBody := h.falseBody
  top := h.top
  parent := h.parent
  depth := h.depth
  scope y hy := (hsub y hy).elim (h.scope y) (by rintro rfl b hb; exact hs.holds hm hb)
  chained := h.chained
  last k hk := by
    rcases mem_append.1 hk with hk | hk
    · exact h.last k (mem_append_left _ hk)
    · obtain ⟨y, hy, hk⟩ := mem_map.1 hk
      rcases hsub y hy with hy | rfl
      · exact h.last k (mem_append_right _ (mem_map.2 ⟨y, hy, hk⟩))
      · exact hs.last k hk
  apart {i c} hc hn := by
    refine ⟨fun y hy hy' => ?_, (h.apart hc hn).2⟩
    rcases hsub y hy with hy | rfl
    · exact (h.apart hc hn).1 y hy hy'
    · exact .inr ((hb.among hm).2 c (mem_of_getElem? hc) hy'.symm)

/-! ## A condition is added -/

theorem getElem?_concat : (cs ++ [c])[i]? = some d ↔ cs[i]? = some d ∨ i = cs.length ∧ c = d := by
  grind

theorem IsLast.concat (h : Nested cs xs) (hk : k < cs.length) (hlast : IsLast cs k)
    (hc : c.chainedFrom ≠ some (head cs k)) : IsLast (cs ++ [c]) k := by
  intro i hi hhead
  rw [head_append hk] at hhead
  rcases Nat.lt_or_ge i cs.length with hi' | hi'
  · rw [head_append hi'] at hhead
    exact hlast i hi' hhead
  · obtain rfl : i = cs.length := by simp at hi; omega
    rw [head_of_getElem (getElem?_concat.2 (.inr ⟨rfl, rfl⟩))] at hhead
    have := h.head_le hk
    cases hf : c.chainedFrom with
    | none => rw [hf, Option.getD_none] at hhead; omega
    | some m => exact absurd (hf.trans (by rw [hf] at hhead; simpa using hhead)) hc

theorem add_condition (h : Nested cs xs) (hs : Standing cs xs p ts) (hparent : c.parent = p.scope)
    (hdepth : c.depth = p.depth) (hfalse : c.falseBody = none) (hm : c.span.Among ts)
    (hbody : c.span.start ≤ c.trueBody.start ∧ c.trueBody.stop ≤ c.span.stop)
    (hbehind : c.chainedFrom = none → Behind cs xs p.scope ts)
    (hchain : ∀ k, c.chainedFrom = some k → p.chain.head? = some k ∧ ∃ m f, cs[k]? = some m ∧
      m.falseBody = some f ∧ f.start ≤ c.span.start ∧ c.span.stop ≤ f.stop) :
    Nested (cs ++ [c]) xs := by
  have hreach : c.reach = c.span.stop := by simp [reach, hfalse]
  have hkeep : ∀ {i : Nat} {d : Condition}, cs[i]? = some d → (cs ++ [c])[i]? = some d :=
    fun hd => getElem?_concat.2 (.inl hd)
  have hlt : ∀ {i : Nat} {d : Condition}, cs[i]? = some d → i < cs.length :=
    fun hd => (List.getElem?_eq_some_iff.1 hd).1
  have hholds : ∀ {b start stop}, Holds cs b start stop → Holds (cs ++ [c]) b start stop := by
    rintro b start stop ⟨m, f, hm, hf⟩
    exact ⟨m, f, hkeep hm, hf⟩
  constructor
  case filled => exact h.filled
  case trueBody =>
    intro d hd
    rcases mem_append.1 hd with hd | hd
    · exact h.trueBody d hd
    · cases mem_singleton.1 hd
      exact ⟨hbody.1, hbody.2, hm.start_lt_stop⟩
  case falseBody =>
    intro d hd f hf
    rcases mem_append.1 hd with hd | hd
    · exact h.falseBody d hd f hf
    · cases mem_singleton.1 hd
      rw [hfalse] at hf
      cases hf
  case top =>
    intro d hd hn
    rcases mem_append.1 hd with hd | hd
    · exact h.top d hd hn
    · cases mem_singleton.1 hd
      exact hdepth.trans (hs.top (hparent ▸ hn))
  case parent =>
    intro i d b hd hb
    rcases getElem?_concat.1 hd with hd | ⟨rfl, rfl⟩
    · exact ⟨(h.parent hd hb).1, hholds (h.parent hd hb).2⟩
    · have hin := hs.holds hm (hparent ▸ hb)
      obtain ⟨m, _, hm, _⟩ := hin
      exact ⟨hlt hm, hreach ▸ hholds (hs.holds ‹_› (hparent ▸ hb))⟩
  case depth =>
    intro i d m b hd hb hmm
    rcases getElem?_concat.1 hd with hd | ⟨rfl, rfl⟩
    · have := (h.parent hd hb).1.trans (hlt hd)
      rw [getElem?_append_left this] at hmm
      exact h.depth hd hb hmm
    · obtain ⟨m', f, hm', -, hp, -⟩ := hs.scope b (hparent ▸ hb)
      cases (hkeep hm').symm.trans hmm
      exact hdepth.trans hp
  case scope => exact fun x hx b hb => hholds (h.scope x hx b hb)
  case chained =>
    intro i k d hd hk
    rcases getElem?_concat.1 hd with hd | ⟨rfl, rfl⟩
    · obtain ⟨hlt, m, f, hm, hrest⟩ := h.chained hd hk
      exact ⟨hlt, m, f, hkeep hm, hrest⟩
    · obtain ⟨hhead, m, f, hmm, hf, hin⟩ := hchain k hk
      obtain ⟨m', hm'⟩ := hs.chain k hhead
      cases hm'.first.symm.trans hmm
      exact ⟨hlt hmm, m, f, hkeep hmm, hm'.unchained, hm'.parent.trans hparent.symm,
        hm'.depth.trans hdepth.symm, hf, hin.1, hreach ▸ hin.2⟩
  case last =>
    intro k hk i hi hhead
    -- The body of `k` was opened before, or is the one that the new condition stands in.
    have hk' : p.scope = some ⟨k, .onFalse⟩ ∨ some ⟨k, .onFalse⟩ ∈ scopes cs xs :=
      (mem_scopes_concat.1 hk).imp_left fun he => hparent.symm.trans he.symm
    have hklt : k < cs.length := by
      rcases hk' with hk' | hk'
      · obtain ⟨m, _, hm, _⟩ := hs.scope _ hk'
        exact hlt hm
      · exact h.condition_lt hk'
    refine IsLast.concat h hklt (hk'.elim (hs.last k) (h.last k)) (fun hc => ?_) i hi hhead
    obtain ⟨_, hpending⟩ := hs.chain _ (hchain _ hc).1
    exact hk'.elim (fun hk' => hpending.head_ne h hk' rfl) (fun hk' => hpending.unused k hk' rfl)
  case apart =>
    intro i d hd hn
    rcases getElem?_concat.1 hd with hd | ⟨rfl, rfl⟩
    · refine ⟨(h.apart hd hn).1, fun {j e} hj he hen hep => ?_⟩
      rcases getElem?_concat.1 he with he | ⟨rfl, rfl⟩
      · exact (h.apart hd hn).2 hj he hen hep
      · exact absurd (hlt hd) (by omega)
    · have hbefore := (hbehind hn).among hm
      rw [← hparent] at hbefore
      refine ⟨fun x hx hx' => .inl (hbefore.1 x hx hx'), fun {j e} hj he _ hep => ?_⟩
      rcases getElem?_concat.1 he with he | ⟨rfl, rfl⟩
      · exact hbefore.2 e (mem_of_getElem? he) hep
      · omega

end Nested

/-! ## A chain goes on -/

/-- What is done when the conditions of a chain are false now reaches to the end of `span`. -/
structure Widened (chain : List Nat) (span : Span) (cs cs' : List Condition) : Prop where
  length : cs'.length = cs.length
  kept : ∀ {i : Nat}, i ∉ chain → cs'[i]? = cs[i]?
  widened : ∀ {i : Nat} {c : Condition}, i ∈ chain → cs[i]? = some c →
    ∃ f, cs'[i]? = some { c with falseBody := some f } ∧
      ((c.falseBody = none ∨ chain.getLast? = some i) ∧ f = span ∨
        chain.getLast? ≠ some i ∧ ∃ known, c.falseBody = some known ∧ f = known.through span)

theorem widened_setFalseBody (r : Statement.Progress) (chain : List Nat) (span : Span) :
    Widened chain span r.declared.conditions (r.setFalseBody chain span).declared.conditions where
  length := r.setFalseBody_length chain span
  kept {i} hi := by cases hc : r.declared.conditions[i]? <;> simp [setFalseBody, hc, hi]
  widened {i c} hi hc := by
    cases hf : c.falseBody with
    | none => exact ⟨span, by simp [setFalseBody, hc, hi, hf]⟩
    | some known =>
      by_cases hl : chain.getLast? = some i
      · exact ⟨span, by simp [setFalseBody, hc, hi, hf, hl]⟩
      · exact ⟨known.through span, by simp [setFalseBody, hc, hi, hf, hl]⟩

namespace Widened

variable {chain : List Nat} {span : Span} {cs cs' : List Condition}

variable (hw : Widened chain span cs cs')
include hw

theorem get (hc : cs[i]? = some c) : ∃ f, cs'[i]? = some { c with falseBody := f } := by
  by_cases hi : i ∈ chain
  · obtain ⟨f, hf, -⟩ := hw.widened hi hc
    exact ⟨some f, hf⟩
  · exact ⟨c.falseBody, (hw.kept hi).trans hc⟩

theorem of_get (hd : cs'[i]? = some d) : ∃ c, cs[i]? = some c ∧ d = { c with falseBody := d.falseBody } := by
  have hi : i < cs.length := hw.length ▸ (List.getElem?_eq_some_iff.1 hd).1
  obtain ⟨f, hf⟩ := hw.get (getElem?_eq_getElem hi)
  cases hd.symm.trans hf
  exact ⟨_, getElem?_eq_getElem hi, rfl⟩

theorem head_eq (i : Nat) : head cs' i = head cs i := by
  cases hc : cs[i]? with
  | none =>
    have : cs'[i]? = none := by
      rw [List.getElem?_eq_none_iff] at hc ⊢
      exact hw.length ▸ hc
    rw [head, head, this, hc]
  | some c =>
    obtain ⟨f, hf⟩ := hw.get hc
    rw [head_of_getElem hf, head_of_getElem hc]

theorem isLast (h : IsLast cs k) : IsLast cs' k := by
  intro i hi hhead
  rw [hw.head_eq, hw.head_eq] at hhead
  exact h i (hw.length ▸ hi) hhead

theorem scopes_eq (xs : List Placed) : scopes cs' xs = scopes cs xs := by
  have : cs'.map (·.parent) = cs.map (·.parent) := by
    apply ext_getElem?
    intro i
    rw [getElem?_map, getElem?_map]
    cases hc : cs[i]? with
    | none =>
      rw [List.getElem?_eq_none_iff] at hc
      rw [List.getElem?_eq_none_iff.2 (hw.length ▸ hc)]
    | some c =>
      obtain ⟨f, hf⟩ := hw.get hc
      rw [hf]
      rfl
  rw [scopes, scopes, this]

theorem holds {start stop : Nat} (hb : b.branch = .onFalse → b.condition ∉ chain)
    (h : Holds cs b start stop) : Holds cs' b start stop := by
  obtain ⟨c, f, hc, hf, hin⟩ := h
  obtain ⟨g, hg⟩ := hw.get hc
  refine ⟨_, f, hg, ?_, hin⟩
  cases hbr : b.branch with
  | onTrue => rw [hbr] at hf; exact hf
  | onFalse =>
    have hsame := Option.some.inj (hg.symm.trans ((hw.kept (hb hbr)).trans hc))
    rw [hbr] at hf
    exact (congrArg Condition.falseBody hsame).trans hf

end Widened

section
variable {cs cs' : List Condition} {xs : List Placed} {p : Place} {ts : List Token} {span : Span}
  {h : Nat} {c : Condition}

theorem Pending.of_mem (hp : Pending cs xs p h c) (hn : Nested cs xs) (hi : i ∈ p.chain) (hd : cs[i]? = some d) :
    d.parent = p.scope ∧ d.depth = p.depth ∧ (d.chainedFrom = none ∧ i = h ∨ d.chainedFrom = some h ∧ h < i) := by
  have hhead := ((hp.mem i).1 hi).2
  rw [head_of_getElem hd] at hhead
  cases hf : d.chainedFrom with
  | none =>
    obtain rfl : i = h := by simpa [hf] using hhead
    cases hp.first.symm.trans hd
    exact ⟨hp.parent, hp.depth, .inl ⟨rfl, rfl⟩⟩
  | some k =>
    obtain rfl : k = h := by simpa [hf] using hhead
    obtain ⟨hlt, m, _, hm, -, hparent, hdepth, -⟩ := hn.chained hd hf
    cases hp.first.symm.trans hm
    exact ⟨hparent.symm.trans hp.parent, hdepth.symm.trans hp.depth, .inr ⟨rfl, hlt⟩⟩

theorem Pending.first_mem (hp : Pending cs xs p h c) : h ∈ p.chain :=
  (hp.mem h).2 ⟨(List.getElem?_eq_some_iff.1 hp.first).1, by
    rw [head_of_getElem hp.first, hp.unchained, Option.getD_none]⟩

theorem Pending.le_first (hp : Pending cs xs p h c) (hn : Nested cs xs) (hi : i ∈ p.chain) : h ≤ i := by
  obtain ⟨hlt, hhead⟩ := (hp.mem i).1 hi
  exact hhead ▸ hn.head_le hlt

theorem Pending.le_last (hp : Pending cs xs p h c) {l : Nat} (hi : i ∈ p.chain)
    (hl : p.chain.getLast? = some l) : i ≤ l := by
  obtain ⟨before, hb⟩ := getLast?_eq_some_iff.1 hl
  have hs := hp.sorted
  rw [hb] at hi hs
  rcases mem_append.1 hi with hi | hi
  · exact ((pairwise_append.1 hs).2.2 i hi l (by simp)).le
  · simp at hi
    omega

theorem Nested.widen_body (hn : Nested cs xs) (hp : Pending cs xs p h c)
    (hb : Behind cs xs p.scope ts) (hm : span.Among ts) (hw : Widened p.chain span cs cs')
    (hi : i ∈ p.chain) (hd : cs'[i]? = some d) :
    ∃ f, d.falseBody = some f ∧ d.span.start ≤ f.start ∧ f.start ≤ span.start ∧
      f.stop = span.stop ∧ d.reach = span.stop ∧ ∃ c, cs[i]? = some c ∧ d = { c with falseBody := some f } ∧
        ∀ known, c.falseBody = some known → p.chain.getLast? ≠ some i → f.start = known.start := by
  obtain ⟨c', hc', -⟩ := hw.of_get hd
  obtain ⟨f, hf, hcase⟩ := hw.widened hi hc'
  cases hd.symm.trans hf
  have hbefore := (hb.among hm).2 c' (mem_of_getElem? hc') (hp.of_mem hn hi hc').1
  have hspan := hm.start_lt_stop
  have hown := hn.trueBody c' (mem_of_getElem? hc')
  rw [reach] at hbefore
  refine ⟨f, rfl, ?_⟩
  show c'.span.start ≤ f.start ∧ _
  rcases hcase with ⟨hnone, rfl⟩ | ⟨-, known, hknown, rfl⟩
  · refine ⟨by omega, Nat.le_refl _, rfl, by simp [reach]; omega, c', hc', rfl, ?_⟩
    intro known hknown hl
    rcases hnone with hnone | hlast
    · rw [hknown] at hnone
      cases hnone
    · exact absurd hlast hl
  · have := hn.falseBody c' (mem_of_getElem? hc') known hknown
    simp only [hknown, Option.map_some, Option.getD_some] at hbefore
    simp only [Span.through]
    refine ⟨by omega, by omega, by omega, by simp [reach]; omega, c', hc', rfl, ?_⟩
    intro known' hknown' _
    cases hknown.symm.trans hknown'
    rfl

theorem Pending.unused_body (hp : Pending cs xs p h c) (hb : some b ∈ scopes cs xs)
    (hbr : b.branch = .onFalse) : b.condition ∉ p.chain := by
  obtain ⟨k, _⟩ := b
  cases hbr
  exact fun hk => hp.unused k hb ((hp.mem k).1 hk).2

theorem mem_scopes_of_parent (hd : cs[i]? = some d) (hb : d.parent = some b) : some b ∈ scopes cs xs :=
  mem_append_left _ (mem_map.2 ⟨d, mem_of_getElem? hd, hb⟩)

theorem Nested.widen_parent (hn : Nested cs xs) (hs : Standing cs xs p ts) (hp : Pending cs xs p h c)
    (hb : Behind cs xs p.scope ts) (hm : span.Among ts) (hw : Widened p.chain span cs cs') (hd : cs'[i]? = some d)
    (hb' : d.parent = some b) : b.condition < i ∧ Holds cs' b d.span.start d.reach := by
  by_cases hin : i ∈ p.chain
  · obtain ⟨f, hf, -, -, -, hreach, c', hc', heq, -⟩ := hn.widen_body hp hb hm hw hin hd
    have hpar : c'.parent = some b := by rw [heq] at hb'; exact hb'
    refine ⟨(hn.parent hc' hpar).1, hw.holds (hp.unused_body (mem_scopes_of_parent hc' hpar)) ?_⟩
    obtain ⟨m, g, hmm, hg, hlo, hhi⟩ := (hn.parent hc' hpar).2
    obtain ⟨m', g', hmm', hg', -, hhi'⟩ := hs.holds hm ((hp.of_mem hn hin hc').1.symm.trans hpar)
    cases hmm.symm.trans hmm'
    cases hg.symm.trans hg'
    exact ⟨m, g, hmm, hg, by rw [heq]; exact hlo, hreach ▸ hhi'⟩
  · rw [hw.kept hin] at hd
    exact ⟨(hn.parent hd hb').1, hw.holds (hp.unused_body (mem_scopes_of_parent hd hb')) (hn.parent hd hb').2⟩

section

variable (hn : Nested cs xs) (hp : Pending cs xs p h c) (hb : Behind cs xs p.scope ts)
  (hm : span.Among ts) (hw : Widened p.chain span cs cs') (hd : cs'[i]? = some d)
include hn hp hb hm hw hd

theorem Nested.widen_chained (hk : d.chainedFrom = some k) :
    k < i ∧ ∃ m f, cs'[k]? = some m ∧ m.chainedFrom = none ∧ m.parent = d.parent ∧ m.depth = d.depth ∧
    m.falseBody = some f ∧ f.start ≤ d.span.start ∧ d.reach ≤ f.stop := by
  obtain ⟨c', hc', heq⟩ := hw.of_get hd
  have hk' : c'.chainedFrom = some k := by rw [heq] at hk; exact hk
  obtain ⟨hlt, m, f, hmm, hunch, hpar, hdep, hf, hlo, hhi⟩ := hn.chained hc' hk'
  refine ⟨hlt, ?_⟩
  by_cases hin : i ∈ p.chain
  · -- The first condition of the chain is not its last, so it keeps where its body begins.
    obtain rfl : k = h := by
      have := ((hp.mem i).1 hin).2
      rw [head_of_getElem hc', hk'] at this
      simpa using this
    have hnot : p.chain.getLast? ≠ some k := fun hl => by
      have := hp.le_last hin hl
      omega
    obtain ⟨g, hg⟩ := hw.get hmm
    obtain ⟨f', hf', -, -, hstop, -, m', hmm', heqm, hstart⟩ := hn.widen_body hp hb hm hw hp.first_mem hg
    cases hmm.symm.trans hmm'
    obtain ⟨-, -, -, -, -, hreach, -⟩ := hn.widen_body hp hb hm hw hin hd
    refine ⟨_, f', hg, hunch, ?_, ?_, hf', ?_, by omega⟩
    · rw [heq]; exact hpar
    · rw [heq]; exact hdep
    · rw [hstart f hf hnot, heq]
      exact hlo
  · have hkin : k ∉ p.chain := fun hkin => hin <| (hp.mem i).2 ⟨(List.getElem?_eq_some_iff.1 hc').1, by
        have := ((hp.mem k).1 hkin).2
        rw [head_of_getElem hmm, hunch, Option.getD_none] at this
        rw [head_of_getElem hc', hk', Option.getD_some, this]⟩
    cases (hw.kept hin).symm.trans hd |>.symm.trans hc'
    exact ⟨m, f, (hw.kept hkin).trans hmm, hunch, hpar, hdep, hf, hlo, hhi⟩

theorem Nested.widen_apart (hnone : d.chainedFrom = none) :
    (∀ x ∈ xs, x.scope = d.parent → x.span.stop ≤ d.span.start ∨ d.reach ≤ x.span.start) ∧
    ∀ {j : Nat} {e : Condition}, j < i → cs'[j]? = some e → e.chainedFrom = none → e.parent = d.parent →
    e.reach ≤ d.span.start := by
  by_cases hin : i ∈ p.chain
  · obtain ⟨_, -, -, -, -, -, c', hc', heq, -⟩ := hn.widen_body hp hb hm hw hin hd
    have hnone' : c'.chainedFrom = none := by rw [heq] at hnone; exact hnone
    obtain rfl : i = h := by
      rcases (hp.of_mem hn hin hc').2.2 with ⟨-, hi⟩ | ⟨hsome, -⟩
      · exact hi
      · rw [hnone'] at hsome
        cases hsome
    cases hp.first.symm.trans hc'
    have hpar : d.parent = p.scope := by rw [heq]; exact hp.parent
    have hspan : d.span = c.span := by rw [heq]
    refine ⟨fun x hx hx' => .inl ?_, fun {j e} hj he hen hep => ?_⟩
    · rw [hspan]
      exact hp.after_placed x hx (hx'.trans hpar)
    · have hj' : j ∉ p.chain := fun hjin => by
        have hle := hp.le_first hn hjin
        omega
      rw [hw.kept hj'] at he
      rw [hspan]
      exact (hn.apart hp.first hp.unchained).2 hj he hen (hep.trans (hpar.trans hp.parent.symm))
  · rw [hw.kept hin] at hd
    refine ⟨(hn.apart hd hnone).1, fun {j e} hj he hen hep => ?_⟩
    by_cases hjin : j ∈ p.chain
    · -- The chain is the newest in its body, so no other one comes after it.
      obtain ⟨c', hc', heq⟩ := hw.of_get he
      have hpar := (hp.of_mem hn hjin hc').1
      have hle := hp.le_first hn hjin
      have := hp.newest hd hnone (hep.symm.trans (by rw [heq]; exact hpar))
      omega
    · rw [hw.kept hjin] at he
      exact (hn.apart hd hnone).2 hj he hen hep

end

theorem Nested.widen (hn : Nested cs xs) (hs : Standing cs xs p ts) (hp : Pending cs xs p h c)
    (hb : Behind cs xs p.scope ts) (hm : span.Among ts) (hw : Widened p.chain span cs cs') : Nested cs' xs := by
  have hmem : ∀ {d : Condition}, d ∈ cs' → ∃ i, cs'[i]? = some d := fun hd => getElem?_of_mem hd
  constructor
  case filled => exact hn.filled
  case trueBody =>
    intro d hd
    obtain ⟨i, hi⟩ := hmem hd
    obtain ⟨c', hc', heq⟩ := hw.of_get hi
    rw [heq]
    exact hn.trueBody c' (mem_of_getElem? hc')
  case falseBody =>
    intro d hd f hf
    obtain ⟨i, hi⟩ := hmem hd
    by_cases hin : i ∈ p.chain
    · obtain ⟨f', hf', hlo, hle, hstop, -⟩ := hn.widen_body hp hb hm hw hin hi
      cases hf'.symm.trans hf
      have := hm.start_lt_stop
      exact ⟨hlo, by omega⟩
    · rw [hw.kept hin] at hi
      exact hn.falseBody d (mem_of_getElem? hi) f hf
  case top =>
    intro d hd hnone
    obtain ⟨i, hi⟩ := hmem hd
    obtain ⟨c', hc', heq⟩ := hw.of_get hi
    rw [heq] at hnone ⊢
    exact hn.top c' (mem_of_getElem? hc') hnone
  case parent => exact fun hd hb' => hn.widen_parent hs hp hb hm hw hd hb'
  case depth =>
    intro i d m b hd hb' hm'
    obtain ⟨c', hc', heq⟩ := hw.of_get hd
    obtain ⟨m', hmm', heqm⟩ := hw.of_get hm'
    have hpar : c'.parent = some b := by rw [heq] at hb'; exact hb'
    calc d.depth = c'.depth := by rw [heq]
      _ = m'.depth + 1 := hn.depth hc' hpar hmm'
      _ = m.depth + 1 := by rw [heqm]
  case scope =>
    intro x hx b hb'
    have : some b ∈ scopes cs xs := mem_append_right _ (mem_map.2 ⟨x, hx, hb'⟩)
    exact hw.holds (hp.unused_body this) (hn.scope x hx b hb')
  case last =>
    intro k hk
    rw [hw.scopes_eq] at hk
    exact hw.isLast (hn.last k hk)
  case chained => exact fun hd hk => hn.widen_chained hp hb hm hw hd hk
  case apart => exact fun hd hnone => hn.widen_apart hp hb hm hw hd hnone

theorem Standing.widen (hn : Nested cs xs) (hs : Standing cs xs p ts)
    (hw : Widened p.chain span cs cs') : Standing cs' xs p ts where
  top := hs.top
  scope b hb := by
    obtain ⟨c, f, hc, hf, hdepth, hin⟩ := hs.scope b hb
    have hfree : b.branch = .onFalse → b.condition ∉ p.chain := by
      rintro hbr hmem
      obtain ⟨k, hk⟩ : ∃ k, p.chain.head? = some k := by
        cases hp : p.chain with
        | nil => rw [hp] at hmem; cases hmem
        | cons k _ => exact ⟨k, rfl⟩
      obtain ⟨_, hpend⟩ := hs.chain k hk
      have hb' : p.scope = some ⟨b.condition, .onFalse⟩ := by rw [hb, ← hbr]
      exact hpend.head_ne hn hb' ((hpend.mem _).1 hmem).2
    obtain ⟨c', g, hc', hg, hlo, hhi⟩ := hw.holds hfree ⟨c, f, hc, hf, Nat.le_refl _, Nat.le_refl _⟩
    obtain ⟨e, he⟩ := hw.get hc
    cases he.symm.trans hc'
    exact ⟨_, g, hc', hg, hdepth, fun t ht => by have := hin t ht; omega⟩
  last k hk := hw.isLast (hs.last k hk)
  chain k hk := by
    obtain ⟨c, hc⟩ := hs.chain k hk
    obtain ⟨f, hf⟩ := hw.get hc.first
    refine ⟨_, hf, hc.unchained, hc.parent, hc.depth, fun i => ?_, hc.sorted, fun i hi => ?_,
      hc.after_placed, fun {j d} hd hnone hpar => ?_⟩
    · rw [hw.length, hw.head_eq]
      exact hc.mem i
    · rw [hw.scopes_eq] at hi
      rw [hw.head_eq]
      exact hc.unused i hi
    · obtain ⟨d', hd', heq⟩ := hw.of_get hd
      rw [heq] at hnone hpar
      exact hc.newest hd' hnone hpar

theorem Standing.concat (hn : Nested cs xs) (hs : Standing cs xs p ts) {us : List Token}
    (hsub : us ⊆ ts) {chain : List Nat} (hchained : ∀ k, c.chainedFrom = some k → p.chain.head? = some k)
    (hchain : ∀ k, chain.head? = some k → ∃ d, Pending (cs ++ [c]) xs { p with chain := chain } k d) :
    Standing (cs ++ [c]) xs { p with chain := chain } us where
  top := hs.top
  scope b hb := by
    obtain ⟨d, f, hd, hf, hdepth, hin⟩ := hs.scope b hb
    exact ⟨d, f, Nested.getElem?_concat.2 (.inl hd), hf, hdepth, fun t ht => hin t (hsub ht)⟩
  last k hk := by
    obtain ⟨d, _, hd, -⟩ := hs.scope _ hk
    refine Nested.IsLast.concat hn (List.getElem?_eq_some_iff.1 hd).1 (hs.last k hk) fun hc => ?_
    obtain ⟨_, hpend⟩ := hs.chain _ (hchained _ hc)
    exact hpend.head_ne hn hk rfl
  chain := hchain

end

end Condition

end ChartScript
