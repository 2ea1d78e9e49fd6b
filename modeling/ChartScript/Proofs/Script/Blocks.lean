import ChartScript.Proofs.Script.Forest
import ChartScript.Proofs.Script.Layout
/-!
# Statements stand in the block they are indented in

Every recorded statement names the body it stands in.
-/
namespace ChartScript

open List

def Declarations.recorded (d : Declarations) : List Placed :=
  d.placed ++ d.conditions.map fun c => ⟨c.parent, c.span⟩

variable {source : List Char} {line next : List Token}

namespace StatementForm

theorem opensWith_of_condition (h : ofLine source line = .condition) : opensWith (· == .if_) line = true := by
  by_contra hif
  rw [ofLine, if_neg hif] at h
  iterate 15 replace h := else_of_ite h (by decide)
  cases h

theorem opensWith_of_alternative (h : ofLine source line = .alternative) : opensWith (· == .else_) line = true := by
  by_contra helse
  rw [ofLine, if_neg helse] at h
  iterate 15 replace h := else_of_ite h (by decide)
  cases h

theorem first_of_opensWith {word : Keyword} (h : opensWith (· == word) line = true) :
    ∃ t rest, line = t :: rest ∧ t.isKeyword word = true := by
  cases line with
  | nil => cases h
  | cons t rest =>
    refine ⟨t, rest, rfl, ?_⟩
    unfold opensWith at h
    split at h
    · next hk =>
      simp only [head?_cons, Option.map_some, Option.some.injEq] at hk
      simpa [Token.isKeyword, hk] using h
    · cases h

end StatementForm

variable {ss : List Statement} {q : Place} {xs xs' : List Placed} {s : Statement}

namespace Statement

/-! ## First lines -/

theorem span_start (body : List Statement) (h : line ≠ []) : (mk line body).span.start = (headSpan line).start := by
  obtain ⟨t, rest, rfl⟩ := exists_cons_of_ne_nil h
  have hown : Line.span? (t :: rest) = some (t.span.through ((t :: rest).getLast (by simp)).span) := by
    rw [Line.span?, head?_cons, getLast?_eq_getLast_of_ne_nil (by simp)]
  rw [span, hown]
  cases blockSpan? body <;> rfl

theorem blockSpan_start {block : Span} (h : blockSpan? ss = some block) (hp : Proper ss) :
    ∃ next more, linesAll ss = next :: more ∧ block.start = (headSpan next).start := by
  cases ss with
  | nil => rw [blockSpan?] at h; cases h
  | cons s rest =>
    obtain ⟨line, body⟩ := s
    refine ⟨line, linesAll body ++ linesAll rest, by simp, ?_⟩
    rw [← span_start body (hp.ne_nil line (by simp))]
    rw [blockSpan?] at h
    split at h <;> cases h <;> rfl

end Statement

namespace Condition

open Statement

/-! ## The body that a line opens -/

/-- The body `b` is the block below `line`: the `if` of the condition, or a last `else`. -/
def Opens (cs : List Condition) (line next : List Token) (b : BodyRef) : Prop :=
  ∃ c f, cs[b.condition]? = some c ∧ c.body? b.branch = some f ∧ f.start = (headSpan next).start ∧
    match b.branch with
    | .onTrue => ∃ t ∈ line, t.isKeyword .if_ = true ∧ t.span.start = c.span.start
    | .onFalse => StatementForm.opensWith (· == .else_) line = true ∧ (line)[1]?.any (·.isKeyword .if_) = false

theorem Opens.extends {cs cs' : List Condition} {b : BodyRef}
    (h : Opens cs line next b) (he : Extends q cs xs cs' xs')
    (hb : b.branch = .onFalse → b.condition ∉ q.chain) : Opens cs' line next b := by
  obtain ⟨c, f, hc, hf, hstart, hline⟩ := h
  obtain ⟨condition, branch⟩ := b
  cases branch with
  | onTrue =>
    obtain ⟨g, hg⟩ := he.get hc
    exact ⟨_, f, hg, hf, hstart, hline⟩
  | onFalse => exact ⟨c, f, he.kept hc (hb rfl), hf, hstart, hline⟩

end Condition

namespace Statement

open Condition Outline

/-! ## Where the statements of a block stand -/

def Stands (owner : Option (List Token)) (p : Place) (n : Nat) (ss : List Statement)
    (cs : List Condition) (x : Placed) : Prop :=
  ∃ o line, (o, line) ∈ edgesAll owner ss ∧ (∃ t ∈ line, t.span.start = x.span.start) ∧
    ((x.scope = p.scope ∧ o = owner) ∨
      ∃ opening next b, o = some opening ∧ x.scope = some b ∧ [opening, next] <:+: linesAll ss ∧
        Opens cs opening next b ∧ (b.branch = .onFalse → n ≤ b.condition ∨ b.condition ∈ p.chain))

variable {chain : List Nat} {r : Progress} {x : Placed}

section

variable {owner : Option (List Token)} {p : Place} {n m : Nat} {line : List Token}
  {body rest : List Statement} {cs : List Condition} {x : Placed}

theorem Stands.here (hs : x.scope = p.scope) (hx : ∃ t ∈ line, t.span.start = x.span.start) :
    Stands owner p n (Statement.mk line body :: rest) cs x :=
  ⟨owner, line, by simp, hx, .inl ⟨hs, rfl⟩⟩

theorem Stands.tail (h : Stands owner { p with chain := chain } m rest cs x) (hn : n ≤ m)
    (hchain : ∀ i ∈ chain, i ∈ p.chain ∨ n ≤ i) : Stands owner p n (s :: rest) cs x := by
  obtain ⟨o, line, hmem, hx, hscope⟩ := h
  refine ⟨o, line, by simp [hmem], hx, hscope.imp_right ?_⟩
  rintro ⟨opening, next, b, ho, hb, hin, hopens, hnew⟩
  refine ⟨opening, next, b, ho, hb, ?_, hopens, fun hfalse => ?_⟩
  · exact hin.trans (suffix_append _ _).isInfix
  · rcases hnew hfalse with hle | hmem
    · exact .inl (hn.trans hle)
    · exact (hchain _ hmem).symm

theorem Stands.block {i : Nat} {branch : Branch} {more : List (List Token)}
    (h : Stands (some line) (p.body i branch) m body cs x) (hn : n ≤ m) (hlines : linesAll body = next :: more)
    (hopens : Opens cs line next ⟨i, branch⟩) (hi : branch = .onFalse → n ≤ i ∨ i ∈ p.chain) :
    Stands owner p n (Statement.mk line body :: rest) cs x := by
  obtain ⟨o, line', hmem, hx, hscope⟩ := h
  refine ⟨o, line', by simp [hmem], hx, .inr ?_⟩
  rcases hscope with ⟨hscope, ho⟩ | ⟨opening, next', b, ho, hb, hin, hopens', hnew⟩
  · refine ⟨line, next, ⟨i, branch⟩, ho, hscope, ?_, hopens, hi⟩
    rw [linesAll_cons, lines_mk, hlines]
    exact ⟨[], more ++ linesAll rest, by simp⟩
  · refine ⟨opening, next', b, ho, hb, ?_, hopens', fun hfalse => ?_⟩
    · exact hin.trans ⟨[line], linesAll rest, by simp⟩
    · exact .inl (hn.trans ((hnew hfalse).resolve_right (by simp [Place.body])))

theorem Stands.extends {cs' : List Condition}
    (h : Stands owner p n ss cs x) (he : Extends q cs xs cs' xs')
    (hp : p.chain = []) (hq : ∀ i ∈ q.chain, i < n) : Stands owner p n ss cs' x := by
  obtain ⟨o, line, hmem, hx, hscope⟩ := h
  refine ⟨o, line, hmem, hx, hscope.imp_right ?_⟩
  rintro ⟨opening, next, b, ho, hb, hin, hopens, hnew⟩
  refine ⟨opening, next, b, ho, hb, hin, hopens.extends he fun hfalse hmem => ?_, hnew⟩
  have hle := (hnew hfalse).resolve_right (by simp [hp])
  have := hq _ hmem
  omega

end

/-! ## Along the walk -/

theorem recorded_of_adds {p : Place} {r' : Progress} {form : StatementForm}
    (h : Adds source p s r form r') (hx : x ∈ r'.declared.recorded) :
    x ∈ r.declared.recorded ∨ x = ⟨p.scope, s.span⟩ := by
  obtain ⟨hsame, hplaced⟩ := placed_of_adds h
  rw [Declarations.recorded, hsame] at hx
  rcases mem_append.1 hx with hx | hx
  · exact (hplaced x hx).imp_left (mem_append_left _)
  · exact .inl (mem_append_right _ hx)

theorem recorded_addCondition {c : Condition} (hx : x ∈ (r.addCondition c).declared.recorded) :
    x ∈ r.declared.recorded ∨ x = ⟨c.parent, c.span⟩ := by
  simp only [Declarations.recorded, Progress.addCondition, map_append, map_cons,
    map_nil, mem_append, mem_singleton] at hx ⊢
  rcases hx with hx | hx | hx
  · exact .inl (.inl hx)
  · exact .inl (.inr hx)
  · exact .inr hx

theorem recorded_setFalseBody {span : Span} (hx : x ∈ (r.setFalseBody chain span).declared.recorded) :
    x ∈ r.declared.recorded := by
  rcases mem_append.1 hx with hx | hx
  · exact mem_append_left _ hx
  · obtain ⟨d, hd, rfl⟩ := mem_map.1 hx
    obtain ⟨i, hi⟩ := getElem?_of_mem hd
    obtain ⟨c, hc, heq⟩ := (widened_setFalseBody r chain span).of_get hi
    rw [heq]
    exact mem_append_right _ (mem_map.2 ⟨c, mem_of_getElem? hc, rfl⟩)

theorem Stands.of_body {owner : Option (List Token)} {p : Place} {n i : Nat} {branch : Branch} {r₁ r₂ : Progress}
    {more : List (List Token)} {body rest : List Statement}
    (h : Stands (some line) (p.body i branch) r.declared.conditions.length body r₁.declared.conditions x)
    (hbody : Walk source (p.body i branch) r body r₁) (hrest : Walk source { p with chain := chain } r₁ rest r₂)
    (hlines : linesAll body = next :: more) (hopens : Opens r.declared.conditions line next ⟨i, branch⟩)
    (hn : n ≤ r.declared.conditions.length) (hchain : ∀ j ∈ chain, j < r.declared.conditions.length)
    (hi : branch = .onFalse → (n ≤ i ∨ i ∈ p.chain) ∧ chain = []) :
    Stands owner p n (mk line body :: rest) r₂.declared.conditions x := by
  have hopens₁ := hopens.extends (extends_of_walk hbody) (by simp [Place.body])
  have hopens₂ := hopens₁.extends (extends_of_walk hrest) fun hfalse => by simp [(hi hfalse).2]
  exact (h.extends (extends_of_walk hrest) rfl hchain).block hn hlines hopens₂ fun hfalse => (hi hfalse).1

section Enter

variable {p : Place} {r' : Progress} {body rest : List Statement} {i : Nat} {branch : Branch}
  (h : Enters source p r line body i branch r' chain)
include h

theorem recorded_of_enters (hp : Proper (mk line body :: rest)) (hx : x ∈ r'.declared.recorded) :
    x ∈ r.declared.recorded ∨ x.scope = p.scope ∧ ∃ t ∈ line, t.span.start = x.span.start := by
  cases h with
  | opening =>
    refine (recorded_addCondition hx).imp_right ?_
    rintro rfl
    exact ⟨rfl, start_mem_line hp.head⟩
  | chained _ _ hsecond =>
    rcases recorded_addCondition hx with hx | rfl
    · exact .inl (recorded_setFalseBody hx)
    · exact .inr ⟨rfl, _, mem_of_getElem? hsecond, rfl⟩
  | closing => exact .inl (recorded_setFalseBody hx)

theorem opens_of_enters (hp : Proper body) (hchain : ∀ k ∈ p.chain, k < r.declared.conditions.length) :
    ∃ next more, linesAll body = next :: more ∧ Opens r'.declared.conditions line next ⟨i, branch⟩ := by
  cases h with
  | @opening _ block hform _ hblock =>
    obtain ⟨next, more, hlines, hnext⟩ := blockSpan_start hblock hp
    obtain ⟨t, words, rfl, hif⟩ := StatementForm.first_of_opensWith (StatementForm.opensWith_of_condition hform)
    have hstart : (mk (t :: words) body).span.start = t.span.start := span_start body (cons_ne_nil t words)
    exact ⟨next, more, hlines, _, block, getElem?_concat_length, rfl, hnext, t, .head _, hif, hstart.symm⟩
  | @chained head second predicate block hform _ hsecond hif _ hblock =>
    obtain ⟨next, more, hlines, hnext⟩ := blockSpan_start hblock hp
    have hget := getElem?_concat_length (a := (⟨predicate, block, none, p.depth, p.scope, some head,
        second.span.through (mk line body).span⟩ : Condition))
      (l := (r.setFalseBody p.chain (second.span.through (mk line body).span)).declared.conditions)
    rw [r.setFalseBody_length] at hget
    exact ⟨next, more, hlines, _, block, hget, rfl, hnext, second, mem_of_getElem? hsecond, hif, rfl⟩
  | @closing _ block hform hlast hnot hblock =>
    obtain ⟨next, more, hlines, hnext⟩ := blockSpan_start hblock hp
    have hmem : i ∈ p.chain := mem_of_getLast? hlast
    -- the last condition of the chain does just this block when it is false
    obtain ⟨f, hf, ⟨-, rfl⟩ | ⟨hne, -⟩⟩ := (widened_setFalseBody r p.chain block).widened hmem
      (getElem?_eq_getElem (hchain i hmem))
    · exact ⟨next, more, hlines, _, f, hf, rfl, hnext, StatementForm.opensWith_of_alternative hform, hnot⟩
    · exact absurd hlast hne

theorem chain_lt_of_enters (hchain : ∀ k ∈ p.chain, k < r.declared.conditions.length) :
    (∀ k ∈ chain, k < r'.declared.conditions.length) ∧ (branch = .onFalse → i ∈ p.chain ∧ chain = []) := by
  cases h with
  | opening => simp [Progress.addCondition]
  | chained =>
    refine ⟨fun k hk => ?_, nofun⟩
    rcases mem_append.1 hk with hk | hk
    · simpa [Progress.addCondition] using (hchain k hk).trans (Nat.lt_succ_self _)
    · simp [Progress.addCondition, mem_singleton.1 hk]
  | closing _ hlast => exact ⟨by simp, fun _ => ⟨mem_of_getLast? hlast, rfl⟩⟩

end Enter

theorem stands_of_walk {p : Place} {r' : Progress} (h : Walk source p r ss r')
    (owner : Option (List Token)) (hp : Proper ss) (hchain : ∀ i ∈ p.chain, i < r.declared.conditions.length)
    (hx : x ∈ r'.declared.recorded) :
    x ∈ r.declared.recorded ∨ Stands owner p r.declared.conditions.length ss r'.declared.conditions x := by
  induction h generalizing owner x with
  | done => exact .inl hx
  | plain _ hc ha hadd hrest ih =>
    have hadds := adds_of_add hc ha hadd
    have hlen := congrArg List.length (placed_of_adds hadds).1
    rcases ih owner hp.tail (by simp) hx with hx | hx
    · refine (recorded_of_adds hadds hx).imp_right ?_
      rintro rfl
      exact .here rfl (start_mem_line hp.head)
    · exact .inr (hx.tail hlen.ge (by simp))
  | @block p r r₀ r₁ r₂ line body rest i branch chain henter hbody hrest ihbody ih =>
    obtain ⟨next, more, hlines, hopens⟩ := opens_of_enters henter hp.body hchain
    obtain ⟨hlt, hfalse⟩ := chain_lt_of_enters henter hchain
    have hle := (extends_of_enters henter).length_le
    have hle' := (extends_of_walk hbody).length_le
    rcases ih owner hp.tail (fun k hk => (hlt k hk).trans_le hle') hx with hx | hx
    · rcases ihbody (some line) hp.body (by simp [Place.body]) hx with hx | hx
      · exact (recorded_of_enters henter hp hx).imp_right fun h => .here h.1 h.2
      · exact .inr (hx.of_body hbody hrest hlines hopens hle hlt fun hbranch =>
          ⟨.inr (hfalse hbranch).1, (hfalse hbranch).2⟩)
    · exact .inr (hx.tail (hle.trans hle') (chain_of_enters henter))

end Statement

namespace Script

open Condition Statement

/-! ## Whole scripts -/

/-- The lines of the statements of a script, from top to bottom. -/
def statementLines (source : List Char) : List (List Token) :=
  (items (tokens source)).filterMap Item.line?

/-- The lines with their widths. -/
def outline (source : List Char) : List (Nat × List Token) :=
  (statementLines source).map fun line => (indentation source line, line)

/-- Every recorded statement stands in the block of the line that `rule` finds, given the width of
its own line and the lines above it, the nearest first. -/
def Follows (rule : Nat → List (Nat × List Token) → Option (List Token)) (s : Script) : Prop :=
  ∀ x ∈ s.recorded, ∃ k width line, (outline s.source)[k]? = some (width, line) ∧
    (∃ t ∈ line, t.span.start = x.span.start) ∧
    match rule width ((outline s.source).take k).reverse with
    | none => x.scope = none
    | some opening => ∃ next b, [opening, next] <:+: statementLines s.source ∧
        Opens s.conditions opening next b ∧ x.scope = some b

theorem items_outline (hplain : PlainMargins source)
    (hbegins : ∀ line ∈ statementLines source, beginsRow source line = true) :
    items (tokens source) = Outline.laid [] (outline source) := by
  obtain ⟨lines, hitems, hwidths⟩ := laidOut_tokens hplain
  have hlines : statementLines source = lines.map (·.2) := by rw [statementLines, hitems, Outline.filterMap_laid]
  have houtline : outline source = lines := by
    rw [outline, hlines, map_map]
    refine (map_congr_left fun l hl => ?_).trans (map_id lines)
    have hbegin := hbegins l.2 (hlines ▸ mem_map_of_mem hl)
    exact Prod.ext (hwidths l hl hbegin).symm rfl
  rw [houtline, hitems]

/-- Statements stand in the block that they are indented in, as long as each of them begins its row
and no row without a statement has other blanks behind its spaces and tabs. -/
theorem scope_follows_indentation {source : List Char} {s : Script} (h : parse source = .ok s)
    (hplain : PlainMargins source)
    (hbegins : ∀ line ∈ statementLines source, beginsRow source line = true) :
    s.Follows Outline.opener := by
  intro x hx
  obtain ⟨hsource, -, r, hwalk, hdecl⟩ := walk_of_parse h
  have hrecorded : x ∈ r.declared.recorded := by rw [hdecl] at hx; exact hx
  have hconditions : s.conditions = r.declared.conditions := by rw [hdecl]
  have hstands := stands_of_walk hwalk none (proper_tree source) (by simp [Place.top]) hrecorded
  obtain ⟨o, line, hedge, hstart, hscope⟩ := hstands.resolve_left
    (by simp [Declarations.recorded, Declarations.placed])
  -- the tree puts the line below the one that the widths give
  rw [Outline.edges_tree, items_outline hplain hbegins, Outline.run_laid] at hedge
  obtain ⟨k, hk⟩ := getElem?_of_mem hedge
  rw [Outline.owned_getElem?, Option.map_eq_some_iff] at hk
  obtain ⟨⟨width, line'⟩, hline, heq⟩ := hk
  obtain ⟨ho, rfl⟩ := Prod.mk.inj heq
  rw [append_nil] at ho
  rw [hsource]
  refine ⟨k, width, line', hline, hstart, ?_⟩
  rw [ho]
  rcases hscope with ⟨hscope, rfl⟩ | ⟨opening, next, b, rfl, hscope, hnext, hopens, -⟩
  · exact hscope
  · rw [linesAll_tree] at hnext
    exact ⟨next, b, hnext, hconditions ▸ hopens, hscope⟩

def nestedSource : List Char :=
  Text.ofRows [ "//@version=5", "strategy(\"S\")", "if close > open", "    strategy.close(\"A\")", "\t ", "// note",
    "\tif high > low",
    "\t\tplot(close)",
    "    else if low > open",
    "        x = 1",
    "  /* far out */",
    "else",
    "    strategy.close(\"B\")"]

theorem scope_follows_indentation_nested : ∃ s, parse nestedSource = .ok s ∧ PlainMargins nestedSource ∧
      (∀ line ∈ statementLines nestedSource, beginsRow nestedSource line = true) ∧
      (outline nestedSource).map (·.1) = [0, 0, 4, 4, 8, 4, 8, 0, 4] ∧
      s.recorded.map (·.scope) = [some ⟨2, .onTrue⟩, some ⟨0, .onTrue⟩, some ⟨0, .onFalse⟩, some ⟨1, .onTrue⟩,
          none, some ⟨0, .onTrue⟩, some ⟨0, .onTrue⟩] ∧
      s.Follows Outline.opener := by
  have hplain : PlainMargins nestedSource := by decide +kernel
  have hbegins : ∀ line ∈ statementLines nestedSource, beginsRow nestedSource line = true := by decide +kernel
  have hrun : ∃ s, parse nestedSource = .ok s ∧ s.recorded.map (·.scope) =
      [some ⟨2, .onTrue⟩, some ⟨0, .onTrue⟩, some ⟨0, .onFalse⟩, some ⟨1, .onTrue⟩,
        none, some ⟨0, .onTrue⟩, some ⟨0, .onTrue⟩] := by
    decide +kernel
  obtain ⟨s, hs, hscopes⟩ := hrun
  exact ⟨s, hs, hplain, hbegins, by decide +kernel, hscopes, scope_follows_indentation hs hplain hbegins⟩

def straySource : List Char :=
  Text.ofRows [ "//@version=5", "strategy(\"S\")", "if close > open", "        strategy.close(\"A\")",
    "    strategy.close(\"B\")"]

/-- Such a line does not stand in the block of the nearest line that is less indented. -/
theorem stray_line_not_below_nearest : ∃ s, parse straySource = .ok s ∧ ¬ s.Follows Outline.nearest := by
  have hrun : ∃ s, parse straySource = .ok s ∧ s.source = straySource ∧
      ∃ x ∈ s.recorded, x.scope = none ∧ x.span.start = 75 := by
    decide +kernel
  have hnearest : ∀ k < (outline straySource).length, ∀ l ∈ (outline straySource)[k]?,
      l.2.any (·.span.start == 75) = true →
        (Outline.nearest l.1 ((outline straySource).take k).reverse).isSome = true := by
    decide +kernel
  obtain ⟨s, hs, hsource, x, hx, hplace⟩ := hrun
  refine ⟨s, hs, fun hfollows => ?_⟩
  obtain ⟨k, width, line, hline, ⟨t, ht, hstart⟩, hrule⟩ := hfollows x hx
  rw [hsource] at hline hrule
  have hsome := hnearest k (List.getElem?_eq_some_iff.1 hline).1 (width, line) hline
    (any_eq_true.2 ⟨t, ht, by rw [hstart, hplace.2]; rfl⟩)
  obtain ⟨opening, hopening⟩ := Option.isSome_iff_exists.1 hsome
  rw [hopening] at hrule
  obtain ⟨_, b, -, -, hscope⟩ := hrule
  rw [hplace.1] at hscope
  cases hscope

end Script

end ChartScript
