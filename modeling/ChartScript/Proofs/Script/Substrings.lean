import ChartScript.Proofs.Script.Places
import ChartScript.Proofs.Token.Spelling
/-!
# Places as pieces of their statements

Every place that a script keeps is a piece of the source. The places of expressions and blocks lie
inside the place of the declaration they belong to; they are not empty, and their text neither
begins nor ends with white space.

The walk over the statements keeps the second part: each place it notes down reaches from one word
of the statement to another one.
-/
namespace ChartScript

open List Text Token Lexer

def FuncDecl.pieces (x : FuncDecl) : List Span :=
  x.body :: x.params.filterMap (·.default)

namespace Declarations

/-- The places of whole declarations. -/
def wholes (d : Declarations) : List Span :=
  d.inputs.map (·.span) ++ d.varDecls.map (·.span) ++ d.functions.map (·.span) ++
    d.orders.map (·.span) ++ d.plots.map (·.span) ++ d.conditions.map (·.span) ++
    d.types.map (·.span) ++ d.others.map (·.span)

/-- The places of expressions and blocks, each behind the place of its declaration. What is done
when a condition is false is not among them. -/
def parts (d : Declarations) : List (Span × Span) :=
  d.varDecls.map (fun x => (x.span, x.value)) ++ d.functions.flatMap (fun x => x.pieces.map (x.span, ·)) ++
    d.orders.flatMap (fun x => x.expressions.map (x.span, ·)) ++
    d.plots.flatMap (fun x => x.expressions.map (x.span, ·)) ++
    d.conditions.flatMap (fun x => [(x.span, x.predicate), (x.span, x.trueBody)])

end Declarations

/-- All places that a script keeps. -/
def Script.places (s : Script) : List Span :=
  s.wholes ++ s.parts.map (·.2) ++ s.conditions.filterMap (·.falseBody) ++
    (s.collectionUses ++ s.drawingCalls).map (·.span)

/-! ## One place inside another -/

def Span.Encloses (source : List Char) (outer inner : Span) : Prop :=
  ∃ ts us, outer.Covers ts ∧ inner.Covers us ∧ us ⊆ ts ∧ Ordered us ∧ us ⊆ (tokenize source).filter isContent

variable {source : List Char}

theorem Token.trimmed_of_content {t : Token} (ht : t ∈ (tokenize source).filter isContent) :
    t.span.Cuts source t.text.toList ∧ Trimmed t.text.toList := by
  obtain ⟨hmem, hcontent⟩ := mem_filter.1 ht
  rw [isContent_eq, Bool.and_eq_true] at hcontent
  exact ⟨tokenize_cuts hmem, trimmed_of_token hmem (by simpa using hcontent.1) (by simpa using hcontent.2)⟩

theorem Text.eq_of_byteSize {as bs cs ds : List Char} (h : as ++ bs = cs ++ ds)
    (hsize : byteSize as = byteSize cs) : as = cs ∧ bs = ds := by
  obtain ⟨m, rfl, rfl⟩ := divide_further h (Nat.le_of_eq hsize)
  have hnil : m = [] := by
    by_contra hne
    have := byteSize_pos hne
    rw [byteSize_append] at hsize
    omega
  subst hnil
  exact ⟨(append_nil as).symm, rfl⟩

variable {ts : List Token}

theorem Span.Among.trimmed {p : Span} {piece : List Char} (h : p.Among ts)
    (hts : ts ⊆ (tokenize source).filter isContent) (hpiece : p.Cuts source piece) : Trimmed piece := by
  have hlt := h.start_lt_stop
  obtain ⟨pre, rest, hsource, hstart, hstop⟩ := hpiece.divides
  have hne : piece ≠ [] := by
    rintro rfl
    simp only [byteSize] at hstop
    omega
  -- where the piece begins, a word begins
  obtain ⟨t, ht, htstart⟩ := h.first
  obtain ⟨hcuts, c, -, hc, -, hblank, -⟩ := trimmed_of_content (hts ht)
  obtain ⟨pre₁, rest₁, hsource₁, hstart₁, -⟩ := hcuts.divides
  have hfirst : piece.head? = some c := by
    obtain ⟨-, htail⟩ := Text.eq_of_byteSize (hsource.symm.trans hsource₁) (by omega)
    have hhead := congrArg List.head? htail
    rwa [head?_append_of_ne_nil _ hne, head?_append, hc, Option.some_or] at hhead
  -- where the piece ends, a word ends
  obtain ⟨u, hu, hustop⟩ := h.last
  obtain ⟨hcuts, -, d, -, hd, -, hblank'⟩ := trimmed_of_content (hts hu)
  obtain ⟨pre₂, rest₂, hsource₂, hstart₂, hstop₂⟩ := hcuts.divides
  have hlast : piece.getLast? = some d := by
    have hsize : byteSize (pre ++ piece) = byteSize (pre₂ ++ u.text.toList) := by
      rw [byteSize_append, byteSize_append]
      omega
    rw [← append_assoc] at hsource hsource₂
    obtain ⟨hinit, -⟩ := Text.eq_of_byteSize (hsource.symm.trans hsource₂) hsize
    have hend := congrArg List.getLast? hinit
    rwa [getLast?_append_of_ne_nil _ hne, getLast?_append, hd, Option.some_or] at hend
  exact ⟨c, d, hfirst, hlast, hblank, hblank'⟩

theorem Span.Covers.from_second {s : Span} {first second : Token} (h : s.Covers (first :: second :: ts))
    (ho : Ordered (first :: second :: ts)) : (second.span.through s).Covers (second :: ts) := by
  have hfirst := (pairwise_cons.1 ho.pairwise).1
  have hsecond := (pairwise_cons.1 (pairwise_cons.1 ho.pairwise).2).1
  have hlt := ho.nonempty second (by simp)
  have hle := h.le_stop second (by simp)
  have hstop : (second.span.through s).stop = s.stop := by
    simp only [Span.through]
    omega
  refine ⟨fun t ht => ?_, fun t ht => ?_, ⟨second, mem_cons_self, rfl⟩, ?_⟩
  · show second.span.start ≤ t.span.start
    rcases mem_cons.1 ht with rfl | ht
    · exact Nat.le_refl _
    · have := hsecond t ht
      omega
  · rw [hstop]
    exact h.le_stop t (mem_cons_of_mem _ ht)
  · rw [hstop]
    obtain ⟨last, hlast, hlaststop⟩ := h.last
    -- the first word ends before the second one begins
    rcases mem_cons.1 hlast with rfl | hlast
    · have := hfirst second mem_cons_self
      omega
    · exact ⟨last, hlast, hlaststop⟩

namespace Statement

variable {line : List Token} {body rest : List Statement} {inner : Span}

theorem encloses_piece (h : Proper (mk line body :: rest)) {outer : Span} (houter : outer.Covers ts)
    (hts : ts ⊆ (tokenize source).filter isContent) {ws : List Token} (hws : ws <:+: line)
    (hsub : ws ⊆ ts) (hinner : Line.span? ws = some inner) : outer.Encloses source inner := by
  obtain ⟨before, after, hline⟩ := hws
  have ho : Ordered ws := by
    have hall := h.line_ordered.left
    rw [← hline] at hall
    exact hall.left.right
  exact ⟨ts, ws, houter, Line.covers_span ho hinner, hsub, ho, List.Subset.trans hsub hts⟩

theorem encloses_block (h : Proper (mk line body :: rest)) {outer : Span} (houter : outer.Covers ts)
    (hts : ts ⊆ (tokenize source).filter isContent) (hsub : tokensAll body ⊆ ts)
    (hinner : blockSpan? body = some inner) : outer.Encloses source inner :=
  ⟨ts, tokensAll body, houter, covers_blockSpan body h.body hinner, hsub, h.body.ordered,
    List.Subset.trans hsub hts⟩

theorem encloses_of_piece (h : Proper (mk line body :: rest))
    (hwords : (mk line body).tokens ⊆ (tokenize source).filter isContent)
    (hpiece : Line.Piece line inner) : (mk line body).span.Encloses source inner := by
  obtain ⟨ws, ⟨before, after, hline, -⟩, hinner⟩ := hpiece
  have hws : ws <:+: line := ⟨before, after, by rw [hline, append_assoc]⟩
  refine encloses_piece h (covers_span _ h.head) hwords hws ?_ hinner
  exact subset_append_of_subset_left _ hws.subset

end Statement

/-! ## What is read from a statement -/

namespace Statement

mutual

theorem proper_of_node {n : Statement} : (s : Statement) → Proper [s] → n ∈ s.nodes → Proper [n]
  | mk line body, hs, h => by
    rcases mem_cons.1 h with rfl | h
    · exact hs
    · exact proper_of_nodeAll body hs.body h

theorem proper_of_nodeAll {n : Statement} : (ss : List Statement) → Proper ss → n ∈ nodesAll ss → Proper [n]
  | [], _, h => by simp at h
  | s :: rest, hss, h => by
    rcases mem_append.1 h with h | h
    · exact proper_of_node s hss.head h
    · exact proper_of_nodeAll rest hss.tail h

end

variable {n : Statement}

theorem function_encloses {x : FuncDecl} (h : Proper [n])
    (hwords : n.tokens ⊆ (tokenize source).filter isContent) (hx : n.function source = .ok x) :
    ∀ e ∈ x.pieces, x.span.Encloses source e := by
  obtain ⟨line, body⟩ := n
  obtain ⟨-, -, -, hspan, -, hblock⟩ := function_eq_ok hx
  rw [hspan]
  intro e he
  rcases mem_cons.1 he with rfl | he
  · cases hsingle : x.singleLine with
    | true =>
      refine encloses_of_piece h hwords (function_pieces hx _ ?_)
      simp [FuncDecl.expressions, hsingle]
    | false =>
      refine encloses_block h (covers_span _ h.head) hwords ?_ (hblock hsingle)
      exact subset_append_right _ _
  · exact encloses_of_piece h hwords (function_pieces hx e (mem_append_left _ he))

theorem condition_encloses {c : Condition} (h : Proper [n])
    (hwords : n.tokens ⊆ (tokenize source).filter isContent) (hmakes : n.Makes source c) :
    c.span.Encloses source c.predicate ∧ c.span.Encloses source c.trueBody := by
  obtain ⟨line, body⟩ := n
  rw [hmakes.span]
  have hpredicate : Line.span? (line.drop _) = _ := hmakes.predicate
  have hblock : blockSpan? body = _ := hmakes.block
  by_cases hform : (mk line body).form source = .alternative
  · rw [if_pos hform] at hpredicate
    obtain ⟨first, second, more, rfl⟩ : ∃ first second more, line = first :: second :: more := by
      match line, hpredicate with
      | first :: second :: more, _ => exact ⟨first, second, more, rfl⟩
    have hmark : (mk (first :: second :: more) body).mark source =
        second.span.through (mk (first :: second :: more) body).span := by
      simp only [mark, hform]
      rfl
    have hcovers := covers_span _ h.head
    have hcovers := hcovers.from_second h.line_ordered
    have htail : second :: (more ++ tokensAll body) ⊆ (tokenize source).filter isContent :=
      List.Subset.trans (subset_cons_self _ _) hwords
    rw [hmark]
    constructor
    · refine encloses_piece h hcovers htail (suffix_append [first, second] more).isInfix ?_ hpredicate
      exact List.Subset.trans (subset_append_left _ _) (subset_cons_self _ _)
    · refine encloses_block h hcovers htail ?_ hblock
      exact List.Subset.trans (subset_append_right _ _) (subset_cons_self _ _)
  · rw [mark_of_ne hform]
    refine ⟨encloses_of_piece h hwords ⟨_, Line.run_drop line _, hpredicate⟩, ?_⟩
    refine encloses_block h (covers_span _ h.head) hwords ?_ hblock
    exact subset_append_right _ _

/-! ## What is done otherwise -/

def ExactElse (source : List Char) (cs : List Condition) : Prop :=
  ∀ c ∈ cs, ∀ b, c.falseBody = some b → b.Exact source

variable {r : Progress}

theorem exactElse_setFalseBody (hr : ExactElse source r.declared.conditions) (chain : List Nat) {span : Span}
    (hspan : span.Exact source) : ExactElse source (r.setFalseBody chain span).declared.conditions := by
  intro c hc b hb
  obtain ⟨i, hi, rfl⟩ := mem_mapIdx.1 hc
  have hfalse := hr _ (getElem_mem hi)
  split at hb
  · split at hb
    · next known hknown =>
      cases hb
      split
      · exact hspan
      · exact (hfalse known hknown).through hspan
    · cases hb
      exact hspan
  · exact hfalse b hb

theorem exactElse_addCondition {c : Condition} (hr : ExactElse source r.declared.conditions)
    (hnone : c.falseBody = none) : ExactElse source (r.addCondition c).declared.conditions := by
  refine forall_mem_append.2 ⟨hr, fun c' hc' b hb => ?_⟩
  rw [mem_singleton.1 hc', hnone] at hb
  cases hb

theorem exactElse_of_walk {p : Place} {r' : Progress} {ss : List Statement}
    (hwalk : Walk source p r ss r') (hwords : ExactTokens source (tokensAll ss))
    (hr : ExactElse source r.declared.conditions) : ExactElse source r'.declared.conditions := by
  have hsplit : ∀ {line : List Token} {body rest : List Statement},
      ExactTokens source (tokensAll (mk line body :: rest)) → ExactTokens source line ∧
        ExactTokens source (tokensAll body) ∧ ExactTokens source (tokensAll rest) := by
    intro line body rest h
    simpa only [ExactTokens, tokensAll_cons, tokens_mk, forall_mem_append, and_assoc] using h
  induction hwalk with
  | done => exact hr
  | plain _ hc ha hadd _ ih =>
    refine ih (hsplit hwords).2.2 ?_
    rw [conditions_of_adds (adds_of_add hc ha hadd)]
    exact hr
  | block henter _ _ ihbody ih =>
    obtain ⟨hline, hbody, hrest⟩ := hsplit hwords
    refine ih hrest (ihbody hbody ?_)
    cases henter with
    | opening => exact exactElse_addCondition hr rfl
    | chained _ _ hsecond =>
      refine exactElse_addCondition (exactElse_setFalseBody hr _ ?_) rfl
      refine (hline _ (mem_of_getElem? hsecond)).through (exact_span _ ?_)
      exact forall_mem_append.2 ⟨hline, hbody⟩
    | closing _ _ _ hblock => exact exactElse_setFalseBody hr _ (exact_blockSpan _ hbody hblock)

end Statement

/-! ## Whole scripts -/

namespace Script

open Statement

variable {s : Script}

theorem part_encloses (h : parse source = .ok s) : ∀ x ∈ s.parts, x.1.Encloses source x.2 := by
  have hproper : ∀ n ∈ statements source, Proper [n] := fun n hn =>
    proper_of_nodeAll _ (proper_tree source) ((reachedAll_sublist source _).mem hn)
  have hwords : ∀ n ∈ statements source, n.tokens ⊆ (tokenize source).filter isContent := by
    intro n hn
    rw [← filter_tokens, ← tokensAll_tree]
    exact tokens_subset _ ((reachedAll_sublist source _).mem hn)
  have hpiece : ∀ n ∈ statements source, ∀ e, Line.Piece n.line e → n.span.Encloses source e := by
    rintro ⟨line, body⟩ hn e he
    exact encloses_of_piece (hproper _ hn) (hwords _ hn) he
  intro x hx
  simp only [Declarations.parts, mem_append, mem_map, mem_flatMap] at hx
  rcases hx with (((⟨d, hd, rfl⟩ | ⟨f, hf, e, he, rfl⟩) | ⟨o, ho, e, he, rfl⟩) | ⟨p, hp, e, he, rfl⟩) | ⟨c, hc, hx⟩
  · obtain ⟨n, hn, scope, hmade⟩ := exists_statement h (.varDecls source) rfl (fun _ _ => rfl) hd
    obtain ⟨_, _, _, _, _, hspan⟩ := varDecl_eq_ok hmade
    rw [hspan]
    exact hpiece n hn _ (varDecl_piece hmade)
  · obtain ⟨n, hn, -, callees, hmade⟩ := exists_function h hf
    exact function_encloses (hproper n hn) (hwords n hn) hmade e he
  · obtain ⟨n, hn, scope, hmade⟩ := exists_statement h (.orders source) rfl (fun _ _ => rfl) ho
    obtain ⟨_, _, _, _, _, _, _, _, _, _, _, hspan⟩ := order_eq_ok hmade
    rw [hspan]
    exact hpiece n hn _ (order_pieces hmade e he)
  · obtain ⟨n, hn, scope, hmade⟩ := exists_statement h (.plots source) rfl (fun _ _ => rfl) hp
    obtain ⟨_, _, _, _, _, _, hspan⟩ := plot_eq_ok hmade
    rw [hspan]
    exact hpiece n hn _ (plot_pieces hmade e he)
  · obtain ⟨n, hn, hmakes⟩ := exists_condition h hc
    obtain ⟨hpredicate, hblock⟩ := condition_encloses (hproper n hn) (hwords n hn) hmakes
    rcases mem_cons.1 hx with rfl | hx
    · exact hpredicate
    · rw [mem_singleton.1 hx]
      exact hblock

theorem exactElse_of_parse (h : parse source = .ok s) : ExactElse source s.conditions := by
  obtain ⟨-, -, r, hwalk, hdecl⟩ := walk_of_parse h
  rw [hdecl]
  refine exactElse_of_walk hwalk (fun t ht => ?_) (fun _ hc => by cases hc)
  rw [tokensAll_tree] at ht
  exact exact_tokens source t (mem_filter.1 ht).1

theorem exact_part (h : parse source = .ok s) : ∀ x ∈ s.parts, x.2.Exact source := by
  have hexact := exact_of_parse h
  intro x hx
  simp only [Declarations.parts, mem_append, mem_map, mem_flatMap] at hx
  rcases hx with (((⟨d, hd, rfl⟩ | ⟨f, hf, e, he, rfl⟩) | ⟨o, ho, e, he, rfl⟩) | ⟨p, hp, e, he, rfl⟩) | ⟨c, hc, hx⟩
  · exact hexact.value hd
  · rcases mem_cons.1 he with rfl | he
    · exact (hexact.functions f hf).2
    · obtain ⟨param, hparam, hdefault⟩ := mem_filterMap.1 he
      exact hexact.expressions _ (Declarations.default_mem_expressions hf hparam hdefault)
  · exact hexact.expressions _ (Declarations.order_mem_expressions ho he)
  · exact hexact.expressions _ (Declarations.plot_mem_expressions hp he)
  · rcases mem_cons.1 hx with rfl | hx
    · exact hexact.expressions _ (Declarations.predicate_mem_expressions hc)
    · rw [mem_singleton.1 hx]
      obtain ⟨⟨line, body⟩, hn, hmakes⟩ := exists_condition h hc
      have hwords := exact_of_statement hn
      exact exact_blockSpan body (forall_mem_append.1 hwords).2 hmakes.block

theorem exact_place (h : parse source = .ok s) : ∀ p ∈ s.places, p.Exact source := by
  have hexact := exact_of_parse h
  intro p hp
  simp only [places, Declarations.wholes, mem_append, mem_map, mem_filterMap] at hp
  rcases hp with ((((((((((⟨x, hx, rfl⟩ | ⟨x, hx, rfl⟩) | ⟨x, hx, rfl⟩) | ⟨x, hx, rfl⟩) |
    ⟨x, hx, rfl⟩) | ⟨x, hx, rfl⟩) | ⟨x, hx, rfl⟩) | ⟨x, hx, rfl⟩) | ⟨x, hx, rfl⟩) |
    ⟨c, hc, hp⟩) | ⟨u, hu | hu, rfl⟩)
  · exact hexact.inputs x hx
  · exact hexact.varDecls x hx
  · exact (hexact.functions x hx).1
  · exact hexact.orders x hx
  · exact hexact.plots x hx
  · exact hexact.conditions x hx
  · exact hexact.types x hx
  · exact hexact.others x hx
  · exact exact_part h x hx
  · exact exactElse_of_parse h c hc p hp
  · exact hexact.collectionUses u hu
  · exact hexact.drawingCalls u hu

/-- Every place that a parsed script keeps is a piece of the source, and its text is that piece.
Expressions and blocks lie inside the declaration they belong to, they are not empty, and their text
has no white space at its ends. -/
theorem places_are_pieces (h : parse source = .ok s) :
    (∀ p ∈ s.places, p.start ≤ p.stop ∧ p.stop ≤ byteSize source ∧ p.Cuts source (s.text p) ∧
      slice s.source p.start p.stop = some (s.text p)) ∧
    ∀ x ∈ s.parts, x.1.start ≤ x.2.start ∧ x.2.stop ≤ x.1.stop ∧ x.2.start < x.2.stop ∧ Trimmed (s.text x.2) := by
  have hsource := (walk_of_parse h).1
  have hcuts : ∀ p : Span, p.Exact source → p.Cuts source (s.text p) := by
    intro p hp
    rw [text, hsource]
    exact hp.cuts
  constructor
  · intro p hp
    have hexact := exact_place h p hp
    refine ⟨hexact.start_le_stop, hexact.stop_le, hcuts p hexact, ?_⟩
    rw [hsource]
    exact (hcuts p hexact).slice
  · intro x hx
    obtain ⟨ts, us, houter, hinner, hsub, ho, hwords⟩ := part_encloses h x hx
    have hamong := hinner.among ho
    obtain ⟨hstart, hstop⟩ := houter.within hinner hsub
    exact ⟨hstart, hstop, hamong.start_lt_stop, hamong.trimmed hwords (hcuts _ (exact_part h x hx))⟩

def chainSource : List Char :=
  ("//@version=5\nstrategy(\"Ü\")\n" ++
   "mean(a, b = ta.sma(close, /* é */ 9)) =>\n" ++
   "    d = a - b // é\n" ++
   "    d / 2\n" ++
   "if close > mean(open) // é\n" ++
   "    strategy.entry(\"é\", strategy.long, qty = 2 )\n" ++
   "\n" ++
   "else if close < open\n" ++
   "    strategy.close(\"é\") // end\n" ++
   "else\n" ++
   "    size = array.size(xs) \n" ++
   "line.new(1, 2, 3, 4)\n" ++
   "plot( mean( close ) , \"ö\")\n").toList

/-- What is done when the first condition is false, and the default of the parameter. -/
theorem places_are_pieces_chain : let other : Span := ⟨184, 262, 9, 6⟩
    let part : Span × Span := (⟨28, 99, 3, 1⟩, ⟨40, 65, 3, 13⟩)
    ∃ s, parse chainSource = .ok s ∧ other ∈ s.places ∧ part ∈ s.parts ∧ other.Cuts chainSource (s.text other) ∧
      slice s.source other.start other.stop = some (s.text other) ∧
      Trimmed (s.text part.2) := by
  intro other part
  have hrun : ∃ s, parse chainSource = .ok s ∧ other ∈ s.places ∧ part ∈ s.parts := by
    decide +kernel
  obtain ⟨s, hs, hplace, hpart⟩ := hrun
  obtain ⟨-, -, hcuts, hslice⟩ := (places_are_pieces hs).1 other hplace
  obtain ⟨-, -, -, htrimmed⟩ := (places_are_pieces hs).2 part hpart
  exact ⟨s, hs, hplace, hpart, hcuts, hslice, htrimmed⟩

end Script

end ChartScript
