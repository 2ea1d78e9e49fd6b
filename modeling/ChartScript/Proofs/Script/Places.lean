import ChartScript.Proofs.Script.Expressions
/-!
# The places that a script keeps

A script keeps the places of its statements, of its expressions and of the names with a qualifier.
All of them are drawn out from a token of the source to another one, so they are exact.
-/
namespace ChartScript

open List

def ExactTokens (source : List Char) (ts : List Token) : Prop :=
  ∀ t ∈ ts, t.span.Exact source

variable {source : List Char}

variable {ts : List Token} {n : Statement}

theorem Line.exact_span {s : Span} (hts : ExactTokens source ts)
    (h : Line.span? ts = some s) : s.Exact source := by
  unfold Line.span? at h
  split at h
  · next first last hfirst hlast =>
    cases h
    exact (hts first (mem_of_head? hfirst)).through (hts last (mem_of_getLast? hlast))
  · cases h

theorem Line.Piece.exact {line : List Token} {s : Span} (h : Line.Piece line s)
    (hline : ExactTokens source line) : s.Exact source := by
  obtain ⟨ws, ⟨before, after, rfl, -⟩, hs⟩ := h
  exact Line.exact_span (fun t ht => hline t (by simp [ht])) hs

namespace Statement

mutual

theorem exact_span : (s : Statement) → ExactTokens source s.tokens → s.span.Exact source
  | mk line body, h => by
    rw [tokens_mk] at h
    have hline : ExactTokens source line := fun t ht => h t (mem_append_left _ ht)
    have hbody : ExactTokens source (tokensAll body) := fun t ht => h t (mem_append_right _ ht)
    rw [span]
    split
    · next hown hinner => exact (Line.exact_span hline hown).through (exact_blockSpan body hbody hinner)
    · next hown _ => exact Line.exact_span hline hown
    · cases hinner : blockSpan? body with
      | none => exact Span.exact_origin source
      | some inner => exact exact_blockSpan body hbody hinner

theorem exact_blockSpan : (ss : List Statement) → ExactTokens source (tokensAll ss) →
    {s : Span} → blockSpan? ss = some s → s.Exact source
  | [], _, _, h => by simp [blockSpan?] at h
  | first :: rest, hss, s, h => by
    rw [tokensAll_cons] at hss
    have hfirst := exact_span first fun t ht => hss t (mem_append_left _ ht)
    rw [blockSpan?] at h
    split at h
    · next hlast =>
      cases h
      exact hfirst.through (exact_lastSpan rest (fun t ht => hss t (mem_append_right _ ht)) hlast)
    · cases h
      exact hfirst

theorem exact_lastSpan : (ss : List Statement) → ExactTokens source (tokensAll ss) →
    {s : Span} → lastSpan? ss = some s → s.Exact source
  | [], _, _, h => by simp [lastSpan?] at h
  | first :: rest, hss, s, h => by
    rw [tokensAll_cons] at hss
    rw [lastSpan?] at h
    split at h
    · next hlast =>
      cases h
      exact exact_lastSpan rest (fun t ht => hss t (mem_append_right _ ht)) hlast
    · cases h
      exact exact_span first fun t ht => hss t (mem_append_left _ ht)

end

mutual

theorem tokens_subset_of_node : (s : Statement) → n ∈ s.nodes → n.tokens ⊆ s.tokens
  | mk line body, h => by
    rw [nodes_mk] at h
    rcases mem_cons.1 h with rfl | h
    · exact List.Subset.refl _
    · rw [tokens_mk]
      exact subset_append_of_subset_right _ (tokens_subset body h)

theorem tokens_subset : (ss : List Statement) → n ∈ nodesAll ss → n.tokens ⊆ tokensAll ss
  | [], h => by simp at h
  | s :: rest, h => by
    rw [nodesAll_cons] at h
    rw [tokensAll_cons]
    rcases mem_append.1 h with h | h
    · exact subset_append_of_subset_left _ (tokens_subset_of_node s h)
    · exact subset_append_of_subset_right _ (tokens_subset rest h)

end

theorem exact_mark {s : Statement} (h : ExactTokens source s.tokens) : (s.mark source).Exact source := by
  unfold mark
  split
  · next second _ hsecond =>
    have hmem : second ∈ s.tokens := by
      cases s
      rw [tokens_mk]
      exact mem_append_left _ (mem_of_getElem? hsecond)
    exact (h second hmem).through (exact_span s h)
  · exact exact_span s h

end Statement

theorem InputDecl.ofLine_eq_ok {tokens : List Token} {span : Span} {x : InputDecl}
    (h : InputDecl.ofLine source tokens span = .ok x) :
    x.span = span ∧ ∃ kind value, value ⊆ tokens ∧ default? kind value = .ok (x.kind, x.default) := by
  unfold InputDecl.ofLine at h
  dsimp only at h
  split at h
  · next a ha =>
    split at h
    · split at h
      · obtain ⟨⟨args, _⟩, hargs, h⟩ := bind_eq_ok.1 h
        dsimp only at h
        split at h
        · next value hvalue =>
          obtain ⟨_, hdefault, rfl⟩ := bind_pure_eq_ok.1 h
          obtain ⟨arg, harg, rfl⟩ := Line.mem_of_mem_bind (Line.lookup_mem hvalue)
          obtain ⟨n, hn⟩ := Statement.ofLine?_value ha
          refine ⟨rfl, _, _, fun t ht => ?_, hdefault⟩
          have hmem := (Line.arguments_run hargs arg harg).subset ht
          rw [hn] at hmem
          exact mem_of_mem_drop hmem
        · cases h
      · cases h
    · cases h
  · cases h

namespace Script

open Statement

theorem exact_memberUses (hts : ExactTokens source ts) :
    ∀ u ∈ memberUses ts, u.1.span.Exact source := by
  intro u hu
  obtain ⟨qualifier, rest, hsuffix, huse⟩ := mem_gather.1 hu
  have hexact := fun t ht => hts t (hsuffix.subset ht)
  unfold memberUse? at huse
  split at huse
  · split at huse
    · cases huse
      exact (hexact qualifier (by simp)).through (hexact _ (by simp))
    · cases huse
  · cases huse

/-- All places of the script are exact. -/
structure Exact (s : Script) (source : List Char) : Prop where
  inputs : ∀ x ∈ s.inputs, x.span.Exact source
  varDecls : ∀ x ∈ s.varDecls, x.span.Exact source
  functions : ∀ x ∈ s.functions, x.span.Exact source ∧ x.body.Exact source
  orders : ∀ x ∈ s.orders, x.span.Exact source
  plots : ∀ x ∈ s.plots, x.span.Exact source
  conditions : ∀ x ∈ s.conditions, x.span.Exact source
  types : ∀ x ∈ s.types, x.span.Exact source
  others : ∀ x ∈ s.others, x.span.Exact source
  expressions : ∀ e ∈ s.expressions, e.Exact source
  collectionUses : ∀ u ∈ s.collectionUses, u.span.Exact source
  drawingCalls : ∀ u ∈ s.drawingCalls, u.span.Exact source

namespace Exact

variable {s : Script} {span : Span}

theorem value (h : s.Exact source) {d : VarDecl} (hd : d ∈ s.varDecls) : d.value.Exact source :=
  h.expressions _ (Declarations.value_mem_expressions hd)

end Exact

theorem exact_tokens (source : List Char) : ExactTokens source (tokens source) :=
  fun _ ht => Lexer.tokenize_exact (mem_filter.1 ht).1

theorem exact_of_statement (hn : n ∈ statements source) : ExactTokens source n.tokens := by
  intro t ht
  have hmem := tokens_subset _ ((reachedAll_sublist source _).mem hn) ht
  rw [tokensAll_tree] at hmem
  exact exact_tokens source t (mem_filter.1 hmem).1

variable {s : Script}

theorem uses_of_parse (h : parse source = .ok s) : ∀ u ∈ s.collectionUses ++ s.drawingCalls,
    ∃ called, (u, called) ∈ memberUses (tokens source) := by
  unfold parse at h
  simp only at h
  split at h
  · obtain ⟨_, hthrow, _⟩ := bind_eq_ok.1 h
    cases hthrow
  · obtain ⟨header, _, h⟩ := bind_eq_ok.1 h
    obtain ⟨r, _, rfl⟩ := bind_pure_eq_ok.1 h
    intro u hu
    rcases mem_append.1 hu with hu | hu
    · obtain ⟨⟨use, called⟩, hmem, rfl⟩ := mem_map.1 hu
      exact ⟨called, (mem_filter.1 hmem).1⟩
    · obtain ⟨⟨use, called⟩, hmem, rfl⟩ := mem_map.1 hu
      exact ⟨called, (mem_filter.1 hmem).1⟩

theorem exact_of_kind (h : parse source = .ok s) {α : Type} (k : Kind source α) (hempty : k.all {} = [])
    (hfunctions : ∀ d fs, k.all { d with functions := fs } = k.all d) {place : α → Span}
    (hplace : ∀ n x, k.made n x → place x = n.span) : ∀ x ∈ k.all s.toDeclarations, (place x).Exact source := by
  intro x hx
  obtain ⟨n, hn, hmade⟩ := exists_statement h k hempty hfunctions hx
  rw [hplace n x hmade]
  exact exact_span n (exact_of_statement hn)

theorem exact_of_parse (h : parse source = .ok s) : s.Exact source where
  inputs := exact_of_kind h (.inputs source) rfl (fun _ _ => rfl) fun _ _ hx => (InputDecl.ofLine_eq_ok hx).1
  varDecls := by
    refine exact_of_kind h (.varDecls source) rfl (fun _ _ => rfl) ?_
    rintro n x ⟨scope, hx⟩
    obtain ⟨_, _, _, _, _, hspan⟩ := varDecl_eq_ok hx
    exact hspan
  functions f hf := by
    obtain ⟨n, hn, -, callees, hmade⟩ := exists_function h hf
    have hn' := exact_of_statement hn
    obtain ⟨close, _, _, hspan, hsingle, hblock⟩ := function_eq_ok hmade
    refine ⟨?_, ?_⟩
    · rw [show f.span = n.span from hspan]
      exact exact_span n hn'
    · cases n with
      | mk line body =>
        rw [tokens_mk] at hn'
        cases hf : f.singleLine with
        | true => exact Line.exact_span (fun t ht => hn' t (mem_append_left _ (mem_of_mem_drop ht))) (hsingle hf)
        | false => exact exact_blockSpan body (fun t ht => hn' t (mem_append_right _ ht)) (hblock hf)
  orders := by
    refine exact_of_kind h (.orders source) rfl (fun _ _ => rfl) ?_
    rintro n x ⟨scope, hx⟩
    obtain ⟨_, _, _, _, _, _, _, _, _, _, _, hspan⟩ := order_eq_ok hx
    exact hspan
  plots := by
    refine exact_of_kind h (.plots source) rfl (fun _ _ => rfl) ?_
    rintro n x ⟨scope, hx⟩
    obtain ⟨_, _, _, _, _, _, hspan⟩ := plot_eq_ok hx
    exact hspan
  conditions c hc := by
    obtain ⟨n, hn, hopens⟩ := exists_condition h hc
    rw [hopens.span]
    exact exact_mark (exact_of_statement hn)
  types := by
    refine exact_of_kind h (.types source) rfl (fun _ _ => rfl) ?_
    intro n x hx
    have hx : n.typeDecl = .ok x := hx
    unfold typeDecl at hx
    split at hx <;> cases hx
    rfl
  others := exact_of_kind h (.others source) rfl (fun _ _ => rfl) fun _ _ hx => hx.2
  expressions e he := by
    obtain ⟨line, hline, hpiece⟩ := expression_piece h he
    obtain ⟨_, _, before, after, hall, _⟩ := line_of_mem_items hline
    exact hpiece.exact fun t ht => exact_tokens source t (by rw [hall]; simp [ht])
  collectionUses u hu := by
    obtain ⟨called, hmem⟩ := uses_of_parse h u (mem_append_left _ hu)
    exact exact_memberUses (exact_tokens source) _ hmem
  drawingCalls u hu := by
    obtain ⟨called, hmem⟩ := uses_of_parse h u (mem_append_right _ hu)
    exact exact_memberUses (exact_tokens source) _ hmem

end Script

end ChartScript
