import ChartScript.Proofs.Lowering.FunctionBodies
import ChartScript.Proofs.Lowering.OwnHistory
/-!
# Neighbours among the words of a script

Lowering reads expressions and the lines of functions again, each from its own text.
-/
namespace ChartScript

open List Token Statement Text

/-! ## Neighbours -/

/-- The words of a text stand together in a larger one, at the place `base`. -/
structure Text.PieceOf (text whole : List Char) (base : Span) : Prop where
  infixed : ((tokenize text).filter isContent).map (·.offsetBy base) <:+: (tokenize whole).filter isContent
  held : ∀ t ∈ (tokenize text).filter isContent, base.holds (t.offsetBy base) = true

variable {whole text source : List Char} {base span : Span} {t u : Token} {s : Script}

theorem Text.pieceOf_of_rereads (h : base.Rereads whole) :
    PieceOf ((slice whole base.start base.stop).getD []) whole base where
  infixed := h.content ▸ h.run
  held t ht := by
    have := mem_map_of_mem (f := (·.offsetBy base)) ht
    rw [h.content] at this
    exact (mem_filter.1 this).2

theorem Text.PieceOf.pair (h : PieceOf text whole base)
    (hpair : [t, u] <:+: (tokenize text).filter isContent) :
    [t.offsetBy base, u.offsetBy base] <:+: (tokenize whole).filter isContent ∧
    base.holds (t.offsetBy base) = true := by
  have hmoved := List.IsInfix.map (fun t : Token => t.offsetBy base) hpair
  exact ⟨hmoved.trans h.infixed, h.held t (hpair.subset (by simp))⟩

/-! ## The text of a function -/

namespace Script

theorem pieceOf_of_run {line ws : List Token} {s : Span}
    (hline : .line line ∈ items (Script.tokens text)) (hrun : Line.Run line ws)
    (hs : Line.span? ws = some s) : PieceOf ((slice text s.start s.stop).getD []) text s :=
  pieceOf_of_rereads (rereads_run hline hrun hs)

theorem pieceOf_of_block {body : List Statement}
    {before after : List (List Token)}
    (hlines : linesAll (tree (tokens source)) = before ++ (linesAll body ++ after))
    (hspan : blockSpan? body = some span) :
    ∃ base : Span, base.start = span.start ∧ base.stop = span.stop ∧
    PieceOf ((slice source span.start span.stop).getD []) source base := by
  obtain ⟨base, hstart, hstop, -, hrereads⟩ := rereads_block hlines hspan
  refine ⟨base, hstart, hstop, ?_⟩
  rw [← hstart, ← hstop]
  exact pieceOf_of_rereads hrereads

end Script

theorem Script.pair_of_expression (h : parse source = .ok s)
    (hspan : span ∈ s.expressions)
    (hpair : [t, u] <:+: (tokenize (s.text span)).filter isContent) :
    ∃ t' u', [t', u'] <:+: (tokenize source).filter isContent ∧ span.holds t' = true ∧ t'.kind = t.kind ∧
    t'.text = t.text ∧ u'.kind = u.kind ∧ u'.text = u.text := by
  rw [text, (walk_of_parse h).1] at hpair
  obtain ⟨line, hline, ws, hrun, hs⟩ := expression_piece h hspan
  obtain ⟨hwithin, hheld⟩ := (pieceOf_of_run hline hrun hs).pair hpair
  exact ⟨_, _, hwithin, hheld, rfl, rfl, rfl, rfl⟩

namespace BodyLine

theorem pieceOf_source {f : FuncDecl} (h : Script.parse source = .ok s)
    (hf : f ∈ s.functions) {line : BodyLine} (hline : line ∈ ofFunction s f)
    (hpair : [t, u] <:+: (tokenize line.text).filter isContent) :
    ∃ t' u', [t', u'] <:+: (tokenize source).filter isContent ∧ f.body.holds t' = true ∧ t'.kind = t.kind ∧
    t'.text = t.text ∧ u'.kind = u.kind ∧ u'.text = u.text := by
  have hsource := (Script.walk_of_parse h).1
  cases hsingle : f.singleLine with
  | true =>
    rw [ofFunction, if_pos hsingle] at hline
    rw [mem_singleton.1 hline] at hpair
    have hspan : f.body ∈ s.expressions := mem_append_right _
      (mem_flatMap.2 ⟨f, hf, by simp [FuncDecl.expressions, hsingle]⟩)
    exact Script.pair_of_expression h hspan hpair
  | false =>
    rw [ofFunction_of_block hsingle] at hline
    obtain ⟨tokens, htokens, rfl⟩ := mem_map.1 hline
    -- the line is a piece of the body
    obtain ⟨item, hitem, hitemline⟩ := mem_filterMap.1 htokens
    obtain rfl : item = .line tokens := by cases item <;> cases hitemline; rfl
    obtain ⟨hne, -⟩ := line_of_mem_items hitem
    obtain ⟨place, hplace⟩ := Line.span?_isSome (valueTokens_suffix hne).1
    have htext : (ofTokens (s.text f.body) f.body tokens).text =
        (slice (s.text f.body) place.start place.stop).getD [] := by
      show (slice (s.text f.body) ((Line.span? (valueTokens tokens)).getD .origin).start
        ((Line.span? (valueTokens tokens)).getD .origin).stop).getD [] = _
      rw [hplace, Option.getD_some]
    rw [htext] at hpair
    obtain ⟨hinner, -⟩ := (Script.pieceOf_of_run hitem (valueTokens_run tokens) hplace).pair hpair
    -- and the body one of the source
    obtain ⟨⟨head, body⟩, hst, -, hbody⟩ := Script.block_of_function h hf hsingle
    obtain ⟨before, after, hlines⟩ := lines_of_nodeAll _ hst
    rw [lines_mk, ← singleton_append, append_assoc, ← append_assoc] at hlines
    obtain ⟨base, hstart, hstop, hpiece⟩ := Script.pieceOf_of_block hlines hbody
    rw [Script.text, hsource] at hinner
    obtain ⟨houter, hheld⟩ := hpiece.pair hinner
    refine ⟨_, _, houter, ?_, rfl, rfl, rfl, rfl⟩
    rwa [Span.holds, hstart, hstop] at hheld

end BodyLine

end ChartScript
