import ChartScript.Proofs.Expr.Phrases
import ChartScript.Proofs.Script.Pieces
import ChartScript.Proofs.Token.WordEnds
/-!
# The place of every node

Each node of an expression stands for a run of tokens, and its place reaches from the first of them to
the last.
-/
namespace ChartScript

namespace ExprParser

open Expr

variable {us : List Token} {part : Part}

/-! ## From the first token to the last -/

theorem span?_eq {first last : Token} {more init : List Token} (ho : Ordered us)
    (hfirst : us = first :: more) (hlast : us = init ++ [last]) :
    Line.span? us = some { first.span with stop := last.span.stop } := by
  have hle : first.span.stop ≤ last.span.stop := by
    subst hlast
    exact ho.stop_le_last (hfirst ▸ List.mem_cons_self)
  have hhead : us.head? = some first := by rw [hfirst]; rfl
  have hend : us.getLast? = some last := by rw [hlast, List.getLast?_concat]
  simp only [Line.span?, hhead, hend, Span.through, Nat.max_eq_left hle]

theorem span?_token (t : Token) : Line.span? [t] = some t.span := by
  simp [Line.span?, Span.through]

theorem span?_through {vs : List Token} {a b : Span} (ws : List Token)
    (ha : Line.span? us = some a) (hb : Line.span? vs = some b) (ho : Ordered (us ++ (ws ++ vs))) :
    Line.span? (us ++ (ws ++ vs)) = some (a.through b) := by
  obtain ⟨first, last, ⟨more, hmore⟩, ⟨init, hinit⟩, rfl, -⟩ := Line.span?_ends ho.left ha
  obtain ⟨first', last', -, ⟨init', hinit'⟩, rfl, -⟩ := Line.span?_ends ho.right.right hb
  have hlast : last ∈ us := by simp [hinit]
  have hlast' : last' ∈ ws ++ vs := by simp [hinit']
  have hle := ho.stop_le_start hlast hlast'
  have hlt := ho.nonempty last' (List.mem_append_right _ hlast')
  have hfront : us ++ (ws ++ vs) = first :: (more ++ (ws ++ vs)) := by rw [hmore]; rfl
  have hback : us ++ (ws ++ vs) = (us ++ (ws ++ init')) ++ [last'] := by rw [hinit']; simp
  rw [span?_eq ho hfront hback, Span.through]
  simp only [Nat.max_eq_left (show last.span.stop ≤ last'.span.stop by omega)]

def Part.span? : Part → Option Span
  | value _ e => some e.span
  | callee span _ => some span
  | _ => none

theorem Phrase.span (h : Phrase us part) (ho : Ordered us) : ∀ s ∈ part.span?, Line.span? us = some s := by
  induction h with
  | leaf h =>
    rintro _ ⟨⟩
    rw [(nodes_of_leaf h).2, span?_token]
  | @member t u ht hu =>
    rintro _ ⟨⟩
    exact span?_through [] (span?_token t) (span?_token u) ho
  | @enclosed l r us e =>
    rintro _ ⟨⟩
    rw [span_withSpan]
    exact span?_through us (span?_token l) (span?_token r) ho
  | @tuple l r us es =>
    rintro _ ⟨⟩
    exact span?_through us (span?_token l) (span?_token r) ho
  | @call us vs l r span _ _ _ _ _ _ ih =>
    rintro _ ⟨⟩
    exact span?_through (l :: vs) (ih ho.left span rfl) (span?_token r) ho
  | @index us vs l r e _ _ _ _ _ _ ih =>
    rintro _ ⟨⟩
    exact span?_through (l :: vs) (ih ho.left _ rfl) (span?_token r) ho
  | @sign t us _ e _ _ ih =>
    rintro _ ⟨⟩
    have hright : Ordered us := @Ordered.right [t] us ho
    exact span?_through [] (span?_token t) (ih hright _ rfl) ho
  | @operation _ us vs t _ left right _ _ _ ihl ihr =>
    rintro _ ⟨⟩
    have hright : Ordered vs := @Ordered.right [t] vs ho.right
    exact span?_through [t] (ihl ho.left _ rfl) (ihr hright _ rfl) ho
  | @ternary us vs ws t u _ _ _ _ _ _ _ _ ihc _ ihn =>
    rintro _ ⟨⟩
    have hsplit : us ++ t :: (vs ++ u :: ws) = us ++ ((t :: (vs ++ [u])) ++ ws) := by simp
    rw [hsplit] at ho ⊢
    exact span?_through _ (ihc ho.left _ rfl) (ihn ho.right.right _ rfl) ho
  | loosen _ _ ih => exact ih ho
  | name _ ih => exact ih ho
  | calledWord =>
    rintro _ ⟨⟩
    exact span?_token _
  | _ => rintro _ ⟨⟩

/-! ## Its last token -/

theorem getLast?_behind {P : Token → Prop} {u : Token} {ws : List Token} (vs : List Token) (hu : P u)
    (hws : ∀ t ∈ ws.getLast?, P t) : ∀ t ∈ (vs ++ u :: ws).getLast?, P t := by
  intro t ht
  rw [List.getLast?_append, List.getLast?_cons, Option.some_or, Option.mem_some_iff] at ht
  cases hlast : ws.getLast? with
  | none => rwa [← ht, hlast]
  | some v =>
    rw [← ht, hlast]
    exact hws v hlast

theorem Phrase.last (h : Phrase us part) : ∀ t ∈ us.getLast?, t.kind ≠ .qualifier := by
  induction h with
  | leaf h => exact getLast?_behind [] (speaks_of_leaf h).2 (by simp)
  | @member t _ _ hu => exact getLast?_behind [t] (speaks_of_isWord hu).2 (by simp)
  | @enclosed l r us _ _ hr => exact getLast?_behind (l :: us) (by simp [hr]) (by simp)
  | @tuple l r us _ _ hr => exact getLast?_behind (l :: us) (by simp [hr]) (by simp)
  | @call us vs l r _ _ _ _ _ hr =>
    rw [← List.cons_append, ← List.append_assoc]
    exact getLast?_behind _ (by simp [hr]) (by simp)
  | @index us vs l r _ _ _ _ _ hr =>
    rw [← List.cons_append, ← List.append_assoc]
    exact getLast?_behind _ (by simp [hr]) (by simp)
  | @sign t us _ _ h _ ih =>
    refine getLast?_behind [] (fun hk => ?_) ih
    simp [signOp?, hk] at h
  | @operation _ us vs t _ _ _ h _ _ _ ih =>
    refine getLast?_behind us (fun hk => ?_) ih
    have hjoins := joins_of_operation h
    simp [hk, TokenKind.joins] at hjoins
  | @ternary us vs ws t u _ _ _ _ _ _ hu _ _ _ ih =>
    rw [← List.cons_append, ← List.append_assoc]
    exact getLast?_behind _ (by simp [hu]) ih
  | loosen _ _ ih => exact ih
  | name _ ih => exact ih
  | calledWord h => exact getLast?_behind [] (speaks_of_calledWord h).2 (by simp)
  | lastItem _ ih => exact ih
  | item _ ht _ _ ih => exact getLast?_behind _ (by simp [ht]) ih
  | positional _ _ ih => exact ih
  | @named t _ _ _ _ hu _ ih => exact getLast?_behind [t] (by simp [hu]) ih
  | lastArgument _ ih => exact ih
  | moreArguments _ ht _ _ ih => exact getLast?_behind _ (by simp [ht]) ih
  | noItems | noArguments => simp

end ExprParser

/-! ## The text of a run of words -/

namespace Lexer

open Text (byteSize)

variable {cs : List Char} {p : Position}

theorem words_split {skip : Nat} {before after : List Token} {t : Token}
    (h : words skip p cs = before ++ t :: after) : ∃ pre own rest, cs = pre ++ (own ++ rest) ∧
      t = (p.after pre).token t.kind own ∧ words 0 (p.after pre) (own ++ rest) = t :: after := by
  induction cs generalizing skip p before with
  | nil => simp at h
  | cons c cs ih =>
    have later : ∀ {skip before}, words skip (p.advance c) cs = before ++ t :: after →
        ∃ pre own rest, c :: cs = pre ++ (own ++ rest) ∧ t = (p.after pre).token t.kind own ∧
          words 0 (p.after pre) (own ++ rest) = t :: after := by
      intro skip before h
      obtain ⟨pre, own, rest, rfl, hown⟩ := ih h
      exact ⟨c :: pre, own, rest, rfl, hown⟩
    cases skip with
    | succ skip => exact later h
    | zero =>
      cases hx : lexeme c cs with
      | gap => exact later ((words_gap p hx).symm.trans h)
      | token kind n =>
        have hwords := words_token p hx
        cases before with
        | cons b before => exact later (List.cons.inj (hwords.symm.trans h)).2
        | nil =>
          have htoken := (List.cons.inj (hwords.symm.trans h)).1
          refine ⟨[], (c :: cs).take n, (c :: cs).drop n, (List.take_append_drop _ _).symm, ?_, ?_⟩
          · rw [← htoken]
            rfl
          · rw [List.take_append_drop]
            exact h

def content (p : Position) (cs : List Char) : List Token :=
  (words 0 p cs).filter (·.kind != .comment)

theorem ordered_content (p : Position) (cs : List Char) : Ordered (content p cs) :=
  ⟨(words_pairwise cs 0 p).filter _, fun _ ht => start_lt_stop_of_mem_words (List.mem_filter.1 ht).1⟩

theorem append_left_cancel_of {as bs cs ds : List Token} (P : Token → Prop) [DecidablePred P]
    (h : as ++ bs = cs ++ ds) (has : ∀ t ∈ as, P t) (hbs : ∀ t ∈ bs, ¬P t) (hcs : ∀ t ∈ cs, P t)
    (hds : ∀ t ∈ ds, ¬P t) : as = cs := by
  have kept : ∀ {xs ys : List Token}, (∀ t ∈ xs, P t) → (∀ t ∈ ys, ¬P t) →
      (xs ++ ys).filter (fun t => decide (P t)) = xs := by
    intro xs ys hxs hys
    rw [List.filter_append, List.filter_eq_self.2 (by simpa using hxs),
      List.filter_eq_nil_iff.2 (by simpa using hys), List.append_nil]
  rw [← kept has hbs, h, kept hcs hds]

theorem content_from {before more earlier after : List Token} {first last : Token}
    (hfirst : content p cs = before ++ first :: more) (hlast : content p cs = earlier ++ last :: after)
    (hlt : first.span.start < last.span.stop) :
    ∃ pre piece rest, cs = pre ++ (piece ++ rest) ∧
    p.after pre = ⟨first.span.start, first.span.line, first.span.column⟩ ∧
    last.span.stop = first.span.start + byteSize piece ∧ content (p.after pre) (piece ++ rest) = first :: more := by
  obtain ⟨_, later, hwords, hlater⟩ := filter_split hfirst
  obtain ⟨pre, own, rest, hcs, hown, hbegin⟩ := words_split hwords
  obtain ⟨_, _, hwords', -⟩ := filter_split hlast
  obtain ⟨pre', own', rest', hcs', hown', -⟩ := words_split hwords'
  have hstart : p.after pre = ⟨first.span.start, first.span.line, first.span.column⟩ := by
    rw [hown]
    rfl
  have hstop : last.span.stop = p.offset + byteSize (pre' ++ own') := by
    rw [hown', byteSize_append, ← Nat.add_assoc, ← Position.after_offset]
    rfl
  have hoffset : p.offset + byteSize pre = first.span.start := by rw [← Position.after_offset, hstart]
  rw [← List.append_assoc] at hcs'
  obtain ⟨piece, hpiece, hrest⟩ := Text.divide_further (hcs.symm.trans hcs') (by omega)
  rw [hpiece, byteSize_append] at hstop
  refine ⟨pre, piece, rest', by rw [hcs', hpiece, List.append_assoc], hstart, by omega, ?_⟩
  have hkept : (first.kind != .comment) = true := by
    have hmem : first ∈ content p cs := by simp [hfirst]
    exact (List.mem_filter.1 hmem).2
  rw [content, ← hrest, hbegin, List.filter_cons, if_pos hkept, hlater]

theorem content_cut {piece rest : List Char} {init after : List Token} {last : Token}
    (h : content p (piece ++ rest) = init ++ last :: after) (hstop : last.span.stop = p.offset + byteSize piece)
    (hspeaks : ∀ t ∈ init ++ [last], t.kind.speaks = true) (hlast : last.kind ≠ .qualifier) :
    content p piece = init ++ [last] := by
  have ho := h ▸ ordered_content p (piece ++ rest)
  have hin : last ∈ words 0 p (piece ++ rest) := by
    have : last ∈ content p (piece ++ rest) := by simp [h]
    exact (List.mem_filter.1 this).1
  have hlt := start_lt_stop_of_mem_words hin
  have hinit : ∀ t ∈ init, t.span.stop ≤ last.span.start := fun t ht => ho.stop_le_start ht List.mem_cons_self
  have hafter : ∀ t ∈ after, last.span.stop ≤ t.span.start :=
    fun t ht => (List.pairwise_cons.1 ho.right.pairwise).1 t ht
  have hcut : words 0 p (piece ++ rest) = words 0 p piece ++ words 0 (p.after piece) rest := by
    refine words_within fun t ht hbefore => ?_
    rw [← hstop] at hbefore ⊢
    by_cases hcomment : t.kind = .comment
    · refine ⟨?_, by simp [hcomment]⟩
      rcases words_apart ht hin with rfl | hle | hle <;> omega
    · have hmem : t ∈ init ++ last :: after := h ▸ List.mem_filter.2 ⟨ht, by simpa using hcomment⟩
      have hrun : t ∈ init ∨ t = last := by
        rcases List.mem_append.1 hmem with hmem | hmem
        · exact .inl hmem
        · refine .inr ((List.mem_cons.1 hmem).resolve_right fun hmem => ?_)
          have := hafter t hmem
          omega
      have hknown := TokenKind.ne_of_speaks (hspeaks t (by simpa using hrun)) .unknown rfl
      have hdot := TokenKind.ne_of_speaks (hspeaks t (by simpa using hrun)) (.delimiter .dot) rfl
      rcases hrun with hmem | rfl
      · have := hinit t hmem
        exact ⟨by omega, hknown, hdot, fun hend => by omega⟩
      · exact ⟨Nat.le_refl _, hknown, hdot, fun _ => hlast⟩
  -- both sides have the words that begin before the end of the piece
  have hboth : content p piece ++ content (p.after piece) rest = (init ++ [last]) ++ after := by
    rw [content, content, ← List.filter_append, ← hcut, List.append_assoc]
    exact h
  refine append_left_cancel_of (fun t => t.span.start < last.span.stop) hboth ?_ ?_ ?_ ?_
  · intro t ht
    have h1 := start_lt_stop_of_mem_words (List.mem_filter.1 ht).1
    have h2 := stop_le_of_mem_words (List.mem_filter.1 ht).1
    omega
  · intro t ht
    have hle := start_le_of_mem_words (List.mem_filter.1 ht).1
    rw [Position.after_offset] at hle
    omega
  · intro t ht
    have hle := ho.nonempty t (by simp at ht ⊢; tauto)
    rcases List.mem_append.1 ht with hmem | hmem
    · have := hinit t hmem
      omega
    · rw [List.mem_singleton.1 hmem]
      exact hlt
  · intro t ht
    have := hafter t ht
    omega

theorem content_piece {before vs after : List Token} {s : Span} (h : content p cs = before ++ (vs ++ after))
    (hs : Line.span? vs = some s) (hspeaks : ∀ t ∈ vs, t.kind.speaks = true)
    (hlast : ∀ t ∈ vs.getLast?, t.kind ≠ .qualifier) :
    ∃ pre piece rest, cs = pre ++ (piece ++ rest) ∧ p.after pre = ⟨s.start, s.line, s.column⟩ ∧
    s.stop = s.start + byteSize piece ∧ content (p.after pre) piece = vs := by
  have ho := h ▸ ordered_content p cs
  obtain ⟨first, last, ⟨more, hmore⟩, ⟨init, rfl⟩, rfl, hlt⟩ := Line.span?_ends ho.right.left hs
  have hbegin : content p cs = before ++ first :: (more ++ after) := by rw [h, hmore]; rfl
  have hend : content p cs = (before ++ init) ++ last :: after := by rw [h]; simp
  obtain ⟨pre, piece, rest, hcs, hstart, hstop, hcontent⟩ := content_from hbegin hend hlt
  refine ⟨pre, piece, rest, hcs, hstart, hstop, ?_⟩
  have hwhole : content (p.after pre) (piece ++ rest) = init ++ last :: after := by
    rw [hcontent, ← List.cons_append, ← hmore, List.append_assoc]
    rfl
  exact content_cut hwhole (by rw [hstop, hstart]) hspeaks (hlast last (by simp))

theorem contentAt_eq (text : List Char) (base : Span) : Expr.contentAt text base =
    content ⟨base.start, base.line, base.column⟩ text := by
  rw [Expr.contentAt, filter_content, content, show (⟨base.start, base.line, base.column⟩ : Position) =
    Position.offsetBy ⟨0, 1, 1⟩ base from rfl, words_offsetBy base text 0 ⟨Nat.one_pos, Nat.one_pos⟩,
    List.filter_map]
  rfl

end Lexer

/-! ## Reading a node again -/

namespace Expr

open ExprParser Lexer

variable {text : List Char} {base : Span} {e : Expr}

/-- The place of each node holds exactly its text: this text is read as the node. -/
theorem parse_node (h : Expr.parse text base = .ok e) {n : Expr} (hn : n ∈ e.nodes) :
    base.start ≤ n.span.start ∧ ∃ piece,
      Text.slice text (n.span.start - base.start) (n.span.stop - base.start) = some piece ∧
      Expr.parse piece n.span = .ok n := by
  have hphrase := phrase_of_parse h
  rw [contentAt_eq] at hphrase
  obtain ⟨vs, ⟨before, after, hvs⟩, hnode⟩ := hphrase.node n hn
  rw [List.append_assoc] at hvs
  have ho := hvs ▸ ordered_content ⟨base.start, base.line, base.column⟩ text
  obtain ⟨pre, piece, rest, rfl, hstart, hstop, hpiece⟩ :=
    content_piece hvs.symm (hnode.span ho.right.left n.span rfl) hnode.speaks hnode.last
  have hoffset := Position.after_offset ⟨base.start, base.line, base.column⟩ pre
  rw [hstart] at hpiece hoffset
  simp only at hoffset
  refine ⟨by omega, piece, ?_, parse_of_phrase (by rwa [contentAt_eq, hpiece])⟩
  rw [show n.span.start - base.start = Text.byteSize pre by omega,
    show n.span.stop - base.start = Text.byteSize pre + Text.byteSize piece by omega]
  exact Text.slice_append pre piece rest

def bracketed : List Char :=
  "f((a + // both\n  b)[c], x=not na(high))".toList

theorem parse_node_bracketed : ∃ e n, Expr.parse bracketed ⟨10, 49, 3, 7⟩ = .ok e ∧ n ∈ e.nodes ∧
    n.span = ⟨12, 29, 3, 9⟩ ∧
    Text.slice bracketed (n.span.start - 10) (n.span.stop - 10) = some "(a + // both\n  b)".toList ∧
    Expr.parse "(a + // both\n  b)".toList n.span = .ok n := by
  have hrun : ∃ e, Expr.parse bracketed ⟨10, 49, 3, 7⟩ = .ok e ∧ ∃ n ∈ e.nodes, n.span = ⟨12, 29, 3, 9⟩ := by
    decide +kernel
  obtain ⟨e, he, n, hn, hplace⟩ := hrun
  have hslice : Text.slice bracketed (n.span.start - 10) (n.span.stop - 10) = some "(a + // both\n  b)".toList := by
    rw [hplace]
    decide +kernel
  obtain ⟨-, piece, hpiece, hread⟩ := parse_node he hn
  cases hpiece.symm.trans hslice
  exact ⟨e, n, he, hn, hplace, hslice, hread⟩

end Expr

end ChartScript
