import ChartScript.Proofs.Script.Marks
/-!
# Reading a block again

A block that is cut out of a script and read on its own falls into the same words, but the pass over
it does not know which blocks were open around it. The only question it answers with them is whether
a row goes on with the statement of the row above, and the answers can differ only at a row whose
width is no multiple of four.
-/
namespace ChartScript

open List

namespace Script

open Text Lexer Statement Position

/-! ## In front of a statement -/

variable {pre rest source : List Char} {base : Span} {o : State} {last : Token}

variable {s : State} {cs xs : List Char} {c : Char} {t : Token}

theorem marks_awaited (cs : List Char) (h : Between source s pre cs) (hs : s.Sound)
    (hawaits : Awaits pre cs) :
    ∃ t more, marks s cs = (true, t) :: more ∧ (leadAt source t.span.start).all isBlank = true ∧
    rowAt source t.span.start = row pre cs := by
  induction s, cs using scan_induction generalizing pre with
  | finish s => exact absurd hawaits (not_awaits_nil pre)
  | step s cs ts s' rest hstep ih =>
    cases hstep with
    | ends | runsOn => exact absurd hawaits (not_awaits_newline pre _)
    | @margin c rest width w hm hw =>
      have hb := isBlank_of_marginWidth hw
      have hc : c ≠ '\n' := by rintro rfl; cases hw
      rw [marks_margin rest hm hw, ← row_concat pre rest hc]
      exact ih (h.behind [c] rfl h.fresh h.closed) (fun _ => h.fresh) ((awaits_concat pre rest hb hc).2 hawaits)
    | @blank c rest hb hc hm =>
      rw [marks_blank rest hs hb hc hm, ← row_concat pre rest hc]
      exact ih (h.behind [c] (s.settle_advance c _) ((s.settle_hasContent _).trans h.fresh)
        ((s.settle_depth _).trans h.closed)) (State.sound_of_none (s.settle_margin _))
        ((awaits_concat pre rest hb hc).2 hawaits)
    | @word c rest kind n hx =>
      have hk : kind ≠ .comment := by rintro rfl; exact not_awaits_comment pre hx hawaits
      rw [marks_settle rest hs (marginWidth_of_token hx), marks_word (s.settle_margin _) hx hk, s.settle_hasContent,
        s.settle_position, h.fresh]
      refine ⟨_, _, rfl, ?_, ?_⟩
      · show (leadAt source s.position.offset).all isBlank = true
        rw [h.offset, h.split, leadAt_append]
        exact hawaits.1
      · show rowAt source s.position.offset = row pre (c :: rest)
        rw [h.offset, h.split, rowAt_append]

theorem awaits_of_continues {indents : List Nat} (hplain : PlainMargins source)
    (hsplit : source = pre ++ '\n' :: cs) (h : continuesStatement indents cs = true) :
    Awaits (pre ++ ['\n']) cs ∧ (measure (row (pre ++ ['\n']) cs)).1 % 4 ≠ 0 := by
  have hrow : row (pre ++ ['\n']) cs = onRow cs := by rw [row, leading_newline, nil_append]
  simp only [continuesStatement, Bool.and_eq_true, Bool.not_eq_true', bne_iff_ne] at h
  obtain ⟨⟨hindented, -⟩, hwidth⟩ := h
  refine ⟨⟨by rw [leading_newline]; rfl, ?_⟩, by rwa [hrow, measure_onRow]⟩
  have hmem : onRow cs ∈ rows source := by
    have := row_mem (pre ++ ['\n']) cs
    rwa [hrow, append_assoc, singleton_append, ← hsplit] at this
  rw [hplain _ hmem, measure_onRow, hasNoIndentation_onRow, hindented]

/-! ## Two passes over a text -/

def rebase (base : Span) (x : Bool × Token) : Bool × Token :=
  (x.1, x.2.offsetBy base)

/-- Two passes over the same text, one of which began at `base`. They know the same of the
statement they are in, but the second is in blocks that are no deeper. -/
structure Alike (base : Span) (o r : State) : Prop where
  place : o.position = r.position.offsetBy base
  counts : r.position.Counts
  depth : o.depth = r.depth
  margin : o.margin = r.margin
  content : o.hasContent = r.hasContent
  indents : r.indents.headD 0 ≤ o.indents.headD 0

namespace Alike

variable {base : Span} {o r : State}

theorem advance (h : Alike base o r) (c : Char) (margin : Option Nat) (content : Bool) :
    Alike base { o.advance c with margin := margin, hasContent := content }
      { r.advance c with margin := margin, hasContent := content } where
  place := by
    show o.position.advance c = (r.position.advance c).offsetBy base
    rw [h.place, advance_offsetBy h.counts]
  counts := counts_advance h.counts c
  depth := h.depth
  margin := rfl
  content := rfl
  indents := h.indents

theorem below (h : Alike base o r) : Alike base o.below r.below :=
  h.advance '\n' (some 0) false

theorem onward (h : Alike base o r) : Alike base o.onward r.onward :=
  ⟨h.below.place, h.below.counts, h.depth, rfl, h.content, h.indents⟩

theorem headD_reindent (indents : List Nat) (width : Nat) : (reindent indents width).2.headD 0 = width := by
  have hhead : ∀ w ∈ (indents.dropWhile (width < ·)).head?, w ≤ width := by
    intro w hw
    have := head?_dropWhile_not (width < ·) indents
    rw [hw] at this
    simpa using this
  simp only [reindent]
  split
  · rfl
  · next hle =>
    cases hstill : indents.dropWhile (width < ·) with
    | nil => rw [hstill] at hle; simp at hle; simp [hle]
    | cons w more =>
      rw [hstill] at hle hhead
      have := hhead w rfl
      simp only [headD_cons] at hle ⊢
      omega

theorem settle (h : Alike base o r) (cs : List Char) : Alike base (o.settle cs).2 (r.settle cs).2 where
  place := by rw [o.settle_position, r.settle_position, h.place]
  counts := by rw [r.settle_position]; exact h.counts
  depth := by rw [o.settle_depth, r.settle_depth, h.depth]
  margin := by rw [o.settle_margin, r.settle_margin]
  content := by rw [o.settle_hasContent, r.settle_hasContent, h.content]
  indents := by
    rw [State.settle, State.settle, h.margin]
    cases r.margin with
    | none => exact h.indents
    | some width =>
      dsimp only
      split
      · exact h.indents
      · simp only [headD_reindent, Nat.le_refl]

theorem past (h : Alike base o r) (kind : TokenKind) (cs : List Char) (n : Nat) :
    Alike base (o.past kind cs n) (r.past kind cs n) where
  place := by
    show o.position.after (cs.take n) = (r.position.after (cs.take n)).offsetBy base
    rw [h.place, after_offsetBy h.counts]
  counts := counts_after h.counts _
  depth := by
    show State.bracketDepth o.depth kind = State.bracketDepth r.depth kind
    rw [h.depth]
  margin := h.margin
  content := by
    show (o.hasContent || _) = (r.hasContent || _)
    rw [h.content]
  indents := h.indents

end Alike

theorem map_rebase {r : State} (h : o.position = r.position.offsetBy base) (hr : r.position.Counts)
    (cs : List Char) : ((marks r cs).map (rebase base)).map (·.2) = (marks o cs).map (·.2) := by
  have hmoved : ((marks r cs).map (rebase base)).map (·.2) = ((marks r cs).map (·.2)).map (·.offsetBy base) := by
    rw [map_map, map_map]
    rfl
  rw [hmoved, map_marks, map_marks, h, words_offsetBy base cs 0 hr, filter_map]
  rfl

theorem before_eq_nil_of_map {bound : Nat} {xs : List (Bool × Token)}
    (h : ∀ t ∈ xs.map (·.2), bound ≤ t.span.start) : before bound xs = [] :=
  filter_eq_nil_iff.2 fun x hx => by simpa using h x.2 (mem_map_of_mem hx)

theorem le_start_of_head {bound : Nat} {x : Bool × Token}
    {more : List (Bool × Token)} (h : marks s cs = x :: more) (hx : bound ≤ x.2.span.start) :
    ∀ t ∈ (marks s cs).map (·.2), bound ≤ t.span.start := by
  have hpairs := (words_pairwise cs 0 s.position).filter (·.kind != .comment)
  have hlt := start_lt_stop_of_mem_words (mem_words_of_marks (h ▸ mem_cons_self))
  rw [← map_marks, h, map_cons, pairwise_cons] at hpairs
  rw [h]
  intro t ht
  rcases mem_cons.1 ht with rfl | ht
  · exact hx
  · have := hpairs.1 t ht
    omega

def Aligned (source : List Char) (t : Token) : Prop :=
  (leadAt source t.span.start).all isBlank = true →
    (measure (rowAt source t.span.start)).1 % 4 = 0

def Agree (source : List Char) (base : Span) (bound : Nat) (cs : List Char) : Prop :=
  ∀ (pre : List Char) (o r : State), source = pre ++ cs → o.position.offset = byteSize pre →
    Alike base o r → o.Sound → (o.hasContent = false → o.depth = 0) →
    (∀ t, (true, t) ∈ marks o cs → base.start < t.span.start → t.span.start < bound →
      Aligned source t) →
    before bound (marks o cs) = before bound ((marks r cs).map (rebase base))

section

variable {source : List Char} {base : Span} {bound : Nat}

theorem agree_newline {r : State} (hplain : PlainMargins source)
    (below : Agree source base bound rest) (hsplit : source = pre ++ '\n' :: rest)
    (hoffset : o.position.offset = byteSize pre) (h : Alike base o r)
    (hclosed : o.hasContent = false → o.depth = 0)
    (haligned : ∀ t, (true, t) ∈ marks o ('\n' :: rest) → base.start < t.span.start →
      t.span.start < bound → Aligned source t) :
    before bound (marks o ('\n' :: rest)) = before bound ((marks r ('\n' :: rest)).map (rebase base)) := by
  have hsplit' : source = (pre ++ ['\n']) ++ rest := by rw [hsplit]; simp
  have hoffset' : (o.position.advance '\n').offset = byteSize (pre ++ ['\n']) := by
    rw [advance_offset, hoffset, byteSize_append]
    rfl
  rw [marks_newline] at haligned ⊢
  rw [marks_newline]
  cases ho : o.endsStatement rest with
  | false =>
    -- the second pass goes on as well, since its blocks are no deeper
    have hr : r.endsStatement rest = false := by
      simp only [State.endsStatement, h.depth, h.content, continuesStatement, Bool.and_eq_false_iff,
        Bool.not_eq_false', Bool.and_eq_true, decide_eq_true_eq] at ho ⊢
      have := h.indents
      refine ho.imp_right ?_
      rintro ⟨hc, ⟨hi, hlt⟩, hmod⟩
      exact ⟨hc, ⟨hi, by omega⟩, hmod⟩
    rw [ho] at haligned
    rw [hr]
    exact below (pre ++ ['\n']) o.onward r.onward hsplit' hoffset' h.onward
      (State.sound_of_none rfl) hclosed haligned
  | true =>
    have hdepth : o.depth = 0 := by
      simp only [State.endsStatement, Bool.and_eq_true, beq_iff_eq] at ho
      exact ho.1
    rw [ho] at haligned
    cases hr : r.endsStatement rest with
    | true =>
      exact below (pre ++ ['\n']) o.below r.below hsplit' hoffset' h.below (fun _ => rfl) (fun _ => hdepth) haligned
    | false =>
      -- a row that the second pass takes for more of the statement begins with a statement
      have hcontinues : continuesStatement r.indents rest = true := by
        simp only [State.endsStatement, ← h.depth, hdepth, beq_self_eq_true, Bool.true_and,
          Bool.not_eq_false', Bool.and_eq_true] at hr
        exact hr.2
      obtain ⟨hawaits, hwidth⟩ := awaits_of_continues hplain hsplit hcontinues
      obtain ⟨t, more, hmarks, hlead, hrow⟩ := marks_awaited rest (s := o.below)
        ⟨hsplit', hoffset', rfl, hdepth⟩ (fun _ => rfl) hawaits
      have hmem : (true, t) ∈ marks o.below rest := hmarks ▸ mem_cons_self
      have hstart : base.start < t.span.start := by
        have hle : (o.position.advance '\n').offset ≤ t.span.start := start_le_of_mem_marks hmem
        have hplace : o.position.offset = base.start + r.position.offset := by rw [h.place]; rfl
        rw [advance_offset, hplace] at hle
        have := ('\n').utf8Size_pos
        omega
      -- which is aligned, unless all that is left begins behind the part
      have hbound : bound ≤ t.span.start := by
        by_contra hlt
        have := haligned t hmem hstart (by omega) hlead
        rw [hrow] at this
        exact hwidth this
      have hafter := le_start_of_head hmarks hbound
      rw [if_pos rfl, if_neg (by decide), before_eq_nil_of_map hafter, before_eq_nil_of_map]
      rwa [map_rebase (o := o.below) (r := r.onward) h.onward.place h.onward.counts rest]

theorem agree_cons {r : State} (hplain : PlainMargins source)
    (below : ∀ cs, cs.length < (c :: rest).length → Agree source base bound cs)
    (hsplit : source = pre ++ c :: rest) (hoffset : o.position.offset = byteSize pre)
    (h : Alike base o r) (hm : o.margin = none) (hclosed : o.hasContent = false → o.depth = 0)
    (haligned : ∀ t, (true, t) ∈ marks o (c :: rest) → base.start < t.span.start →
      t.span.start < bound → Aligned source t) :
    before bound (marks o (c :: rest)) = before bound ((marks r (c :: rest)).map (rebase base)) := by
  have hm' : r.margin = none := h.margin ▸ hm
  by_cases hc : c = '\n'
  · subst hc
    exact agree_newline hplain (below rest (by simp)) hsplit hoffset h hclosed haligned
  cases hx : lexeme c rest with
  | gap =>
    have hb := isBlank_of_gap hx
    rw [marks_blank rest (State.sound_of_none hm) hb hc (.inl hm), State.settle_of_none _ hm] at haligned ⊢
    rw [marks_blank rest (State.sound_of_none hm') hb hc (.inl hm'), State.settle_of_none _ hm']
    have hnext := h.advance c none o.hasContent
    refine below rest (by simp) (pre ++ [c]) (o.advance c) (r.advance c) (by rw [hsplit]; simp) ?_
      ⟨hnext.place, hnext.counts, h.depth, h.margin, h.content, h.indents⟩
      (State.sound_of_none hm) hclosed haligned
    show (o.position.advance c).offset = _
    rw [advance_offset, hoffset, byteSize_append]
    rfl
  | token kind n =>
    have hbelow := below ((c :: rest).drop n)
      (by have := (lexeme_length hx).1; rw [length_drop, length_cons]; omega)
      (pre ++ (c :: rest).take n) (o.past kind (c :: rest) n) (r.past kind (c :: rest) n)
      (by rw [hsplit, append_assoc, take_append_drop])
      (by
        show (o.position.after ((c :: rest).take n)).offset = _
        rw [after_offset, hoffset, byteSize_append])
      (h.past kind (c :: rest) n) (State.sound_of_none hm)
    by_cases hk : kind = .comment
    · subst hk
      rw [marks_comment hm hx] at haligned ⊢
      rw [marks_comment hm' hx]
      refine hbelow (fun hfresh => ?_) haligned
      exact hclosed (by simpa [hasContent_past hx] using hfresh)
    · have hcontent : (o.past kind (c :: rest) n).hasContent = true := by
        rw [hasContent_past hx, bne_iff_ne.2 hk, Bool.or_true]
      have htoken : (!o.hasContent, o.position.token kind ((c :: rest).take n)) =
          rebase base (!r.hasContent, r.position.token kind ((c :: rest).take n)) := by
        rw [h.content, h.place, token_offsetBy]
        rfl
      rw [marks_word hm hx hk] at haligned ⊢
      have hrest := hbelow (fun hfresh => by rw [hcontent] at hfresh; cases hfresh)
        fun t ht => haligned t (.tail _ ht)
      rw [marks_word hm' hx hk, map_cons, ← htoken]
      rw [before, before, filter_cons, filter_cons, ← before, ← before, hrest]

theorem agree (hplain : PlainMargins source) (cs : List Char) : Agree source base bound cs := by
  induction hlen : cs.length using Nat.strongRecOn generalizing cs with
  | _ len ih =>
    have below : ∀ cs' : List Char, cs'.length < cs.length → Agree source base bound cs' :=
      fun cs' hlt => ih cs'.length (hlen ▸ hlt) cs' rfl
    intro pre o r hsplit hoffset h hs hclosed haligned
    cases cs with
    | nil => rw [marks_nil, marks_nil]; rfl
    | cons c rest =>
      cases hw : marginWidth? c with
      | none =>
        have hs' : r.Sound := fun hne => h.content ▸ hs (h.margin ▸ hne)
        rw [marks_settle rest hs hw] at haligned ⊢
        rw [marks_settle rest hs' hw]
        refine agree_cons hplain below hsplit (by rwa [o.settle_position]) (h.settle _)
          (o.settle_margin _) (fun hfresh => ?_) haligned
        rw [o.settle_depth]
        exact hclosed (o.settle_hasContent _ ▸ hfresh)
      | some w =>
        cases hm : o.margin with
        | none => exact agree_cons hplain below hsplit hoffset h hm hclosed haligned
        | some width =>
          have hm' : r.margin = some width := h.margin ▸ hm
          rw [marks_margin rest hm hw] at haligned ⊢
          rw [marks_margin rest hm' hw]
          have hnext := h.advance c (some (width + w)) o.hasContent
          refine below rest (by simp) (pre ++ [c]) _ _ (by rw [hsplit]; simp) ?_
            ⟨hnext.place, hnext.counts, h.depth, rfl, h.content, h.indents⟩
            (fun _ => hs (by simp [hm])) hclosed haligned
          show (o.position.advance c).offset = _
          rw [advance_offset, hoffset, byteSize_append]
          rfl

end

/-! ## From the lines of a block to its text -/

def Meets (s : State) (cs : List Char) (t : Token) (later : List (Bool × Token)) : Prop :=
  ∃ (pre : List Char) (c : Char) (rest : List Char) (s' : State), cs = pre ++ c :: rest ∧
    s'.position = s.position.after pre ∧ s'.margin = none ∧ s'.hasContent = false ∧
    s'.depth = 0 ∧ marks s' (c :: rest) = (true, t) :: later ∧ marginWidth? c = none ∧
    ∃ kind chars, t = s'.position.token kind chars

theorem Meets.behind {s' : State} {cs' : List Char} {later : List (Bool × Token)}
    {ts : List Token} (h : Meets s' cs' t later) (hstep : Advances s cs ts s' cs') : Meets s cs t later := by
  obtain ⟨read, rfl, hp⟩ := hstep.exists_read
  obtain ⟨pre, c, rest, s'', rfl, hp', hfound⟩ := h
  exact ⟨read ++ pre, c, rest, s'', (append_assoc ..).symm, by rw [hp', hp, after_append], hfound⟩

theorem meets_of_mark (cs : List Char) (hs : s.Sound)
    (hclosed : s.hasContent = false → s.depth = 0) {earlier later : List (Bool × Token)}
    (h : marks s cs = earlier ++ (true, t) :: later) : Meets s cs t later := by
  induction s, cs using scan_induction generalizing earlier with
  | finish s => rw [marks_nil] at h; cases earlier <;> cases h
  | step s cs ts s' rest hstep ih =>
    cases hstep with
    | ends hends =>
      have hdepth := hends
      simp only [State.endsStatement, Bool.and_eq_true, beq_iff_eq] at hdepth
      rw [marks_newline, if_pos hends] at h
      exact (ih (fun _ => rfl) (fun _ => hdepth.1) h).behind (.ends hends)
    | runsOn hends =>
      rw [marks_newline, if_neg (by simp [hends])] at h
      exact (ih (State.sound_of_none rfl) hclosed h).behind (.runsOn hends)
    | margin hm hw =>
      rw [marks_margin _ hm hw] at h
      exact (ih (fun _ => hs (by simp [hm])) hclosed h).behind (.margin hm hw)
    | blank hb hc hm =>
      rw [marks_blank _ hs hb hc hm] at h
      refine (ih (State.sound_of_none (s.settle_margin _)) (fun hfresh => ?_) h).behind (.blank hb hc hm)
      exact (s.settle_depth _).trans (hclosed ((s.settle_hasContent _).symm.trans hfresh))
    | @word c rest kind n hx =>
      have hm := s.settle_margin (c :: rest)
      have hw : marginWidth? c = none := marginWidth_of_token hx
      rw [marks_settle rest hs hw] at h
      by_cases hk : kind = .comment
      · subst hk
        rw [marks_comment hm hx] at h
        refine (ih (State.sound_of_none hm) (fun hfresh => ?_) h).behind (.word hx)
        rw [hasContent_past hx, s.settle_hasContent] at hfresh
        exact (s.settle_depth _).trans (hclosed (by simpa using hfresh))
      · rw [marks_word hm hx hk] at h
        cases earlier with
        | nil =>
          have hhead := (List.cons.inj h).1
          have hfresh : s.hasContent = false := by simpa [s.settle_hasContent] using congrArg Prod.fst hhead
          refine ⟨[], c, rest, (s.settle (c :: rest)).2, rfl, s.settle_position _, hm, ?_, ?_, ?_, hw, kind,
            (c :: rest).take n, (congrArg Prod.snd hhead).symm⟩
          · rw [s.settle_hasContent, hfresh]
          · rw [s.settle_depth, hclosed hfresh]
          · rw [marks_word hm hx hk]
            exact h
        | cons x earlier =>
          refine (ih (State.sound_of_none hm) (fun hfresh => ?_) (List.cons.inj h).2).behind (.word hx)
          rw [hasContent_past hx, bne_iff_ne.2 hk, Bool.or_true] at hfresh
          cases hfresh

theorem lines_eq_cut (source : List Char) :
    (items (tokens source)).filterMap Item.line? = cut (marks .start source) :=
  lines_items (tokens source) true

theorem settle_start (cs : List Char) : (State.start.settle cs).2.indents = [] := by
  simp only [State.settle, State.start]
  split <;> rfl

theorem before_map_rebase (base : Span) (bound : Nat) (xs : List (Bool × Token)) :
    before (base.start + bound) (xs.map (rebase base)) = (before bound xs).map (rebase base) := by
  rw [before, before, filter_map]
  congr 1
  refine filter_congr fun x _ => ?_
  simp [rebase, Token.offsetBy, Span.offsetBy]

theorem before_uncut {bs cs : List (List Token)} (ho : Ordered ((bs ++ cs).flatten))
    (hlast : ∃ init, bs.flatten = init ++ [last]) : before last.span.stop (uncut bs ++ uncut cs) = uncut bs := by
  obtain ⟨init, hinit⟩ := hlast
  rw [flatten_append] at ho
  have hmem : last ∈ bs.flatten := by rw [hinit]; simp
  rw [before, filter_append, filter_eq_self.2, filter_eq_nil_iff.2, append_nil]
  · intro x hx
    have hin : x.2 ∈ cs.flatten := map_uncut cs ▸ mem_map_of_mem hx
    have := ho.stop_le_start hmem hin
    simp only [decide_eq_true_eq]
    omega
  · intro x hx
    have hin : x.2 ∈ init ++ [last] := hinit ▸ map_uncut bs ▸ mem_map_of_mem hx
    have ho' := hinit ▸ ho.left
    have := ho'.nonempty x.2 hin
    have := ho'.stop_le_last hin
    simp only [decide_eq_true_eq]
    omega

theorem ends_of_line {line init : List Token}
    (h : line ∈ (items (tokens source)).filterMap Item.line?) (hlast : line = init ++ [last]) :
    ∃ pre rest, source = pre ++ rest ∧ last.span.stop = byteSize pre ∧ Ends rest := by
  obtain ⟨item, hitem, hline⟩ := mem_filterMap.1 h
  cases item with
  | indent | dedent => cases hline
  | line line' =>
    cases hline
    obtain ⟨-, hwords, earlier, later, htokens, hlayout⟩ := line_of_mem_items hitem
    rw [hlast] at htokens hwords
    obtain ⟨earlier', later', htokenize, hlater⟩ :=
      filter_split (show tokens source = (earlier ++ init) ++ last :: later by rw [htokens]; simp)
    obtain ⟨pre, rest, hsplit, hstop, hends⟩ := word_ends htokenize (hwords last (by simp))
      (by
        rw [hlater]
        intro u hu
        rw [hu] at hlayout
        exact .inl (by simpa using hlayout))
    refine ⟨pre, rest, hsplit, ?_, hends⟩
    rw [hstop, after_offset]
    exact Nat.zero_add _

theorem uncrossed_of_last {p : Position} (hp : p.Counts)
    (hlast : last ∈ words 0 (p.offsetBy base) (xs ++ rest))
    (hstop : last.span.stop = base.start + (p.offset + byteSize xs)) : Uncrossed p xs rest := by
  intro t ht hbefore
  have hmoved : t.offsetBy base ∈ words 0 (p.offsetBy base) (xs ++ rest) := by
    rw [words_offsetBy base _ 0 hp]
    exact mem_map_of_mem ht
  have hlt := start_lt_stop_of_mem_words hlast
  have hapart := words_apart hmoved hlast
  simp only [Token.offsetBy, Span.offsetBy] at hapart
  rcases hapart with rfl | hle | hle
  · dsimp only at hstop
    omega
  · omega
  · omega

theorem marks_reread (hplain : PlainMargins source)
    (hsplit : source = pre ++ (c :: xs ++ rest)) (hends : Ends rest)
    (hoffset : o.position.offset = byteSize pre)
    (hbase : o.position = offsetBy ⟨0, 1, 1⟩ base) (hm : o.margin = none)
    (hf : o.hasContent = false) (hd : o.depth = 0) (hc : marginWidth? c = none)
    (hlast : last ∈ words 0 o.position (c :: xs ++ rest))
    (hstop : last.span.stop = base.start + byteSize (c :: xs))
    (haligned : ∀ t, (true, t) ∈ marks o (c :: xs ++ rest) → base.start < t.span.start →
      t.span.start < last.span.stop → Aligned source t) :
    before last.span.stop (marks o (c :: xs ++ rest)) = (marks .start (c :: xs)).map (rebase base) := by
  rw [marks_settle xs (fun _ => rfl) hc]
  have hr := settle_start (c :: xs)
  have hp := State.start.settle_position (c :: xs)
  have hm' := State.start.settle_margin (c :: xs)
  have hf' := State.start.settle_hasContent (c :: xs)
  have hd' := State.start.settle_depth (c :: xs)
  generalize (State.start.settle (c :: xs)).2 = r at hr hp hm' hf' hd' ⊢
  have hcounts : r.position.Counts := hp ▸ ⟨Nat.one_pos, Nat.one_pos⟩
  have hplace : o.position = r.position.offsetBy base := by rw [hp]; exact hbase
  have hzero : r.position.offset = 0 := by rw [hp]; rfl
  have halike : Alike base o r :=
    ⟨hplace, hcounts, by rw [hd, hd']; rfl, by rw [hm, hm'], by rw [hf, hf']; rfl, by
      rw [hr]; exact Nat.zero_le _⟩
  rw [agree hplain _ pre o r hsplit hoffset halike (State.sound_of_none hm) (fun _ => hd) haligned,
    hstop, before_map_rebase]
  congr 1
  refine cutsOff hends _ (c :: xs) r (State.sound_of_none hm') ?_ (by rw [hzero, Nat.zero_add])
  exact uncrossed_of_last hcounts (hplace ▸ hlast) (by rw [hzero, Nat.zero_add, hstop])

theorem lines_of_block (hplain : PlainMargins source) {as bs cs : List (List Token)}
    (h : (items (tokens source)).filterMap Item.line? = as ++ (bs ++ cs)) {first : Token}
    (hfirst : ∃ line more, bs = (first :: line) :: more) (hlast : ∃ init line, bs = init ++ [line ++ [last]])
    (haligned : ∀ line ∈ bs.tail, beginsRow source line = true → indentation source line % 4 = 0) :
    ((items (tokens ((slice source first.span.start last.span.stop).getD []))).filterMap Item.line?).map (·.map
    (·.offsetBy first.span)) = bs := by
  have ho : Ordered ((as ++ (bs ++ cs)).flatten) := by
    rw [← h, flatten_items]
    exact ordered_words source
  rw [flatten_append] at ho
  have hlines : ∀ line ∈ bs, line ≠ [] := by
    intro line hline
    refine (proper_tree source).ne_nil line ?_
    rw [linesAll_tree, h]
    simp [hline]
  -- the words from the first on, and the point where it is read
  have hmarks : marks .start source = uncut as ++ (uncut bs ++ uncut cs) := by
    rw [lines_eq_cut] at h
    have hcut : uncut (cut (marks .start source)) = marks .start source :=
      uncut_cut fun m t hhead => mark_of_head hhead
    rw [← hcut, h, uncut_append, uncut_append]
  obtain ⟨firstLine, more, hmore⟩ := hfirst
  have hhead : uncut bs ++ uncut cs = (true, first) :: (firstLine.map (false, ·) ++ uncut more ++ uncut cs) := by
    rw [hmore, uncut_cons]
    rfl
  obtain ⟨pre, c, rest, o, hsplit, hp, hm, hf, hd, hwords, hc, kind, chars,
      htoken⟩ := meets_of_mark source (fun _ => rfl) (fun _ => rfl) (hhead ▸ hmarks)
  rw [← hhead] at hwords
  have hoffset : o.position.offset = byteSize pre := by
    rw [hp, after_offset]
    exact Nat.zero_add _
  have hstart : first.span.start = byteSize pre := by rw [htoken]; exact hoffset
  -- the point where the last word ends
  obtain ⟨init, lastLine, hinit⟩ := hlast
  have hflat : ∃ init, bs.flatten = init ++ [last] := ⟨init.flatten ++ lastLine, by rw [hinit]; simp⟩
  have hline : lastLine ++ [last] ∈ (items (tokens source)).filterMap Item.line? := by
    rw [h, hinit]
    simp
  obtain ⟨pre', rest', hsplit', hstop, hends⟩ := ends_of_line hline rfl
  have hob : Ordered (bs.flatten ++ cs.flatten) := flatten_append ▸ ho.right
  obtain ⟨words, hlast⟩ := hflat
  have hlt : first.span.start < last.span.stop := by
    have hmem : first ∈ bs.flatten := by rw [hmore]; simp
    have := hob.left.nonempty first hmem
    rw [hlast] at hob hmem
    have := hob.left.stop_le_last hmem
    omega
  obtain ⟨piece, rfl, hpiece⟩ := divide_further (hsplit.symm.trans hsplit') (by omega)
  rw [hpiece] at hsplit hwords
  rw [byteSize_append] at hstop
  cases piece with
  | nil =>
    rw [byteSize] at hstop
    omega
  | cons d xs =>
    obtain rfl : c = d := (List.cons.inj hpiece).1
    have hmem : last ∈ Lexer.words 0 o.position (c :: xs ++ rest') := by
      have hin : last ∈ (marks o (c :: xs ++ rest')).map (·.2) := by
        rw [hwords, map_append, map_uncut, hlast]
        simp
      obtain ⟨x, hx, rfl⟩ := mem_map.1 hin
      exact mem_words_of_marks hx
    have hreread : before last.span.stop (marks o (c :: xs ++ rest')) =
        (marks .start (c :: xs)).map (rebase first.span) := by
      refine marks_reread hplain hsplit hends hoffset ?_ hm hf hd hc hmem (by omega) ?_
      · simp only [offsetBy, htoken, token, Nat.add_sub_cancel, Nat.add_zero]
        rfl
      · intro t ht hlow hup hlead
        rw [hwords] at ht
        rcases mem_append.1 ht with ht | ht
        · obtain ⟨line, hline⟩ := exists_line_of_mark ht
          rw [hmore] at hline haligned
          rcases mem_cons.1 hline with heq | hline
          · cases heq
            omega
          · exact haligned (t :: line) hline hlead
        · have hin : t ∈ cs.flatten := map_uncut cs ▸ mem_map_of_mem ht
          have := hob.stop_le_start (a := last) (by rw [hlast]; simp) hin
          omega
    rw [hwords, before_uncut ho.right ⟨words, hlast⟩] at hreread
    have hslice : slice source first.span.start last.span.stop = some (c :: xs) := by
      rw [hsplit, hstart, hstop, slice_append]
    rw [hslice, Option.getD_some, lines_eq_cut, ← cut_map]
    exact (congrArg cut hreread.symm).trans (cut_uncut hlines)

end Script

end ChartScript
