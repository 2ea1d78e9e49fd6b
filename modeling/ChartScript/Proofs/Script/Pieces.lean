import ChartScript.Proofs.Expr.Tokens
import ChartScript.Proofs.Script.Parsed
import ChartScript.Proofs.Token.Positions
/-!
# Pieces of a source

The places that a script keeps are pieces of its lines: runs of tokens that the end of the line, a
comma or a bracket follows. Reading the text of such a piece on its own gives the tokens that the
piece has in the source.
-/
namespace ChartScript

open List Lexer Statement Lexer.Position Position Script

/-! ## Content -/

/-- The token lies inside the place. -/
def Span.holds (s : Span) (t : Token) : Bool :=
  s.start ≤ t.span.start && t.span.stop ≤ s.stop

/-- The text of the place, read on its own, has the content that stands there, and that is one run. -/
structure Span.Rereads (source : List Char) (s : Span) : Prop where
  content : ((tokenize ((Text.slice source s.start s.stop).getD [])).filter Token.isContent).map (·.offsetBy s) =
    ((tokenize source).filter Token.isContent).filter s.holds
  run : ((tokenize source).filter Token.isContent).filter s.holds <:+: (tokenize source).filter Token.isContent

theorem Token.isContent_eq (t : Token) : t.isContent = (!isLayout t && t.kind != .comment) := by
  obtain ⟨kind, _, _⟩ := t
  cases kind <;> rfl

theorem filter_content (cs : List Char) : (tokenize cs).filter Token.isContent =
    (words 0 ⟨0, 1, 1⟩ cs).filter (·.kind != .comment) := by
  rw [← filter_tokenize, filter_filter]
  refine filter_congr fun t _ => ?_
  rw [Token.isContent_eq, Bool.and_comm]

theorem Script.filter_tokens (source : List Char) :
    (tokens source).filter (!isLayout ·) = (tokenize source).filter Token.isContent := by
  rw [tokens, filter_filter]
  exact filter_congr fun t _ => (Token.isContent_eq t).symm

/-! ## Both ends of a piece -/

def Token.isEnd (t : Token) : Bool :=
  match t.kind with
  | .delimiter mark => mark != .dot
  | _ => false

variable {s : Span} {after before ts ws : List Token} {t : Token} {source : List Char}

variable {cs : List Char} {p : Token → Bool} {later earlier : List Token} {first last : Token}

namespace Lexer

theorem word_begins {s : State} (h : scan 0 s cs = before ++ t :: after)
    (ht : isLayout t = false) :
    ∃ pre rest, cs = pre ++ rest ∧ t.span.start = (s.position.after pre).offset ∧
    t.span.line = (s.position.after pre).line ∧ t.span.column = (s.position.after pre).column ∧
    words 0 (s.position.after pre) rest = (t :: after).filter (!isLayout ·) := by
  obtain ⟨pre, c, mid, rest, s', rfl, hx, hw, _, hp, rfl⟩ := scan_split h ht
  refine ⟨pre, c :: (mid ++ rest), by simp, by rw [hw]; rfl, by rw [hw]; rfl, by rw [hw]; rfl, ?_⟩
  have htake : (c :: (mid ++ rest)).take (mid.length + 1) = c :: mid := by simp
  rw [words_past _ hx, htake, ← hw, filter_cons_of_pos (by simp [ht]), filter_scan, hp, after_append]
  simp

theorem word_ends {s : State} (h : scan 0 s cs = before ++ t :: after) (ht : isLayout t = false)
    (hnext : ∀ u ∈ (after.filter (·.kind != .comment)).head?, isLayout u = true ∨ u.isEnd = true) :
    ∃ pre rest, cs = pre ++ rest ∧ t.span.stop = (s.position.after pre).offset ∧ Ends rest := by
  obtain ⟨pre, c, mid, rest, s', rfl, _, hw, hm, _, rfl⟩ := scan_split h ht
  refine ⟨pre ++ c :: mid, rest, rfl, ?_, fun d hd => ?_⟩
  · rw [hw, after_append]
    simp only [token, after_offset]
  obtain ⟨more, rfl⟩ := head?_eq_some_iff.1 hd
  cases hx : lexeme d more with
  | gap => simp [isEnd, isBlank_of_gap hx]
  | token kind n =>
    rw [scan_word_past hx, State.settle_of_none _ hm, nil_append] at hnext
    refine isEnd_of_lexeme hx ?_
    by_cases hk : kind = .comment
    · exact .inl hk
    · rw [filter_cons_of_pos (by simpa [token] using hk)] at hnext
      rcases hnext _ rfl with hlayout | hend
      · rw [token, lexeme_not_layout hx] at hlayout
        cases hlayout
      · cases kind with
        | delimiter mark => exact .inr ⟨mark, rfl, by simpa [Token.isEnd, token] using hend⟩
        | _ => cases hend

end Lexer

/-! ## Reading a piece again -/

theorem filter_split (h : ts.filter p = before ++ t :: after) :
    ∃ before' after', ts = before' ++ t :: after' ∧ after'.filter p = after := by
  obtain ⟨as, bs, rfl, _, hbs⟩ := filter_eq_append_iff.1 h
  obtain ⟨cs, ds, rfl, _, _, hds⟩ := filter_eq_cons_iff.1 hbs
  exact ⟨as ++ cs, ds, by simp, hds⟩

theorem next_of_filter {u : Token} (h : [t, u] <:+: ts.filter p) :
    ∃ v, [t, v] <:+: ts ∧ (v = u ∨ p v = false) := by
  obtain ⟨before, after, hsplit⟩ := h
  have hfirst : ts.filter p = before ++ t :: u :: after := by
    rw [← hsplit]
    simp
  obtain ⟨before', after', rfl, hafter⟩ := filter_split hfirst
  cases after' with
  | nil => cases hafter
  | cons v rest =>
    refine ⟨v, ⟨before', rest, by simp⟩, ?_⟩
    cases hv : p v with
    | true =>
      rw [filter_cons_of_pos hv] at hafter
      exact .inl (List.cons.inj hafter).1
    | false => exact .inr rfl

theorem Line.span?_ends (ho : Ordered ts) (h : Line.span? ts = some s) :
    ∃ first last, (∃ more, ts = first :: more) ∧ (∃ init, ts = init ++ [last]) ∧
    s = { first.span with stop := last.span.stop } ∧ first.span.start < last.span.stop := by
  have hcovers := Line.covers_span ho h
  unfold Line.span? at h
  split at h
  · next first last hfirst hlast =>
    cases h
    obtain ⟨more, hmore⟩ := head?_eq_some_iff.1 hfirst
    obtain ⟨init, hinit⟩ := getLast?_eq_some_iff.1 hlast
    have hmem : first ∈ init ++ [last] := by rw [← hinit, hmore]; exact mem_cons_self
    have hnonempty := ho.nonempty
    rw [hinit] at ho hnonempty
    have hlt := hnonempty first hmem
    have hle := ho.stop_le_last hmem
    refine ⟨first, last, ⟨more, hmore⟩, ⟨init, hinit⟩, ?_, by omega⟩
    simp only [Span.through, Nat.max_eq_left hle]
  · cases h

theorem ordered_of_piece (h : tokens source = before ++ (ws ++ after))
    (hws : ∀ t ∈ ws, isLayout t = false) : Ordered ws := by
  have ho := ordered_words source
  rw [h, filter_append, filter_append] at ho
  have hself : ws.filter (!isLayout ·) = ws := filter_eq_self.2 fun t ht => by simp [hws t ht]
  rw [hself] at ho
  exact ho.right.left

section
variable (hfirst : tokens source = before ++ first :: later) (hlast : tokens source = earlier ++ last :: after)
  (hwords : isLayout first = false ∧ isLayout last = false)
  (hafter : ∀ t ∈ after.head?, isLayout t = true ∨ t.isEnd = true)
  (hlt : first.span.start < last.span.stop) (hs : s = { first.span with stop := last.span.stop })
include hfirst hlast hwords hafter hlt hs

theorem words_between :
    ∃ pre piece rest, source = pre ++ (piece ++ rest) ∧ s.start = Text.byteSize pre ∧
    s.stop = Text.byteSize pre + Text.byteSize piece ∧ ∃ earlier, (tokenize source).filter (!isLayout ·) =
    earlier ++ (words 0 (offsetBy ⟨0, 1, 1⟩ s) piece ++ words 0 ((offsetBy
    ⟨0, 1, 1⟩ s).after piece) rest) ∧ ∀ t ∈ earlier, t.span.stop ≤ s.start := by
  subst hs
  have hall : (tokenize source).filter (!isLayout ·) = words 0 ⟨0, 1, 1⟩ source := filter_tokenize source
  -- the text from the first word on
  obtain ⟨earlier, later, htokens, -⟩ := filter_split hfirst
  obtain ⟨pre, rest, hsource, hoffset, hline, hcolumn, hbegin⟩ := word_begins htokens hwords.1
  -- the text up to the last word
  obtain ⟨_, behind, htokens', hbehind⟩ := filter_split hlast
  obtain ⟨pre', rest', hsource', hoffset', hends⟩ := word_ends htokens' hwords.2 (by rw [hbehind]; exact hafter)
  have hposition : State.start.position.after pre =
      offsetBy ⟨0, 1, 1⟩ { first.span with stop := last.span.stop } := by
    simp only [offsetBy, hoffset, hline, hcolumn, Nat.add_sub_cancel, Nat.add_zero]
    rfl
  have hzero : State.start.position.offset = 0 := rfl
  rw [after_offset] at hoffset hoffset'
  obtain ⟨piece, rfl, rfl⟩ := Text.divide_further (hsource.symm.trans hsource') (by omega)
  rw [byteSize_append] at hoffset'
  rw [hposition] at hbegin
  have hpairs := words_pairwise source 0 ⟨0, 1, 1⟩
  rw [← hall, htokens, filter_append, filter_cons_of_pos (by simp [hwords.1])] at hpairs
  have hearlier : ∀ t ∈ earlier.filter (!isLayout ·), t.span.stop ≤ first.span.start :=
    fun t ht => (pairwise_append.1 hpairs).2.2 t ht first mem_cons_self
  -- the last word is not before the first
  have hmem : last ∈ words 0 (offsetBy ⟨0, 1, 1⟩ { first.span with stop := last.span.stop }) (piece ++ rest') := by
    have hin : last ∈ (tokenize source).filter (!isLayout ·) := by
      refine mem_filter.2 ⟨?_, by simp [hwords.2]⟩
      rw [htokens']
      simp
    rw [htokens, filter_append] at hin
    rw [hbegin]
    refine (mem_append.1 hin).resolve_left fun hlast => ?_
    have := hearlier last hlast
    omega
  refine ⟨pre, piece, rest', hsource, by dsimp only; omega, by dsimp only; omega,
    earlier.filter (!isLayout ·), ?_, hearlier⟩
  rw [htokens, filter_append, ← hbegin]
  congr 1
  refine words_append hends (Nat.zero_le _) fun t ht hbefore => ?_
  simp only [offsetBy] at hbefore ⊢
  have := start_lt_stop_of_mem_words hmem
  rcases words_apart ht hmem with rfl | hle | hle <;> omega

theorem rereads_between : s.Rereads source := by
  obtain ⟨pre, piece, rest, rfl, hstart, hstop, earlier, hwords, hearlier⟩ :=
    words_between hfirst hlast hwords hafter hlt hs
  have hall : (tokenize (pre ++ (piece ++ rest))).filter (!isLayout ·) =
      words 0 ⟨0, 1, 1⟩ (pre ++ (piece ++ rest)) := filter_tokenize _
  have hoffset : (offsetBy ⟨0, 1, 1⟩ s).offset = s.start := rfl
  -- The words of the source are those before the piece, in it and behind it; its place holds only
  -- the second.
  have hbefore : earlier.filter s.holds = [] := by
    refine filter_eq_nil_iff.2 fun t ht => ?_
    have h1 := hearlier t ht
    have hmem : t ∈ words 0 ⟨0, 1, 1⟩ (pre ++ (piece ++ rest)) := by
      rw [← hall, hwords]
      exact mem_append_left _ ht
    have h2 := start_lt_stop_of_mem_words hmem
    simp only [Span.holds, Bool.and_eq_true, decide_eq_true_eq]
    omega
  have hinside : (words 0 (offsetBy ⟨0, 1, 1⟩ s) piece).filter s.holds = words 0 (offsetBy ⟨0, 1, 1⟩ s) piece := by
    refine filter_eq_self.2 fun t ht => ?_
    have h1 := start_le_of_mem_words ht
    have h2 := stop_le_of_mem_words ht
    simp only [Span.holds, Bool.and_eq_true, decide_eq_true_eq]
    omega
  have hbehind : (words 0 ((offsetBy ⟨0, 1, 1⟩ s).after piece) rest).filter s.holds = [] := by
    refine filter_eq_nil_iff.2 fun t ht => ?_
    have h1 := start_le_of_mem_words ht
    have h2 := start_lt_stop_of_mem_words ht
    rw [after_offset] at h1
    simp only [Span.holds, Bool.and_eq_true, decide_eq_true_eq]
    omega
  have hmoved : words 0 (offsetBy ⟨0, 1, 1⟩ s) piece = (words 0 ⟨0, 1, 1⟩ piece).map (·.offsetBy s) :=
    words_offsetBy s piece 0 ⟨Nat.one_pos, Nat.one_pos⟩
  have hheld : ((tokenize (pre ++ (piece ++ rest))).filter (!isLayout ·)).filter s.holds =
      words 0 (offsetBy ⟨0, 1, 1⟩ s) piece := by
    rw [hwords, filter_append, filter_append, hbefore, hbehind, hinside, nil_append, append_nil]
  constructor
  · rw [hstop, hstart, Text.slice_append, Option.getD_some, filter_content, filter_content, ← hall,
      filter_comm, hheld, hmoved, filter_map]
    rfl
  · rw [filter_content, ← hall, filter_comm, hheld, hwords]
    exact List.IsInfix.filter _ (infix_append' _ _ _)

end

variable (h : tokens source = before ++ (ws ++ after)) (hws : ∀ t ∈ ws, isLayout t = false)
  (hafter : ∀ t ∈ after.head?, isLayout t = true ∨ t.isEnd = true)
  (hs : Line.span? ws = some s)
include h hws hafter hs

theorem rereads_piece : s.Rereads source := by
  obtain ⟨first, last, ⟨more, hmore⟩, ⟨init, hinit⟩, hspan, hlt⟩ := Line.span?_ends (ordered_of_piece h hws) hs
  have hfirst : tokens source = before ++ first :: (more ++ after) := by
    rw [h, hmore]
    rfl
  have hlast : tokens source = (before ++ init) ++ last :: after := by
    rw [h, hinit]
    simp
  exact rereads_between hfirst hlast ⟨hws first (by simp [hmore]), hws last (by simp [hinit])⟩ hafter hlt hspan

end ChartScript
