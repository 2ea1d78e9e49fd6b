import ChartScript.Proofs.Token.LineStarts
import ChartScript.Proofs.Token.Positions
import ChartScript.Proofs.Token.Relocated
/-!
# Lines without a statement

A line of spaces and tabs, with or without a comment, can be put in wherever a line starts. It adds
its own line end, and its comment if it has one; all other tokens stay as they are, those below it one
line further down.
-/
namespace ChartScript

open List Text

variable {margin source : List Char} {s : State} {t : Token}

namespace Lexer

theorem measure_margin (h : ∀ c ∈ margin, ∃ w, marginWidth? c = some w)
    (rest : List Char) : (measure (margin ++ rest)).2 = (measure rest).2 := by
  induction margin with
  | nil => rfl
  | cons c margin ih =>
    obtain ⟨w, hw⟩ := h c mem_cons_self
    rw [cons_append, measure_cons _ hw, ih fun d hd => h d (mem_cons_of_mem _ hd)]

theorem measure_of_noIndentation {cs : List Char} (h : hasNoIndentation cs = true) : measure cs = (0, cs) := by
  cases cs with
  | nil => rfl
  | cons c rest =>
    rw [hasNoIndentation, startsComment_cons] at h
    have hc : marginWidth? c = none := by
      simp only [Bool.or_eq_true, Bool.and_eq_true, beq_iff_eq] at h
      rcases h with (rfl | rfl) | ⟨rfl, -⟩ <;> rfl
    exact measure_of_none rest hc

theorem scan_margins (h : ∀ c ∈ margin, ∃ w, marginWidth? c = some w)
    {width : Nat} (hs : s.margin = some width) : ∃ width', ∀ rest, scan 0 s (margin ++ rest) =
      scan 0 { s with position := s.position.after margin, margin := some width' } rest := by
  induction margin generalizing s width with
  | nil => exact ⟨width, fun rest => by rw [← hs]; rfl⟩
  | cons c margin ih =>
    obtain ⟨w, hw⟩ := h c mem_cons_self
    obtain ⟨width', hrest⟩ := ih (fun d hd => h d (mem_cons_of_mem _ hd)) (s := s.indented c (width + w)) rfl
    refine ⟨width', fun rest => ?_⟩
    rw [cons_append, scan_margin _ hs hw, hrest]
    rfl

theorem scan_line_end (hcontent : s.hasContent = false) (hdepth : s.depth = 0)
    (rest : List Char) : scan 0 s ('\n' :: rest) = s.position.token .newline ['\n'] ::
      scan 0 { s.advance '\n' with margin := some 0 } rest := by
  have hends : s.endsStatement rest = true := by simp [State.endsStatement, hcontent, hdepth]
  rw [scan_newline, if_pos hends]
  obtain ⟨p, indents, depth, margin, hasContent⟩ := s
  cases hcontent
  rfl

end Lexer

/-- A line that has no statement. -/
structure BlankLine where
  margin : List Char
  /-- What follows the two slashes, if there is a comment. -/
  comment : Option (List Char)
  /-- A carriage return stands before the line feed. -/
  returns : Bool
  margin_blank : ∀ c ∈ margin, c = ' ' ∨ c = '\t'
  comment_row : ∀ text ∈ comment, '\n' ∉ text

namespace BlankLine

open Lexer

variable (l : BlankLine)

def remark : List Char :=
  match l.comment with
  | some text => '/' :: '/' :: text
  | none => []

def ending : List Char :=
  if l.returns then ['\r'] else []

def row : List Char :=
  l.margin ++ (l.remark ++ l.ending)

/-- The characters of the line. -/
def chars : List Char :=
  l.row ++ ['\n']

/-- The tokens of the line where it begins at `p`. -/
def tokens (p : Position) : List Token :=
  match l.comment with
  | some _ => [(p.after l.margin).token .comment (l.remark ++ l.ending), (p.after l.row).token .newline ['\n']]
  | none => [(p.after l.row).token .newline ['\n']]

theorem newline_not_mem_ending : '\n' ∉ l.ending := by
  unfold ending
  split <;> simp

theorem newline_not_mem_remark : '\n' ∉ l.remark := by
  unfold remark
  split
  · next text htext => simpa using l.comment_row text htext
  · simp

theorem newline_not_mem_row : '\n' ∉ l.row := by
  simp only [row, mem_append, not_or]
  refine ⟨fun hmem => ?_, l.newline_not_mem_remark, l.newline_not_mem_ending⟩
  rcases l.margin_blank _ hmem with h | h
  · cases h
  · cases h

theorem marginWidth_isSome {c : Char} (h : c ∈ l.margin) : ∃ w, marginWidth? c = some w := by
  rcases l.margin_blank c h with rfl | rfl
  · exact ⟨1, rfl⟩
  · exact ⟨4, rfl⟩

theorem hasNoIndentation_remark (rest : List Char) :
    hasNoIndentation (l.remark ++ (l.ending ++ '\n' :: rest)) = true := by
  unfold remark ending
  cases l.comment with
  | some text => rfl
  | none => cases l.returns <;> rfl

theorem continuesStatement_chars (indents : List Nat) (rest : List Char) :
    continuesStatement indents (l.chars ++ rest) = false := by
  have hstop := l.hasNoIndentation_remark rest
  have hafter : (measure (l.chars ++ rest)).2 = l.remark ++ (l.ending ++ '\n' :: rest) := by
    have hchars : l.chars ++ rest = l.margin ++ (l.remark ++ (l.ending ++ '\n' :: rest)) := by simp [chars, row]
    rw [hchars, measure_margin fun c hc => l.marginWidth_isSome hc, measure_of_noIndentation hstop]
  simp only [continuesStatement, hafter, hstop, Bool.not_true, Bool.false_and]

/-! ## Reading the line -/

theorem lexeme_remark {text : List Char} (h : l.remark = '/' :: '/' :: text) (rest : List Char) :
    lexeme '/' ('/' :: (text ++ (l.ending ++ '\n' :: rest))) = .token .comment (l.remark ++ l.ending).length := by
  have hfree : '\n' ∉ '/' :: (text ++ l.ending) := by
    have := l.newline_not_mem_remark
    rw [h] at this
    simp only [mem_cons, mem_append, not_or] at this ⊢
    exact ⟨by decide, this.2.2, l.newline_not_mem_ending⟩
  have hrow : onRow ('/' :: (text ++ (l.ending ++ '\n' :: rest))) = '/' :: (text ++ l.ending) := by
    have := onRow_append ('\n' :: rest) hfree
    simpa [onRow] using this
  rw [lexeme, if_neg (by decide), if_pos ⟨rfl, rfl⟩, ← onRow, hrow, h]
  simp only [length_cons, cons_append]
  congr 1
  omega

theorem scan_remark (hcontent : s.hasContent = false) (hdepth : s.depth = 0)
    (rest : List Char) : Lexer.scan 0 s (l.remark ++ l.ending ++ '\n' :: rest) =
      (match l.comment with
        | some _ => [s.position.token .comment (l.remark ++ l.ending)]
        | none => []) ++
        (s.position.after (l.remark ++ l.ending)).token .newline ['\n'] ::
          Lexer.scan 0 { s with
            position := (s.position.after (l.remark ++ l.ending)).advance '\n'
            margin := some 0 } rest := by
  cases hcomment : l.comment with
  | none =>
    have hremark : l.remark = [] := by rw [remark, hcomment]
    rw [hremark, nil_append, nil_append, ending]
    cases l.returns with
    | true =>
      show Lexer.scan 0 s ('\r' :: '\n' :: rest) = _
      rw [scan_returned, scan_line_end (s := s.advance '\r') hcontent hdepth]
      rfl
    | false => exact scan_line_end hcontent hdepth rest
  | some text =>
    have hremark : l.remark = '/' :: '/' :: text := by rw [remark, hcomment]
    have hx := l.lexeme_remark hremark rest
    have htext : '/' :: '/' :: (text ++ (l.ending ++ '\n' :: rest)) = l.remark ++ l.ending ++ '\n' :: rest := by
      rw [hremark]
      simp
    have hsettle : s.settle (l.remark ++ l.ending ++ '\n' :: rest) = ([], { s with margin := none }) :=
      State.settle_of_noIndentation (by rw [append_assoc]; exact l.hasNoIndentation_remark rest)
    have hword := (Advances.word (s := s) hx).scan_eq
    rw [htext, hsettle, State.past, take_left, drop_left] at hword
    have hnote : State.note { s with margin := none } .comment = { s with margin := none } := by
      simp [State.note, State.bracketDepth, TokenKind.isTrivia]
    have hend := scan_line_end (s := { s with
      position := s.position.after (l.remark ++ l.ending), margin := none }) hcontent hdepth rest
    rw [hword, hnote, hend]
    rfl

theorem scan_chars (h : s.IsFresh) (rest : List Char) : Lexer.scan 0 s (l.chars ++ rest) =
    l.tokens s.position ++ Lexer.scan 0 { s with position := s.position.after l.chars } rest := by
  obtain ⟨hmargin, hcontent, hdepth⟩ := h
  obtain ⟨width, hwidth⟩ := scan_margins (fun c hc => l.marginWidth_isSome hc) hmargin
  have hchars : l.chars ++ rest = l.margin ++ (l.remark ++ l.ending ++ '\n' :: rest) := by simp [chars, row]
  have hrow : s.position.after l.row = (s.position.after l.margin).after (l.remark ++ l.ending) :=
    Position.after_append _ _ _
  have hafter : s.position.after l.chars = (s.position.after l.row).advance '\n' := Position.after_append _ _ _
  have hbody := l.scan_remark (s := { s with
    position := s.position.after l.margin, margin := some width }) hcontent hdepth rest
  rw [hchars, hwidth, hbody, tokens, hafter, hrow, hmargin]
  cases l.comment <;> rfl

theorem after_chars {p : Position} (h : p.column = 1) : p.after l.chars = p.down (byteSize l.chars) 1 := by
  have hline : ∀ (cs : List Char) (p : Position), '\n' ∉ cs → (p.after cs).line = p.line := by
    intro cs
    induction cs with
    | nil => exact fun _ _ => rfl
    | cons c cs ih =>
      intro p hcs
      obtain ⟨hc, hcs⟩ := not_or.1 (mem_cons.not.1 hcs)
      rw [Position.after_cons, ih _ hcs, Position.advance, if_neg (Ne.symm hc)]
  have hrow := hline l.row p l.newline_not_mem_row
  have hoffset := p.after_offset l.chars
  rw [chars, Position.after_append, Position.after_cons, Position.after_nil, Position.advance,
    if_pos rfl] at hoffset ⊢
  simp only [Position.down, hrow, h] at hoffset ⊢
  rw [hoffset]

end BlankLine

/-! ## Places above and below -/

def Span.parted (point : Lexer.Position) (bytes : Nat) (s : Span) : Span where
  start := if s.start < point.offset then s.start else s.start + bytes
  stop := if s.stop ≤ point.offset then s.stop else s.stop + bytes
  line := if s.line < point.line then s.line else s.line + 1
  column := s.column

namespace Lexer

variable {before after : List Char} {head tail : List Token}

/-- The point behind the first part of a text. -/
def pointBehind (before : List Char) : Position :=
  State.start.position.after before

theorem offset_pointBehind (before : List Char) : (pointBehind before).offset = byteSize before := by
  rw [pointBehind, Position.after_offset]
  exact Nat.zero_add _

theorem line_pointBehind (before : List Char) : (pointBehind before).line = 1 + before.count '\n' := by
  rw [pointBehind, Position.after_start]

theorem above_of_endsLine (hsource : tokenize (before ++ after) = head ++ tail) (h : EndsLine before head)
    (ht : t ∈ head) :
    t.span.start < byteSize before ∧ t.span.stop ≤ byteSize before ∧ t.span.line < (pointBehind before).line := by
  rcases h with ⟨-, rfl⟩ | ⟨text, ts, rfl, rfl⟩
  · cases ht
  have hsize : byteSize (text ++ ['\n']) = byteSize text + 1 := by
    rw [byteSize_append]
    rfl
  have hpairs := (tokenize_tiles (text ++ ['\n'] ++ after)).pairwise
  have hmem : t ∈ tokenize (text ++ ['\n'] ++ after) := by
    rw [hsource]
    exact mem_append_left _ ht
  obtain ⟨pre, rest, hpre, hpoint, hstop⟩ := tokenize_cuts hmem
  rw [hsource, pairwise_append, pairwise_append] at hpairs
  -- the line feed is the last of them
  have hle : t.span.start ≤ byteSize text ∧ t.span.stop ≤ byteSize text + 1 := by
    have hoffset : (State.start.position.after text).offset = byteSize text := offset_pointBehind text
    rcases mem_append.1 ht with hmem | hmem
    · have hbefore := hpairs.1.2.2 t hmem _ (mem_singleton_self _)
      simp only [Position.token, hoffset] at hbefore
      omega
    · rw [mem_singleton.1 hmem]
      simp only [Position.token, hoffset]
      exact ⟨Nat.le_refl _, Nat.le_refl _⟩
  refine ⟨by omega, by omega, ?_⟩
  have hstart : byteSize pre = t.span.start := by rw [← offset_pointBehind pre, pointBehind, hpoint]
  rw [append_assoc] at hpre
  obtain ⟨m, rfl, -⟩ := divide_further hpre.symm (by omega)
  have hline : t.span.line = 1 + pre.count '\n' := by rw [← line_pointBehind pre, pointBehind, hpoint]
  have hend : ['\n'].count '\n' = 1 := rfl
  rw [hline, line_pointBehind, count_append, count_append, hend]
  omega

theorem below_of_start_le (hsource : source = before ++ after)
    (ht : t ∈ tokenize source) (hle : byteSize before ≤ t.span.start) :
    (pointBehind before).line ≤ t.span.line := by
  obtain ⟨pre, rest, hpre, hpoint, -⟩ := tokenize_cuts ht
  have hstart : byteSize pre = t.span.start := by rw [← offset_pointBehind pre, pointBehind, hpoint]
  obtain ⟨m, rfl, -⟩ := divide_further (hsource.symm.trans hpre) (by omega)
  have hline : t.span.line = 1 + (before ++ m).count '\n' := by rw [← line_pointBehind, pointBehind, hpoint]
  rw [hline, line_pointBehind, count_append]
  omega

theorem start_lt_stop_of_word (ht : t ∈ tokenize source)
    (hword : Statement.isLayout t = false) : t.span.start < t.span.stop := by
  have hmem : t ∈ (tokenize source).filter (!Statement.isLayout ·) := mem_filter.2 ⟨ht, by simp [hword]⟩
  rw [filter_tokenize] at hmem
  exact start_lt_stop_of_mem_words hmem

end Lexer

namespace BlankLine

open Lexer

/-- The tokens of a text that `l` is put into, between the tokens `head` and `tail` of the text as it
was: the places above the line stay, those below it are moved. -/
structure Inserted (l : BlankLine) (before after : List Char) (head tail : List Token) : Prop where
  known : tokenize (before ++ after) = head ++ tail
  tokens : tokenize (before ++ (l.chars ++ after)) = head ++ (l.tokens (pointBehind before) ++
    tail.map (·.relocate (.down (byteSize l.chars) 1)))
  endsLine : EndsLine before head
  above : ∀ t ∈ head, t.span.stop ≤ byteSize before ∧
    t.relocate (.parted (pointBehind before) (byteSize l.chars)) = t
  below : ∀ t ∈ tail, byteSize before ≤ t.span.start ∧ (Statement.isLayout t = false →
    t.relocate (.parted (pointBehind before) (byteSize l.chars)) = t.relocate (.down (byteSize l.chars) 1))

theorem inserted {before after : List Char} (h : LineStart before after) (l : BlankLine) :
    ∃ head tail, l.Inserted before after head tail := by
  obtain ⟨head, s, hdivides, hfresh, hends⟩ := divides_of_lineStart h
  have hknown : tokenize (before ++ after) = head ++ Lexer.scan 0 s after := hdivides.scan_eq after (.inl rfl)
  have hnew : tokenize (before ++ (l.chars ++ after)) = head ++ Lexer.scan 0 s (l.chars ++ after) :=
    hdivides.scan_eq (l.chars ++ after) (.inr fun indents => l.continuesStatement_chars indents after)
  have hcolumn : (pointBehind before).column = 1 := by
    rcases hends with ⟨rfl, -⟩ | ⟨text, -, rfl, -⟩
    · rfl
    · rw [pointBehind, Position.after_append]
      rfl
  have hposition : s.position = pointBehind before := hdivides.position
  have hdown : { s with position := s.position.after l.chars } = s.down (byteSize l.chars) 1 := by
    rw [hposition, l.after_chars hcolumn, State.down, hposition]
  refine ⟨head, Lexer.scan 0 s after, hknown, ?_, hends, fun t ht => ?_, fun t ht => ?_⟩
  · rw [hnew, l.scan_chars hfresh, hdown, scan_down, hposition]
  · obtain ⟨hstart, hstop, hline⟩ := above_of_endsLine hknown hends ht
    rw [← offset_pointBehind] at hstart hstop
    refine ⟨offset_pointBehind before ▸ hstop, ?_⟩
    simp only [Token.relocate, Span.parted, if_pos hstart, if_pos hstop, if_pos hline]
  · have hstart := offset_le_of_mem_scan ht
    rw [hposition, offset_pointBehind] at hstart
    have hmem : t ∈ tokenize (before ++ after) := by
      rw [hknown]
      exact mem_append_right _ ht
    refine ⟨hstart, fun hword => ?_⟩
    have hnonempty := start_lt_stop_of_word hmem hword
    have hline := below_of_start_le rfl hmem hstart
    rw [← offset_pointBehind] at hstart
    have hstop : ¬ t.span.stop ≤ (pointBehind before).offset := by omega
    simp only [Token.relocate, Span.parted, Span.down, if_neg (Nat.not_lt.2 hstart), if_neg hstop,
      if_neg (Nat.not_lt.2 hline)]

end BlankLine

end ChartScript
