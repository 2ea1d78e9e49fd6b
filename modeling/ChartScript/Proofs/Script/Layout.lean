import ChartScript.Proofs.Script.Outline
import ChartScript.Proofs.Script.Parsed
import ChartScript.Proofs.Text.Rows
/-!
# The layout of a script

The lines of a script and the layout tokens between them are what the widths of their margins give,
as `Outline.laid` puts them together.
-/
namespace ChartScript

open List Text

variable {c : Char} {cs rest : List Char} {n : Nat} {kind : TokenKind} {s : State}

namespace Lexer

/-! ## Margins -/

theorem measure_cons {w : Nat} (rest : List Char) (h : marginWidth? c = some w) :
    measure (c :: rest) = (w + (measure rest).1, (measure rest).2) := by
  rw [measure, h]

theorem measure_of_none (rest : List Char) (h : marginWidth? c = none) : measure (c :: rest) = (0, c :: rest) := by
  rw [measure, h]

theorem startsComment_cons (c : Char) (rest : List Char) :
    startsComment (c :: rest) = (c == '/' && rest.head?.any fun d => d == '/' || d == '*') := by
  unfold startsComment
  split
  · next heq => cases heq; rfl
  · next heq => cases heq; rfl
  · next h1 h2 =>
    cases rest with
    | nil => simp
    | cons d rest =>
      have hslash : c = '/' → d ≠ '/' := fun hc hd => h1 rest (by rw [hc, hd])
      have hstar : c = '/' → d ≠ '*' := fun hc hd => h2 rest (by rw [hc, hd])
      simpa using fun hc => ⟨hslash hc, hstar hc⟩

theorem hasNoIndentation_onRow (cs : List Char) : hasNoIndentation (onRow cs) = hasNoIndentation cs := by
  cases cs with
  | nil => rfl
  | cons c rest =>
    by_cases hc : c = '\n'
    · subst hc; rfl
    · have hhead : (onRow rest).head?.any (fun d => d == '/' || d == '*') =
          rest.head?.any fun d => d == '/' || d == '*' := by
        cases rest with
        | nil => rfl
        | cons d rest =>
          by_cases hd : d = '\n'
          · subst hd; rfl
          · rw [onRow_cons rest hd]; rfl
      rw [onRow_cons rest hc, hasNoIndentation, startsComment_cons, hhead, hasNoIndentation, startsComment_cons]

theorem measure_onRow (cs : List Char) : measure (onRow cs) = ((measure cs).1, onRow (measure cs).2) := by
  induction cs with
  | nil => rfl
  | cons c rest ih =>
    by_cases hc : c = '\n'
    · subst hc
      rfl
    · rw [onRow_cons rest hc]
      cases hw : marginWidth? c with
      | none => rw [measure_of_none _ hw, measure_of_none _ hw, onRow_cons rest hc]
      | some w => rw [measure_cons _ hw, measure_cons _ hw, ih]

theorem hasNoIndentation_of_comment (h : lexeme c rest = .token .comment n) :
    hasNoIndentation (c :: rest) = true := by
  obtain ⟨hc, ⟨hd, -⟩ | ⟨hd, -⟩⟩ := comment_cases h <;> simp [hasNoIndentation, startsComment_cons, hc, hd]

theorem hasNoIndentation_of_word (h : lexeme c rest = .token kind n) (hk : kind ≠ .comment) :
    hasNoIndentation (c :: rest) = false := by
  have hb : isBlank c = false := isBlank_of_token h
  have hn : c ≠ '\n' := by rintro rfl; cases hb
  have hr : c ≠ '\r' := by rintro rfl; cases hb
  have hcomment : ¬ (c = '/' ∧ rest.head? = some '/') ∧ ¬ (c = '/' ∧ rest.head? = some '*') := by
    constructor <;> rintro ⟨rfl, hd⟩
    · rw [lexeme, hb] at h
      simp [hd] at h
      exact hk h.1.symm
    · rw [lexeme, hb] at h
      simp [hd] at h
      exact hk h.1.symm
  rw [hasNoIndentation, startsComment_cons]
  cases hhead : rest.head? with
  | none => simp [hn, hr]
  | some d =>
    simp only [hhead, Option.some.injEq, not_and] at hcomment
    simp [hn, hr]
    exact fun hc => ⟨hcomment.1 hc, hcomment.2 hc⟩

/-! ## Behind a comment -/

theorem blockComment_ends (cs : List Char) : cs.drop (blockCommentLength cs) = [] ∨
    ∃ text, cs.take (blockCommentLength cs) = text ++ ['/'] := by
  fun_induction blockCommentLength cs with
  | case1 => exact .inl rfl
  | case2 rest => exact .inr ⟨['*'], rfl⟩
  | case3 c rest _ ih =>
    rw [Nat.add_comm 1, drop_succ_cons, take_succ_cons]
    refine ih.imp_right ?_
    rintro ⟨text, htext⟩
    exact ⟨c :: text, by rw [htext]; rfl⟩

theorem leading_of_comment (h : lexeme c rest = .token .comment n) (pre : List Char) :
    (c :: rest).drop n = [] ∨ (leading (pre ++ (c :: rest).take n)).all isBlank = false := by
  have hslash : ∀ {lead : List Char}, '/' ∈ lead → lead.all isBlank = false := fun hmem =>
    all_eq_false.2 ⟨'/', hmem, by decide⟩
  obtain ⟨rfl, ⟨-, rfl⟩ | ⟨hd, rfl⟩⟩ := comment_cases h
  · -- a comment to the end of the row
    refine .inr (hslash ?_)
    have htake : ('/' :: rest).take (1 + (rest.takeWhile (· ≠ '\n')).length) = '/' :: onRow rest := by
      rw [Nat.add_comm, take_succ_cons, onRow]
      congr 1
      exact (prefix_iff_eq_take.1 (List.takeWhile_prefix _)).symm
    have hfree : '\n' ∉ '/' :: onRow rest := by
      simp only [mem_cons, not_or]
      refine ⟨by decide, fun hmem => ?_⟩
      have := mem_takeWhile_imp hmem
      simp at this
    rw [htake, leading_append pre hfree]
    simp
  · -- a comment that may span rows, but then ends on the row it is left on
    obtain ⟨more, rfl⟩ : ∃ more, rest = '*' :: more := by
      cases rest with
      | nil => cases hd
      | cons d more => cases hd; exact ⟨more, rfl⟩
    simp only [drop_succ_cons, drop_zero, Nat.add_comm 2, take_succ_cons]
    refine (blockComment_ends more).imp_right ?_
    rintro ⟨text, htext⟩
    apply hslash
    rw [htext]
    have := mem_leading_concat (c := '/') (pre ++ '/' :: '*' :: text) (by decide)
    simpa using this

/-! ## Steps of the pass -/

theorem scan_settle (rest : List Char) (h : marginWidth? c = none) :
    scan 0 s (c :: rest) = (s.settle (c :: rest)).1 ++ scan 0 (s.settle (c :: rest)).2 (c :: rest) := by
  have hm := s.settle_margin (c :: rest)
  have hp := s.settle_position (c :: rest)
  rw [scan_step rest (.inr h), scan_step rest (.inr h), State.settle_of_none _ hm, hp]
  dsimp only
  split <;> simp

theorem scan_past (hm : s.margin = none) (hx : lexeme c rest = .token kind n) :
    scan 0 s (c :: rest) = s.position.token kind ((c :: rest).take n) ::
      scan 0 (s.past kind (c :: rest) n) ((c :: rest).drop n) := by
  rw [scan_word_past hx, State.settle_of_none _ hm, nil_append]

/-! ## In a statement -/

def code (s : State) (cs : List Char) : List Token :=
  (scan 0 s cs).filter (·.kind != .comment)

def Completes (s : State) (cs : List Char) (ts : List Token) : Prop :=
  ∃ (ws : List Token) (stop : Token) (rest : List Char) (s' : State),
    ts = ws ++ stop :: code s' rest ∧ (∀ t ∈ ws, Statement.isLayout t = false) ∧
    stop.kind = .newline ∧ s'.indents = s.indents ∧ s'.hasContent = false ∧
    (rest = [] ∨ ∃ mid, cs = mid ++ '\n' :: rest ∧ s'.margin = some 0 ∧ s'.depth = 0 ∧
      s'.position = s.position.after (mid ++ ['\n']))

theorem Completes.cons {ts : List Token} {t : Token} (h : Completes s cs ts)
    (ht : Statement.isLayout t = false) : Completes s cs (t :: ts) := by
  obtain ⟨ws, stop, rest, s', rfl, hws, hrest⟩ := h
  exact ⟨t :: ws, stop, rest, s', rfl, forall_mem_cons.2 ⟨ht, hws⟩, hrest⟩

theorem Completes.behind {s' : State} {ts : List Token} (h : Completes s' cs ts) (read : List Char)
    (hi : s'.indents = s.indents) (hp : s'.position = s.position.after read) : Completes s (read ++ cs) ts := by
  obtain ⟨ws, stop, rest, s'', hts, hws, hstop, hindents, hfresh, hrest⟩ := h
  refine ⟨ws, stop, rest, s'', hts, hws, hstop, hindents.trans hi, hfresh, hrest.imp_right ?_⟩
  rintro ⟨mid, rfl, hm, hd, hpos⟩
  exact ⟨read ++ mid, by simp, hm, hd, by rw [hpos, hp, append_assoc, ← Position.after_append]⟩

theorem completes_code (s : State) (cs : List Char) (hm : s.margin = none)
    (hc : s.hasContent = true) : Completes s cs (code s cs) := by
  induction s, cs using scan_induction with
  | finish s =>
    refine ⟨[], s.token .newline [], [], { s with hasContent := false }, ?_, by simp, rfl, rfl, rfl, .inl rfl⟩
    simp [code, State.finish, hc, State.token]
  | step s cs ts s' rest h ih =>
    rw [code, h.scan_eq, filter_append]
    cases h with
    | ends hends =>
      have hd : s.depth = 0 := by
        simp only [State.endsStatement, Bool.and_eq_true, beq_iff_eq] at hends
        exact hends.1
      exact ⟨[], s.position.token .newline ['\n'], rest, s.below, rfl, by simp, rfl, rfl, rfl,
        .inr ⟨[], rfl, rfl, hd, rfl⟩⟩
    | runsOn =>
      -- within brackets, or before a line that continues this one
      exact (ih rfl hc).behind ['\n'] rfl rfl
    | margin hw => rw [hm] at hw; cases hw
    | @blank c rest =>
      rw [State.settle_of_none _ hm] at ih ⊢
      exact (ih hm hc).behind [c] rfl rfl
    | @word c rest kind n hx =>
      rw [State.settle_of_none _ hm] at ih ⊢
      have hrest := (ih hm (by simp [State.past, State.note, hc])).behind (s := s) ((c :: rest).take n) rfl rfl
      rw [take_append_drop] at hrest
      rw [nil_append, filter_cons]
      split
      · exact hrest.cons (lexeme_not_layout hx _ _)
      · exact hrest

end Lexer

namespace Statement

/-! ## Items -/

theorem items_stop {t stop : Token} {ws : List Token} (more : List Token) (ht : isLayout t = false)
    (hws : ∀ w ∈ ws, isLayout w = false) (hstop : stop.kind = .newline) :
    items (t :: (ws ++ stop :: more)) = .line (t :: ws) :: items more := by
  have hlayout : isLayout stop = true := by simp [isLayout, hstop]
  have hwords : ∀ w ∈ ws, (!isLayout w) = true := fun w hw => by simp [hws w hw]
  rw [items_line _ ht, takeWhile_append_of_pos hwords, dropWhile_append_of_pos hwords,
    takeWhile_cons_of_neg (by simp [hlayout]), dropWhile_cons_of_neg (by simp [hlayout]), append_nil, items, hstop]

theorem kind_ne_comment {t : Token} (h : isLayout t = true) : (t.kind != .comment) = true := by
  unfold isLayout at h
  split at h <;> simp_all

theorem items_reindent (s : Lexer.State) (width : Nat) (more : List Token) :
    items ((Lexer.reindent s.indents width).1.map (s.token · []) ++ more) =
    (Lexer.reindent s.indents width).1.filterMap Outline.laid.item? ++ items more := by
  have hkinds : ∀ k ∈ (Lexer.reindent s.indents width).1, k = .indent ∨ k = .dedent := by
    intro k hk
    simp only [Lexer.reindent] at hk
    split at hk
    · rcases mem_append.1 hk with hk | hk
      · exact .inr (eq_of_mem_replicate hk)
      · exact .inl (mem_singleton.1 hk)
    · exact .inr (eq_of_mem_replicate hk)
  generalize (Lexer.reindent s.indents width).1 = kinds at hkinds
  induction kinds with
  | nil => rfl
  | cons k kinds ih =>
    have hrest := ih fun k' hk' => hkinds k' (.tail _ hk')
    rcases hkinds k (.head _) with rfl | rfl
    · rw [map_cons, cons_append, items, hrest]; rfl
    · rw [map_cons, cons_append, items, hrest]; rfl

theorem items_finish {s : Lexer.State} (h : s.hasContent = false) :
    items (Lexer.code s []) = List.replicate s.indents.length .dedent := by
  have hcode : Lexer.code s [] = s.indents.map (fun _ => s.token .dedent []) ++ [s.token .eof []] := by
    simp [Lexer.code, Lexer.State.finish, h, Lexer.State.token]
  rw [hcode]
  induction s.indents with
  | nil => rfl
  | cons width indents ih => rw [map_cons, cons_append, items, ih]; rfl

end Statement

namespace Script

open Lexer Statement State

/-! ## Before a statement -/

def Awaits (pre cs : List Char) : Prop :=
  (leading pre).all isBlank = true ∧ hasNoIndentation (trimStart (onRow cs)) = false

theorem not_awaits_nil (pre : List Char) : ¬ Awaits pre [] := by
  rintro ⟨-, h⟩; cases h

theorem not_awaits_newline (pre rest : List Char) : ¬ Awaits pre ('\n' :: rest) := by
  rintro ⟨-, h⟩; cases h

theorem awaits_concat (pre rest : List Char) (hb : isBlank c = true) (hc : c ≠ '\n') :
    Awaits (pre ++ [c]) rest ↔ Awaits pre (c :: rest) := by
  rw [Awaits, Awaits, leading_append pre (by simpa using hc.symm), onRow_cons rest hc, trimStart,
    trimStart, dropWhile_cons_of_pos hb]
  simp [hb]

theorem trimStart_onRow (rest : List Char) (hb : isBlank c = false) :
    hasNoIndentation (trimStart (onRow (c :: rest))) = hasNoIndentation (c :: rest) := by
  have hc : c ≠ '\n' := by rintro rfl; cases hb
  rw [← hasNoIndentation_onRow (c :: rest), onRow_cons rest hc, trimStart, dropWhile_cons_of_neg (by simp [hb])]

theorem awaits_word (pre : List Char) (hx : lexeme c rest = .token kind n) (hk : kind ≠ .comment) :
    Awaits pre (c :: rest) ↔ (leading pre).all isBlank = true := by
  rw [Awaits, trimStart_onRow rest (isBlank_of_token hx), hasNoIndentation_of_word hx hk]
  exact and_iff_left rfl

theorem not_awaits_comment (pre : List Char) (hx : lexeme c rest = .token .comment n) :
    ¬ Awaits pre (c :: rest) := by
  rw [Awaits, trimStart_onRow rest (isBlank_of_token hx), hasNoIndentation_of_comment hx]
  rintro ⟨-, h⟩; cases h

theorem not_awaits_behind (pre : List Char) (hx : lexeme c rest = .token .comment n) :
    ¬ Awaits (pre ++ (c :: rest).take n) ((c :: rest).drop n) := by
  rcases leading_of_comment hx pre with hend | hlead
  · rw [hend]; exact not_awaits_nil _
  · rintro ⟨hblank, -⟩
    rw [hlead] at hblank; cases hblank

/-! ## Lines and their widths -/

/-- Width of the blanks at the start of the row that a line begins on. -/
def indentation (source : List Char) (line : List Token) : Nat :=
  (measure (rowAt source (headSpan line).start)).1

/-- Only blanks come before the line on its row. -/
def beginsRow (source : List Char) (line : List Token) : Bool :=
  (leadAt source (headSpan line).start).all isBlank

def LaidOut (source : List Char) (indents : List Nat) (items : List Item) : Prop :=
  ∃ lines, items = Outline.laid indents lines ∧
    ∀ l ∈ lines, beginsRow source l.2 = true → l.1 = indentation source l.2

variable {pre source : List Char} {width : Nat}

theorem LaidOut.line {indents : List Nat} {items : List Item} {line : List Token}
    (h : LaidOut source (reindent indents width).2 items)
    (hw : beginsRow source line = true → width = indentation source line) :
    LaidOut source indents ((reindent indents width).1.filterMap Outline.laid.item? ++ .line line :: items) := by
  obtain ⟨lines, rfl, hlines⟩ := h
  exact ⟨(width, line) :: lines, rfl, forall_mem_cons.2 ⟨hw, hlines⟩⟩

theorem LaidOut.line_inside {indents : List Nat} {items : List Item} {line : List Token}
    (h : LaidOut source indents items) (hline : beginsRow source line = false) :
    LaidOut source indents (.line line :: items) := by
  have hsame : reindent indents (indents.headD 0) = ([], indents) := by
    cases indents with
    | nil => rfl
    | cons width indents => simp [reindent]
  have hlaid : LaidOut source indents ((reindent indents (indents.headD 0)).1.filterMap
      Outline.laid.item? ++ .line line :: items) :=
    LaidOut.line (by rwa [hsame]) (by simp [hline])
  rwa [hsame] at hlaid

/-! ## From statement to statement -/

/-- The pass has read `pre`, and no statement has begun that is not over. -/
structure Between (source : List Char) (s : State) (pre cs : List Char) : Prop where
  split : source = pre ++ cs
  offset : s.position.offset = byteSize pre
  fresh : s.hasContent = false
  closed : s.depth = 0

theorem Between.behind {s' : State} (read : List Char) (h : Between source s pre (read ++ cs))
    (hp : s'.position = s.position.after read) (hf : s'.hasContent = false) (hd : s'.depth = 0) :
    Between source s' (pre ++ read) cs :=
  ⟨by rw [h.split, append_assoc], by rw [hp, Position.after_offset, h.offset, byteSize_append], hf, hd⟩

/-- What was read of the row is a margin of the given width so far. -/
structure InMargin (width : Nat) (pre cs : List Char) : Prop where
  blank : (leading pre).all isBlank = true
  width : measure (row pre cs) = (width + (measure (onRow cs)).1, (measure (onRow cs)).2)

theorem inMargin_zero (cs : List Char) (h : leading pre = []) : InMargin 0 pre cs :=
  ⟨by rw [h]; rfl, by rw [row, h, nil_append, Nat.zero_add]⟩

theorem InMargin.concat {w : Nat} (h : InMargin width pre (c :: rest))
    (hw : marginWidth? c = some w) : InMargin (width + w) (pre ++ [c]) rest := by
  have hb := isBlank_of_marginWidth hw
  have hc : c ≠ '\n' := by rintro rfl; cases hw
  refine ⟨?_, ?_⟩
  · rw [leading_append pre (by simpa using hc.symm)]
    simp [h.blank, hb]
  · rw [row_concat pre rest hc, h.width, onRow_cons rest hc, measure_cons _ hw, Nat.add_assoc]

theorem items_word (h : Between source s pre (c :: rest)) (hm : s.margin = none)
    (hx : lexeme c rest = .token kind n) (hk : kind ≠ .comment) :
    ∃ (line : List Token) (rest' : List Char) (s' : State), items (code s (c :: rest)) =
    .line line :: items (code s' rest') ∧ (headSpan line).start = byteSize pre ∧ s'.indents = s.indents ∧
    s'.hasContent = false ∧ (rest' = [] ∨ ∃ pre', rest'.length < (c :: rest).length ∧ Between source s' pre' rest' ∧
    s'.margin = some 0 ∧ leading pre' = []) := by
  have hlayout : isLayout (s.position.token kind ((c :: rest).take n)) = false := lexeme_not_layout hx _ _
  have hcontent : (s.note kind).hasContent = true := by
    cases kind <;> simp_all [note, TokenKind.isTrivia, isLayout, Position.token]
  have hdone := (completes_code (s.past kind (c :: rest) n) ((c :: rest).drop n) hm hcontent).behind
    (s := s) ((c :: rest).take n) rfl rfl
  obtain ⟨ws, stop, rest', s', hcode, hws, hstop, hindents, hfresh, hrest⟩ := hdone
  have hline : code s (c :: rest) =
      s.position.token kind ((c :: rest).take n) :: (ws ++ stop :: code s' rest') := by
    rw [code, scan_past hm hx, filter_cons_of_pos (by simpa [Position.token] using hk), ← hcode]
    rfl
  refine ⟨_, rest', s', hline ▸ items_stop _ hlayout hws hstop, ?_, hindents, hfresh, hrest.imp_right ?_⟩
  · simpa [headSpan, Position.token] using h.offset
  · rintro ⟨mid, hmid, hmargin, hdepth, hpos⟩
    have hall : c :: rest = (mid ++ ['\n']) ++ rest' := by simpa using hmid
    refine ⟨pre ++ (mid ++ ['\n']), ?_, (hall ▸ h).behind _ hpos hfresh hdepth, hmargin, ?_⟩
    · rw [hall, length_append, length_append, length_singleton]
      omega
    · rw [← append_assoc, leading_newline]

/-! ## The layout of a text -/

/-- In front of a statement, spaces and tabs are followed by the statement or by other blanks; on
any other row by nothing or by a comment. -/
def PlainMargins (source : List Char) : Prop :=
  ∀ row ∈ rows source, hasNoIndentation (trimStart row) = hasNoIndentation (measure row).2

instance (source : List Char) : Decidable (PlainMargins source) :=
  inferInstanceAs (Decidable (∀ row ∈ rows source, _))

/-- What reading gives from `cs` on, whatever was read before it. -/
structure Lays (source cs : List Char) : Prop where
  idle (pre : List Char) (s : State) : Between source s pre cs → s.margin = none →
    ¬ Awaits pre cs → LaidOut source s.indents (items (code s cs))
  awaited (pre : List Char) (s : State) : Between source s pre cs → s.margin = none →
    Awaits pre cs → ∃ line more, items (code s cs) = .line line :: more ∧
      indentation source line = (measure (row pre cs)).1 ∧ LaidOut source s.indents more
  margin (pre : List Char) (s : State) (width : Nat) : Between source s pre cs →
    s.margin = some width → InMargin width pre cs → LaidOut source s.indents (items (code s cs))

theorem laidOut_finish (source : List Char) (h : s.hasContent = false) :
    LaidOut source s.indents (items (code s [])) :=
  ⟨[], by rw [items_finish h, Outline.laid], by simp⟩

theorem line_of_word (h : Between source s pre (c :: rest)) (hm : s.margin = none)
    (hx : lexeme c rest = .token kind n) (hk : kind ≠ .comment)
    (below : ∀ cs, cs.length < (c :: rest).length → Lays source cs) :
    ∃ line more, items (code s (c :: rest)) = .line line :: more ∧ (headSpan line).start = byteSize pre ∧
    LaidOut source s.indents more := by
  obtain ⟨line, rest', s', hitems, hstart, hindents, hfresh, hrest⟩ := items_word h hm hx hk
  refine ⟨line, _, hitems, hstart, ?_⟩
  rw [← hindents]
  rcases hrest with rfl | ⟨pre', hlt, hbetween, hmargin, hlead⟩
  · exact laidOut_finish source hfresh
  · exact (below rest' hlt).margin pre' s' 0 hbetween hmargin (inMargin_zero rest' hlead)

section

variable {source : List Char} {pre : List Char} {s : State}

theorem laidOut_idle (h : Between source s pre cs) (hm : s.margin = none) (hidle : ¬ Awaits pre cs)
    (below : ∀ cs', cs'.length < cs.length → Lays source cs') : LaidOut source s.indents (items (code s cs)) := by
  cases cs with
  | nil => exact laidOut_finish source h.fresh
  | cons c rest =>
    have hrest : rest.length < (c :: rest).length := by simp
    by_cases hc : c = '\n'
    · subst hc
      have hends : s.endsStatement rest = true := by simp [endsStatement, h.closed, h.fresh]
      rw [code, scan_newline, if_pos hends]
      exact (below rest hrest).margin (pre ++ ['\n'])
        s.below 0 (h.behind ['\n'] rfl rfl h.closed) rfl (inMargin_zero rest (leading_newline pre))
    · cases hx : lexeme c rest with
      | gap =>
        have hb := isBlank_of_gap hx
        rw [code, scan_blank rest hb hc (.inl hm), settle_of_none _ hm]
        exact (below rest hrest).idle (pre ++ [c]) (s.advance c)
          (h.behind [c] rfl h.fresh h.closed) hm (mt (awaits_concat pre rest hb hc).1 hidle)
      | token kind n =>
        by_cases hk : kind = .comment
        · subst hk
          have hlt : ((c :: rest).drop n).length < (c :: rest).length := by
            have := (lexeme_length hx).1
            rw [length_drop, length_cons]; omega
          rw [code, scan_past hm hx]
          exact (below _ hlt).idle (pre ++ (c :: rest).take n) (s.past .comment (c :: rest) n)
            (Between.behind ((c :: rest).take n) (by rwa [take_append_drop]) rfl
              (by simp [past, note, h.fresh, TokenKind.isTrivia])
              (by simp [past, note, bracketDepth, h.closed])) hm (not_awaits_behind pre hx)
        · -- the line does not begin its row, and gets the width of the block it is in
          obtain ⟨line, more, hitems, hstart, hmore⟩ := line_of_word h hm hx hk below
          have hline : beginsRow source line = false := by
            rw [beginsRow, hstart, h.split, leadAt_append]
            exact Bool.eq_false_iff.2 (mt (awaits_word pre hx hk).2 hidle)
          rw [hitems]
          exact hmore.line_inside hline

theorem laidOut_awaited (h : Between source s pre cs) (hm : s.margin = none) (hawaits : Awaits pre cs)
    (below : ∀ cs', cs'.length < cs.length → Lays source cs') :
    ∃ line more, items (code s cs) = .line line :: more ∧ indentation source line = (measure (row pre cs)).1 ∧
    LaidOut source s.indents more := by
  cases cs with
  | nil => exact absurd hawaits (not_awaits_nil pre)
  | cons c rest =>
    have hrest : rest.length < (c :: rest).length := by simp
    have hc : c ≠ '\n' := by rintro rfl; exact not_awaits_newline pre rest hawaits
    cases hx : lexeme c rest with
    | gap =>
      have hb := isBlank_of_gap hx
      rw [code, scan_blank rest hb hc (.inl hm), settle_of_none _ hm, ← row_concat pre rest hc]
      exact (below rest hrest).awaited (pre ++ [c]) (s.advance c)
        (h.behind [c] rfl h.fresh h.closed) hm ((awaits_concat pre rest hb hc).2 hawaits)
    | token kind n =>
      have hk : kind ≠ .comment := by rintro rfl; exact not_awaits_comment pre hx hawaits
      obtain ⟨line, more, hitems, hstart, hmore⟩ := line_of_word h hm hx hk below
      exact ⟨line, more, hitems, by rw [indentation, hstart, h.split, rowAt_append], hmore⟩

theorem laidOut_margin (hplain : PlainMargins source) (h : Between source s pre cs) (hm : s.margin = some width)
    (hin : InMargin width pre cs) (below : ∀ cs', cs'.length < cs.length → Lays source cs') :
    LaidOut source s.indents (items (code s cs)) := by
  cases cs with
  | nil => exact laidOut_finish source h.fresh
  | cons c rest =>
    cases hw : marginWidth? c with
    | some w =>
      rw [code, scan_margin rest hm hw]
      exact (below rest (by simp)).margin (pre ++ [c]) (s.indented c (width + w)) (width + w)
        (h.behind [c] rfl h.fresh h.closed) rfl (hin.concat hw)
    | none =>
      have hrow : measure (row pre (c :: rest)) = (width, onRow (c :: rest)) := by
        rw [hin.width]
        by_cases hc : c = '\n'
        · subst hc; rfl
        · rw [onRow_cons rest hc, measure_of_none _ hw]; rfl
      -- the pass looks behind the spaces and tabs only, which is enough in a plain margin
      have hawaits : Awaits pre (c :: rest) ↔ hasNoIndentation (c :: rest) = false := by
        have hsame := hplain _ (h.split ▸ row_mem pre (c :: rest))
        rw [hrow, hasNoIndentation_onRow, row, trimStart,
          dropWhile_append_of_pos (all_eq_true.1 hin.blank), ← trimStart] at hsame
        rw [Awaits, hsame]
        exact and_iff_right hin.blank
      rw [code, scan_settle rest hw, filter_append]
      cases hno : hasNoIndentation (c :: rest) with
      | true =>
        have hsettle : s.settle (c :: rest) = ([], { s with margin := none }) := by rw [settle, hm]; simp [hno]
        rw [hsettle]
        exact laidOut_idle (s := { s with margin := none }) ⟨h.split, h.offset, h.fresh, h.closed⟩
          rfl (mt hawaits.1 (by simp [hno])) below
      | false =>
        have hsettle : s.settle (c :: rest) = ((reindent s.indents width).1.map (s.token · []),
            { s with margin := none, indents := (reindent s.indents width).2 }) := by
          rw [settle, hm]; simp [hno]
        have hlayout := s.settle_layout (c :: rest)
        rw [hsettle] at hlayout ⊢
        obtain ⟨line, more, hitems, hwidth, hmore⟩ :=
          laidOut_awaited (s := { s with margin := none, indents := (reindent s.indents width).2 })
            ⟨h.split, h.offset, h.fresh, h.closed⟩ rfl (hawaits.2 hno) below
        rw [filter_eq_self.2 fun t ht => kind_ne_comment (hlayout t ht), items_reindent, ← code, hitems]
        exact hmore.line fun _ => by rw [hwidth, hrow]

end

theorem lays (h : PlainMargins source) (cs : List Char) : Lays source cs := by
  -- The length goes down in each mode but one: where a margin ends, nothing is read.
  induction hlen : cs.length using Nat.strongRecOn generalizing cs with
  | _ len ih =>
    have below : ∀ cs' : List Char, cs'.length < cs.length → Lays source cs' :=
      fun cs' hlt => ih cs'.length (hlen ▸ hlt) cs' rfl
    exact ⟨fun _ _ hbetween hm hidle => laidOut_idle hbetween hm hidle below,
      fun _ _ hbetween hm hawaits => laidOut_awaited hbetween hm hawaits below,
      fun _ _ _ hbetween hm hin => laidOut_margin h hbetween hm hin below⟩

theorem laidOut_tokens (h : PlainMargins source) : LaidOut source [] (items (tokens source)) :=
  (lays h source).margin [] .start 0 ⟨rfl, rfl, rfl, rfl⟩ rfl (inMargin_zero source rfl)

end Script

end ChartScript
