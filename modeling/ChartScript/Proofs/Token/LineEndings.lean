import ChartScript.Proofs.Token.RowEnds
/-!
# Line endings

A text may end its lines with a line feed, or with a carriage return and a line feed. It has the same
tokens either way, apart from the places and from comments, which hold the carriage returns on them.

Both texts are read in step. A carriage return before a line feed is met in a margin, behind a word,
in a comment or in a quote that is not closed, and in the row that a line end looks ahead to; in none
of these does it make a difference.
-/
namespace ChartScript

open List

/-- The tokens are of one kind, and unless they are comments they have the same characters. -/
def Token.ReadsAs (t u : Token) : Prop :=
  t.kind = u.kind ∧ (t.kind ≠ .comment → t.text = u.text)

variable {c : Char} {cs : List Char}

namespace Text

/-- The text with a carriage return before every line feed. -/
def withReturns (cs : List Char) : List Char :=
  cs.flatMap fun c => if c = '\n' then ['\r', '\n'] else [c]

@[simp] theorem withReturns_nil : withReturns [] = [] := rfl

@[simp] theorem withReturns_newline (cs : List Char) :
    withReturns ('\n' :: cs) = '\r' :: '\n' :: withReturns cs := rfl

theorem withReturns_cons (cs : List Char) (h : c ≠ '\n') : withReturns (c :: cs) = c :: withReturns cs := by
  simp [withReturns, h]

theorem withReturns_append (as bs : List Char) : withReturns (as ++ bs) = withReturns as ++ withReturns bs :=
  flatMap_append

theorem withReturns_row (h : '\n' ∉ cs) : withReturns cs = cs := by
  induction cs with
  | nil => rfl
  | cons c cs ih =>
    have hc : c ≠ '\n' := fun heq => h (heq ▸ mem_cons_self)
    rw [withReturns_cons cs hc, ih fun hmem => h (mem_cons_of_mem _ hmem)]

end Text

namespace Lexer

open Text

/-! ## Rows -/

theorem withReturns_onRow (cs : List Char) : withReturns cs = onRow cs ++ withReturns (belowRow cs) := by
  conv => lhs; rw [← onRow_append_belowRow cs, withReturns_append, withReturns_row (newline_not_mem_onRow cs)]

theorem rowEnd_withReturns (cs : List Char) : RowEnd (withReturns (belowRow cs)) := by
  rcases belowRow_cases cs with h | ⟨rest, h⟩
  · rw [h]; exact .nil
  · rw [h]; exact .returned _

theorem startsComment_withReturns (c : Char) (rest : List Char) :
    startsComment (c :: withReturns rest) = startsComment (c :: rest) := by
  rw [withReturns_onRow, (rowEnd_withReturns rest).startsComment_append, startsComment_onRow]

theorem hasNoIndentation_withReturns (c : Char) (rest : List Char) :
    hasNoIndentation (c :: withReturns rest) = hasNoIndentation (c :: rest) := by
  rw [hasNoIndentation, startsComment_withReturns, hasNoIndentation]

theorem continuesStatement_withReturns (indents : List Nat) (cs : List Char) :
    continuesStatement indents (withReturns cs) = continuesStatement indents cs := by
  rw [withReturns_onRow, (rowEnd_withReturns cs).continuesStatement_append, continuesStatement_onRow]

/-! ## Words -/

variable {rest : List Char}

variable {kind : TokenKind} {n : Nat} {s : State}

theorem lexeme_withReturns (h : lexeme c rest = .token kind n) (hk : kind ≠ .comment) :
    lexeme c (withReturns rest) = .token kind n ∧ (c :: withReturns rest).take n = (c :: rest).take n ∧
    (c :: withReturns rest).drop n = withReturns ((c :: rest).drop n) := by
  have hstart := startsComment_of_token h hk
  have hrow : lexeme c (onRow rest) = .token kind n := (lexeme_onRow hstart).trans h
  have hn : n ≤ (c :: onRow rest).length := (lexeme_length hrow).2
  have hsplit : c :: rest = (c :: onRow rest) ++ belowRow rest := by rw [cons_append, onRow_append_belowRow]
  have hsplit' : c :: withReturns rest = (c :: onRow rest) ++ withReturns (belowRow rest) := by
    rw [cons_append, ← withReturns_onRow]
  have hfree : '\n' ∉ (c :: onRow rest).drop n := by
    obtain ⟨k, rfl⟩ : ∃ k, n = k + 1 := ⟨n - 1, by have := (lexeme_length h).1; omega⟩
    exact fun hmem => newline_not_mem_onRow rest (mem_of_mem_drop hmem)
  refine ⟨?_, ?_, ?_⟩
  · rw [withReturns_onRow, lexeme_append (rowEnd_withReturns rest)
      ((startsComment_onRow c rest).trans hstart), hrow]
  · rw [hsplit, hsplit', take_append_of_le_length hn, take_append_of_le_length hn]
  · rw [hsplit, hsplit', drop_append_of_le_length hn, drop_append_of_le_length hn,
      withReturns_append, withReturns_row hfree]

theorem head?_withReturns {d : Char} (hn : d ≠ '\n') (hr : d ≠ '\r') (cs : List Char) :
    (withReturns cs).head? = some d ↔ cs.head? = some d := by
  cases cs with
  | nil => rfl
  | cons c cs =>
    by_cases hc : c = '\n'
    · subst hc
      simp [hn.symm, hr.symm]
    · rw [withReturns_cons cs hc]
      rfl

theorem blockCommentLength_withReturns (cs : List Char) : blockCommentLength (withReturns cs) =
    (withReturns (cs.take (blockCommentLength cs))).length := by
  induction cs with
  | nil => rfl
  | cons c cs ih =>
    by_cases hc : c = '\n'
    · subst hc
      rw [withReturns_newline, blockCommentLength_cons, if_neg (by simp), blockCommentLength_cons,
        if_neg (by simp), ih, blockCommentLength_cons, if_neg (by simp),
        Nat.add_comm 1 (blockCommentLength cs), take_succ_cons, withReturns_newline]
      simp only [length_cons]
      omega
    · have hhead := head?_withReturns (d := '/') (by decide) (by decide) cs
      rw [withReturns_cons cs hc, blockCommentLength_cons, blockCommentLength_cons]
      by_cases hclose : c = '*' ∧ cs.head? = some '/'
      · obtain ⟨rfl, hslash⟩ := hclose
        obtain ⟨more, rfl⟩ := head?_eq_some_iff.1 hslash
        rfl
      · rw [if_neg hclose, if_neg fun hw => hclose ⟨hw.1, hhead.1 hw.2⟩, ih, Nat.add_comm 1 (blockCommentLength cs),
          take_succ_cons, withReturns_cons _ hc, length_cons, Nat.add_comm 1]

theorem comment_withReturns (h : lexeme c rest = .token .comment n) :
    ∃ n', lexeme c (withReturns rest) = .token .comment n' ∧
    ((c :: withReturns rest).drop n' = withReturns ((c :: rest).drop n) ∨
    ∃ more, (c :: rest).drop n = '\n' :: more ∧ (c :: withReturns rest).drop n' = '\n' :: withReturns more) := by
  have hblank := isBlank_of_token h
  obtain ⟨rfl, ⟨hd, rfl⟩ | ⟨hd, rfl⟩⟩ := comment_cases h
  · -- up to the end of the row
    have hd' := (head?_withReturns (d := '/') (by decide) (by decide) rest).2 hd
    refine ⟨1 + (onRow (withReturns rest)).length, ?_, ?_⟩
    · rw [lexeme, if_neg (by simp [hblank]), if_pos ⟨rfl, hd'⟩, onRow]
    have hdrop : ∀ cs : List Char, ('/' :: cs).drop (1 + (onRow cs).length) = belowRow cs := by
      intro cs
      rw [Nat.add_comm, drop_succ_cons]
      conv => lhs; arg 2; rw [← onRow_append_belowRow cs]
      exact drop_left
    rw [hdrop, ← onRow, hdrop]
    have hbelow : belowRow (withReturns rest) = belowRow (withReturns (belowRow rest)) := by
      rw [withReturns_onRow, belowRow, dropWhile_append_of_pos]
      · rfl
      · intro d hmem
        simpa using fun heq : d = '\n' => newline_not_mem_onRow rest (heq ▸ hmem)
    rw [hbelow]
    rcases belowRow_cases rest with hnil | ⟨more, hmore⟩
    · exact .inl (by rw [hnil]; rfl)
    · exact .inr ⟨more, hmore, by rw [hmore]; rfl⟩
  · -- up to the end of the comment
    obtain ⟨more, rfl⟩ := head?_eq_some_iff.1 hd
    have hstar : withReturns ('*' :: more) = '*' :: withReturns more := withReturns_cons more (by decide)
    refine ⟨2 + blockCommentLength (withReturns more), ?_, .inl ?_⟩
    · rfl
    · rw [hstar, Nat.add_comm 2, Nat.add_comm 2, drop_succ_cons, drop_succ_cons, drop_succ_cons, drop_succ_cons,
        drop_one, tail_cons, blockCommentLength_withReturns]
      conv => lhs; arg 2; rw [← take_append_drop (blockCommentLength more) more, withReturns_append]
      exact drop_left

/-! ## Reading in step -/

def State.at (s : State) (p : Position) : State :=
  { s with position := p }

def InStep (s : State) (p : Position) (cs' cs : List Char) : Prop :=
  List.Forall₂ Token.ReadsAs (scan 0 (s.at p) cs') (scan 0 s cs)

theorem readsAs_token (p q : Position) (kind : TokenKind) (chars : List Char) :
    (p.token kind chars).ReadsAs (q.token kind chars) :=
  ⟨rfl, fun _ => rfl⟩

theorem forall₂_tokens (p q : Position) (kinds : List TokenKind) :
    List.Forall₂ Token.ReadsAs (kinds.map (p.token · [])) (kinds.map (q.token · [])) := by
  induction kinds with
  | nil => exact .nil
  | cons kind kinds ih => exact .cons (readsAs_token p q kind []) ih

theorem finish_at (s : State) (p : Position) : List.Forall₂ Token.ReadsAs (s.at p).finish s.finish := by
  have hdedents := forall₂_tokens p s.position (s.indents.map fun _ => .dedent)
  rw [map_map, map_map] at hdedents
  have heof : List.Forall₂ Token.ReadsAs [p.token .eof []] [s.position.token .eof []] :=
    .cons (readsAs_token ..) .nil
  refine rel_append (rel_append ?_ hdedents) heof
  show List.Forall₂ _ (if s.hasContent then [_] else []) (if s.hasContent then [_] else [])
  split
  · exact .cons (readsAs_token ..) .nil
  · exact .nil

theorem settle_at (s : State) (p : Position) {cs' : List Char} (h : hasNoIndentation cs' = hasNoIndentation cs) :
    ((s.at p).settle cs').2 = (s.settle cs).2.at p ∧
    List.Forall₂ Token.ReadsAs ((s.at p).settle cs').1 (s.settle cs).1 := by
  cases hm : s.margin with
  | none =>
    rw [State.settle_of_none (s := s.at p) _ hm, State.settle_of_none _ hm]
    exact ⟨rfl, .nil⟩
  | some width =>
    have hat : (s.at p).margin = some width := hm
    simp only [State.settle, hat, hm, h]
    split
    · exact ⟨rfl, .nil⟩
    · exact ⟨rfl, forall₂_tokens p s.position _⟩

theorem inStep_newline (ih : ∀ (s : State) (p : Position), InStep s p (withReturns rest) rest)
    (p : Position) : InStep s p ('\n' :: withReturns rest) ('\n' :: rest) := by
  have hends : (s.at p).endsStatement (withReturns rest) = s.endsStatement rest := by
    simp only [State.endsStatement, State.at, continuesStatement_withReturns]
  rw [InStep, scan_newline, scan_newline, hends]
  split
  · exact .cons (readsAs_token ..) (ih s.below (p.advance '\n'))
  · exact ih s.onward (p.advance '\n')

theorem inStep_returned (ih : ∀ (s : State) (p : Position), InStep s p (withReturns rest) rest)
    (p : Position) : InStep s p (withReturns ('\n' :: rest)) ('\n' :: rest) := by
  rw [withReturns_newline, InStep, scan_returned]
  exact inStep_newline (s := s) ih (p.advance '\r')

theorem inStep_word {n' : Nat} {p : Position}
    (hc : hasNoIndentation (c :: cs) = hasNoIndentation (c :: rest)) (hx : lexeme c rest = .token kind n)
    (hx' : lexeme c cs = .token kind n') (htext : kind ≠ .comment → (c :: cs).take n' = (c :: rest).take n)
    (ih : ∀ (s : State) (p : Position), InStep s p ((c :: cs).drop n') ((c :: rest).drop n)) :
    InStep s p (c :: cs) (c :: rest) := by
  obtain ⟨hstate, hlayout⟩ := settle_at s p hc
  rw [InStep, scan_settle cs (marginWidth_of_token hx'), scan_settle rest (marginWidth_of_token hx), hstate]
  refine rel_append hlayout ?_
  generalize (s.settle (c :: rest)).2 = s', s.settle_margin (c :: rest) = hm
  rw [scan_past hm hx, scan_past (s := s'.at p) hm hx']
  refine .cons ⟨rfl, fun hk => ?_⟩ (ih (s'.past kind (c :: rest) n) (p.after ((c :: cs).take n')))
  simp only [Position.token, htext hk]

theorem inStep (cs : List Char) (s : State) (p : Position) : InStep s p (withReturns cs) cs := by
  induction hlen : cs.length using Nat.strongRecOn generalizing cs s p with
  | _ len ih =>
    cases cs with
    | nil =>
      exact finish_at s p
    | cons c rest =>
      rw [length_cons] at hlen
      have hrest : ∀ (s : State) (p : Position), InStep s p (withReturns rest) rest :=
        fun s p => ih rest.length (by omega) rest s p rfl
      by_cases hn : c = '\n'
      · subst hn
        exact inStep_returned hrest p
      have hcons := withReturns_cons rest hn
      cases hx : lexeme c rest with
      | gap =>
        rw [hcons, InStep]
        have hb := isBlank_of_gap hx
        by_cases hm : s.margin = none ∨ marginWidth? c = none
        · obtain ⟨hstate, hlayout⟩ := settle_at s p (hasNoIndentation_withReturns c rest)
          rw [scan_blank rest hb hn hm, scan_blank (s := s.at p) _ hb hn hm, hstate]
          exact rel_append hlayout (hrest ((s.settle (c :: rest)).2.advance c) (p.advance c))
        · obtain ⟨width, hw⟩ := Option.ne_none_iff_exists'.1 (fun h => hm (.inl h))
          obtain ⟨w, hcw⟩ := Option.ne_none_iff_exists'.1 (fun h => hm (.inr h))
          rw [scan_margin rest hw hcw, scan_margin (s := s.at p) _ hw hcw]
          exact hrest (s.indented c (width + w)) (p.advance c)
      | token kind n =>
        have hpos := (lexeme_length hx).1
        have hlater : ∀ (s : State) (p : Position),
            InStep s p (withReturns ((c :: rest).drop n)) ((c :: rest).drop n) := fun s p =>
          ih ((c :: rest).drop n).length (by rw [length_drop, length_cons]; omega) _ s p rfl
        rw [hcons]
        by_cases hk : kind = .comment
        · subst hk
          obtain ⟨n', hx', hdrop | ⟨more, hmore, hdrop⟩⟩ := comment_withReturns hx
          · refine inStep_word (hasNoIndentation_withReturns c rest) hx hx' (absurd rfl) ?_
            rw [hdrop]
            exact hlater
          · refine inStep_word (hasNoIndentation_withReturns c rest) hx hx' (absurd rfl) ?_
            rw [hdrop, hmore]
            have hlen' := congrArg List.length hmore
            rw [length_drop, length_cons, length_cons] at hlen'
            exact fun s p => inStep_newline (fun s p => ih more.length (by omega) more s p rfl) p
        · obtain ⟨hx', htake, hdrop⟩ := lexeme_withReturns hx hk
          refine inStep_word (hasNoIndentation_withReturns c rest) hx hx' (fun _ => htake) ?_
          rw [hdrop]
          exact hlater

/-- Line endings do not matter. With a carriage return before every line feed, whether there were
others before or not, a text has tokens of the same kinds in the same order, and each that is no
comment has the same characters. -/
theorem tokenize_withReturns (source : List Char) :
    (tokenize (withReturns source)).map (·.kind) = (tokenize source).map (·.kind) ∧
    List.Forall₂ Token.ReadsAs (tokenize (withReturns source)) (tokenize source) := by
  have h : List.Forall₂ Token.ReadsAs (tokenize (withReturns source)) (tokenize source) :=
    inStep source .start State.start.position
  have hkinds : List.Forall₂ (· = ·) ((tokenize (withReturns source)).map (·.kind))
      ((tokenize source).map (·.kind)) :=
    forall₂_map_left_iff.2 (forall₂_map_right_iff.2 (h.imp fun _ _ htu => htu.1))
  rw [forall₂_eq_eq_eq] at hkinds
  exact ⟨hkinds, h⟩

end Lexer

end ChartScript
