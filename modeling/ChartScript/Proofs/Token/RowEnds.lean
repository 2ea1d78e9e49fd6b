import ChartScript.Proofs.Script.Layout
import ChartScript.Proofs.Token.Cut
/-!
# Words end on their row

Apart from a comment between `/*` and `*/`, no word goes beyond the row it begins on, and none looks
beyond it: a line feed, with or without a carriage return before it, reads like the end of the text.
Nor does the layout look further than one row ahead.
-/
namespace ChartScript.Lexer

open Text

/-- A text that is over, or whose row is. -/
inductive RowEnd : List Char → Prop
  | nil : RowEnd []
  | newline (rest : List Char) : RowEnd ('\n' :: rest)
  | returned (rest : List Char) : RowEnd ('\r' :: '\n' :: rest)

def belowRow (cs : List Char) : List Char :=
  cs.dropWhile (· ≠ '\n')

theorem onRow_append_belowRow (cs : List Char) : onRow cs ++ belowRow cs = cs :=
  List.takeWhile_append_dropWhile

theorem newline_not_mem_onRow (cs : List Char) : '\n' ∉ onRow cs := by
  intro h
  simpa using List.mem_takeWhile_imp h

theorem belowRow_cases (cs : List Char) : belowRow cs = [] ∨ ∃ rest, belowRow cs = '\n' :: rest := by
  cases h : belowRow cs with
  | nil => exact .inl rfl
  | cons c rest =>
    have hnot := List.head?_dropWhile_not (· ≠ '\n') cs
    rw [show cs.dropWhile (· ≠ '\n') = c :: rest from h] at hnot
    have hc : c = '\n' := by simpa using hnot
    exact .inr ⟨rest, by rw [hc]⟩

theorem rowEnd_belowRow (cs : List Char) : RowEnd (belowRow cs) := by
  rcases belowRow_cases cs with h | ⟨rest, h⟩
  · rw [h]; exact .nil
  · rw [h]; exact .newline rest

/-! ## Words -/

namespace RowEnd

variable {stop : List Char}

theorem ends (h : RowEnd stop) : Ends stop := by
  cases h with
  | nil => intro c hc; cases hc
  | newline => intro c hc; cases hc; decide
  | returned => intro c hc; cases hc; decide

theorem stringLength (h : RowEnd stop) {quote : Char} (hquote : quote ≠ '\r') (escaped : Bool) :
    stringLength? quote escaped stop = none := by
  cases h with
  | nil => rfl
  | newline => rfl
  | returned rest =>
    have hnext : ∀ escaped, stringLength? quote escaped ('\n' :: rest) = none := fun _ => rfl
    unfold stringLength?
    rw [if_neg (by decide)]
    split_ifs with h1 h2 h3
    · rw [hnext]; rfl
    · exact absurd h2 (by decide)
    · exact absurd h3.symm hquote
    · rw [hnext]; rfl

theorem stringLength_append (h : RowEnd stop) {quote : Char} (hquote : quote ≠ '\r') :
    ∀ (escaped : Bool) (xs : List Char), stringLength? quote escaped (xs ++ stop) = stringLength? quote escaped xs
  | escaped, [] => h.stringLength hquote escaped
  | escaped, c :: xs => by
    have ih := fun escaped => h.stringLength_append hquote escaped xs
    rw [List.cons_append]
    unfold stringLength?
    simp only [ih]

theorem startsComment_append (h : RowEnd stop) (c : Char) (xs : List Char) :
    startsComment (c :: (xs ++ stop)) = startsComment (c :: xs) := by
  have hstop : stop.head?.any (fun d => d == '/' || d == '*') = false := by cases h <;> rfl
  cases xs with
  | nil => rw [List.nil_append, startsComment_cons, hstop, startsComment_cons]; rfl
  | cons d xs => rw [startsComment_cons, startsComment_cons]; rfl

end RowEnd

variable {c : Char} {rest : List Char}

theorem not_comment (h : startsComment (c :: rest) = false) :
    ¬ (c = '/' ∧ rest.head? = some '/') ∧ ¬ (c = '/' ∧ rest.head? = some '*') := by
  rw [startsComment_cons] at h
  constructor <;> rintro ⟨rfl, hd⟩ <;> simp [hd] at h

theorem lexeme_append {xs stop : List Char} (hstop : RowEnd stop)
    (hc : startsComment (c :: xs) = false) : lexeme c (xs ++ stop) = lexeme c xs := by
  have hlong := not_comment ((hstop.startsComment_append c xs).trans hc)
  have hshort := not_comment hc
  unfold lexeme
  rw [if_neg hlong.1, if_neg hlong.2, if_neg hshort.1, if_neg hshort.2]
  by_cases hquote : c = '"' ∨ c = '\''
  · have hne : c ≠ '\r' := by rcases hquote with rfl | rfl <;> decide
    rw [if_pos hquote, if_pos hquote, hstop.stringLength_append hne]
  · rw [if_neg hquote, if_neg hquote, plainLexeme_cut hstop.ends]

theorem startsComment_onRow (c : Char) (rest : List Char) :
    startsComment (c :: onRow rest) = startsComment (c :: rest) := by
  have h := (rowEnd_belowRow rest).startsComment_append c (onRow rest)
  rwa [onRow_append_belowRow, eq_comm] at h

theorem lexeme_onRow (hc : startsComment (c :: rest) = false) : lexeme c (onRow rest) = lexeme c rest := by
  have h := lexeme_append (rowEnd_belowRow rest) ((startsComment_onRow c rest).trans hc)
  rwa [onRow_append_belowRow, eq_comm] at h

theorem startsComment_of_token {kind : TokenKind} {n : Nat} (h : lexeme c rest = .token kind n)
    (hk : kind ≠ .comment) : startsComment (c :: rest) = false := by
  have hindent := hasNoIndentation_of_word h hk
  rw [hasNoIndentation, Bool.or_eq_false_iff] at hindent
  exact hindent.2

/-! ## Layout -/

namespace RowEnd

variable {stop : List Char}

theorem hasNoIndentation_append (h : RowEnd stop) (xs : List Char) :
    hasNoIndentation (xs ++ stop) = hasNoIndentation xs := by
  cases xs with
  | nil => cases h <;> rfl
  | cons c xs => rw [List.cons_append, hasNoIndentation, h.startsComment_append, hasNoIndentation]

theorem measure_append (h : RowEnd stop) (xs : List Char) :
    measure (xs ++ stop) = ((measure xs).1, (measure xs).2 ++ stop) := by
  induction xs with
  | nil => cases h <;> rfl
  | cons c xs ih =>
    rw [List.cons_append]
    cases hw : marginWidth? c with
    | none => rw [measure_of_none _ hw, measure_of_none _ hw]; rfl
    | some w => rw [measure_cons _ hw, measure_cons _ hw, ih]

theorem continuesStatement_append (h : RowEnd stop) (indents : List Nat) (xs : List Char) :
    continuesStatement indents (xs ++ stop) = continuesStatement indents xs := by
  simp only [continuesStatement, h.measure_append, h.hasNoIndentation_append]

end RowEnd

theorem continuesStatement_onRow (indents : List Nat) (cs : List Char) :
    continuesStatement indents (onRow cs) = continuesStatement indents cs := by
  have h := (rowEnd_belowRow cs).continuesStatement_append indents (onRow cs)
  rwa [onRow_append_belowRow, eq_comm] at h

/-! ## The end of a row -/

theorem State.settle_of_noIndentation {s : State} {cs : List Char}
    (h : hasNoIndentation cs = true) : s.settle cs = ([], { s with margin := none }) := by
  unfold State.settle
  split
  · next hm => rw [← hm]
  · rw [if_pos h]

theorem scan_returned (s : State) (rest : List Char) :
    scan 0 s ('\r' :: '\n' :: rest) = scan 0 (s.advance '\r') ('\n' :: rest) := by
  have hsettle : s.settle ('\r' :: '\n' :: rest) = ([], { s with margin := none }) :=
    State.settle_of_noIndentation rfl
  rw [scan_blank _ (by decide) (by decide) (.inr (by decide)), hsettle, scan_newline, scan_newline]
  rfl

end ChartScript.Lexer
