import ChartScript.Proofs.Text.Letter
import ChartScript.Script.Statement
import ChartScript.Token.Lexer
/-!
# The word at the front of a text

`Reads` lists the ways a text can begin. From it we get what every other proof about tokens needs:
a token covers at least one character and no more than there are, and it is never a token of the
layout.
-/
namespace ChartScript.Lexer

open List Text

/-- What a text `c :: rest` begins with, case by case. -/
inductive Reads (c : Char) (rest : List Char) : Lexeme → Prop
  | blank : isBlank c = true → Reads c rest .gap
  | lineComment : c = '/' → rest.head? = some '/' →
      Reads c rest (.token .comment (1 + (rest.takeWhile (· ≠ '\n')).length))
  | blockComment : c = '/' → rest.head? = some '*' →
      Reads c rest (.token .comment (2 + blockCommentLength (rest.drop 1)))
  | string {n : Nat} : c = '"' ∨ c = '\'' → stringLength? c false rest = some n →
      Reads c rest (.token (.literal .string) (1 + n))
  | color {n : Nat} : c = '#' → colorLength? rest = some n → Reads c rest (.token (.literal .color) (1 + n))
  | number : c.isDigit ∨ (c = '.' ∧ rest.head?.any Char.isDigit) →
      Reads c rest (.token (.literal .number) (numberLength (c :: rest)))
  | word : startsWord c = true → Reads c rest (Lexer.word (c :: rest))
  | delimiter {mark : Delimiter} : [c] = mark.symbol.toList → Reads c rest (.token (.delimiter mark) 1)
  | operator {op : Operator} : op.symbol.toList <+: c :: rest →
      Reads c rest (.token (.operator op) op.symbol.length)
  | unknown : Reads c rest (.token .unknown 1)

theorem reads_lexeme (c : Char) (rest : List Char) : Reads c rest (lexeme c rest) := by
  unfold lexeme
  by_cases hb : isBlank c = true
  · rw [if_pos hb]; exact .blank hb
  rw [if_neg hb]
  by_cases h : c = '/' ∧ rest.head? = some '/'
  · rw [if_pos h]; exact .lineComment h.1 h.2
  rw [if_neg h]; clear h
  by_cases h : c = '/' ∧ rest.head? = some '*'
  · rw [if_pos h]; exact .blockComment h.1 h.2
  rw [if_neg h]; clear h
  by_cases h : c = '"' ∨ c = '\''
  · rw [if_pos h]
    cases hn : stringLength? c false rest with
    | some n => exact .string h hn
    | none => exact .unknown
  rw [if_neg h]; clear h
  unfold plainLexeme
  by_cases h : c = '#'
  · rw [if_pos h]
    cases hn : colorLength? rest with
    | some n => exact .color h hn
    | none => exact .unknown
  rw [if_neg h]; clear h
  by_cases h : c.isDigit ∨ (c = '.' ∧ rest.head?.any Char.isDigit)
  · rw [if_pos h]; exact .number h
  rw [if_neg h]; clear h
  by_cases h : startsWord c = true
  · rw [if_pos h]; exact .word h
  rw [if_neg h]; clear h
  by_cases h : c = '('
  · rw [if_pos h]; exact .delimiter (by rw [h]; rfl)
  rw [if_neg h]; clear h
  by_cases h : c = '['
  · rw [if_pos h]; exact .delimiter (by rw [h]; rfl)
  rw [if_neg h]; clear h
  by_cases h : c = ')'
  · rw [if_pos h]; exact .delimiter (by rw [h]; rfl)
  rw [if_neg h]; clear h
  by_cases h : c = ']'
  · rw [if_pos h]; exact .delimiter (by rw [h]; rfl)
  rw [if_neg h]; clear h
  by_cases h : c = ','
  · rw [if_pos h]; exact .delimiter (by rw [h]; rfl)
  rw [if_neg h]; clear h
  by_cases h : c = '.'
  · rw [if_pos h]; exact .delimiter (by rw [h]; rfl)
  rw [if_neg h]
  unfold Lexer.operator
  split
  · next op hop =>
    exact .operator (List.isPrefixOf_iff_prefix.1 (by simpa using find?_some hop))
  · exact .unknown

variable {c : Char} {rest : List Char} {kind : TokenKind} {n : Nat}

theorem lexeme_blank (rest : List Char) (h : isBlank c = true) : lexeme c rest = .gap := by
  simp [lexeme, h]

theorem isBlank_of_token (h : lexeme c rest = .token kind n) : isBlank c = false := by
  cases hb : isBlank c with
  | false => rfl
  | true => rw [lexeme_blank rest hb] at h; cases h

theorem isBlank_of_gap (h : lexeme c rest = .gap) : isBlank c = true := by
  have hr := reads_lexeme c rest
  rw [h] at hr
  generalize hx : Lexeme.gap = x at hr
  cases hr with
  | blank hb => exact hb
  | word => simp only [word] at hx; split at hx <;> cases hx
  | _ => cases hx

/-! ## How far a token reaches -/

theorem digits_le (cs : List Char) : (cs.takeWhile Char.isDigit).length ≤ cs.length :=
  (List.takeWhile_prefix _).length_le

theorem blockCommentLength_le : (cs : List Char) → blockCommentLength cs ≤ cs.length
  | [] => by simp [blockCommentLength]
  | c :: rest => by
    have := blockCommentLength_le rest
    unfold blockCommentLength
    split
    · simp
    · next more heq => cases heq; simp
    · next more _ heq => cases heq; simp only [length_cons]; omega

theorem stringLength_le {quote : Char} : ∀ {escaped : Bool} {cs : List Char} {n : Nat},
    stringLength? quote escaped cs = some n → n ≤ cs.length
  | _, [], _, h => by simp [stringLength?] at h
  | escaped, c :: rest, n, h => by
    have step : ∀ b, Option.map (· + 1) (stringLength? quote b rest) = some n → n ≤ rest.length + 1 := by
      intro b hb
      obtain ⟨m, hm, rfl⟩ := Option.map_eq_some_iff.1 hb
      have := stringLength_le hm
      omega
    unfold stringLength? at h
    simp only [length_cons]
    split_ifs at h
    · exact step _ h
    · exact step _ h
    · cases h; omega
    · exact step _ h

theorem colorLength_le {cs : List Char} (h : colorLength? cs = some n) : n ≤ cs.length := by
  have := (List.takeWhile_prefix isHexDigit (l := cs)).length_le
  simp only [colorLength?] at h
  split at h
  · cases h; exact this
  · cases h

theorem fractionLength_le (cs : List Char) : fractionLength cs ≤ cs.length := by
  unfold fractionLength
  split
  · next rest =>
    have := digits_le rest
    split <;> simp only [length_cons] <;> omega
  · omega

theorem exponentLength_le (cs : List Char) : exponentLength cs ≤ cs.length := by
  unfold exponentLength
  split
  · next c rest =>
    split
    · split
      · next tail =>
        have := digits_le tail
        simp only [drop_succ_cons, drop_zero]
        split <;> simp only [length_cons] <;> omega
      · next tail =>
        have := digits_le tail
        simp only [drop_succ_cons, drop_zero]
        split <;> simp only [length_cons] <;> omega
      · have := digits_le rest
        simp only [drop_zero]
        split <;> simp only [length_cons] <;> omega
    · omega
  · omega

theorem numberLength_le (cs : List Char) : numberLength cs ≤ cs.length := by
  have hw := digits_le cs
  have hf := fractionLength_le (cs.drop (cs.takeWhile Char.isDigit).length)
  have he := exponentLength_le (cs.drop ((cs.takeWhile Char.isDigit).length +
    fractionLength (cs.drop (cs.takeWhile Char.isDigit).length)))
  simp only [numberLength, length_drop] at *
  omega

theorem numberLength_pos (h : c.isDigit ∨ (c = '.' ∧ rest.head?.any Char.isDigit)) :
    0 < numberLength (c :: rest) := by
  by_cases hd : c.isDigit
  · simp only [numberLength, takeWhile_cons, hd, if_true, length_cons]; omega
  · obtain ⟨rfl, hr⟩ := h.resolve_left hd
    cases rest with
    | nil => simp at hr
    | cons d more =>
      have hd' : d.isDigit = true := by simpa using hr
      have hp : d ≠ '.' := by rintro rfl; exact hd hd'
      simp only [numberLength, takeWhile_cons, hd, Bool.false_eq_true, if_false,
        length_nil, drop_zero, fractionLength, head?_cons, Option.any_some,
        not_startsWord_of_isDigit hd', beq_eq_false_iff_ne.2 hp, Bool.or_false]
      omega

theorem symbol_length_pos (op : Operator) : 0 < op.symbol.length := by
  cases op <;> decide

theorem word_length (hc : startsWord c = true) (h : word (c :: rest) = .token kind n) :
    0 < n ∧ n ≤ rest.length + 1 := by
  have hl := (List.takeWhile_prefix continuesWord (l := c :: rest)).length_le
  have hp : 0 < ((c :: rest).takeWhile continuesWord).length := by simp [continuesWord_of_startsWord hc]
  simp only [word] at h
  split at h
  · next hq =>
    cases h
    -- the dot after the letters is a character too
    have : 0 < ((c :: rest).drop ((c :: rest).takeWhile continuesWord).length).length := by
      cases hd : (c :: rest).drop ((c :: rest).takeWhile continuesWord).length with
      | nil => rw [hd] at hq; simp [leadsOn] at hq
      | cons => simp
    simp only [length_drop, length_cons] at this ⊢
    omega
  · cases h
    exact ⟨hp, by simpa using hl⟩

theorem lexeme_length (h : lexeme c rest = .token kind n) : 0 < n ∧ n ≤ rest.length + 1 := by
  have hr := reads_lexeme c rest
  rw [h] at hr
  generalize hx : Lexeme.token kind n = x at hr
  cases hr with
  | blank => cases hx
  | lineComment =>
    cases hx
    have := (List.takeWhile_prefix (· ≠ '\n') (l := rest)).length_le
    omega
  | blockComment _ h2 =>
    cases hx
    have h1 := blockCommentLength_le (rest.drop 1)
    have : 0 < rest.length := by
      cases rest with
      | nil => simp at h2
      | cons => simp
    simp only [length_drop] at h1
    omega
  | string _ hn => cases hx; have := stringLength_le hn; omega
  | color _ hn => cases hx; have := colorLength_le hn; omega
  | number hd => cases hx; exact ⟨numberLength_pos hd, by simpa using numberLength_le (c :: rest)⟩
  | word hc => exact word_length hc hx.symm
  | delimiter => cases hx; omega
  | @operator op hp =>
    cases hx
    have := hp.length_le
    simp only [String.length_toList, length_cons] at this
    exact ⟨symbol_length_pos op, this⟩
  | unknown => cases hx; omega

/-! ## What a token is not -/

theorem isLayout_wordKind (w : String) (span : Span) (text : String) :
    Statement.isLayout ⟨wordKind w, span, text⟩ = false := by
  unfold wordKind
  split_ifs
  · rfl
  · rfl
  · cases Keyword.ofName? w with
    | some k => rfl
    | none => cases BarField.ofName? w <;> rfl

theorem wordKind_ne (w : String) : wordKind w ≠ .comment ∧ (∀ mark, wordKind w ≠ .delimiter mark) ∧
    wordKind w ≠ .literal .number ∧ wordKind w ≠ .literal .string ∧ wordKind w ≠ .qualifier := by
  unfold wordKind
  split_ifs
  · simp
  · simp
  · cases Keyword.ofName? w with
    | some k => simp
    | none => cases BarField.ofName? w <;> simp

theorem lexeme_not_layout (h : lexeme c rest = .token kind n) (span : Span) (text : String) :
    Statement.isLayout ⟨kind, span, text⟩ = false := by
  have hr := reads_lexeme c rest
  rw [h] at hr
  generalize hx : Lexeme.token kind n = x at hr
  cases hr with
  | blank => cases hx
  | word =>
    simp only [word] at hx
    split at hx
    · cases hx; rfl
    · cases hx; exact isLayout_wordKind _ span text
  | _ => cases hx; rfl

theorem lexeme_word (h : lexeme c rest = .token kind n) {s : Span} {w : String}
    (hword : (⟨kind, s, w⟩ : Token).isWord = true) : kind = wordKind (String.ofList ((c :: rest).take n)) := by
  have hr := reads_lexeme c rest
  rw [h] at hr
  generalize hx : Lexeme.token kind n = x at hr
  cases hr with
  | blank => cases hx
  | word =>
    simp only [word] at hx
    split at hx
    · cases hx; cases hword
    · cases hx
      rw [prefix_iff_eq_take.1 (List.takeWhile_prefix _) |>.symm]
  | _ => cases hx; cases hword

theorem comment_cases (h : lexeme c rest = .token .comment n) :
    c = '/' ∧ ((rest.head? = some '/' ∧ n = 1 + (rest.takeWhile (· ≠ '\n')).length) ∨ (rest.head? = some '*' ∧ n = 2
    + blockCommentLength (rest.drop 1))) := by
  have hr := reads_lexeme c rest
  rw [h] at hr
  generalize hx : Lexeme.token .comment n = x at hr
  cases hr with
  | lineComment hc hd => cases hx; exact ⟨hc, .inl ⟨hd, rfl⟩⟩
  | blockComment hc hd => cases hx; exact ⟨hc, .inr ⟨hd, rfl⟩⟩
  | word =>
    simp only [word] at hx
    split at hx
    · cases hx
    · next hk => exact absurd (Lexeme.token.inj hx).1.symm (wordKind_ne _).1
  | _ => cases hx

end ChartScript.Lexer
