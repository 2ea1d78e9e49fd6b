import ChartScript.Proofs.Token.Cut
/-!
# Cutting a text behind a word

A text can be cut off right behind one of its words, whatever follows: the words up to there are read
as before. Two kinds of words are an exception, since they look further ahead than to their own end. A
qualifier has to be followed by its member, and a number takes a point for its own when nothing
follows the point.
-/
namespace ChartScript.Lexer

open List Text

variable {rest : List Char} {xs : List Char} {n : Nat} {kind : TokenKind}

theorem any_head?_of_append {p : Char → Bool} (h : (xs ++ rest).head?.any p = false) : xs.head?.any p = false := by
  cases xs with
  | nil => rfl
  | cons c xs => exact h

theorem any_head?_append {p : Char → Bool} (h : xs.head?.any p = true) : (xs ++ rest).head?.any p = true := by
  cases xs with
  | nil => cases h
  | cons c xs => exact h

/-! ## Numbers and colours -/

theorem fractionLength_point (cs : List Char) : fractionLength ('.' :: cs) =
    if cs.head?.any fun c => startsWord c || c == '.' then 0
    else 1 + (cs.takeWhile Char.isDigit).length := rfl

theorem fractionLength_within (h : fractionLength (xs ++ rest) ≤ xs.length)
    (hpoint : fractionLength (xs ++ rest) = 0 → xs ≠ ['.']) : fractionLength xs = fractionLength (xs ++ rest) := by
  cases xs with
  | nil => exact (Nat.le_zero.1 h).symm
  | cons c xs =>
    by_cases hc : c = '.'
    · subst hc
      rw [cons_append, fractionLength_point] at h hpoint ⊢
      rw [fractionLength_point]
      cases hnext : (xs ++ rest).head?.any fun c => startsWord c || c == '.' with
      | true =>
        rw [hnext, if_pos rfl] at hpoint
        cases xs with
        | nil => exact absurd rfl (hpoint rfl)
        | cons d xs => exact (if_pos hnext).trans (if_pos rfl).symm
      | false =>
        rw [hnext, if_neg Bool.false_ne_true] at h
        have hcut : xs.takeWhile Char.isDigit = (xs ++ rest).takeWhile Char.isDigit :=
          takeWhile_cut (by simp only [length_cons] at h; omega)
        rw [any_head?_of_append hnext, hcut]
    · rw [cons_append, fractionLength_of_ne hc, fractionLength_of_ne hc]

theorem exponentLength_within (h : exponentLength (xs ++ rest) ≤ xs.length) :
    exponentLength xs = exponentLength (xs ++ rest) := by
  cases xs with
  | nil => exact (Nat.le_zero.1 h).symm
  | cons c xs =>
    rw [cons_append, exponentLength_cons] at h ⊢
    rw [exponentLength_cons]
    by_cases hmark : c = 'e' ∨ c = 'E'
    · rw [if_pos hmark] at h ⊢
      rw [if_pos hmark]
      cases xs with
      | nil =>
        -- there is no room for a digit behind the mark
        split at h
        · next hnone => rw [if_pos hnone]; rfl
        · simp only [length_cons, length_nil] at h
          omega
      | cons d xs =>
        have hsign : signLength (d :: xs ++ rest) = signLength (d :: xs) := by
          by_cases hp : d = '+'
          · subst hp
            rfl
          · by_cases hm : d = '-'
            · subst hm
              rfl
            · rw [cons_append, signLength_of_ne hp hm, signLength_of_ne hp hm]
        have hle : signLength (d :: xs) ≤ (d :: xs).length := by
          unfold signLength
          split <;> simp
        rw [hsign, drop_append_of_le_length hle] at h ⊢
        have hcut : ((d :: xs).drop (signLength (d :: xs))).takeWhile Char.isDigit =
            ((d :: xs).drop (signLength (d :: xs)) ++ rest).takeWhile Char.isDigit := by
          refine takeWhile_cut ?_
          split at h
          · omega
          · simp only [length_cons, length_drop] at h ⊢
            omega
        rw [hcut]
    · rw [if_neg hmark, if_neg hmark]

theorem numberLength_within (h : numberLength (xs ++ rest) ≤ xs.length)
    (hpoint : xs.drop (numberLength (xs ++ rest)) ≠ ['.']) : numberLength xs = numberLength (xs ++ rest) := by
  simp only [numberLength] at h hpoint ⊢
  have hwhole : xs.takeWhile Char.isDigit = (xs ++ rest).takeWhile Char.isDigit :=
    takeWhile_cut (by omega)
  rw [← hwhole, drop_append_of_le_length (digits_le xs)] at h hpoint ⊢
  have hfraction := @fractionLength_within rest (xs.drop (xs.takeWhile Char.isDigit).length)
    (by simp only [length_drop]; omega)
    (by
      intro hzero hxs
      apply hpoint
      rw [hzero, Nat.add_zero, drop_append_of_le_length (digits_le xs), hxs, cons_append,
        exponentLength_cons, if_neg (by decide), Nat.add_zero, hxs])
  rw [← hfraction] at h hpoint ⊢
  rw [drop_append_of_le_length (by omega)] at h hpoint ⊢
  rw [@exponentLength_within rest _ (by simp only [length_drop]; omega)]

theorem two_le_numberLength {cs : List Char} (h : cs.head?.any Char.isDigit = true) :
    2 ≤ numberLength ('.' :: cs) := by
  cases cs with
  | nil => cases h
  | cons d cs =>
    have hd : d.isDigit = true := h
    have hdot : (d == '.') = false := by
      rw [beq_eq_false_iff_ne]
      rintro rfl
      cases hd
    have hwhole : ('.' :: d :: cs).takeWhile Char.isDigit = [] := rfl
    have hfraction : fractionLength ('.' :: d :: cs) = 1 + ((cs.takeWhile Char.isDigit).length + 1) := by
      rw [fractionLength_point, if_neg (by simp [not_startsWord_of_isDigit hd, hdot]),
        takeWhile_cons_of_pos hd, length_cons]
    rw [numberLength, hwhole, length_nil, drop_zero, hfraction]
    omega

theorem colorLength_within (h : colorLength? (xs ++ rest) = some n) (hn : n ≤ xs.length) :
    colorLength? xs = some n := by
  simp only [colorLength?] at h ⊢
  split at h
  · next hdigits =>
    cases h
    have hcut : xs.takeWhile isHexDigit = (xs ++ rest).takeWhile isHexDigit := takeWhile_cut hn
    rw [drop_append_of_le_length hn, Bool.not_eq_true'] at hdigits
    rw [hcut, any_head?_of_append hdigits.2, if_pos ⟨hdigits.1, rfl⟩]
  · cases h

/-! ## Names and operators -/

theorem leadsOn_within (rest xs : List Char) : leadsOn xs = (leadsOn (xs ++ rest) && decide (1 < xs.length)) := by
  cases xs with
  | nil => simp [leadsOn]
  | cons c xs =>
    by_cases hc : c = '.'
    · subst hc
      cases xs with
      | nil => simp [leadsOn]
      | cons d xs => simp [leadsOn]
    · rw [cons_append, leadsOn_of_ne hc, leadsOn_of_ne hc, Bool.false_and]

theorem word_within (h : word (xs ++ rest) = .token kind n) (hn : n ≤ xs.length)
    (hqualifier : kind = .qualifier → n < xs.length) : word xs = .token kind n := by
  simp only [word] at h ⊢
  split at h
  · next hleads =>
    cases h
    have hcut : xs.takeWhile continuesWord = (xs ++ rest).takeWhile continuesWord :=
      takeWhile_cut (by omega)
    have hshort := hqualifier rfl
    rw [← hcut] at hleads hn hshort ⊢
    rw [drop_append_of_le_length (by omega)] at hleads
    rw [leadsOn_within rest, decide_eq_true (by simp only [length_drop]; omega),
      Bool.and_true, if_pos hleads]
  · next hplain =>
    cases h
    have hcut : xs.takeWhile continuesWord = (xs ++ rest).takeWhile continuesWord := takeWhile_cut hn
    rw [← hcut] at hplain hn ⊢
    rw [drop_append_of_le_length hn] at hplain
    rw [if_neg]
    intro hleads
    rw [leadsOn_within rest, Bool.and_right_comm] at hleads
    exact hplain (Bool.and_eq_true_iff.1 hleads).1

theorem operator_within (h : operator (xs ++ rest) = .token kind n) (hn : n ≤ xs.length)
    (hknown : kind ≠ .unknown) : operator xs = .token kind n := by
  unfold operator at h ⊢
  split at h
  · next op hop =>
    cases h
    obtain ⟨hfits, before, after, hall, hbefore⟩ := find?_eq_some_iff_append.1 hop
    have hself : op.symbol.toList.isPrefixOf xs = true := by
      rw [List.isPrefixOf_iff_prefix] at hfits ⊢
      exact prefix_of_prefix_length_le hfits (prefix_append xs rest) (by rw [String.length_toList]; exact hn)
    have hfind : Operator.all.find? (fun op => op.symbol.toList.isPrefixOf xs) = some op := by
      refine find?_eq_some_iff_append.2 ⟨hself, before, after, hall, fun op' hop' => ?_⟩
      have hnot := hbefore op' hop'
      simp only [Bool.not_eq_true', Bool.eq_false_iff, ne_eq, isPrefixOf_iff_prefix] at hnot ⊢
      exact fun hpre => hnot (hpre.trans (prefix_append xs rest))
    rw [hfind]
  · cases h
    exact absurd rfl hknown

/-! ## Any word -/

theorem lexeme_within {c : Char} (h : lexeme c (xs ++ rest) = .token kind n) (hn : n ≤ xs.length + 1)
    (hknown : kind ≠ .unknown) (hqualifier : kind = .qualifier → n < xs.length + 1)
    (hpoint : (c :: xs).drop n ≠ ['.']) : lexeme c xs = .token kind n := by
  refine lexeme_cut_of (fun hplain => ?_) h hn
  unfold plainLexeme at hplain ⊢
  by_cases hc : c = '#'
  · rw [if_pos hc] at hplain ⊢
    split at hplain
    · next m hm =>
      cases hplain
      rw [colorLength_within hm (by omega)]
    · cases hplain
      exact absurd rfl hknown
  rw [if_neg hc] at hplain ⊢
  by_cases hnumber : c.isDigit ∨ (c = '.' ∧ (xs ++ rest).head?.any Char.isDigit)
  · rw [if_pos hnumber] at hplain
    cases hplain
    rw [if_pos]
    · exact congrArg _ (@numberLength_within rest (c :: xs) hn hpoint)
    · refine hnumber.imp_right fun ⟨hc, hdigit⟩ => ⟨hc, ?_⟩
      subst hc
      cases xs with
      | nil => exact absurd hn (Nat.not_le.2 (two_le_numberLength hdigit))
      | cons d xs => exact hdigit
  rw [if_neg hnumber] at hplain
  rw [if_neg fun h => hnumber (h.imp_right fun hpart => ⟨hpart.1, any_head?_append hpart.2⟩)]
  by_cases hword : startsWord c = true
  · rw [if_pos hword] at hplain ⊢
    exact @word_within rest (c :: xs) _ _ hplain hn hqualifier
  split_ifs at hplain ⊢
  · exact hplain
  · exact hplain
  · exact hplain
  · exact hplain
  · exact hplain
  · exact hplain
  · exact @operator_within rest (c :: xs) _ _ hplain hn hknown

theorem lexeme_point (cs : List Char) : lexeme '.' cs = if cs.head?.any Char.isDigit then
    .token (.literal .number) (numberLength ('.' :: cs)) else .token (.delimiter .dot) 1 := by
  have hblank : isBlank '.' = false := by decide
  have hword : startsWord '.' = false := by decide
  have hdigit : ('.').isDigit = false := by decide
  simp [lexeme, plainLexeme, hblank, hword, hdigit]

theorem words_point {q : Position} {limit : Nat} {whole : List Token}
    (hlimit : q.offset + byteSize ['.'] = limit) (hwords : words 0 q ('.' :: rest) <:+ whole)
    (hcross : ∀ t ∈ whole, t.span.start < limit → t.span.stop ≤ limit) :
    ∃ t ∈ whole, t.span.start < limit ∧ t.kind = .delimiter .dot := by
  have hsize : byteSize ['.'] = 1 := rfl
  have hx := lexeme_point rest
  split at hx
  · next hdigit =>
    -- a number goes on behind the point
    exfalso
    rw [words_token q hx] at hwords
    have hstop := hcross _ (hwords.mem mem_cons_self) (by simp only [Position.token]; omega)
    obtain ⟨m, hm⟩ : ∃ m, numberLength ('.' :: rest) = m + 2 :=
      ⟨_, (Nat.sub_add_cancel (two_le_numberLength hdigit)).symm⟩
    cases rest with
    | nil => cases hdigit
    | cons d rest =>
      have hpos := d.utf8Size_pos
      simp only [Position.token, hm, take_succ_cons, byteSize] at hstop hlimit
      omega
  · rw [words_token q hx] at hwords
    exact ⟨_, hwords.mem mem_cons_self, by simp only [Position.token]; omega, rfl⟩

/-- The words of a text that is cut right behind one of them. -/
theorem words_within {p : Position}
    (hcross : ∀ t ∈ words 0 p (xs ++ rest), t.span.start < p.offset + byteSize xs →
      t.span.stop ≤ p.offset + byteSize xs ∧ t.kind ≠ .unknown ∧ t.kind ≠ .delimiter .dot ∧
      (t.span.stop = p.offset + byteSize xs → t.kind ≠ .qualifier)) :
    words 0 p (xs ++ rest) = words 0 p xs ++ words 0 (p.after xs) rest := by
  refine words_append_of (Nat.zero_le _) rfl (suffix_refl _) (fun t ht hstart => (hcross t ht hstart).1) ?_
  intro q c ys kind n hlimit hwords hx hn
  have hpos := c.utf8Size_pos
  have hself := words_token q hx
  have htake : (c :: (ys ++ rest)).take n = (c :: ys).take n := by
    rw [← cons_append]
    exact take_append_of_le_length (by simpa using hn)
  rw [hself, htake] at hwords
  obtain ⟨-, hknown, -, hlast⟩ := hcross _ (hwords.mem mem_cons_self)
    (by simp only [Position.token, byteSize] at hlimit ⊢; omega)
  refine lexeme_within hx hn hknown (fun hk => ?_) fun hdrop => ?_
  · -- a qualifier that reaches up to the cut
    by_contra hfull
    refine hlast ?_ hk
    rw [take_of_length_le (by simp only [length_cons]; omega)]
    exact hlimit
  · -- a point that would be taken for the end of a number
    obtain ⟨m, rfl⟩ : ∃ m, n = m + 1 := ⟨n - 1, by have := (lexeme_length hx).1; omega⟩
    have hm : m ≤ ys.length := by omega
    rw [drop_succ_cons] at hdrop
    have hnext := (suffix_cons _ _).trans hwords
    rw [Nat.add_sub_cancel, words_drop _ _ _ (by simp only [length_append]; omega),
      drop_append_of_le_length hm, take_append_of_le_length hm, hdrop] at hnext
    have hat : ((q.advance c).after (ys.take m)).offset + byteSize ['.'] = p.offset + byteSize xs := by
      rw [Position.after_offset, Position.advance_offset, Nat.add_assoc, ← byteSize_append, ← hdrop,
        take_append_drop, Nat.add_assoc]
      exact hlimit
    obtain ⟨t, ht, hstart, hdot⟩ := words_point hat hnext fun t ht h => (hcross t ht h).1
    exact (hcross t ht hstart).2.2.1 hdot

end ChartScript.Lexer
