import ChartScript.Proofs.Token.Words
/-!
# Reading a part of a text

A text that is cut where no word goes on reads like the part of the whole. A word looks ahead, past
its own end, only for characters that could make it longer; a blank, a bracket, a comma or a slash
makes no word longer, so that the end of the text may stand in its place.
-/
namespace ChartScript.Lexer

open List Text Position

/-- A character in front of which a text can be cut. -/
def isEnd (c : Char) : Bool :=
  isBlank c || ['(', ')', '[', ']', ',', '/'].contains c

/-- The text is empty or begins with a character in front of which it can be cut off. -/
def Ends (rest : List Char) : Prop :=
  ∀ c ∈ rest.head?, isEnd c = true

def endCodes : List Nat :=
  blankCodes ++ [40, 41, 91, 93, 44, 47]

variable {c : Char} {rest xs : List Char} {kind : TokenKind} {n skip : Nat} {p : Position}

theorem mem_endCodes (h : isEnd c = true) : c.toNat ∈ endCodes := by
  rcases Bool.or_eq_true_iff.1 h with hb | hm
  · exact mem_append_left _ (mem_blankCodes hb)
  · simp only [contains_iff_mem, mem_cons, not_mem_nil, or_false] at hm
    rcases hm with rfl | rfl | rfl | rfl | rfl | rfl <;> decide

namespace Ends

variable {rest : List Char} {p : Char → Bool}

section

variable (h : Ends rest) (hp : ∀ n ∈ endCodes, p (Char.ofNat n) = false)
include h hp

theorem head_false : ∀ c ∈ rest.head?, p c = false := by
  intro c hc
  have := hp _ (mem_endCodes (h c hc))
  rwa [Char.ofNat_toNat] at this

theorem head?_any (xs : List Char) : (xs ++ rest).head?.any p = xs.head?.any p := by
  cases xs with
  | cons c xs => rfl
  | nil =>
    cases rest with
    | nil => rfl
    | cons c rest => simpa using h.head_false hp c rfl

theorem takeWhile (xs : List Char) : (xs ++ rest).takeWhile p = xs.takeWhile p := by
  induction xs with
  | nil =>
    cases rest with
    | nil => rfl
    | cons c rest => simp [h.head_false hp c rfl]
  | cons c xs ih => simp only [cons_append, takeWhile_cons, ih]

end

theorem cons_ne (h : Ends rest) (hc : isEnd c = false) (more : List Char) : rest ≠ c :: more := by
  rintro rfl
  rw [h c rfl] at hc
  cases hc

end Ends

theorem isDigit_endCodes : ∀ n ∈ endCodes, (Char.ofNat n).isDigit = false := by
  decide

theorem isHexDigit_endCodes : ∀ n ∈ endCodes, isHexDigit (Char.ofNat n) = false := by
  decide

theorem continuesWord_endCodes : ∀ n ∈ endCodes, continuesWord (Char.ofNat n) = false := by
  decide +kernel

theorem startsWord_endCodes : ∀ n ∈ endCodes, startsWord (Char.ofNat n) = false :=
  fun n hn => not_startsWord (continuesWord_endCodes n hn)

theorem isEnd_of_lexeme (h : lexeme c rest = .token kind n)
    (hk : kind = .comment ∨ ∃ mark, kind = .delimiter mark ∧ mark ≠ .dot) : isEnd c = true := by
  have hr := reads_lexeme c rest
  rw [h] at hr
  generalize hx : Lexeme.token kind n = x at hr
  cases hr with
  | lineComment hc => rw [hc]; decide
  | blockComment hc => rw [hc]; decide
  | @delimiter mark hc =>
    cases hx
    obtain hk | ⟨_, ⟨⟩, hdot⟩ := hk
    · cases hk
    · cases mark with
      | dot => exact absurd rfl hdot
      | openParen | closeParen | openBracket | closeBracket | comma =>
        rw [(List.cons.inj hc).1]
        decide
  | word =>
    simp only [word] at hx
    split at hx
    · cases hx
      simp at hk
    · cases hx
      obtain hk | ⟨mark, hk, _⟩ := hk
      · exact absurd hk (wordKind_ne _).1
      · exact absurd hk ((wordKind_ne _).2.1 mark)
  | _ => cases hx <;> simp at hk

/-! ## Numbers and words -/

theorem fractionLength_of_ne (hc : c ≠ '.') (cs : List Char) : fractionLength (c :: cs) = 0 := by
  unfold fractionLength
  split
  · next heq => exact absurd (List.cons.inj heq).1 hc
  · rfl

def signLength : List Char → Nat
  | '+' :: _ => 1
  | '-' :: _ => 1
  | _ => 0

theorem signLength_of_ne (hp : c ≠ '+') (hm : c ≠ '-') (cs : List Char) : signLength (c :: cs) = 0 := by
  unfold signLength
  split
  · next heq => exact absurd (List.cons.inj heq).1 hp
  · next heq => exact absurd (List.cons.inj heq).1 hm
  · rfl

theorem exponentLength_cons (c : Char) (cs : List Char) : exponentLength (c :: cs) = if c = 'e' ∨ c = 'E' then
      if ((cs.drop (signLength cs)).takeWhile Char.isDigit).length = 0 then 0
      else 1 + signLength cs + ((cs.drop (signLength cs)).takeWhile Char.isDigit).length
    else 0 := rfl

theorem leadsOn_of_ne (hc : c ≠ '.') (cs : List Char) : leadsOn (c :: cs) = false := by
  unfold leadsOn
  split
  · next heq => exact absurd (List.cons.inj heq).1 hc
  · rfl

section
variable {rest : List Char} (hrest : Ends rest)
include hrest

theorem fractionLength_cut (xs : List Char) : fractionLength (xs ++ rest) = fractionLength xs := by
  cases xs with
  | nil =>
    cases rest with
    | nil => rfl
    | cons c rest =>
      refine fractionLength_of_ne ?_ rest
      rintro rfl
      exact absurd (hrest '.' rfl) (by decide)
  | cons c xs =>
    by_cases hc : c = '.'
    · subst hc
      have hdot : ∀ n ∈ endCodes, (Char.ofNat n == '.') = false := by decide
      have hends : ∀ n ∈ endCodes, (startsWord (Char.ofNat n) || Char.ofNat n == '.') = false := by
        intro n hn
        rw [startsWord_endCodes n hn, hdot n hn, Bool.or_false]
      simp only [cons_append, fractionLength]
      rw [hrest.head?_any (p := fun c => startsWord c || c == '.') hends xs, hrest.takeWhile isDigit_endCodes xs]
    · rw [cons_append, fractionLength_of_ne hc, fractionLength_of_ne hc]

theorem signLength_cut (xs : List Char) : signLength (xs ++ rest) = signLength xs := by
  cases xs with
  | nil =>
    cases rest with
    | nil => rfl
    | cons c rest =>
      refine signLength_of_ne ?_ ?_ rest
      · rintro rfl
        exact absurd (hrest '+' rfl) (by decide)
      · rintro rfl
        exact absurd (hrest '-' rfl) (by decide)
  | cons c xs =>
    by_cases hp : c = '+'
    · subst hp
      rfl
    · by_cases hm : c = '-'
      · subst hm
        rfl
      · rw [cons_append, signLength_of_ne hp hm, signLength_of_ne hp hm]

theorem exponentLength_cut (xs : List Char) : exponentLength (xs ++ rest) = exponentLength xs := by
  cases xs with
  | nil =>
    cases rest with
    | nil => rfl
    | cons c rest =>
      rw [nil_append, exponentLength_cons, if_neg]
      · rfl
      · rintro (rfl | rfl)
        · exact absurd (hrest 'e' rfl) (by decide)
        · exact absurd (hrest 'E' rfl) (by decide)
  | cons c xs =>
    have hsign : signLength xs ≤ xs.length := by
      unfold signLength
      split <;> simp
    rw [cons_append, exponentLength_cons, exponentLength_cons, signLength_cut hrest xs,
      drop_append_of_le_length hsign, hrest.takeWhile isDigit_endCodes]

theorem numberLength_cut (xs : List Char) : numberLength (xs ++ rest) = numberLength xs := by
  have hwhole := digits_le xs
  have hfraction := fractionLength_le (xs.drop (xs.takeWhile Char.isDigit).length)
  simp only [length_drop] at hfraction
  simp only [numberLength]
  rw [hrest.takeWhile isDigit_endCodes, drop_append_of_le_length hwhole,
    fractionLength_cut hrest, drop_append_of_le_length (by omega), exponentLength_cut hrest]

theorem colorLength_cut (xs : List Char) : colorLength? (xs ++ rest) = colorLength? xs := by
  have hdigits := (List.takeWhile_prefix isHexDigit (l := xs)).length_le
  simp only [colorLength?]
  rw [hrest.takeWhile isHexDigit_endCodes, drop_append_of_le_length hdigits, hrest.head?_any continuesWord_endCodes]

theorem leadsOn_cut (xs : List Char) : leadsOn (xs ++ rest) = leadsOn xs := by
  cases xs with
  | nil =>
    cases rest with
    | nil => rfl
    | cons c rest =>
      refine leadsOn_of_ne ?_ rest
      rintro rfl
      exact absurd (hrest '.' rfl) (by decide)
  | cons c xs =>
    by_cases hc : c = '.'
    · subst hc
      cases xs with
      | nil =>
        cases rest with
        | nil => rfl
        | cons d rest => exact hrest.head_false startsWord_endCodes d rfl
      | cons d xs => rfl
    · rw [cons_append, leadsOn_of_ne hc, leadsOn_of_ne hc]

theorem word_cut (xs : List Char) : word (xs ++ rest) = word xs := by
  have hletters := (List.takeWhile_prefix continuesWord (l := xs)).length_le
  simp only [word]
  rw [hrest.takeWhile continuesWord_endCodes, drop_append_of_le_length hletters, leadsOn_cut hrest]

/-! ## Operators -/

theorem isPrefixOf_cut {symbol : List Char} (hs : ∀ d ∈ symbol, isEnd d = false)
    (xs : List Char) : symbol.isPrefixOf (xs ++ rest) = symbol.isPrefixOf xs := by
  induction symbol generalizing xs with
  | nil => simp
  | cons d symbol ih =>
    cases xs with
    | nil =>
      cases rest with
      | nil => rfl
      | cons e rest =>
        have hne : d ≠ e := by
          rintro rfl
          exact hrest.cons_ne (hs d mem_cons_self) rest rfl
        rw [nil_append, isPrefixOf_cons_cons, beq_eq_false_iff_ne.2 hne]
        rfl
    | cons x xs =>
      rw [cons_append, isPrefixOf_cons_cons, isPrefixOf_cons_cons, ih (fun e he => hs e (mem_cons_of_mem _ he))]

theorem operator_cut (c : Char) (xs : List Char) : operator (c :: (xs ++ rest)) = operator (c :: xs) := by
  have htail : ∀ op : Operator, ∀ d ∈ op.symbol.toList.tail, isEnd d = false := by
    intro op d hd
    have hall : op.symbol.toList.tail.all (!isEnd ·) = true := by cases op <;> decide
    simpa using all_eq_true.1 hall d hd
  have hfits : ∀ op : Operator, op.symbol.toList.isPrefixOf (c :: (xs ++ rest)) =
      op.symbol.toList.isPrefixOf (c :: xs) := by
    intro op
    have hsymbol := htail op
    generalize op.symbol.toList = symbol at hsymbol
    cases symbol with
    | nil => rfl
    | cons d symbol =>
      have hcut : symbol.isPrefixOf (xs ++ rest) = symbol.isPrefixOf xs := isPrefixOf_cut hrest hsymbol xs
      rw [isPrefixOf_cons_cons, isPrefixOf_cons_cons, hcut]
  simp only [operator, hfits]

end

/-! ## Texts and comments -/

theorem stringLength_append {quote : Char} (rest : List Char) :
    ∀ {escaped : Bool} {xs : List Char} {n : Nat}, stringLength? quote escaped xs = some n →
      stringLength? quote escaped (xs ++ rest) = some n
  | _, [], _, h => by simp [stringLength?] at h
  | escaped, c :: xs, n, h => by
    have step : ∀ b, (stringLength? quote b xs).map (· + 1) = some n →
        (stringLength? quote b (xs ++ rest)).map (· + 1) = some n := by
      intro b hb
      obtain ⟨m, hm, rfl⟩ := Option.map_eq_some_iff.1 hb
      rw [stringLength_append rest hm]
      rfl
    rw [cons_append]
    unfold stringLength? at h ⊢
    split_ifs at h ⊢
    · exact step _ h
    · exact step _ h
    · exact h
    · exact step _ h

theorem stringLength_cut {quote : Char} {rest : List Char} : ∀ {escaped : Bool} {xs : List Char} {n : Nat},
      stringLength? quote escaped (xs ++ rest) = some n → n ≤ xs.length → stringLength? quote escaped xs = some n
  | escaped, [], n, h, hn => by
    have : n ≠ 0 := by
      rintro rfl
      cases rest with
      | nil => simp [stringLength?] at h
      | cons c rest =>
        simp only [nil_append] at h
        unfold stringLength? at h
        split_ifs at h <;> simp at h
    simp at hn
    omega
  | escaped, c :: xs, n, h, hn => by
    have step : ∀ b, (stringLength? quote b (xs ++ rest)).map (· + 1) = some n →
        (stringLength? quote b xs).map (· + 1) = some n := by
      intro b hb
      obtain ⟨m, hm, rfl⟩ := Option.map_eq_some_iff.1 hb
      rw [stringLength_cut hm (by simpa using hn)]
      rfl
    rw [cons_append] at h
    unfold stringLength? at h ⊢
    split_ifs at h ⊢
    · exact step _ h
    · exact step _ h
    · exact h
    · exact step _ h

theorem blockCommentLength_cons (c : Char) (cs : List Char) : blockCommentLength (c :: cs) =
    if c = '*' ∧ cs.head? = some '/' then 2 else 1 + blockCommentLength cs := by
  rw [blockCommentLength.eq_def]
  split
  · next heq => cases heq
  · next more heq =>
    cases heq
    rfl
  · next c' cs' hno heq =>
    cases heq
    rw [if_neg]
    rintro ⟨rfl, hhead⟩
    obtain ⟨more, rfl⟩ := head?_eq_some_iff.1 hhead
    exact hno more rfl rfl

theorem blockCommentLength_cut (h : blockCommentLength (xs ++ rest) ≤ xs.length) :
    blockCommentLength xs = blockCommentLength (xs ++ rest) := by
  induction xs with
  | nil =>
    have : blockCommentLength rest = 0 := by simpa using h
    simp [blockCommentLength, this]
  | cons c xs ih =>
    rw [cons_append, blockCommentLength_cons] at h ⊢
    rw [blockCommentLength_cons]
    by_cases hclose : c = '*' ∧ (xs ++ rest).head? = some '/'
    · rw [if_pos hclose] at h ⊢
      cases xs with
      | nil => simp at h
      | cons d xs => exact if_pos hclose
    · rw [if_neg hclose] at h ⊢
      rw [if_neg, ih (by simp at h; omega)]
      rintro ⟨hc, hhead⟩
      cases xs with
      | nil => simp at hhead
      | cons d xs => exact hclose ⟨hc, hhead⟩

theorem takeWhile_cut {p : Char → Bool} (h : ((xs ++ rest).takeWhile p).length ≤ xs.length) :
    xs.takeWhile p = (xs ++ rest).takeWhile p := by
  rw [takeWhile_append] at h ⊢
  split at h
  · next hall =>
    have hnil : rest.takeWhile p = [] := by
      rw [length_append] at h
      exact eq_nil_of_length_eq_zero (by omega)
    rw [if_pos hall, hnil, append_nil]
    exact (List.takeWhile_prefix p).eq_of_length hall
  · next hall => rw [if_neg hall]

/-! ## Any word -/

theorem lexeme_cut_of (hplain : plainLexeme c (xs ++ rest) = .token kind n → plainLexeme c xs = .token kind n)
    (h : lexeme c (xs ++ rest) = .token kind n) (hn : n ≤ xs.length + 1) : lexeme c xs = .token kind n := by
  rw [lexeme] at h ⊢
  by_cases hb : isBlank c = true
  · rw [if_pos hb] at h
    cases h
  rw [if_neg hb] at h ⊢
  -- A comment needs a second character, and that is within the part since the comment is.
  by_cases hline : c = '/' ∧ (xs ++ rest).head? = some '/'
  · rw [if_pos hline] at h
    cases h
    have hne : xs ≠ [] := by
      rintro rfl
      obtain ⟨more, hmore⟩ := head?_eq_some_iff.1 hline.2
      rw [hmore, takeWhile_cons_of_pos (by decide), length_cons, length_nil] at hn
      omega
    have hcut : xs.takeWhile (· ≠ '\n') = (xs ++ rest).takeWhile (· ≠ '\n') := takeWhile_cut (by omega)
    rw [if_pos ⟨hline.1, (head?_append_of_ne_nil xs hne).symm.trans hline.2⟩, hcut]
  rw [if_neg hline] at h
  rw [if_neg fun hxs => hline ⟨hxs.1, by simp [hxs.2]⟩]
  by_cases hblock : c = '/' ∧ (xs ++ rest).head? = some '*'
  · rw [if_pos hblock] at h
    cases h
    have hne : xs ≠ [] := by
      rintro rfl
      simp at hn
      omega
    have hdrop : (xs ++ rest).drop 1 = xs.drop 1 ++ rest := drop_append_of_le_length (length_pos_iff.2 hne)
    rw [hdrop] at hn ⊢
    have hcut : blockCommentLength (xs.drop 1) = blockCommentLength (xs.drop 1 ++ rest) :=
      blockCommentLength_cut (by simp only [length_drop]; omega)
    rw [if_pos ⟨hblock.1, (head?_append_of_ne_nil xs hne).symm.trans hblock.2⟩, hcut]
  rw [if_neg hblock] at h
  rw [if_neg fun hxs => hblock ⟨hxs.1, by simp [hxs.2]⟩]
  by_cases hquote : c = '"' ∨ c = '\''
  · rw [if_pos hquote] at h ⊢
    cases hlen : stringLength? c false (xs ++ rest) with
    | some m =>
      rw [hlen] at h
      cases h
      rw [stringLength_cut hlen (by omega)]
    | none =>
      rw [hlen] at h
      cases hxs : stringLength? c false xs with
      | none => exact h
      | some m =>
        rw [stringLength_append rest hxs] at hlen
        cases hlen
  rw [if_neg hquote] at h ⊢
  exact hplain h

theorem plainLexeme_cut (hrest : Ends rest) : plainLexeme c (xs ++ rest) = plainLexeme c xs := by
  have hnumber : numberLength (c :: (xs ++ rest)) = numberLength (c :: xs) := numberLength_cut hrest (c :: xs)
  have hword : word (c :: (xs ++ rest)) = word (c :: xs) := word_cut hrest (c :: xs)
  unfold plainLexeme
  rw [colorLength_cut hrest, hrest.head?_any isDigit_endCodes, hnumber, hword, operator_cut hrest]

/-- A word that ends within `c :: xs` is read alike when the text is cut off behind that. -/
theorem lexeme_cut (hrest : Ends rest) (h : lexeme c (xs ++ rest) = .token kind n)
    (hn : n ≤ xs.length + 1) : lexeme c xs = .token kind n :=
  lexeme_cut_of (fun hplain => (plainLexeme_cut hrest).symm.trans hplain) h hn

/-! ## Words of a part -/

theorem byteSize_take_le (cs : List Char) (n : Nat) : byteSize (cs.take n) ≤ byteSize cs := by
  conv => rhs; rw [← take_append_drop n cs]
  rw [byteSize_append]
  omega

theorem stop_le_of_mem_words {cs : List Char} {t : Token} (h : t ∈ words skip p cs) :
    t.span.stop ≤ p.offset + byteSize cs := by
  induction cs generalizing skip p with
  | nil => simp at h
  | cons c rest ih =>
    have step : ∀ {skip : Nat}, t ∈ words skip (p.advance c) rest →
        t.span.stop ≤ p.offset + byteSize (c :: rest) := by
      intro skip h
      have := ih h
      simp only [advance_offset] at this
      simp only [byteSize]
      omega
    cases skip with
    | succ k => exact step h
    | zero =>
      cases hx : lexeme c rest with
      | gap =>
        rw [words_gap p hx] at h
        exact step h
      | token kind n =>
        rw [words_token p hx] at h
        rcases mem_cons.1 h with rfl | h
        · have := byteSize_take_le (c :: rest) n
          simp only [token]
          omega
        · exact step h

theorem length_le_of_stop_le (hx : lexeme c (xs ++ rest) = .token kind n)
    (hstop : (p.token kind ((c :: (xs ++ rest)).take n)).span.stop ≤ p.offset + byteSize (c :: xs)) :
    n ≤ xs.length + 1 := by
  -- were the word longer than the part, it would have more bytes
  by_contra hlong
  have hsplit : (c :: (xs ++ rest)).take n = c :: xs ++ rest.take (n - (xs.length + 1)) := by
    rw [← cons_append, take_append, take_of_length_le (by simp; omega)]
    rfl
  have hlen := (lexeme_length hx).2
  have hmore : 0 < byteSize (rest.take (n - (xs.length + 1))) := by
    refine byteSize_pos fun hnil => ?_
    have := congrArg List.length hnil
    simp only [length_take, length_append, length_nil] at this hlen
    omega
  rw [token, hsplit, byteSize_append] at hstop
  dsimp only at hstop
  omega

theorem words_append_of {whole : List Token} {limit : Nat} (hskip : skip ≤ xs.length)
    (hlimit : p.offset + byteSize xs = limit) (hwhole : words skip p (xs ++ rest) <:+ whole)
    (hcross : ∀ t ∈ whole, t.span.start < limit → t.span.stop ≤ limit)
    (hcut : ∀ {q : Position} {c : Char} {ys : List Char} {kind : TokenKind} {n : Nat},
      q.offset + byteSize (c :: ys) = limit → words 0 q (c :: (ys ++ rest)) <:+ whole →
      lexeme c (ys ++ rest) = .token kind n → n ≤ ys.length + 1 → lexeme c ys = .token kind n) :
    words skip p (xs ++ rest) = words skip p xs ++ words 0 (p.after xs) rest := by
  induction xs generalizing skip p with
  | nil =>
    have : skip = 0 := by simpa using hskip
    subst this
    rfl
  | cons c xs ih =>
    have hoffset : (p.advance c).offset + byteSize xs = limit := by
      simp only [advance_offset, byteSize] at hlimit ⊢
      omega
    cases skip with
    | succ k => exact ih (by simpa using hskip) hoffset hwhole
    | zero =>
      rw [cons_append] at hwhole ⊢
      cases hx : lexeme c (xs ++ rest) with
      | gap =>
        have hgap : lexeme c xs = .gap := lexeme_blank xs (isBlank_of_gap hx)
        rw [words_gap p hx] at hwhole ⊢
        rw [words_gap p hgap]
        exact ih (Nat.zero_le _) hoffset hwhole
      | token kind n =>
        have hself := words_token p hx
        have hpos := c.utf8Size_pos
        have hstop := hcross _ (hwhole.mem (by rw [hself]; exact mem_cons_self))
          (by simp only [token, byteSize] at hlimit ⊢; omega)
        rw [← hlimit] at hstop
        have hn := length_le_of_stop_le hx hstop
        have htake : (c :: (xs ++ rest)).take n = (c :: xs).take n := by
          rw [← cons_append]
          exact take_append_of_le_length (by simpa using hn)
        rw [words_token p (hcut hlimit hwhole hx hn), hself, htake, cons_append]
        congr 1
        rw [hself] at hwhole
        exact ih (by omega) hoffset ((suffix_cons _ _).trans hwhole)

theorem words_append (hrest : Ends rest) (hskip : skip ≤ xs.length) (hcross : ∀ t ∈ words skip p (xs ++ rest),
      t.span.start < p.offset + byteSize xs → t.span.stop ≤ p.offset + byteSize xs) :
    words skip p (xs ++ rest) = words skip p xs ++ words 0 (p.after xs) rest :=
  words_append_of hskip rfl (suffix_refl _) hcross fun _ _ hx hn => lexeme_cut hrest hx hn

/-! ## Moving a text -/

def Position.offsetBy (p : Position) (base : Span) : Position :=
  ⟨base.start + p.offset, base.line + p.line - 1, if p.line = 1 then base.column + p.column - 1 else p.column⟩

def Position.Counts (p : Position) : Prop :=
  0 < p.line ∧ 0 < p.column

theorem Position.counts_advance (h : p.Counts) (c : Char) : (p.advance c).Counts := by
  obtain ⟨hl, hc⟩ := h
  unfold advance
  split
  · exact ⟨Nat.succ_pos _, Nat.one_pos⟩
  · exact ⟨hl, Nat.succ_pos _⟩

theorem Position.advance_offsetBy (h : p.Counts) (base : Span) (c : Char) :
    (p.offsetBy base).advance c = (p.advance c).offsetBy base := by
  obtain ⟨hl, hc⟩ := h
  unfold advance offsetBy
  split
  · simp only [mk.injEq]
    refine ⟨by omega, by omega, ?_⟩
    rw [if_neg (by omega)]
  · simp only [mk.injEq]
    refine ⟨by omega, trivial, ?_⟩
    split <;> omega

theorem Position.counts_after (h : p.Counts) (cs : List Char) : (p.after cs).Counts := by
  induction cs generalizing p with
  | nil => exact h
  | cons c cs ih => exact ih (counts_advance h c)

theorem Position.after_offsetBy (h : p.Counts) (base : Span) (cs : List Char) :
    (p.offsetBy base).after cs = (p.after cs).offsetBy base := by
  induction cs generalizing p with
  | nil => rfl
  | cons c cs ih => rw [after_cons, advance_offsetBy h, ih (counts_advance h c), after_cons]

theorem Position.token_offsetBy (p : Position) (base : Span) (kind : TokenKind)
    (chars : List Char) : (p.offsetBy base).token kind chars =
      { p.token kind chars with span := (p.token kind chars).span.offsetBy base } := by
  simp only [token, offsetBy, Span.offsetBy, Nat.add_assoc]
  rfl

theorem words_offsetBy (base : Span) (cs : List Char) (skip : Nat) (h : p.Counts) :
    words skip (p.offsetBy base) cs = (words skip p cs).map fun t => { t with span := t.span.offsetBy base } := by
  induction cs generalizing skip p with
  | nil => simp
  | cons c rest ih =>
    have hnext := counts_advance h c
    cases skip with
    | succ k => rw [words_skip, words_skip, advance_offsetBy h, ih k hnext]
    | zero =>
      cases hx : lexeme c rest with
      | gap => rw [words_gap _ hx, words_gap _ hx, advance_offsetBy h, ih 0 hnext]
      | token kind n =>
        rw [words_token _ hx, words_token _ hx, advance_offsetBy h, ih _ hnext, map_cons, token_offsetBy]

end ChartScript.Lexer
