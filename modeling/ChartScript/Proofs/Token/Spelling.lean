import ChartScript.Decimal.Read
import ChartScript.Proofs.Token.Positions
/-!
# How tokens are spelled

A number is digits, then perhaps a point and digits, then perhaps a mark, a sign and digits; digits
stand before the point or behind it. So every number token can be read as a number. No token but a
comment begins or ends with white space.
-/
namespace ChartScript

open List Text

variable {cs exponent fraction rest whole : List Char} {c : Char}

namespace Lexer

/-! ## Numbers -/

def IsFraction (cs : List Char) : Prop :=
  cs = [] ∨ ∃ digits, cs = '.' :: digits ∧ ∀ d ∈ digits, d.isDigit = true

def IsExponent (cs : List Char) : Prop :=
  cs = [] ∨ ∃ mark sign digits, cs = mark :: (sign ++ digits) ∧ (mark = 'e' ∨ mark = 'E') ∧
    (sign = [] ∨ sign = ['+'] ∨ sign = ['-']) ∧ digits ≠ [] ∧ ∀ d ∈ digits, d.isDigit = true

/-- The text is a number without a sign. -/
structure NumberParts (cs whole fraction exponent : List Char) : Prop where
  split : cs = whole ++ (fraction ++ exponent)
  isDigit : ∀ d ∈ whole, d.isDigit = true
  isFraction : IsFraction fraction
  isExponent : IsExponent exponent
  /-- Digits stand before the point or behind it. -/
  hasDigit : whole = [] → ∃ d ds, fraction = '.' :: d :: ds

theorem take_digits (cs : List Char) : cs.take (cs.takeWhile Char.isDigit).length = cs.takeWhile Char.isDigit :=
  (prefix_iff_eq_take.1 (List.takeWhile_prefix _)).symm

theorem isDigit_of_mem {d : Char} (h : d ∈ cs.takeWhile Char.isDigit) : d.isDigit = true :=
  mem_takeWhile_imp h

theorem isFraction_take (cs : List Char) : IsFraction (cs.take (fractionLength cs)) := by
  unfold fractionLength
  split
  · next rest =>
    split
    · exact .inl rfl
    · refine .inr ⟨rest.takeWhile Char.isDigit, ?_, fun d => isDigit_of_mem⟩
      rw [Nat.add_comm, take_succ_cons, take_digits]
  · exact .inl rfl

theorem take_sign (cs : List Char) : cs.take (signLength cs) = [] ∨
    cs.take (signLength cs) = ['+'] ∨ cs.take (signLength cs) = ['-'] := by
  unfold signLength
  split
  · exact .inr (.inl rfl)
  · exact .inr (.inr rfl)
  · exact .inl rfl

theorem isExponent_take (cs : List Char) : IsExponent (cs.take (exponentLength cs)) := by
  cases cs with
  | nil => exact .inl rfl
  | cons mark rest =>
    rw [exponentLength_cons]
    split
    · next hmark =>
      split
      · exact .inl rfl
      · next hdigits =>
        refine .inr ⟨mark, rest.take (signLength rest),
          (rest.drop (signLength rest)).takeWhile Char.isDigit, ?_, hmark, take_sign rest, ?_,
          fun d => isDigit_of_mem⟩
        · rw [Nat.add_assoc, Nat.add_comm 1, take_succ_cons, take_add, take_digits]
        · intro hnil
          exact hdigits (by rw [hnil]; rfl)
    · exact .inl rfl

theorem numeral_take (h : c.isDigit ∨ (c = '.' ∧ rest.head?.any Char.isDigit)) :
    ∃ whole fraction exponent,
      NumberParts ((c :: rest).take (numberLength (c :: rest))) whole fraction exponent := by
  have hsplit : ∀ cs : List Char, cs.take (numberLength cs) = cs.takeWhile Char.isDigit ++
      ((cs.drop (cs.takeWhile Char.isDigit).length).take
          (fractionLength (cs.drop (cs.takeWhile Char.isDigit).length)) ++
        (cs.drop ((cs.takeWhile Char.isDigit).length +
            fractionLength (cs.drop (cs.takeWhile Char.isDigit).length))).take
          (exponentLength (cs.drop ((cs.takeWhile Char.isDigit).length +
            fractionLength (cs.drop (cs.takeWhile Char.isDigit).length))))) := by
    intro cs
    rw [numberLength, take_add, take_add, take_digits, append_assoc]
  refine ⟨_, _, _, hsplit _, fun d => isDigit_of_mem, isFraction_take _, isExponent_take _, ?_⟩
  intro hwhole
  have hc : c.isDigit = false := by
    cases hd : c.isDigit with
    | false => rfl
    | true => simp [hd] at hwhole
  obtain ⟨rfl, hnext⟩ := h.resolve_left (by simp [hc])
  cases rest with
  | nil => simp at hnext
  | cons d more =>
    have hd : d.isDigit = true := by simpa using hnext
    have hdot : (d == '.') = false := by
      rw [beq_eq_false_iff_ne]
      rintro rfl
      cases hd
    refine ⟨d, more.takeWhile Char.isDigit, ?_⟩
    have hfraction : fractionLength ('.' :: d :: more) = (more.takeWhile Char.isDigit).length + 1 + 1 := by
      simp [fractionLength, not_startsWord_of_isDigit hd, hdot, hd, Nat.add_comm]
    rw [hwhole, length_nil, drop_zero, hfraction, take_succ_cons, take_succ_cons, take_digits]

theorem IsExponent.takeWhile (h : IsExponent cs) :
    cs.takeWhile Char.isDigit = [] ∧ cs.dropWhile Char.isDigit = cs := by
  rcases h with rfl | ⟨mark, sign, digits, rfl, rfl | rfl, -⟩
  · exact ⟨rfl, rfl⟩
  · exact ⟨rfl, rfl⟩
  · exact ⟨rfl, rfl⟩

end Lexer

namespace Decimal

open Lexer

theorem readDigits_isSome {digits : List Char} (hne : digits ≠ [])
    (h : ∀ d ∈ digits, d.isDigit = true) : (readDigits? digits).isSome = true := by
  rw [readDigits?, if_pos ⟨hne, all_eq_true.2 h⟩]
  rfl

theorem splitSign_of_isDigit (h : c.isDigit = true ∨ c = '.') (cs : List Char) :
    splitSign (c :: cs) = (false, c :: cs) := by
  unfold splitSign
  split
  · next heq =>
    cases heq
    exact absurd h (by decide)
  · next heq =>
    cases heq
    exact absurd h (by decide)
  · rfl

theorem readExponent_isSome (h : IsExponent cs) : (readExponent? cs).isSome = true := by
  rcases h with rfl | ⟨mark, sign, digits, rfl, hmark, hsign, hne, hdigits⟩
  · rfl
  · have hread := readDigits_isSome hne hdigits
    have hsplit : (splitSign (sign ++ digits)).2 = digits := by
      rcases hsign with rfl | rfl | rfl
      · obtain ⟨d, ds, rfl⟩ := exists_cons_of_ne_nil hne
        rw [nil_append, splitSign_of_isDigit (.inl (hdigits d mem_cons_self))]
      · rfl
      · rfl
    obtain ⟨n, hn⟩ := Option.isSome_iff_exists.1 hread
    rw [readExponent?, if_pos hmark]
    dsimp only
    rw [hsplit, hn]
    rfl

theorem readMagnitude_isSome (h : NumberParts cs whole fraction exponent) : (readMagnitude? cs).isSome = true := by
  obtain ⟨rfl, hwhole, hfraction, hexponent, hdigit⟩ := h
  have hread := readExponent_isSome hexponent
  obtain ⟨htake, hdrop⟩ := hexponent.takeWhile
  unfold readMagnitude?
  rw [takeWhile_append_of_pos hwhole, dropWhile_append_of_pos hwhole]
  rcases hfraction with rfl | ⟨digits, rfl, hdigits⟩
  · have hne : whole ≠ [] := by
      intro hnil
      obtain ⟨_, _, hnone⟩ := hdigit hnil
      cases hnone
    rw [nil_append, htake, hdrop, append_nil]
    -- no point stands in front of an exponent
    rcases hexponent with rfl | ⟨mark, sign, ds, rfl, rfl | rfl, -⟩ <;> simpa [hne] using hread
  · have hnone : ¬ (whole = [] ∧ digits = []) := by
      rintro ⟨hnil, rfl⟩
      obtain ⟨d, ds, hcons⟩ := hdigit hnil
      cases hcons
    simp only [cons_append, takeWhile_cons, dropWhile_cons, show Char.isDigit '.' =
      false from rfl, takeWhile_append_of_pos hdigits, dropWhile_append_of_pos hdigits,
      htake, hdrop, append_nil, Bool.false_eq_true, if_false]
    rw [if_neg hnone, Option.isSome_map]
    exact hread

theorem readFloat_isSome (h : NumberParts cs whole fraction exponent) :
    (readFloat? (String.ofList cs)).isSome = true := by
  have hread := readMagnitude_isSome h
  have hsign : splitSign cs = (false, cs) := by
    obtain ⟨rfl, hwhole, -, -, hdigit⟩ := h
    cases whole with
    | nil =>
      obtain ⟨d, ds, rfl⟩ := hdigit rfl
      exact splitSign_of_isDigit (.inr rfl) _
    | cons d ds => exact splitSign_of_isDigit (.inl (hwhole d mem_cons_self)) _
  obtain ⟨x, hx⟩ := Option.isSome_iff_exists.1 hread
  rw [readFloat?, String.toList_ofList, hsign]
  dsimp only
  rw [hx]
  rfl

end Decimal

variable {source : List Char} {t : Token} {kind : TokenKind} {n : Nat}

namespace Lexer

theorem lexeme_of_token (ht : t ∈ tokenize source)
    (hword : Statement.isLayout t = false) : ∃ (p : Position) (c : Char) (mid rest : List Char),
      t = p.token t.kind (c :: mid) ∧ t.text = String.ofList (c :: mid) ∧
      lexeme c (mid ++ rest) = .token t.kind (mid.length + 1) := by
  obtain ⟨before, after, hsplit⟩ := append_of_mem ht
  obtain ⟨pre, c, mid, rest, s', -, hx, hw, -, -, -⟩ :=
    scan_split (show scan 0 State.start source = before ++ t :: after from hsplit) hword
  refine ⟨_, c, mid, rest, hw, ?_, hx⟩
  rw [hw]
  rfl

theorem readFloat_of_number (ht : t ∈ tokenize source)
    (hk : t.kind = .literal .number) : (Decimal.readFloat? t.text).isSome = true := by
  obtain ⟨-, c, mid, rest, -, htext, hx⟩ := lexeme_of_token ht (by simp [Statement.isLayout, hk])
  have hr := reads_lexeme c (mid ++ rest)
  rw [hx, hk] at hr
  generalize hlexeme : Lexeme.token (.literal .number) (mid.length + 1) = x at hr
  cases hr with
  | number hfirst =>
    obtain ⟨whole, fraction, exponent, hnumeral⟩ := numeral_take hfirst
    rw [← (Lexeme.token.inj hlexeme).2, take_succ_cons, take_left] at hnumeral
    rw [htext]
    exact Decimal.readFloat_isSome hnumeral
  | word =>
    simp only [word] at hlexeme
    split at hlexeme
    · cases hlexeme
    · exact absurd (Lexeme.token.inj hlexeme).1.symm (wordKind_ne _).2.2.1
  | _ => cases hlexeme

/-! ## The ends of a token -/

end Lexer

/-- The text begins and ends with characters that are no white space. -/
def Text.Trimmed (cs : List Char) : Prop :=
  ∃ c d, cs.head? = some c ∧ cs.getLast? = some d ∧ isBlank c = false ∧ isBlank d = false

namespace Lexer

theorem isBlank_of_class {p : Char → Bool} (hp : ∀ n ∈ endCodes, p (Char.ofNat n) = false)
    (h : p c = true) : isBlank c = false := by
  cases hb : isBlank c with
  | false => rfl
  | true =>
    have hfalse := hp c.toNat (mem_endCodes (by simp [isEnd, hb]))
    rw [Char.ofNat_toNat, h] at hfalse
    cases hfalse

theorem isBlank_of_isDigit (h : c.isDigit = true) : isBlank c = false :=
  isBlank_of_class isDigit_endCodes h

theorem NumberParts.isBlank (h : NumberParts cs whole fraction exponent) : ∀ d ∈ cs, Text.isBlank d = false := by
  obtain ⟨rfl, hwhole, hfraction, hexponent, -⟩ := h
  intro d hd
  rcases mem_append.1 hd with hd | hd
  · exact isBlank_of_isDigit (hwhole d hd)
  rcases mem_append.1 hd with hd | hd
  · rcases hfraction with rfl | ⟨digits, rfl, hdigits⟩
    · cases hd
    · rcases mem_cons.1 hd with rfl | hd
      · rfl
      · exact isBlank_of_isDigit (hdigits d hd)
  · rcases hexponent with rfl | ⟨mark, sign, digits, rfl, hmark, hsign, -, hdigits⟩
    · cases hd
    rcases mem_cons.1 hd with rfl | hd
    · rcases hmark with rfl | rfl <;> rfl
    rcases mem_append.1 hd with hd | hd
    · rcases hsign with rfl | rfl | rfl
      · cases hd
      · rw [mem_singleton.1 hd]
        rfl
      · rw [mem_singleton.1 hd]
        rfl
    · exact isBlank_of_isDigit (hdigits d hd)

theorem stringLength_last {quote : Char} : ∀ {escaped : Bool} {cs : List Char} {n : Nat},
    stringLength? quote escaped cs = some n → (cs.take n).getLast? = some quote
  | _, [], _, h => by simp [stringLength?] at h
  | escaped, c :: rest, n, h => by
    have step : ∀ b, Option.map (· + 1) (stringLength? quote b rest) = some n →
        ((c :: rest).take n).getLast? = some quote := by
      intro b hb
      obtain ⟨m, hm, rfl⟩ := Option.map_eq_some_iff.1 hb
      have hlast := stringLength_last hm
      rw [take_succ_cons, getLast?_cons, hlast]
      rfl
    unfold stringLength? at h
    split_ifs at h with _ _ _ hquote
    · exact step _ h
    · exact step _ h
    · cases h
      simp [hquote]
    · exact step _ h

theorem word_isBlank (h : word (c :: rest) = .token kind n) :
    ∀ d ∈ (c :: rest).take n, isBlank d = false := by
  have hletters : ∀ d ∈ (c :: rest).takeWhile continuesWord, isBlank d = false :=
    fun d hd => isBlank_of_class continuesWord_endCodes (mem_takeWhile_imp hd)
  have htake : (c :: rest).take ((c :: rest).takeWhile continuesWord).length =
      (c :: rest).takeWhile continuesWord :=
    (prefix_iff_eq_take.1 (List.takeWhile_prefix _)).symm
  simp only [word] at h
  split at h
  · next hqualifier =>
    cases h
    -- one more character than the letters, and that is the dot
    have hdot : ((c :: rest).drop ((c :: rest).takeWhile continuesWord).length).take 1 = ['.'] := by
      have hleads := (Bool.and_eq_true_iff.1 hqualifier).1
      generalize (c :: rest).drop ((c :: rest).takeWhile continuesWord).length = tail at hleads ⊢
      unfold leadsOn at hleads
      split at hleads
      · rfl
      · cases hleads
    rw [take_add, htake, hdot]
    intro d hd
    rcases mem_append.1 hd with hd | hd
    · exact hletters d hd
    · rw [mem_singleton.1 hd]
      rfl
  · cases h
    rw [htake]
    exact hletters

theorem symbol_isBlank (op : Operator) : ∀ d ∈ op.symbol.toList, isBlank d = false := by
  cases op <;> simp [Operator.symbol] <;> decide

theorem lexeme_trimmed (h : lexeme c rest = .token kind n)
    (hk : kind ≠ .comment) : Trimmed ((c :: rest).take n) := by
  have hfirst : isBlank c = false := isBlank_of_token h
  obtain ⟨m, rfl⟩ : ∃ m, n = m + 1 := ⟨n - 1, by have := (lexeme_length h).1; omega⟩
  suffices hlast : ∃ d, ((c :: rest).take (m + 1)).getLast? = some d ∧ isBlank d = false by
    obtain ⟨d, hd, hblank⟩ := hlast
    exact ⟨c, d, rfl, hd, hfirst, hblank⟩
  -- of most tokens no character at all is white space
  have hall : (∀ d ∈ (c :: rest).take (m + 1), isBlank d = false) →
      ∃ d, ((c :: rest).take (m + 1)).getLast? = some d ∧ isBlank d = false := by
    intro hnone
    exact ⟨_, getLast?_eq_getLast_of_ne_nil (by simp), hnone _ (getLast_mem _)⟩
  have hr := reads_lexeme c rest
  rw [h] at hr
  generalize hx : Lexeme.token kind (m + 1) = x at hr
  cases hr with
  | blank => cases hx
  | lineComment => exact absurd (Lexeme.token.inj hx).1 hk
  | blockComment => exact absurd (Lexeme.token.inj hx).1 hk
  | @string n hquote hn =>
    obtain rfl : n = m := by have := (Lexeme.token.inj hx).2; omega
    refine ⟨c, ?_, hfirst⟩
    rw [take_succ_cons, getLast?_cons, stringLength_last hn]
    rfl
  | @color n hmark hn =>
    obtain rfl : n = m := by have := (Lexeme.token.inj hx).2; omega
    refine hall fun d hd => ?_
    rcases mem_cons.1 hd with rfl | hd
    · exact hfirst
    · have hdigits : rest.take n = rest.takeWhile isHexDigit := by
        simp only [colorLength?] at hn
        split at hn
        · cases hn
          exact (prefix_iff_eq_take.1 (List.takeWhile_prefix _)).symm
        · cases hn
      rw [hdigits] at hd
      exact isBlank_of_class isHexDigit_endCodes (mem_takeWhile_imp hd)
  | number hstart =>
    obtain ⟨whole, fraction, exponent, hnumeral⟩ := numeral_take hstart
    rw [← (Lexeme.token.inj hx).2] at hnumeral
    exact hall hnumeral.isBlank
  | word => exact hall (word_isBlank hx.symm)
  | delimiter => exact hall (by cases hx; simpa using hfirst)
  | @operator op hsymbol =>
    refine hall fun d hd => symbol_isBlank op d ?_
    rw [(Lexeme.token.inj hx).2, ← String.length_toList, ← prefix_iff_eq_take.1 hsymbol] at hd
    exact hd
  | unknown => exact hall (by cases hx; simpa using hfirst)

theorem trimmed_of_token (ht : t ∈ tokenize source)
    (hword : Statement.isLayout t = false) (hk : t.kind ≠ .comment) : Trimmed t.text.toList := by
  obtain ⟨-, c, mid, rest, -, htext, hx⟩ := lexeme_of_token ht hword
  have htrimmed := lexeme_trimmed hx hk
  rw [take_succ_cons, take_left] at htrimmed
  rwa [htext, String.toList_ofList]

end Lexer

end ChartScript
