import ChartScript.Proofs.Expr.Printer
import ChartScript.Proofs.Token.Spelling
/-!
# The tokens of a written expression

A word of an expression is read back as it was written, provided that what stands behind it neither
lengthens it nor makes another word of it.
-/
namespace ChartScript

open List Text Lexer

/-! ## Words at the front of a text -/

variable {c : Char} {q x : String} {rest : List Char} {ws : List Word}

variable {cs : List Char} {spacing : Spacing} {op : Operator} {us : List Word} {least : Nat}

namespace Lexer

theorem ends_cons (h : isEnd c = true) (rest : List Char) : Ends (c :: rest) := by
  intro d hd
  cases hd
  exact h

theorem ends_nil : Ends [] := by
  intro d hd
  cases hd

theorem lexeme_eq_word (h : startsWord c = true) (rest : List Char) : lexeme c rest = word (c :: rest) := by
  have hne : ∀ d, startsWord d = false → c ≠ d := by
    rintro d hd rfl
    rw [h] at hd
    cases hd
  have hslash := hne '/' (by decide)
  have hdigit : c.isDigit = false := by
    cases hc : c.isDigit with
    | false => rfl
    | true => exact absurd h (by simp [not_startsWord_of_isDigit hc])
  simp [lexeme, plainLexeme, isBlank_of_class startsWord_endCodes h, hslash, hne '"' (by decide),
    hne '\'' (by decide), hne '#' (by decide), hne '.' (by decide), hdigit, h]

theorem lexeme_eq_number (h : c.isDigit = true) (rest : List Char) :
    lexeme c rest = .token (.literal .number) (numberLength (c :: rest)) := by
  have hne : ∀ d, d.isDigit = false → c ≠ d := by
    rintro d hd rfl
    rw [h] at hd
    cases hd
  simp [lexeme, plainLexeme, isBlank_of_isDigit h, hne '/' (by decide), hne '"' (by decide),
    hne '\'' (by decide), hne '#' (by decide), h]

theorem word_eq_of_all (h : cs.all continuesWord = true) :
    word cs = .token (wordKind (String.ofList cs)) cs.length := by
  have hall : cs.takeWhile continuesWord = cs := takeWhile_eq_self_iff.2 (all_eq_true.1 h)
  simp [word, hall, leadsOn]

theorem wordKind_cases (x : String) : wordKind x = .literal .bool ∨ wordKind x = .literal .na ∨
    (∃ word, wordKind x = .keyword word) ∨ (∃ field, wordKind x = .series field) ∨
    wordKind x = .identifier := by
  unfold wordKind
  split
  · simp
  · split
    · simp
    · split <;> simp

theorem numberLength_of_all (h : ∀ d ∈ cs, d.isDigit = true) : numberLength cs = cs.length := by
  have hall : cs.takeWhile Char.isDigit = cs := takeWhile_eq_self_iff.2 h
  simp [numberLength, hall, fractionLength, exponentLength]

theorem isSpelling_of_qualifier (h : q ∈ qualifierNames) : Word.isSpelling q = true := by
  have hall : ∀ q ∈ qualifierNames, Word.isSpelling q = true := by decide
  exact hall q h

end Lexer

namespace Word

def Lexes (w : Word) (rest : List Char) : Prop :=
  ∃ c cs, w.text.toList = c :: cs ∧ lexeme c (cs ++ (w.trail ++ rest)) = .token w.kind (cs.length + 1)

theorem exists_of_isSpelling (h : isSpelling x = true) :
    ∃ c cs, x.toList = c :: cs ∧ startsWord c = true ∧ (c :: cs).all continuesWord = true := by
  obtain ⟨hstarts, hall⟩ := Bool.and_eq_true_iff.1 h
  cases hx : x.toList with
  | nil =>
    rw [hx] at hstarts
    cases hstarts
  | cons c cs =>
    rw [hx] at hstarts hall
    exact ⟨c, cs, rfl, hstarts, hall⟩

theorem lexes_name (hx : isSpelling x = true)
    (hrest : Ends ((name x spacing).trail ++ rest)) : (name x spacing).Lexes rest := by
  obtain ⟨c, cs, htext, hstarts, hall⟩ := exists_of_isSpelling hx
  refine ⟨c, cs, htext, ?_⟩
  rw [lexeme_eq_word hstarts, ← cons_append, word_cut hrest, word_eq_of_all hall, ← htext, String.ofList_toList]
  simp [kind, htext]

theorem lexes_number {n : Nat} (hrest : Ends rest) : (number n).Lexes rest := by
  have hdigits : ∀ d ∈ Nat.toDigits 10 n, d.isDigit = true :=
    fun d hd => Nat.isDigit_of_mem_toDigits (by decide) (by decide) hd
  obtain ⟨c, cs, htext⟩ := exists_cons_of_ne_nil (Nat.toDigits_ne_nil (n := n) (b := 10))
  rw [htext] at hdigits
  refine ⟨c, cs, by simp [text, htext], ?_⟩
  rw [lexeme_eq_number (hdigits c mem_cons_self), ← cons_append]
  have hcut := numberLength_cut hrest (c :: cs)
  simp only [trail, spacing, if_true, nil_append, kind]
  rw [hcut, numberLength_of_all hdigits, length_cons]

theorem lexes_qualifier (hq : q ∈ qualifierNames) (hc : startsWord c = true) : (qualifier q).Lexes (c :: rest) := by
  obtain ⟨d, ds, htext, hstarts, hall⟩ := exists_of_isSpelling (isSpelling_of_qualifier hq)
  refine ⟨d, ds ++ ['.'], by simp [text, htext], ?_⟩
  have hletters : (d :: ds ++ '.' :: c :: rest).takeWhile continuesWord = d :: ds := by
    rw [takeWhile_append_of_pos (all_eq_true.1 hall), takeWhile_cons_of_neg, append_nil]
    decide
  have hname : String.ofList (d :: ds) = q := by rw [← htext, String.ofList_toList]
  have hread : word (d :: ds ++ '.' :: c :: rest) = .token .qualifier ((d :: ds).length + 1) := by
    rw [word, hletters, drop_left, hname]
    simp [leadsOn, hc, hq]
  rw [lexeme_eq_word hstarts]
  simpa [trail, spacing, kind] using hread

theorem lexes_operator (op : Operator) (hspacing : spacing ≠ .tight)
    (rest : List Char) : (operator op spacing).Lexes rest := by
  have hread : ∃ c cs, op.symbol.toList = c :: cs ∧
      lexeme c (cs ++ ' ' :: rest) = .token (.operator op) (cs.length + 1) := by
    cases op <;> exact ⟨_, _, rfl, rfl⟩
  have htrail : (operator op spacing).trail = [' '] := if_neg hspacing
  obtain ⟨c, cs, htext, hread⟩ := hread
  exact ⟨c, cs, htext, by rwa [htrail]⟩

theorem lexes_mark {m : Delimiter} (hm : m ≠ .dot) (rest : List Char) : (mark m).Lexes rest := by
  cases m with
  | dot => exact absurd rfl hm
  | _ => exact ⟨_, _, rfl, rfl⟩

theorem lexes_sign (hop : op = .plus ∨ op = .minus) (hrest : rest.head? ≠ some '=') :
    (operator op .tight).Lexes rest := by
  cases rest with
  | nil => rcases hop with rfl | rfl <;> exact ⟨_, _, rfl, rfl⟩
  | cons c rest =>
    have hc : ('=' == c) = false := by
      apply beq_false_of_ne
      rintro rfl
      exact hrest rfl
    have hfind : Operator.all.find? (fun o => o.symbol.toList.isPrefixOf
        (op.symbol.toList ++ c :: rest)) = some op := by
      rcases hop with rfl | rfl <;> simp [Operator.all, Operator.symbol, List.find?, List.isPrefixOf, hc]
    have hread : Lexer.operator (op.symbol.toList ++ c :: rest) = .token (.operator op) op.symbol.length := by
      rw [Lexer.operator, hfind]
    rcases hop with rfl | rfl <;> exact ⟨_, [], rfl, hread⟩

/-! ## Several words -/

/-- Every word is read back in front of those behind it and the text `rest`. -/
def Lexed : List Word → List Char → Prop
  | [], _ => True
  | w :: ws, rest => w.Lexes (ws.flatMap chars ++ rest) ∧ Lexed ws rest

theorem lexed_append :
    Lexed (us ++ ws) rest ↔ Lexed us (ws.flatMap chars ++ rest) ∧ Lexed ws rest := by
  induction us with
  | nil => simp [Lexed]
  | cons u us ih => simp [Lexed, ih, and_assoc]

def Tokens (ts : List Token) (ws : List Word) : Prop :=
  ts.map (fun t => (t.kind, t.text)) = ws.map fun w => (w.kind, w.text)

theorem exists_word {ts : List Token} (h : Tokens ts ws) {t : Token} (ht : t ∈ ts) : ∃ w ∈ ws, t.kind = w.kind := by
  have hmem := mem_map_of_mem (f := fun t : Token => (t.kind, t.text)) ht
  rw [h] at hmem
  obtain ⟨w, hw, hsame⟩ := mem_map.1 hmem
  exact ⟨w, hw, (Prod.mk.inj hsame).1.symm⟩

variable {w : Word}

theorem words_chars (h : w.Lexes rest) (p : Position) :
    ∃ t p', Tokens [t] [w] ∧ Lexer.words 0 p (w.chars ++ rest) = t :: Lexer.words 0 p' rest := by
  have hblank : ∀ (cs more : List Char) (p : Position), cs = [] ∨ cs = [' '] →
      ∃ p', Lexer.words 0 p (cs ++ more) = Lexer.words 0 p' more := by
    rintro cs more p (rfl | rfl)
    · exact ⟨p, rfl⟩
    · exact ⟨_, words_gap p rfl⟩
  have hlead : w.lead = [] ∨ w.lead = [' '] := by
    unfold lead
    split <;> simp
  have htrail : w.trail = [] ∨ w.trail = [' '] := by
    unfold trail
    split <;> simp
  obtain ⟨c, cs, htext, hread⟩ := h
  obtain ⟨p₁, h₁⟩ := hblank w.lead (w.text.toList ++ w.trail ++ rest) p hlead
  obtain ⟨p₂, h₂⟩ := hblank w.trail rest ((p₁.advance c).after cs) htrail
  have htake : (c :: (cs ++ (w.trail ++ rest))).take (cs.length + 1) = c :: cs := by simp
  refine ⟨p₁.token w.kind (c :: cs), p₂, ?_, ?_⟩
  · simp [Tokens, Position.token, ← htext]
  · rw [chars, append_assoc, h₁, htext, append_assoc, cons_append, words_past p₁ hread, htake, ← h₂]
    simp

theorem words_flatMap_chars (h : Lexed ws rest) (p : Position) :
    ∃ ts p', Tokens ts ws ∧ Lexer.words 0 p (ws.flatMap chars ++ rest) = ts ++ Lexer.words 0 p' rest := by
  induction ws generalizing p with
  | nil => exact ⟨[], p, rfl, rfl⟩
  | cons w ws ih =>
    obtain ⟨hw, hws⟩ := h
    obtain ⟨t, p₁, ht, hread⟩ := words_chars hw p
    obtain ⟨ts, p₂, hts, hmore⟩ := ih hws p₁
    refine ⟨t :: ts, p₂, ?_, ?_⟩
    · unfold Tokens at ht hts ⊢
      rw [map_cons, map_cons, hts]
      simpa using ht
    · rw [flatMap_cons, append_assoc, hread, hmore, cons_append]

/-! ## Words at the front of an expression -/

def opens : Word → Bool
  | name _ spacing => spacing != .around
  | operator op spacing => (op == .plus || op == .minus) && spacing == .tight
  | mark m => m == .openParen || m == .openBracket
  | _ => true

theorem kind_of_opens (h : w.opens = true) (hk : w.kind = .operator op) :
    op = .plus ∨ op = .minus := by
  cases w with
  | operator op' spacing =>
    cases hk
    simp only [opens, Bool.and_eq_true, Bool.or_eq_true, beq_iff_eq] at h
    exact h.1
  | name x spacing =>
    obtain hx | hx | ⟨_, hx⟩ | ⟨_, hx⟩ | hx := wordKind_cases x <;> rw [kind, hx] at hk <;> cases hk
  | _ => cases hk

theorem isContent_kind (w : Word) : w.kind.isTrivia = false ∧ w.kind ≠ .unknown ∧ w.kind ≠ .eof := by
  cases w with
  | name x spacing =>
    obtain hx | hx | ⟨_, hx⟩ | ⟨_, hx⟩ | hx := wordKind_cases x <;> simp [kind, hx, TokenKind.isTrivia]
  | _ => simp [kind, TokenKind.isTrivia]

theorem head?_ne_of_opens (h : w.opens = true) (hread : Lexed (w :: ws) rest) :
    ((w :: ws).flatMap chars ++ rest).head? ≠ some '=' := by
  obtain ⟨⟨c, cs, htext, hread⟩, -⟩ := hread
  have hlead : w.lead = [] := by
    unfold lead
    rw [if_neg]
    intro hspacing
    cases w with
    | mark m => cases m <;> cases hspacing
    | _ => simp_all [spacing, opens]
  rw [flatMap_cons, chars, hlead, htext]
  intro hc
  cases hc
  have hr := reads_lexeme '=' (cs ++ (w.trail ++ (ws.flatMap chars ++ rest)))
  rw [hread] at hr
  generalize hx : Lexeme.token w.kind (cs.length + 1) = x at hr
  cases hr with
  | blank hblank => exact absurd hblank (by decide)
  | string hquote => exact absurd hquote (by decide)
  | number hdigit => exact absurd hdigit (by simp)
  | word hword => exact absurd hword (by decide)
  | @delimiter m hmark => cases m <;> exact absurd hmark (by decide)
  | @operator op hop =>
    have hsymbol : op.symbol.toList.head? = some '=' := by cases op <;> simp_all [Operator.symbol]
    rcases kind_of_opens h (Lexeme.token.inj hx).1 with rfl | rfl <;> exact absurd hsymbol (by decide)
  | unknown => exact absurd (Lexeme.token.inj hx).1 w.isContent_kind.2.1
  | _ => contradiction

def Front : List Word → Prop
  | [] => False
  | w :: ws => w.opens = true ∧ ∀ v ∈ ws.head?, v.kind ≠ .operator .assign

theorem front_append (h : Front us)
    (hws : ∀ v ∈ ws.head?, v.kind ≠ .operator .assign) : Front (us ++ ws) := by
  cases us with
  | nil => exact h.elim
  | cons u us =>
    refine ⟨h.1, ?_⟩
    cases us with
    | nil => exact hws
    | cons v us => exact h.2

theorem front_cons (hw : w.opens = true) (h : Front ws) : Front (w :: ws) := by
  cases ws with
  | nil => exact h.elim
  | cons v ws =>
    refine ⟨hw, ?_⟩
    rintro u ⟨⟩ hu
    rcases kind_of_opens h.1 hu with hop | hop <;> cases hop

theorem front_separated {more : List (List Word)} (h : Front ws) : Front (separated (ws :: more)) := by
  cases more with
  | nil => exact h
  | cons vs more =>
    apply front_append h
    rintro v ⟨⟩
    simp [kind]

end Word

namespace Expr

open Word

variable {numeral : Float → Nat} {e : Expr}

theorem front_enclose (h : Front ws) : Front (enclose least e ws) := by
  unfold enclose
  split
  · exact front_cons rfl (front_append h (by rintro v ⟨⟩; simp [Word.kind]))
  · exact h

theorem front_reference (r : Reference) : Front r.words := by
  cases r with
  | plain x => exact ⟨rfl, by rintro v ⟨⟩⟩
  | member q x => exact front_cons rfl ⟨rfl, by rintro v ⟨⟩⟩

theorem front_words (h : e.Printable numeral) : Front (words numeral e) := by
  induction h with
  | number | bool | na | series => exact ⟨rfl, by rintro v ⟨⟩⟩
  | identifier | member => exact front_reference _
  | call => exact front_append (front_reference _) (by rintro v ⟨⟩; simp [Word.kind])
  | index _ _ _ ih => exact front_append (front_enclose ih) (by rintro v ⟨⟩; simp [Word.kind])
  | @unary _ op _ _ ih => exact front_cons (by cases op <;> rfl) (front_enclose ih)
  | @binary _ op _ _ _ _ ih =>
    apply front_append (front_enclose ih)
    rintro v ⟨⟩
    cases op <;> simp [BinaryOp.word, Word.kind, wordKind] <;> decide
  | ternary _ _ _ ih => exact front_append (front_enclose ih) (by rintro v ⟨⟩; simp [Word.kind])
  | @tuple _ items hne _ ih =>
    cases items with
    | nil => exact absurd rfl hne
    | cons e items =>
      exact front_cons rfl (front_append (front_separated (ih e mem_cons_self)) (by rintro v ⟨⟩; simp [Word.kind]))

/-! ## The words of an expression -/

theorem argumentWords_eq_map (args : List (Argument Expr)) : argumentWords numeral args =
    args.map fun a => argumentName a.name ++ words numeral a.value := by
  induction args with
  | nil => rfl
  | cons a args ih =>
    rw [argumentWords, ih]
    rfl

theorem itemWords_eq_map (items : List Expr) : itemWords numeral items = items.map (words numeral) := by
  induction items with
  | nil => rfl
  | cons e items ih =>
    rw [itemWords, ih]
    rfl

theorem lexed_parenthesized (h : ∀ rest, Ends rest → Lexed ws rest) : Lexed (parenthesized ws) rest := by
  have hclose : Ends ([Word.mark .closeParen].flatMap Word.chars ++ rest) := ends_cons rfl rest
  refine ⟨lexes_mark (by decide) _, lexed_append.2 ⟨h _ hclose, ?_⟩⟩
  exact ⟨lexes_mark (by decide) rest, trivial⟩

theorem lexed_enclose (h : ∀ rest, Ends rest → Lexed ws rest) (hrest : Ends rest) :
    Lexed (enclose least e ws) rest := by
  unfold enclose
  split
  · exact lexed_parenthesized h
  · exact h rest hrest

theorem lexed_separated {lists : List (List Word)} (h : ∀ ws ∈ lists, ∀ rest, Ends rest → Lexed ws rest)
    (hrest : Ends rest) : Lexed (separated lists) rest := by
  induction lists with
  | nil => trivial
  | cons ws more ih =>
    cases more with
    | nil => exact h ws mem_cons_self rest hrest
    | cons vs more =>
      have hmore := ih fun us hus => h us (mem_cons_of_mem ws hus)
      have hcomma : Ends ((Word.mark .comma :: separated (vs :: more)).flatMap Word.chars ++ rest) :=
        ends_cons rfl _
      refine lexed_append.2 ⟨h ws mem_cons_self _ hcomma, ?_⟩
      exact ⟨lexes_mark (by decide) _, hmore⟩

theorem lexed_plain (hx : Word.isSpelling x = true) (hrest : Ends rest) : Lexed [Word.plain x] rest :=
  ⟨lexes_name hx hrest, trivial⟩

theorem lexed_member (hq : q ∈ qualifierNames) (hx : Word.isSpelling x = true) (hrest : Ends rest) :
    Lexed (Reference.member q x).words rest := by
  refine ⟨?_, lexed_plain hx hrest⟩
  obtain ⟨c, cs, htext, hstarts, -⟩ := exists_of_isSpelling hx
  have hchars : [Word.plain x].flatMap Word.chars ++ rest = c :: (cs ++ rest) := by
    simp [Word.chars, Word.lead, Word.trail, Word.spacing, Word.text, htext]
  rw [hchars]
  exact lexes_qualifier hq hstarts

theorem isSpelling_of_isMemberName (h : Word.isMemberName x = true) : Word.isSpelling x = true :=
  (Bool.and_eq_true_iff.1 h).1

theorem lexed_callee {r : Reference} (h : r.isCallee = true) (hrest : Ends rest) : Lexed r.words rest := by
  cases r with
  | plain x => exact lexed_plain (Bool.and_eq_true_iff.1 h).1 hrest
  | member q x =>
    obtain ⟨hq, hx⟩ := Bool.and_eq_true_iff.1 h
    exact lexed_member (contains_iff_mem.1 hq) (isSpelling_of_isMemberName hx) hrest

theorem lexed_argument {x : Option String} (hx : ∀ y ∈ x, Word.isMemberName y = true)
    (h : Lexed ws rest) : Lexed (argumentName x ++ ws) rest := by
  cases x with
  | none => exact h
  | some y =>
    refine ⟨lexes_name (isSpelling_of_isMemberName (hx y rfl)) (ends_cons rfl _), ?_⟩
    exact ⟨lexes_operator _ (by decide) _, h⟩

theorem lexes_unary (op : UnaryOp) (hfront : Front ws) (h : Lexed ws rest) :
    op.word.Lexes (ws.flatMap Word.chars ++ rest) := by
  cases ws with
  | nil => exact hfront.elim
  | cons w ws =>
    have hhead := head?_ne_of_opens hfront.1 h
    cases op with
    | neg => exact lexes_sign (.inr rfl) hhead
    | plus => exact lexes_sign (.inl rfl) hhead
    | not => exact lexes_name (by decide) (ends_cons rfl _)

theorem lexes_binary (op : BinaryOp) (rest : List Char) : op.word.Lexes rest := by
  cases op with
  | or | and => exact lexes_name (by decide) (ends_cons rfl rest)
  | _ => exact lexes_operator _ (by decide) rest

theorem ends_binary (op : BinaryOp) (ws : List Word) (rest : List Char) :
    Ends ((op.word :: ws).flatMap Word.chars ++ rest) := by
  cases op <;> exact ends_cons rfl _

theorem lexed_words (h : e.Printable numeral) : ∀ rest, Ends rest → Lexed (words numeral e) rest := by
  induction h with
  | number =>
    intro rest hrest
    exact ⟨lexes_number hrest, trivial⟩
  | @bool _ value =>
    intro rest hrest
    exact lexed_plain (by cases value <;> decide) hrest
  | na =>
    intro rest hrest
    exact lexed_plain (by decide) hrest
  | @series _ field =>
    intro rest hrest
    exact lexed_plain (by cases field <;> decide) hrest
  | identifier hx =>
    intro rest hrest
    exact lexed_plain (Bool.and_eq_true_iff.1 hx).1 hrest
  | member hq hx =>
    intro rest hrest
    exact lexed_member hq (isSpelling_of_isMemberName hx) hrest
  | @call _ _ _ args hcallee hnames _ ih =>
    intro rest hrest
    refine lexed_append.2 ⟨lexed_callee hcallee (ends_cons rfl _), ?_⟩
    apply lexed_parenthesized
    intro rest hrest
    refine lexed_separated ?_ hrest
    rw [argumentWords_eq_map]
    intro ws hws rest hrest
    obtain ⟨a, ha, rfl⟩ := mem_map.1 hws
    exact lexed_argument (hnames a ha) (ih a ha rest hrest)
  | index _ _ _ iht iho =>
    intro rest hrest
    refine lexed_append.2 ⟨lexed_enclose iht (ends_cons rfl _), lexes_mark (by decide) _, ?_⟩
    refine lexed_append.2 ⟨iho _ (ends_cons rfl _), lexes_mark (by decide) rest, trivial⟩
  | @unary _ op operand hoperand ih =>
    intro rest hrest
    have hread : Lexed (enclose 6 operand (words numeral operand)) rest := lexed_enclose ih hrest
    exact ⟨lexes_unary op (front_enclose (front_words hoperand)) hread, hread⟩
  | @binary _ op left right _ _ ihl ihr =>
    intro rest hrest
    refine lexed_append.2 ⟨lexed_enclose ihl (ends_binary op _ rest), lexes_binary op _, ?_⟩
    exact lexed_enclose ihr hrest
  | ternary _ _ _ ihc ihy ihn =>
    intro rest hrest
    refine lexed_append.2 ⟨lexed_enclose ihc (ends_cons rfl _), lexes_operator _ (by decide) _, ?_⟩
    refine lexed_append.2 ⟨ihy _ (ends_cons rfl _), lexes_operator _ (by decide) _, ihn rest hrest⟩
  | tuple _ _ ih =>
    intro rest hrest
    refine ⟨lexes_mark (by decide) _, lexed_append.2 ⟨?_, lexes_mark (by decide) rest, trivial⟩⟩
    refine lexed_separated ?_ (ends_cons rfl _)
    rw [itemWords_eq_map]
    intro ws hws rest hrest
    obtain ⟨e, he, rfl⟩ := mem_map.1 hws
    exact ih e he rest hrest

theorem tokens_print (h : e.Printable numeral) : ∃ ts eof, Tokens ts (words numeral e) ∧
    eof.kind = .eof ∧ (tokenize (e.print numeral)).filter (!·.kind.isTrivia) = ts ++ [eof] := by
  obtain ⟨ts, p, hts, hwords⟩ := words_flatMap_chars (lexed_words h [] ends_nil) State.start.position
  obtain ⟨init, htokens, hinit⟩ := (tokenize_tiles (e.print numeral)).ends
  rw [append_nil, words_nil, append_nil] at hwords
  have hlayout : (tokenize (e.print numeral)).filter (!Statement.isLayout ·) = ts :=
    (filter_tokenize (e.print numeral)).trans hwords
  rw [htokens, filter_append, filter_cons_of_neg (by simp [Statement.isLayout,
    Position.token]), filter_nil, append_nil] at hlayout
  refine ⟨ts, (State.start.position.after (e.print numeral)).token .eof [], hts, rfl, ?_⟩
  rw [htokens, filter_append, filter_cons_of_pos (by rfl), filter_nil, ← hlayout]
  refine congrArg (· ++ _) (filter_congr ?_)
  intro t ht
  by_cases hword : Statement.isLayout t = true
  · have hend := hinit t ht
    unfold Statement.isLayout at hword ⊢
    split at hword <;> simp_all [TokenKind.isTrivia]
  · -- what is no layout is one of the words, and these hold no comment
    have hmem : t ∈ ts := hlayout ▸ mem_filter.2 ⟨ht, by simpa using hword⟩
    obtain ⟨w, -, hkind⟩ := exists_word hts hmem
    rw [hkind, w.isContent_kind.1, Bool.eq_false_iff.2 hword]

end Expr

end ChartScript
