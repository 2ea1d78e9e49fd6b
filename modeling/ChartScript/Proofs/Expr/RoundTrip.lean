import ChartScript.Proofs.Expr.Lexed
import ChartScript.Proofs.Expr.Phrases
/-!
# Written expressions are read back

The text of an expression is read as the same expression, places apart.
-/
namespace ChartScript

open List Decimal

/-! ## Tokens and words -/

namespace Word.Tokens

variable {ts : List Token} {w : Word} {us ws : List Word}

theorem nil (h : Tokens ts []) : ts = [] :=
  map_eq_nil_iff.1 h

theorem cons (h : Tokens ts (w :: ws)) :
    ∃ t rest, ts = t :: rest ∧ t.kind = w.kind ∧ t.text = w.text ∧ Tokens rest ws := by
  obtain ⟨t, rest, rfl, ht, hrest⟩ := map_eq_cons_iff.1 h
  exact ⟨t, rest, rfl, (Prod.mk.inj ht).1, (Prod.mk.inj ht).2, hrest⟩

theorem append (h : Tokens ts (us ++ ws)) : ∃ as bs, ts = as ++ bs ∧ Tokens as us ∧ Tokens bs ws := by
  rw [Tokens, map_append] at h
  exact map_eq_append_iff.1 h

theorem singleton (h : Tokens ts [w]) : ∃ t, ts = [t] ∧ t.kind = w.kind ∧ t.text = w.text := by
  obtain ⟨t, rest, rfl, hkind, htext, hrest⟩ := h.cons
  exact ⟨t, by rw [hrest.nil], hkind, htext⟩

theorem bracketed {m m' : Delimiter} (h : Tokens ts (.mark m :: (ws ++ [.mark m']))) :
    ∃ left inner right, ts = left :: (inner ++ [right]) ∧ left.kind = .delimiter m ∧ right.kind = .delimiter m' ∧
    Tokens inner ws := by
  obtain ⟨left, rest, rfl, hleft, -, hrest⟩ := h.cons
  obtain ⟨inner, last, rfl, hinner, hlast⟩ := hrest.append
  obtain ⟨right, rfl, hright, -⟩ := hlast.singleton
  exact ⟨left, inner, right, rfl, hleft, hright, hinner⟩

end Word.Tokens

variable {x : String} {e : Expr}

namespace ExprParser

open Expr Word

variable {numeral : Float → Nat} {t : Token} {ts : List Token}

/-! ## Single words -/

theorem readFloat_toDigits (n : Nat) : readFloat? (String.ofList (Nat.toDigits 10 n)) = some (ofDecimal n 0) := by
  have hdigits : ∀ d ∈ Nat.toDigits 10 n, d.isDigit = true :=
    fun d hd => Nat.isDigit_of_mem_toDigits (by decide) (by decide) hd
  have hvalue : natOfDigits (Nat.toDigits 10 n) = n := Nat.ofDigitChars_toDigits (by decide) (by decide)
  have hsign : splitSign (Nat.toDigits 10 n) = (false, Nat.toDigits 10 n) := by
    obtain ⟨c, cs, htext⟩ := exists_cons_of_ne_nil (Nat.toDigits_ne_nil (n := n) (b := 10))
    rw [htext] at hdigits ⊢
    exact splitSign_of_isDigit (.inl (hdigits c mem_cons_self)) cs
  have hwhole : (Nat.toDigits 10 n).takeWhile Char.isDigit = Nat.toDigits 10 n := takeWhile_eq_self_iff.2 hdigits
  have hrest : (Nat.toDigits 10 n).dropWhile Char.isDigit = [] := dropWhile_eq_nil_iff.2 hdigits
  have hmagnitude : readMagnitude? (Nat.toDigits 10 n) = some (ofDecimal n 0) := by
    simp [readMagnitude?, hwhole, hrest, Nat.toDigits_ne_nil, readExponent?, hvalue]
  simp [readFloat?, hsign, hmagnitude]

theorem isInt_toDigits (n : Nat) : ((Nat.toDigits 10 n).any fun c => c == '.' || c == 'e' || c == 'E') = false := by
  rw [any_eq_false]
  intro c hc
  have hdigit := Nat.isDigit_of_mem_toDigits (by decide) (by decide) hc
  have hne : ∀ d : Char, d.isDigit = false → c ≠ d := by
    rintro d hd rfl
    rw [hdigit] at hd
    cases hd
  simp [hne '.' (by decide), hne 'e' (by decide), hne 'E' (by decide)]

theorem leaf_of_number {n : Nat} (hkind : t.kind = .literal .number)
    (htext : t.text = String.ofList (Nat.toDigits 10 n)) (hfinite : (ofDecimal n 0).isFinite = true) :
    leaf? t = some (.number t.span (ofDecimal n 0) true) := by
  have hvalue : numberValue t = .ok (ofDecimal n 0) := by
    rw [numberValue, htext, readFloat_toDigits]
    exact if_pos hfinite
  have hwhole := isInt_toDigits n
  rw [← String.toList_ofList (l := Nat.toDigits 10 n), ← htext] at hwhole
  simp only [leaf?, hkind, hvalue, hwhole, Bool.not_false]

theorem qualifierName_of_text {qualifier : String} (htext : t.text = qualifier ++ ".")
    (hqualifier : qualifier ∈ qualifierNames) : t.qualifierName = qualifier := by
  have hplain : ∀ c ∈ qualifier.toList, decide (c ≠ '.') = true := by
    intro c hc
    have hletter := all_eq_true.1 (Bool.and_eq_true_iff.1 (Lexer.isSpelling_of_qualifier hqualifier)).2 c hc
    apply decide_eq_true
    rintro rfl
    exact absurd hletter (by decide)
  rw [Token.qualifierName, htext, String.toList_append, takeWhile_append_of_pos hplain]
  simp

theorem isWord_of_isMemberName (h : isMemberName x = true)
    (ht : t.kind = Lexer.wordKind x) : t.isWord = true := by
  rw [Token.isWord, ht]
  exact (Bool.and_eq_true_iff.1 h).2

theorem phrase_member {q : String} (hts : Tokens ts (Reference.words (.member q x))) (hq : q ∈ qualifierNames)
    (hx : isMemberName x = true) : ∃ span, Phrase ts (.value 8 (.name span (.member q x))) := by
  obtain ⟨t, us, rfl, hkind, htext, hus⟩ := Tokens.cons hts
  obtain ⟨u, rfl, hukind, hutext⟩ := hus.singleton
  have hphrase := Phrase.member hkind (isWord_of_isMemberName hx hukind)
  rw [qualifierName_of_text htext hq, hutext] at hphrase
  exact ⟨_, hphrase⟩

theorem eq_na_of_wordKind (h : Lexer.wordKind x = .literal .na) : x = "na" := by
  unfold Lexer.wordKind at h
  split at h
  · cases h
  · split at h
    · assumption
    · split at h <;> cases h

theorem phrase_callee {callee : Reference} (h : callee.isCallee = true)
    (hts : Tokens ts callee.words) : ∃ span, Phrase ts (.callee span callee) := by
  cases callee with
  | plain x =>
    obtain ⟨t, rfl, hkind, htext⟩ := hts.singleton
    refine ⟨t.span, ?_⟩
    have hx := (Bool.and_eq_true_iff.1 h).2
    simp only [Word.kind, Word.text] at hkind htext
    split at hx
    · next hword => exact .name (.leaf (by simp [leaf?, hkind, hword, htext]))
    · next hword =>
      rw [eq_na_of_wordKind hword]
      exact .calledWord (by simp [calledWord?, hkind, hword])
    · next hword => exact .calledWord (by simp [calledWord?, hkind, hword, hx, htext])
    · cases hx
  | member q x =>
    obtain ⟨hq, hx⟩ := Bool.and_eq_true_iff.1 h
    obtain ⟨span, hphrase⟩ := phrase_member hts (contains_iff_mem.1 hq) hx
    exact ⟨span, .name hphrase⟩

theorem operation_of_kind {op : BinaryOp} (h : t.kind = op.word.kind) : operation? op.rank t = some op := by
  cases op <;> simp only [operation?, BinaryOp.rank] <;>
    simp [orOp?, andOp?, comparisonOp?, sumOp?, productOp?, Token.isKeyword, h] <;> rfl

theorem signOp_of_kind {op : UnaryOp} (h : t.kind = op.word.kind) : signOp? t = some op := by
  unfold signOp?
  rw [h]
  cases op <;> rfl

/-! ## Expressions -/

def Readable (numeral : Float → Nat) (e : Expr) : Prop :=
  ∀ {k ts}, k ≤ 7 → Tokens ts (e.wordsAt numeral k) → ∃ e', Phrase ts (.value k e') ∧ e'.bare = e.bare

theorem rank_le (e : Expr) : e.rank ≤ 7 := by
  cases e with
  | binary _ op => cases op <;> simp [rank, BinaryOp.rank]
  | _ => simp [rank]

theorem readable_of_words (h : ∀ ts, Tokens ts (words numeral e) →
    ∃ e', Phrase ts (.value e.rank e') ∧ e'.bare = e.bare) : Readable numeral e := by
  intro k ts hk hts
  by_cases hrank : e.rank < k
  · rw [wordsAt, enclose, if_pos hrank] at hts
    obtain ⟨l, us, r, rfl, hl, hr, hus⟩ := hts.bracketed
    obtain ⟨e', hphrase, hbare⟩ := h us hus
    have hinner := hphrase.loosen_le (Nat.zero_le _) (Nat.le_succ_of_le (rank_le e))
    exact ⟨_, (Phrase.enclosed hl hr hinner).loosen_le (Nat.le_succ_of_le hk) (Nat.le_refl 8),
      by rw [bare_withSpan, hbare]⟩
  · rw [wordsAt, enclose, if_neg hrank] at hts
    obtain ⟨e', hphrase, hbare⟩ := h ts hts
    exact ⟨e', hphrase.loosen_le (Nat.not_lt.1 hrank) (Nat.le_succ_of_le (rank_le e)), hbare⟩

theorem Readable.words (h : Readable numeral e) (hts : Tokens ts (words numeral e)) :
    ∃ e', Phrase ts (.value 0 e') ∧ e'.bare = e.bare :=
  h (Nat.zero_le 7) (by rwa [wordsAt, enclose, if_neg (Nat.not_lt_zero _)])

theorem readable_of_leaf {w : Word} (hrank : e.rank = 7) (hwords : words numeral e = [w])
    (h : ∀ t : Token, t.kind = w.kind → t.text = w.text → ∃ e', leaf? t = some e' ∧ e'.bare = e.bare) :
    Readable numeral e := by
  apply readable_of_words
  intro ts hts
  rw [hwords] at hts
  obtain ⟨t, rfl, hkind, htext⟩ := hts.singleton
  obtain ⟨e', hleaf, hbare⟩ := h t hkind htext
  exact ⟨e', hrank ▸ .loosen (by decide) (.leaf hleaf), hbare⟩

theorem phrase_items {items : List Expr} (h : ∀ e ∈ items, Readable numeral e)
    (hts : Tokens ts (separated (items.map (words numeral)))) :
    ∃ items', Phrase ts (.items items') ∧ bareItems items' = bareItems items := by
  induction items generalizing ts with
  | nil => exact ⟨[], hts.nil ▸ .noItems, rfl⟩
  | cons e more ih =>
    obtain ⟨he, hmore⟩ := forall_mem_cons.1 h
    cases more with
    | nil =>
      obtain ⟨e', hphrase, hbare⟩ := he.words hts
      exact ⟨[e'], .lastItem hphrase, by simp [bareItems, hbare]⟩
    | cons f more =>
      obtain ⟨as, bs, rfl, has, hbs⟩ := hts.append
      obtain ⟨comma, bs, rfl, hcomma, -, hbs⟩ := hbs.cons
      obtain ⟨e', hphrase, hbare⟩ := he.words has
      obtain ⟨items', hitems, hbares⟩ := ih hmore hbs
      exact ⟨e' :: items', .item hphrase hcomma hitems, by rw [bareItems, bareItems, hbare, hbares]⟩

theorem isNamed_of_front {ws : List Word} (h : Front ws) (hts : Tokens ts ws) : isNamed ts = false := by
  cases ws with
  | nil => exact h.elim
  | cons w ws =>
    obtain ⟨t, more, rfl, -, -, hmore⟩ := hts.cons
    have hsecond : (peek more).isOperator .assign = false := by
      cases ws with
      | nil => rw [hmore.nil]; rfl
      | cons v ws =>
        obtain ⟨u, more, rfl, hkind, -, -⟩ := hmore.cons
        rw [peek_cons, Token.isOperator, hkind]
        exact beq_false_of_ne (h.2 v rfl)
    rw [isNamed, drop_one, tail_cons, hsecond, Bool.and_false]

theorem phrase_argument {a : Argument Expr} (hname : ∀ x ∈ a.name, isMemberName x = true)
    (ha : a.value.Printable numeral) (hvalue : Readable numeral a.value)
    (hts : Tokens ts (argumentName a.name ++ words numeral a.value)) :
    ∃ a' : Argument Expr, Phrase ts (.argument a') ∧ a'.name = a.name ∧ a'.value.bare = a.value.bare := by
  cases hx : a.name with
  | none =>
    rw [hx] at hts
    obtain ⟨e', hphrase, hbare⟩ := hvalue.words hts
    exact ⟨_, .positional (isNamed_of_front (front_words ha) hts) hphrase, rfl, hbare⟩
  | some x =>
    rw [hx] at hts
    obtain ⟨t, ts, rfl, hkind, htext, hts⟩ := hts.cons
    obtain ⟨u, ts, rfl, hequals, -, hts⟩ := hts.cons
    obtain ⟨e', hphrase, hbare⟩ := hvalue.words hts
    exact ⟨_, .named (isWord_of_isMemberName (hname x hx) hkind) hequals hphrase, congrArg some htext, hbare⟩

theorem phrase_arguments {args : List (Argument Expr)} (hnames : ∀ a ∈ args, ∀ x ∈ a.name, isMemberName x = true)
    (hargs : ∀ a ∈ args, a.value.Printable numeral) (h : ∀ a ∈ args, Readable numeral a.value)
    (hts : Tokens ts (separated (args.map fun a => argumentName a.name ++ words numeral a.value))) :
    ∃ args', Phrase ts (.arguments args') ∧ bareArguments args' = bareArguments args := by
  induction args generalizing ts with
  | nil => exact ⟨[], hts.nil ▸ .noArguments, rfl⟩
  | cons a more ih =>
    rw [forall_mem_cons] at hnames hargs h
    have hargument := fun {ts} => @phrase_argument numeral ts a hnames.1 hargs.1 h.1
    cases more with
    | nil =>
      obtain ⟨a', hphrase, hname, hbare⟩ := hargument hts
      exact ⟨[a'], .lastArgument hphrase, by simp [bareArguments, hname, hbare]⟩
    | cons b more =>
      obtain ⟨as, bs, rfl, has, hbs⟩ := hts.append
      obtain ⟨comma, bs, rfl, hcomma, -, hbs⟩ := hbs.cons
      obtain ⟨a', hphrase, hname, hbare⟩ := hargument has
      obtain ⟨args', hphrases, hbares⟩ := ih hnames.2 hargs.2 h.2 hbs
      exact ⟨a' :: args', .moreArguments hphrase hcomma hphrases, by simp [bareArguments, hname, hbare, hbares]⟩

theorem readable_of_printable (h : e.Printable numeral) : Readable numeral e := by
  induction h with
  | @number s x hvalue hfinite =>
    refine readable_of_leaf rfl rfl fun t hkind htext => ?_
    rw [← hvalue] at hfinite
    exact ⟨_, leaf_of_number hkind htext hfinite, by rw [hvalue]; rfl⟩
  | @bool s value =>
    refine readable_of_leaf rfl rfl fun t hkind htext => ⟨.bool t.span value, ?_, rfl⟩
    have hbool : t.kind = .literal .bool := hkind.trans (by cases value <;> rfl)
    have hvalue : (t.text == "true") = value := by
      rw [htext]
      cases value <;> rfl
    simp [leaf?, hbool, hvalue]
  | na =>
    refine readable_of_leaf rfl rfl fun t hkind _ => ⟨.na t.span, ?_, rfl⟩
    have hna : t.kind = .literal .na := hkind
    simp [leaf?, hna]
  | @series s field =>
    refine readable_of_leaf rfl rfl fun t hkind _ => ⟨.series t.span field, ?_, rfl⟩
    have hseries : t.kind = .series field := hkind.trans (by cases field <;> rfl)
    simp [leaf?, hseries]
  | @identifier s x hx =>
    refine readable_of_leaf rfl rfl fun t hkind htext => ⟨.name t.span (.plain x), ?_, rfl⟩
    have hidentifier : t.kind = .identifier := hkind.trans (beq_iff_eq.1 (Bool.and_eq_true_iff.1 hx).2)
    simp [leaf?, hidentifier, htext, Word.text]
  | member hq hx =>
    refine readable_of_words fun ts hts => ?_
    obtain ⟨span, hphrase⟩ := phrase_member hts hq hx
    exact ⟨_, .loosen (Nat.lt_succ_self 7) hphrase, rfl⟩
  | call hcallee hnames hargs ih =>
    refine readable_of_words fun ts hts => ?_
    rw [words, argumentWords_eq_map] at hts
    obtain ⟨as, bs, rfl, has, hbs⟩ := hts.append
    obtain ⟨l, us, r, rfl, hl, hr, hus⟩ := hbs.bracketed
    obtain ⟨span, hphrase⟩ := phrase_callee hcallee has
    obtain ⟨args', hphrases, hbare⟩ := phrase_arguments hnames hargs ih hus
    exact ⟨_, .call hphrase hl hr hphrases, by simp [bare, hbare]⟩
  | index htarget _ _ ih iho =>
    refine readable_of_words fun ts hts => ?_
    obtain ⟨as, bs, rfl, has, hbs⟩ := hts.append
    obtain ⟨l, us, r, rfl, hl, hr, hus⟩ := hbs.bracketed
    obtain ⟨target', hphrase, hbare⟩ := ih (Nat.le_refl 7) has
    obtain ⟨offset', hoffset, hbare'⟩ := iho.words hus
    rw [← isIndex_bare, ← hbare, isIndex_bare] at htarget
    exact ⟨_, .index hphrase htarget hl hr hoffset,
      by rw [bare, bare, hbare, hbare']⟩
  | unary _ ih =>
    refine readable_of_words fun ts hts => ?_
    rw [words] at hts
    obtain ⟨t, us, rfl, hkind, -, hus⟩ := hts.cons
    obtain ⟨e', hphrase, hbare⟩ := ih (by decide) hus
    exact ⟨_, .sign (signOp_of_kind hkind) hphrase, by rw [bare, bare, hbare]⟩
  | @binary s op left right _ _ ihl ihr =>
    refine readable_of_words fun ts hts => ?_
    obtain ⟨as, bs, rfl, has, hbs⟩ := hts.append
    obtain ⟨t, us, rfl, hkind, -, hus⟩ := hbs.cons
    have hrank : op.rank + 1 ≤ 7 := by cases op <;> decide
    obtain ⟨left', hleft, hbare⟩ := ihl (Nat.le_of_succ_le hrank) has
    obtain ⟨right', hright, hbare'⟩ := ihr hrank hus
    exact ⟨_, .operation (operation_of_kind hkind) hleft hright, by rw [bare, bare, hbare, hbare']⟩
  | ternary _ _ _ ihc ihy ihn =>
    refine readable_of_words fun ts hts => ?_
    rw [words] at hts
    obtain ⟨as, bs, rfl, has, hbs⟩ := hts.append
    obtain ⟨question, us, rfl, hquestion, -, hus⟩ := hbs.cons
    obtain ⟨cs, ds, rfl, hcs, hds⟩ := hus.append
    obtain ⟨colon, vs, rfl, hcolon, -, hvs⟩ := hds.cons
    obtain ⟨c', hc, hbare⟩ := ihc (by decide) has
    obtain ⟨yes', hyes, hbare'⟩ := ihy.words hcs
    obtain ⟨no', hno, hbare''⟩ := ihn.words hvs
    exact ⟨_, .ternary hc hquestion hyes hcolon hno, by rw [bare, bare, hbare, hbare', hbare'']⟩
  | @tuple s items hne _ ih =>
    refine readable_of_words fun ts hts => ?_
    rw [words, itemWords_eq_map] at hts
    obtain ⟨l, us, r, rfl, hl, hr, hus⟩ := hts.bracketed
    obtain ⟨items', hphrase, hbare⟩ := phrase_items ih hus
    have hne' : items' ≠ [] := by
      rintro rfl
      cases items with
      | nil => exact hne rfl
      | cons e items => cases hbare
    exact ⟨_, .loosen (Nat.lt_succ_self 7) (.tuple hl hr hphrase hne'), by rw [bare, bare, hbare]⟩

end ExprParser

/-! ## Texts -/

namespace Expr

open ExprParser Word

theorem tokens_contentAt {numeral : Float → Nat} (h : e.Printable numeral) (base : Span) :
    Tokens (contentAt (e.print numeral) base) (words numeral e) := by
  obtain ⟨ts, eof, hts, hend, htokens⟩ := tokens_print h
  obtain ⟨eof', -, hcontent⟩ := tokens_eq_contentAt (e.print numeral) base
  rw [htokens, map_append] at hcontent
  rw [← (append_inj' hcontent rfl).1, Tokens, map_map]
  exact hts

/-- The text of an expression is read as the expression. -/
theorem parse_print {numeral : Float → Nat} {e : Expr} (h : e.Printable numeral) (base : Span) :
    ∃ e', Expr.parse (e.print numeral) base = .ok e' ∧ e'.bare = e.bare := by
  obtain ⟨e', hphrase, hbare⟩ := Readable.words (readable_of_printable h) (tokens_contentAt h base)
  exact ⟨e', parse_of_phrase hphrase, hbare⟩

def machineDigits (x : Float) : Nat :=
  x.toUInt64.toNat

def tangled : Expr :=
  .ternary .origin (.binary .origin .or (.unary .origin .not (.binary .origin .gt (.name .origin (.plain "a"))
          (.index .origin (.name .origin (.plain "b")) (.number .origin 1 true))))
      (.bool .origin true))
    (.call .origin (.member "ta" "sma") .origin [
      ⟨none, .index .origin (.binary .origin .add (.series .origin .high) (.series .origin .low))
        (.number .origin 1 true), .origin⟩,
      ⟨some "n", .number .origin 14 true, .origin⟩])
    (.ternary .origin (.call .origin (.plain "na") .origin [⟨none, .name .origin (.plain "a"), .origin⟩])
      (.tuple .origin [.call .origin (.plain "int") .origin
        [⟨none, .unary .origin .neg (.number .origin 1 true), .origin⟩]])
      (.binary .origin .sub (.na .origin)
        (.binary .origin .sub (.name .origin (.plain "a")) (.name .origin (.plain "b")))))

theorem printable_tangled : tangled.Printable machineDigits := by
  have one : (Expr.number .origin 1 true).Printable machineDigits := .number rfl rfl
  have a : (Expr.name .origin (.plain "a")).Printable machineDigits := .identifier (by decide)
  have b : (Expr.name .origin (.plain "b")).Printable machineDigits := .identifier (by decide)
  have average : (Expr.call .origin (.member "ta" "sma") .origin [
      ⟨none, .index .origin (.binary .origin .add (.series .origin .high) (.series .origin .low))
        (.number .origin 1 true), .origin⟩,
      ⟨some "n", .number .origin 14 true, .origin⟩]).Printable machineDigits := by
    refine .call (by decide) (by decide) ?_
    rw [forall_mem_cons, forall_mem_singleton]
    exact ⟨.index rfl (.binary .series .series) one, .number rfl rfl⟩
  refine .ternary (.binary (.unary (.binary a (.index rfl b one))) .bool) average (.ternary ?_ ?_ ?_)
  · exact .call (by decide) (by decide) (forall_mem_singleton.2 a)
  · refine .tuple (by simp) (forall_mem_singleton.2 ?_)
    exact .call (by decide) (by decide) (forall_mem_singleton.2 (.unary one))
  · exact .binary .na (.binary a b)

theorem parse_print_tangled :
    tangled.print machineDigits = ("not (a > b[1]) or true ? ta.sma((high + low)[1], n = 14) : " ++
      "na(a) ? [int(-1)] : na - (a - b)").toList ∧
    ∃ e, Expr.parse (tangled.print machineDigits) .origin = .ok e ∧ e.bare = tangled.bare := by
  refine ⟨?_, parse_print printable_tangled .origin⟩
  rw [String.toList_append, String.toList_ofList, String.toList_ofList]
  set_option maxRecDepth 1000 in decide

end Expr

end ChartScript
