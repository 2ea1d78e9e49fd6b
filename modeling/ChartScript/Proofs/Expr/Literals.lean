import ChartScript.Proofs.Expr.Nodes
import ChartScript.Proofs.Lowering.Preconditions
import ChartScript.Proofs.Lowering.Sites
import ChartScript.Proofs.Token.Spelling
/-!
# Literals in statements and in expressions

A quoted text and a number may stand in a statement, such as the declaration of an input, and in an
expression.
-/
namespace ChartScript

open List Lexer Lowering InputDecl Decimal

/-! ## Tokens by themselves -/

variable {source : List Char} {e : Located ExprFault} {c : Char} {value : List Token}

theorem contentAt_token {t : Token} (ht : t ∈ tokenize source) {l : LiteralKind}
    (hk : t.kind = .literal l) : Expr.contentAt t.text.toList t.span = [t] := by
  obtain ⟨p, c, mid, rest, hself, htext, hx⟩ := lexeme_of_token ht (by simp [Statement.isLayout, hk])
  have halone : lexeme c mid = .token t.kind (mid.length + 1) := by
    refine lexeme_within hx (Nat.le_refl _) ?_ ?_ ?_
    · simp [hk]
    · simp [hk]
    · simp
  have hwords : words 0 p (c :: mid) = [t] := by
    rw [words_past p halone, drop_of_length_le (by simp), take_of_length_le (by simp), ← hself]
    rfl
  have hplace : (⟨t.span.start, t.span.line, t.span.column⟩ : Position) = p := by
    rw [hself]
    rfl
  rw [contentAt_eq, hplace, htext, String.toList_ofList, content, hwords]
  simp [hk]

namespace ExprParser

variable {t : Token} {l : LiteralKind}

theorem expression_of_literal (hk : t.kind = .literal l)
    (he : ∀ expr rest, atom expr (t :: rest) = .error e) (depth : Nat) (rest : List Token) :
    expression (depth + 1) (t :: rest) = .error e := by
  have hsigned : signed (expression depth) (t :: rest) = .error e := by
    rw [signed_of_none (by simp [signOp?, hk]), postfixed, he]
    rfl
  have hchain : ∀ {operand : Reader Expr} {op?}, operand (t :: rest) = .error e →
      chain operand op? (t :: rest) = .error e := by
    intro operand op? h
    rw [chain, h]
    rfl
  have hoperations : operations (expression depth) (t :: rest) = .error e :=
    hchain (hchain (hchain (hchain (hchain hsigned))))
  rw [expression, conditional, hoperations]
  rfl

end ExprParser

open ExprParser

theorem parse_token {t : Token} (ht : t ∈ tokenize source) {l : LiteralKind}
    (hk : t.kind = .literal l) {e : Expr} (he : leaf? t = some e) :
    Expr.parse t.text.toList t.span = .ok e := by
  refine Expr.parse_of_phrase ?_
  rw [contentAt_token ht hk]
  exact Phrase.loosen_le (.leaf he) (Nat.zero_le 8) (Nat.le_refl 8)

theorem parse_token_of_error {t : Token} (ht : t ∈ tokenize source) {l : LiteralKind}
    (hk : t.kind = .literal l)
    (he : ∀ expr rest, atom expr (t :: rest) = .error e) :
    Expr.parse t.text.toList t.span = .error e := by
  obtain ⟨eof, hend, htokens⟩ := Expr.tokens_eq_contentAt t.text.toList t.span
  rw [contentAt_token ht hk] at htokens
  have hfind : [t, eof].find? (·.kind == .unknown) = none := by simp [hk, hend]
  unfold Expr.parse
  simp only [htokens, cons_append, nil_append, hfind, peek_cons, hk, length_cons, length_nil,
    expression_of_literal hk he]
  rfl

/-! ## Texts -/

namespace Literal

open unquote (plainQuotes)

/-- The marks that a text may stand between. -/
def isQuote (c : Char) : Bool :=
  c == '"' || c == '\''

/-- What the backslashes of a text stand before, each with what follows it. -/
def escapes : List Char → List (Char × Option Char)
  | '\\' :: c :: rest => (c, rest.head?) :: escapes rest
  | _ :: rest => escapes rest
  | [] => []

/-- A quote, or a backslash in front of a quote. -/
def isPlain (escape : Char × Option Char) : Bool :=
  isQuote escape.1 || (escape.1 == '\\' && escape.2.any isQuote)

theorem plainQuotes_cons {rest : List Char} (h : ∀ d ds, c = '\\' → rest = d :: ds → False) :
    plainQuotes (c :: rest) = c :: plainQuotes rest := by
  rw [plainQuotes]
  · exact fun ds => h _ ds
  · exact fun ds => h _ ds

theorem plainQuotes_backslash (rest : List Char) : plainQuotes ('\\' :: rest) =
    if rest.head?.any isQuote then plainQuotes rest else '\\' :: plainQuotes rest := by
  cases rest with
  | nil => rfl
  | cons c rest =>
    split
    · next hquote =>
      rcases Bool.or_eq_true_iff.1 hquote with hc | hc
      · rw [eq_of_beq hc]
        rfl
      · rw [eq_of_beq hc]
        rfl
    · next hquote =>
      rw [plainQuotes]
      · rintro _ - ⟨⟩
        exact hquote rfl
      · rintro _ - ⟨⟩
        exact hquote rfl

theorem plainQuotes_quote (h : isQuote c = true) (rest : List Char) :
    plainQuotes (c :: rest) = c :: plainQuotes rest := by
  refine plainQuotes_cons ?_
  rintro _ _ rfl -
  cases h

theorem length_plainQuotes_le (c : Char) (rest : List Char) :
    (plainQuotes rest).length ≤ (plainQuotes (c :: rest)).length := by
  by_cases hc : c = '\\'
  · rw [hc, plainQuotes_backslash]
    split
    · exact Nat.le_refl _
    · exact Nat.le_succ _
  · rw [plainQuotes_cons fun _ _ h => absurd h hc]
    exact Nat.le_succ _

theorem length_unescape_le (cs : List Char) : (unescape cs).length ≤ (plainQuotes cs).length := by
  fun_induction unescape cs with
  | case1 c rest ih =>
    rw [length_cons, plainQuotes_backslash]
    split
    · next hquote =>
      rw [plainQuotes_quote hquote]
      exact Nat.succ_le_succ ih
    · exact Nat.succ_le_succ (Nat.le_trans ih (length_plainQuotes_le c rest))
  | case2 c rest hrest ih =>
    rw [plainQuotes_cons hrest]
    exact Nat.succ_le_succ ih
  | case3 => exact Nat.le_refl _

def meaning (c : Char) : Char :=
  if c = 'n' then '\n' else if c = 't' then '\t' else c

theorem meaning_of_isQuote (h : isQuote c = true) : meaning c = c := by
  rcases Bool.or_eq_true_iff.1 h with hc | hc
  · rw [eq_of_beq hc]
    rfl
  · rw [eq_of_beq hc]
    rfl

theorem meaning_ne_backslash (h : c ≠ '\\') : meaning c ≠ '\\' := by
  unfold meaning
  split
  · decide
  · split
    · decide
    · exact h

theorem unescape_eq_iff (cs : List Char) : unescape cs = plainQuotes cs ↔ ∀ x ∈ escapes cs, isPlain x = true := by
  fun_induction escapes cs with
  | case1 c rest ih =>
    have hescape : unescape ('\\' :: c :: rest) = meaning c :: unescape rest := rfl
    rw [forall_mem_cons, ← ih, hescape, plainQuotes_backslash, head?_cons, Option.any_some]
    by_cases hquote : isQuote c = true
    · simp [hquote, meaning_of_isQuote hquote, plainQuotes_quote hquote, isPlain]
    rw [if_neg hquote]
    by_cases hc : c = '\\'
    · have hmeaning : meaning '\\' = '\\' := rfl
      rw [hc, hmeaning, plainQuotes_backslash, cons.injEq]
      cases hnext : rest.head?.any isQuote with
      | true => simp [isPlain, hnext]
      | false =>
        -- one of the two backslashes that are kept has no counterpart
        have hle := length_unescape_le rest
        constructor
        · rintro ⟨-, h⟩
          have hlength := congrArg List.length h
          rw [if_neg Bool.false_ne_true, length_cons] at hlength
          omega
        · rintro ⟨h, -⟩
          simp [isPlain, hnext, isQuote] at h
    · constructor
      · intro h
        exact absurd (List.cons.inj h).1 (meaning_ne_backslash hc)
      · rintro ⟨h, -⟩
        simp [isPlain, hquote, hc] at h
  | case2 c rest hrest ih =>
    rw [unescape, plainQuotes_cons hrest, ← ih]
    · simp
    · exact hrest
  | case3 => simp [unescape, plainQuotes]

end Literal

open Literal

theorem quoted_of_string {t : Token} (ht : t ∈ tokenize source)
    (hk : t.kind = .literal .string) : ∃ (quote : Char) (body : List Char),
      isQuote quote = true ∧ t.text.toList = quote :: (body ++ [quote]) := by
  obtain ⟨-, c, mid, rest, -, htext, hx⟩ := lexeme_of_token ht (by simp [Statement.isLayout, hk])
  have hr := reads_lexeme c (mid ++ rest)
  rw [hx, hk] at hr
  generalize hlexeme : Lexeme.token (.literal .string) (mid.length + 1) = x at hr
  cases hr with
  | @string n hquote hn =>
    obtain rfl : mid.length = n := by
      have := (Lexeme.token.inj hlexeme).2
      omega
    have hlast := stringLength_last hn
    rw [take_left] at hlast
    obtain ⟨body, hbody⟩ := getLast?_eq_some_iff.1 hlast
    refine ⟨c, body, ?_, ?_⟩
    · simpa [isQuote] using hquote
    · rw [htext, String.toList_ofList, hbody]
  | word =>
    simp only [word] at hlexeme
    split at hlexeme
    · cases hlexeme
    · exact absurd (Lexeme.token.inj hlexeme).1.symm (wordKind_ne _).2.2.2.1
  | _ => cases hlexeme

/-- A quoted text is the same in a statement and in an expression exactly if its escapes are plain. -/
theorem quoted_text_agrees_iff {source : List Char} {t : Token} (ht : t ∈ tokenize source)
    (hk : t.kind = .literal .string) :
    ∃ (quote : Char) (body : List Char) (stated read : String),
      isQuote quote = true ∧ t.text.toList = quote :: (body ++ [quote]) ∧
      Literal.text? [t] = some stated ∧
      Expr.parse t.text.toList t.span = .ok (.text t.span read) ∧
      (read = stated ↔ ∀ x ∈ escapes body, isPlain x = true) := by
  obtain ⟨quote, body, hquote, htext⟩ := quoted_of_string ht hk
  have hbody : (t.text.toList.drop 1).dropLast = body := by rw [htext, drop_succ_cons, drop_zero, dropLast_concat]
  refine ⟨quote, body, String.ofList (unescape body), unquote t.text, hquote, htext, ?_, ?_, ?_⟩
  · rw [text?, if_pos hk, hbody]
  · exact parse_token ht hk (by simp only [leaf?, hk])
  · rw [← unescape_eq_iff, unquote, hbody, String.ofList_inj]
    exact eq_comm

def plainText : List Char :=
  "t = \"say \\\"it\\\\'s\\\"\"".toList

theorem quoted_text_agrees_plain : ∃ t ∈ tokenize plainText, t.kind = .literal .string ∧
    t.text = "\"say \\\"it\\\\'s\\\"\"" ∧ ∃ read, text? [t] = some read ∧
    Expr.parse t.text.toList t.span = .ok (.text t.span read) := by
  have hrun : (tokenize plainText).any (fun t => decide (t.kind = .literal .string ∧
      t.text = "\"say \\\"it\\\\'s\\\"\"")) = true := by
    decide
  obtain ⟨t, ht, hfacts⟩ := any_eq_true.1 hrun
  obtain ⟨hk, htext⟩ := of_decide_eq_true hfacts
  obtain ⟨quote, body, stated, read, -, hsplit, hstated, hread, hagrees⟩ := quoted_text_agrees_iff ht hk
  have hbody : body = "say \\\"it\\\\'s\\\"".toList := by
    have hinner : (t.text.toList.drop 1).dropLast = body := by
      rw [hsplit, drop_succ_cons, drop_zero, dropLast_concat]
    rw [← hinner, htext]
    rfl
  have hplain : ∀ x ∈ escapes body, isPlain x = true := by
    rw [hbody, ← all_eq_true]
    rfl
  rw [hagrees.2 hplain] at hread
  exact ⟨t, ht, hk, htext, stated, hstated, hread⟩

/-- Of two letters with a backslash between them a statement makes a line break, and an expression keeps
the backslash. -/
theorem line_break_disagrees : ∃ t ∈ tokenize "\"a\\nb\"".toList, t.kind = .literal .string ∧
    text? [t] = some "a\nb" ∧ Expr.parse t.text.toList t.span = .ok (.text t.span "a\\nb") := by
  have hrun : (tokenize "\"a\\nb\"".toList).any (fun t => decide (t.kind = .literal .string ∧
      text? [t] = some "a\nb" ∧ unquote t.text = "a\\nb")) = true := by
    decide
  obtain ⟨t, ht, hfacts⟩ := any_eq_true.1 hrun
  obtain ⟨hk, hstated, hread⟩ := of_decide_eq_true hfacts
  exact ⟨t, ht, hk, hstated, parse_token ht hk (by simp only [leaf?, hk, hread])⟩

/-! ## Numbers -/

theorem Literal.number?_eq_some {n : Float × Option Int} (h : number? value = some n) :
    ∃ t ∈ value, t.kind = .literal .number ∧
    ∃ x, readFloat? t.text = some x ∧ (n.1 = x ∨ n.1 = -x) := by
  have hread : ∀ (t : Token) (negative : Bool), number?.read t negative = some n →
      t.kind = .literal .number ∧ ∃ x, readFloat? t.text = some x ∧ (n.1 = x ∨ n.1 = -x) := by
    intro t negative hn
    unfold number?.read at hn
    split at hn
    · next hk =>
      obtain ⟨x, hx, rfl⟩ := Option.map_eq_some_iff.1 hn
      refine ⟨hk, x, hx, ?_⟩
      cases negative with
      | false => exact .inl rfl
      | true => exact .inr rfl
    · cases hn
  unfold number? at h
  split at h
  · exact ⟨_, by simp, hread _ _ h⟩
  · split at h
    · exact ⟨_, by simp, hread _ _ h⟩
    · cases h
  · cases h

theorem float_of_value {d : InputDecl} {c : Code}
    (hvalue : value? d.kind value = some d.default) (hkind : d.kind = .float)
    (hc : inputDefault d = .ok c) : ∃ n, number? value = some n ∧ c = .number n.1 := by
  rw [hkind] at hvalue
  obtain ⟨n, hn, hdefault⟩ := Option.map_eq_some_iff.1 hvalue
  rw [inputDefault, hkind, ← hdefault] at hc
  exact ⟨n, hn, (Except.ok.inj hc).symm⟩

theorem default_is_literal {s : Script} {l : LoweredScript}
    (hs : Script.parse source = .ok s) (hl : script s = .ok l) {f : InputField}
    (hf : f ∈ l.inputs) (hkind : f.kind = .float) :
    ∃ t ∈ tokenize source, t.kind = .literal .number ∧
    ∃ x, readFloat? t.text = some x ∧ (f.default = .number x ∨ f.default = .number (-x)) := by
  obtain ⟨d, hd, -, hsame, -, hdefault⟩ := exists_of_forall₂ (forall₂_inputs hl).flip hf
  obtain ⟨n, hn, hmade⟩ := Script.exists_statement hs (.inputs source) rfl (fun _ _ => rfl) hd
  obtain ⟨-, kind, value, hsub, hvalue⟩ := ofLine_eq_ok hmade
  obtain ⟨number, hnumber, hcode⟩ := float_of_value (value_of_default hvalue) (hsame ▸ hkind) hdefault
  obtain ⟨t, ht, hk, x, hx, hself⟩ := Literal.number?_eq_some hnumber
  refine ⟨t, ?_, hk, x, hx, ?_⟩
  · obtain ⟨-, -, before, after, hall, -⟩ := Statement.line_of_mem_items (Script.line_mem_items hn)
    have hmem : t ∈ Script.tokens source := by
      rw [hall]
      simp [hsub ht]
    exact (mem_filter.1 hmem).1
  · rw [hcode]
    exact hself.imp (congrArg Code.number) (congrArg Code.number)

theorem parse_number {t : Token} (ht : t ∈ tokenize source) (hk : t.kind = .literal .number)
    {x : Float} (hx : readFloat? t.text = some x) :
    ∃ isInt, Expr.parse t.text.toList t.span =
      if x.isFinite = true then .ok (.number t.span x isInt) else .error ⟨t.span, .numberRange⟩ := by
  refine ⟨!t.text.toList.any fun c => c == '.' || c == 'e' || c == 'E', ?_⟩
  split
  · next hfinite =>
    refine parse_token ht hk ?_
    simp only [leaf?, hk, numberValue, hx, hfinite, if_true]
  · next hinfinite =>
    refine parse_token_of_error ht hk fun expr rest => ?_
    simp only [atom, peek_cons, hk, numberValue, hx, hinfinite]
    rfl

/-- A number literal is taken as the default of an input whatever its value. As an expression it is taken
if it is finite, and it has the same value then. So a script can emit a default that is not finite, but
only if it has a literal of that value. -/
theorem number_accepted_iff (source : List Char) : (∀ t ∈ tokenize source, t.kind = .literal .number →
      ∃ x, readFloat? t.text = some x ∧ default? (some .float) [t] = .ok (.float, .float x) ∧
        ((∃ e, Expr.parse t.text.toList t.span = .ok e) ↔ x.isFinite = true) ∧
        ∀ e, Expr.parse t.text.toList t.span = .ok e → ∃ isInt, e = .number t.span x isInt) ∧
    ∀ s l, Script.parse source = .ok s → script s = .ok l → ∀ f ∈ l.inputs, f.kind = .float →
        ∃ t ∈ tokenize source, t.kind = .literal .number ∧ ∃ x, readFloat? t.text = some x ∧
          (f.default = .number x ∨ f.default = .number (-x)) := by
  constructor
  · intro t ht hk
    obtain ⟨x, hx⟩ := Option.isSome_iff_exists.1 (readFloat_of_number ht hk)
    have hdefault : default? (some .float) [t] = .ok (.float, .float x) := by
      simp [default?, value?, number?, number?.read, hk, hx]
    obtain ⟨isInt, hread⟩ := parse_number ht hk hx
    refine ⟨x, hx, hdefault, ?_⟩
    rw [hread]
    split
    · next hfinite => simp [hfinite]
    · next hinfinite => simp [hinfinite]
  · intro s l hs hl f hf hkind
    exact default_is_literal hs hl hf hkind

def scaledSource : List Char :=
  ("//@version=5\nindicator(\"F\")\n" ++
   "k = input.float(-2.5e1)\n" ++
   "plot(close * .5)\n").toList

theorem number_accepted_scaled : ∃ t s l f, t ∈ tokenize scaledSource ∧ t.kind = .literal .number ∧
    t.text = ".5" ∧ (∃ isInt, Expr.parse t.text.toList t.span = .ok (.number t.span 0.5 isInt)) ∧
    default? (some .float) [t] = .ok (.float, .float 0.5) ∧
    Script.parse scaledSource = .ok s ∧ script s = .ok l ∧ f ∈ l.inputs ∧ f.kind = .float ∧
    ∃ u ∈ tokenize scaledSource, u.kind = .literal .number ∧ ∃ x, readFloat? u.text = some x ∧
      (f.default = .number x ∨ f.default = .number (-x)) := by
  have hrun : (∃ s, Script.parse scaledSource = .ok s ∧ ∃ l, script s = .ok l ∧ ∃ f ∈ l.inputs, f.kind = .float) ∧
      ∃ t ∈ tokenize scaledSource, t.kind = .literal .number ∧ t.text = ".5" := by
    decide +kernel
  obtain ⟨⟨s, hs, l, hl, f, hf, hkind⟩, t, ht, hk, htext⟩ := hrun
  obtain ⟨hnumbers, hdefaults⟩ := number_accepted_iff scaledSource
  obtain ⟨x, hx, hdefault, hiff, hvalue⟩ := hnumbers t ht hk
  have hhalf : readFloat? ".5" = some 0.5 := by rfl
  obtain rfl : x = 0.5 := by
    rw [htext, hhalf] at hx
    exact (Option.some.inj hx).symm
  obtain ⟨e, he⟩ := hiff.2 (by rfl)
  obtain ⟨isInt, rfl⟩ := hvalue e he
  exact ⟨t, s, l, f, ht, hk, htext, ⟨isInt, he⟩, hdefault, hs, hl, hf, hkind, hdefaults s l hs hl f hf hkind⟩

def overflowSource : List Char :=
  ("//@version=5\nindicator(\"F\")\n" ++
   "k = input.float(1e400)\n" ++
   "plot(close)\n").toList

/-- The default is emitted as `inf`, and the same literal is refused as an expression. -/
theorem overflow_accepted_as_default : ∃ t s l f, t ∈ tokenize overflowSource ∧ t.kind = .literal .number ∧
    t.text = "1e400" ∧ Expr.parse t.text.toList t.span = .error ⟨t.span, .numberRange⟩ ∧
    Script.parse overflowSource = .ok s ∧ script s = .ok l ∧ f ∈ l.inputs ∧
    f.default.render = "inf" := by
  have hrun : (∃ s, Script.parse overflowSource = .ok s ∧ ∃ l, script s = .ok l ∧
        ∃ f ∈ l.inputs, f.default.render = "inf") ∧
      ∃ t ∈ tokenize overflowSource, t.kind = .literal .number ∧ t.text = "1e400" := by
    decide +kernel
  obtain ⟨⟨s, hs, l, hl, f, hf, hinfinite⟩, t, ht, hk, htext⟩ := hrun
  have hx : readFloat? t.text = some (1.0 / 0.0) := by
    rw [htext]
    rfl
  obtain ⟨isInt, hread⟩ := parse_number ht hk hx
  exact ⟨t, s, l, f, ht, hk, htext, hread, hs, hl, hf, hinfinite⟩

end ChartScript
