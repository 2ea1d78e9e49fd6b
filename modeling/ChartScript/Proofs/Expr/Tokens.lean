import ChartScript.Proofs.Expr.Grammar
import ChartScript.Proofs.Token.Lossless
/-!
# The tokens of an expression

A text that is read as an expression is a phrase from its first word to its last.
-/
namespace ChartScript

open List

/-- The signs that give a name a new value. -/
def Operator.isReassignment : Operator → Bool
  | reassign | plusAssign | minusAssign | starAssign | slashAssign => true
  | _ => false

/-- The token gives a name a new value. -/
def Token.isReassignment (t : Token) : Bool :=
  match t.kind with
  | .operator op => op.isReassignment
  | _ => false

theorem Token.isReassignment_of_kind {t : Token} (h : ∀ op, t.kind ≠ .operator op) : t.isReassignment = false := by
  unfold isReassignment
  split
  · next op hk => exact absurd hk (h op)
  · rfl

def TokenKind.speaks : TokenKind → Bool
  | .unknown | .eof | .delimiter .dot => false
  | .operator op => !op.isReassignment
  | _ => true

theorem TokenKind.ne_of_speaks {kind : TokenKind} (h : kind.speaks = true) (other : TokenKind)
    (hother : other.speaks = false) : kind ≠ other := by
  rintro rfl
  rw [h] at hother
  cases hother

/-- The token belongs to a statement. -/
def Token.isContent (t : Token) : Bool :=
  !t.kind.isTrivia && t.kind != .eof

/-- A token of the piece that begins at `base`, seen from the whole text. -/
def Token.offsetBy (t : Token) (base : Span) : Token :=
  { t with span := t.span.offsetBy base }

theorem Expr.span_withSpan (e : Expr) (s : Span) : (e.withSpan s).span = s := by
  cases e <;> rfl

theorem Expr.self_mem_nodes (e : Expr) : e ∈ e.nodes := by
  cases e <;> exact mem_cons_self

theorem Expr.mem_nodes_withSpan {e n : Expr} {s : Span} (h : n ∈ (e.withSpan s).nodes) :
    n = e.withSpan s ∨ n ∈ e.nodes := by
  cases e <;> simp only [withSpan, nodes, mem_cons] at h ⊢ <;> tauto

namespace ExprParser

open Expr

variable {t : Token} {us : List Token} {part : Part}

/-! ## The tokens of a node -/

def Part.nodes : Part → List Expr
  | value _ e => e.nodes
  | callee _ _ => []
  | items es => itemNodes es
  | argument arg => arg.value.nodes
  | arguments args => argumentNodes args

theorem nodes_of_leaf {e : Expr} (h : leaf? t = some e) : e.nodes = [e] ∧ e.span = t.span := by
  unfold leaf? at h
  split at h
  case h_8 => cases h
  case h_1 =>
    split at h
    · cases h
      simp [nodes, Expr.span]
    · cases h
  all_goals
    cases h
    simp [nodes, Expr.span]

theorem infix_behind (us : List Token) (t : Token) (vs : List Token) : vs <:+: us ++ t :: vs :=
  ((suffix_cons t vs).trans (suffix_append us _)).isInfix

theorem infix_between (us : List Token) (t : Token) (vs ws : List Token) : vs <:+: us ++ t :: (vs ++ ws) :=
  (prefix_append vs ws).isInfix.trans (infix_behind us t _)

theorem Phrase.node (h : Phrase us part) : ∀ n ∈ part.nodes, ∃ vs, vs <:+: us ∧ Phrase vs (.value 0 n) := by
  -- the node at the top has the phrase itself; every other one is in a part
  have within : ∀ {vs ws : List Token} {n : Expr}, vs <:+: ws →
      (∃ xs, xs <:+: vs ∧ Phrase xs (.value 0 n)) → ∃ xs, xs <:+: ws ∧ Phrase xs (.value 0 n) :=
    fun hin ⟨xs, hxs, hx⟩ => ⟨xs, hxs.trans hin, hx⟩
  induction h with
  | leaf h =>
    intro n hn
    rw [Part.nodes, (nodes_of_leaf h).1, mem_singleton] at hn
    exact ⟨_, infix_rfl, hn ▸ (Phrase.leaf h).loosen_le (Nat.zero_le _) (by decide)⟩
  | member ht hu =>
    intro n hn
    simp only [Part.nodes, nodes, mem_singleton] at hn
    exact ⟨_, infix_rfl, hn ▸ (Phrase.member ht hu).loosen_le (Nat.zero_le _) (by decide)⟩
  | enclosed hl hr h ih =>
    intro n hn
    rcases mem_nodes_withSpan hn with rfl | hn
    · exact ⟨_, infix_rfl, (Phrase.enclosed hl hr h).loosen_le (Nat.zero_le _) (by decide)⟩
    · exact within (infix_between [] _ _ _) (ih n hn)
  | tuple hl hr h hne ih =>
    intro n hn
    simp only [Part.nodes, nodes, mem_cons] at hn
    rcases hn with rfl | hn
    · exact ⟨_, infix_rfl, (Phrase.tuple hl hr h hne).loosen_le (Nat.zero_le _) (by decide)⟩
    · exact within (infix_between [] _ _ _) (ih n hn)
  | call hc hl hr h _ ih =>
    intro n hn
    simp only [Part.nodes, nodes, mem_cons] at hn
    rcases hn with rfl | hn
    · exact ⟨_, infix_rfl, (Phrase.call hc hl hr h).loosen_le (Nat.zero_le _) (by decide)⟩
    · exact within (infix_between _ _ _ _) (ih n hn)
  | index h hindex hl hr ho ih iho =>
    intro n hn
    simp only [Part.nodes, nodes, mem_cons, mem_append] at hn
    rcases hn with rfl | hn | hn
    · exact ⟨_, infix_rfl, (Phrase.index h hindex hl hr ho).loosen_le (Nat.zero_le _) (by decide)⟩
    · exact within (prefix_append _ _).isInfix (ih n hn)
    · exact within (infix_between _ _ _ _) (iho n hn)
  | sign hop h ih =>
    intro n hn
    simp only [Part.nodes, nodes, mem_cons] at hn
    rcases hn with rfl | hn
    · exact ⟨_, infix_rfl, (Phrase.sign hop h).loosen_le (Nat.zero_le _) (by decide)⟩
    · exact within (suffix_cons _ _).isInfix (ih n hn)
  | operation hop hl hr ihl ihr =>
    intro n hn
    simp only [Part.nodes, nodes, mem_cons, mem_append] at hn
    rcases hn with rfl | hn | hn
    · have := (rank_of_operation hop).2
      exact ⟨_, infix_rfl, (Phrase.operation hop hl hr).loosen_le (Nat.zero_le _) (by omega)⟩
    · exact within (prefix_append _ _).isInfix (ihl n hn)
    · exact within (infix_behind _ _ _) (ihr n hn)
  | ternary hc ht hy hu hn ihc ihy ihn =>
    intro n hmem
    simp only [Part.nodes, nodes, mem_cons, mem_append] at hmem
    rcases hmem with rfl | (hmem | hmem) | hmem
    · exact ⟨_, infix_rfl, .ternary hc ht hy hu hn⟩
    · exact within (prefix_append _ _).isInfix (ihc n hmem)
    · exact within (infix_between _ _ _ _) (ihy n hmem)
    · exact within ((infix_behind _ _ _).trans (infix_behind _ _ _)) (ihn n hmem)
  | loosen _ _ ih => exact ih
  | name | calledWord => simp [Part.nodes]
  | noItems => simp [Part.nodes, itemNodes]
  | lastItem _ ih =>
    intro n hn
    simp only [Part.nodes, itemNodes, append_nil] at hn
    exact ih n hn
  | item _ _ _ ih ihs =>
    intro n hn
    simp only [Part.nodes, itemNodes, mem_append] at hn
    rcases hn with hn | hn
    · exact within (prefix_append _ _).isInfix (ih n hn)
    · exact within (infix_behind _ _ _) (ihs n hn)
  | positional _ _ ih => exact ih
  | named _ _ _ ih => exact fun n hn => within (infix_behind [_] _ _) (ih n hn)
  | noArguments => simp [Part.nodes, argumentNodes]
  | lastArgument _ ih =>
    intro n hn
    simp only [Part.nodes, argumentNodes, append_nil] at hn
    exact ih n hn
  | moreArguments _ _ _ ih ihs =>
    intro n hn
    simp only [Part.nodes, argumentNodes, mem_append] at hn
    rcases hn with hn | hn
    · exact within (prefix_append _ _).isInfix (ih n hn)
    · exact within (infix_behind _ _ _) (ihs n hn)

/-! ## The kinds of its tokens -/

theorem speaks_of_kind {kind : TokenKind} (h : t.kind = kind) (hkind : kind.speaks = true) :
    t.kind.speaks = true := by
  rwa [h]

theorem speaks_of_isWord (h : t.isWord = true) : t.kind.speaks = true ∧ t.kind ≠ .qualifier := by
  unfold Token.isWord at h
  split at h
  case h_3 => cases h
  all_goals next hk => exact ⟨speaks_of_kind hk rfl, by simp [hk]⟩

theorem speaks_of_leaf {e : Expr} (h : leaf? t = some e) : t.kind.speaks = true ∧ t.kind ≠ .qualifier := by
  unfold leaf? at h
  split at h
  case h_8 => cases h
  all_goals next hk => exact ⟨speaks_of_kind hk rfl, by simp [hk]⟩

theorem speaks_of_calledWord {x : String} (h : calledWord? t = some x) :
    t.kind.speaks = true ∧ t.kind ≠ .qualifier := by
  unfold calledWord? at h
  split at h
  case h_3 => cases h
  all_goals next hk => exact ⟨speaks_of_kind hk rfl, by simp [hk]⟩

theorem speaks_of_operation {k : Nat} {op : BinaryOp} (h : operation? k t = some op) : t.kind.speaks = true := by
  have hjoins := joins_of_operation h
  have hrank := (rank_of_operation h).2
  unfold TokenKind.joins at hjoins
  split at hjoins
  -- a point has a rank too, but that of no operation
  all_goals next hk => first | exact speaks_of_kind hk rfl | (cases hjoins <;> omega)

theorem speaks_of_signOp {op : UnaryOp} (h : signOp? t = some op) : t.kind.speaks = true := by
  unfold signOp? at h
  split at h
  case h_4 => cases h
  all_goals next hk => exact speaks_of_kind hk rfl

theorem Phrase.speaks (h : Phrase us part) : ∀ t ∈ us, t.kind.speaks = true := by
  induction h with
  | leaf h => simpa using (speaks_of_leaf h).1
  | member ht hu => simpa using ⟨speaks_of_kind ht rfl, (speaks_of_isWord hu).1⟩
  | enclosed hl hr _ ih =>
    simp only [forall_mem_cons, forall_mem_append]
    exact ⟨speaks_of_kind hl rfl, ih, speaks_of_kind hr rfl, by simp⟩
  | tuple hl hr _ _ ih =>
    simp only [forall_mem_cons, forall_mem_append]
    exact ⟨speaks_of_kind hl rfl, ih, speaks_of_kind hr rfl, by simp⟩
  | call _ hl hr _ ihc ih =>
    simp only [forall_mem_cons, forall_mem_append]
    exact ⟨ihc, speaks_of_kind hl rfl, ih, speaks_of_kind hr rfl, by simp⟩
  | index _ _ hl hr _ ihe ih =>
    simp only [forall_mem_cons, forall_mem_append]
    exact ⟨ihe, speaks_of_kind hl rfl, ih, speaks_of_kind hr rfl, by simp⟩
  | sign h _ ih => exact forall_mem_cons.2 ⟨speaks_of_signOp h, ih⟩
  | operation h _ _ ihl ihr =>
    simp only [forall_mem_cons, forall_mem_append]
    exact ⟨ihl, speaks_of_operation h, ihr⟩
  | ternary _ ht _ hu _ ihc ihy ihn =>
    simp only [forall_mem_cons, forall_mem_append]
    exact ⟨ihc, speaks_of_kind ht rfl, ihy, speaks_of_kind hu rfl, ihn⟩
  | loosen _ _ ih => exact ih
  | name _ ih => exact ih
  | calledWord h => simpa using (speaks_of_calledWord h).1
  | lastItem _ ih => exact ih
  | item _ ht _ ih ihs =>
    simp only [forall_mem_cons, forall_mem_append]
    exact ⟨ih, speaks_of_kind ht rfl, ihs⟩
  | positional _ _ ih => exact ih
  | named ht hu _ ih =>
    simp only [forall_mem_cons]
    exact ⟨(speaks_of_isWord ht).1, speaks_of_kind hu rfl, ih⟩
  | lastArgument _ ih => exact ih
  | moreArguments _ ht _ ih ihs =>
    simp only [forall_mem_cons, forall_mem_append]
    exact ⟨ih, speaks_of_kind ht rfl, ihs⟩
  | noItems | noArguments => simp

end ExprParser

/-! ## Texts -/

namespace Expr

open ExprParser

variable {text : List Char} {base : Span} {e : Expr}

def contentAt (text : List Char) (base : Span) : List Token :=
  ((tokenize text).filter Token.isContent).map (·.offsetBy base)

theorem tokens_eq_contentAt (text : List Char) (base : Span) : ∃ eof, eof.kind = .eof ∧
    ((tokenize text).filter (!·.kind.isTrivia)).map
      (fun t => { t with span := t.span.offsetBy base }) = contentAt text base ++ [eof] := by
  obtain ⟨init, htokens, hinit⟩ := (Lexer.tokenize_tiles text).ends
  have hcontent : (tokenize text).filter Token.isContent = init.filter (!·.kind.isTrivia) := by
    rw [htokens, filter_append, filter_cons_of_neg (by simp [Token.isContent,
      Lexer.Position.token]), filter_nil, append_nil]
    exact filter_congr fun t ht => by simp [Token.isContent, hinit t ht]
  refine ⟨((Lexer.State.start.position.after text).token .eof []).offsetBy base, rfl, ?_⟩
  rw [contentAt, hcontent, htokens, filter_append, filter_cons_of_pos (by rfl), filter_nil, map_append]
  rfl

theorem ne_eof_of_mem_contentAt {t : Token} (h : t ∈ contentAt text base) : t.kind ≠ .eof := by
  obtain ⟨u, hu, rfl⟩ := mem_map.1 h
  have hcontent := (mem_filter.1 hu).2
  rintro (hk : u.kind = .eof)
  simp [Token.isContent, hk] at hcontent

theorem phrase_of_append {us rest : List Token} {eof : Token} (hsplit : contentAt text base ++ [eof] = us ++ rest)
    (hphrase : Phrase us (.value 0 e)) (hkind : eof.kind = .eof) (hend : (peek rest).kind = .eof) :
    Phrase (contentAt text base) (.value 0 e) := by
  -- the end of input is in no phrase and among no words, so it comes right behind both
  rcases append_eq_append_iff.1 hsplit with ⟨m, rfl, hm⟩ | ⟨m, hus, rfl⟩
  · cases m with
    | nil => rwa [append_nil] at hphrase
    | cons t m =>
      obtain ⟨rfl, -⟩ := List.cons.inj hm
      exact absurd hkind (TokenKind.ne_of_speaks (hphrase.speaks eof (by simp)) .eof rfl)
  · cases m with
    | nil => rwa [hus, append_nil]
    | cons t m =>
      have hmem : t ∈ contentAt text base := by simp [hus]
      exact absurd hend (ne_eof_of_mem_contentAt hmem)

theorem parse_takes (text : List Char) (base : Span) : ∃ eof, eof.kind = .eof ∧
    ((tokenize text).filter (!·.kind.isTrivia)).map
      (fun t => { t with span := t.span.offsetBy base }) = contentAt text base ++ [eof] ∧
    Yields (fun e => Phrase (contentAt text base) (.value 0 e))
      (fun fault => FaultOf (contentAt text base ++ [eof]) fault ∨ fault = ⟨base, .empty⟩)
      (Expr.parse text base) := by
  obtain ⟨eof, hkind, htokens⟩ := tokens_eq_contentAt text base
  refine ⟨eof, hkind, htokens, ?_⟩
  unfold Expr.parse
  simp only [htokens]
  split
  · next bad hbad =>
    obtain ⟨before, after, hsplit⟩ := append_of_mem (mem_of_find?_eq_some hbad)
    exact .inl ⟨.inl ⟨bad :: after, ⟨before, hsplit.symm⟩, rfl⟩, nofun⟩
  · split
    · exact .inr rfl
    · refine ((expression_sound _ _).mono (fun _ => id) fun _ => .inl).bind ?_
      rintro ⟨e, rest⟩ ⟨us, hsplit, hphrase⟩
      split
      · exact .inl (.next ⟨us, hsplit.symm⟩ rfl)
      · next hend => exact phrase_of_append hsplit hphrase hkind (by simpa using hend)

theorem phrase_of_parse (h : Expr.parse text base = .ok e) : Phrase (contentAt text base) (.value 0 e) := by
  obtain ⟨_, _, _, hyields⟩ := parse_takes text base
  exact hyields.value h

theorem parse_plain (h : Expr.parse text base = .ok e) : ∀ t ∈ tokenize text, t.isReassignment = false := by
  intro t ht
  by_cases hcontent : t.isContent = true
  · have hmem : t.offsetBy base ∈ contentAt text base :=
      mem_map_of_mem (mem_filter.2 ⟨ht, hcontent⟩)
    have hspeaks := (phrase_of_parse h).speaks _ hmem
    unfold Token.isReassignment
    split
    · next op hk => simpa [Token.offsetBy, hk, TokenKind.speaks] using hspeaks
    · rfl
  · exact Token.isReassignment_of_kind fun op hk =>
      hcontent (by simp [Token.isContent, hk, TokenKind.isTrivia])

end Expr

end ChartScript
