import ChartScript.Proofs.Expr.Tokens
/-!
# Phrases are read from their own tokens

The tokens of a phrase are read as what they are written for, whatever stands behind them, as long as
it does not go on with the phrase.
-/
namespace ChartScript

open List TokenKind Token

namespace ExprParser

variable {us rest : List Token} {e : Expr} {k n : Nat}

/-! ## What a phrase begins with -/

variable {t r : Token} {part : Part} {rounds : Nat} {operand : Reader Expr}

theorem kind_of_leaf (h : leaf? t = some e) :
    (∀ mark, t.kind ≠ .delimiter mark) ∧ signOp? t = none := by
  unfold leaf? at h
  split at h
  case h_8 => cases h
  all_goals next hk => simp [signOp?, hk]

theorem kind_of_calledWord {x : String} (h : calledWord? t = some x) :
    (∀ mark, t.kind ≠ .delimiter mark) ∧ signOp? t = none := by
  unfold calledWord? at h
  split at h
  · next hk => simp [signOp?, hk]
  · next word hk =>
    split at h
    · next hcast =>
      refine ⟨by simp [hk], ?_⟩
      cases word <;> first | (simp [signOp?, hk]; done) | cases hcast
    · cases h
  · cases h

def Part.isPlain : Part → Bool
  | value rank _ => 7 ≤ rank
  | callee _ _ => true
  | _ => false

theorem Phrase.signOp (h : Phrase us part) (hpart : part.isPlain = true) :
    signOp? (peek us) = none := by
  induction h with
  | leaf h => exact (kind_of_leaf h).2
  | member h => simp [signOp?, h]
  | enclosed h => simp [signOp?, h]
  | tuple h => simp [signOp?, h]
  | call h _ _ _ ih => rw [peek_append (h.ne_nil rfl)]; exact ih rfl
  | index h _ _ _ _ ih => rw [peek_append (h.ne_nil rfl)]; exact ih rfl
  | operation h =>
    have hrank := rank_of_operation h
    simp only [Part.isPlain, decide_eq_true_eq] at hpart
    omega
  | loosen _ _ ih =>
    apply ih
    simp only [Part.isPlain, decide_eq_true_eq] at hpart ⊢
    omega
  | name _ ih => exact ih rfl
  | calledWord h => exact (kind_of_calledWord h).2
  | _ => cases hpart

theorem Phrase.front (h : Phrase us part) (hpart : part.isList = false) :
    ∀ mark, (peek us).kind = .delimiter mark → mark = .openParen ∨ mark = .openBracket := by
  induction h with
  | leaf h => exact fun mark hk => absurd hk ((kind_of_leaf h).1 mark)
  | calledWord h => exact fun mark hk => absurd hk ((kind_of_calledWord h).1 mark)
  | member h => simp [h]
  | enclosed h => simp [h]
  | tuple h => simp [h]
  | call h _ _ _ ih => rw [peek_append (h.ne_nil rfl)]; exact ih rfl
  | index h _ _ _ _ ih => rw [peek_append (h.ne_nil rfl)]; exact ih rfl
  | operation _ h _ ih => rw [peek_append (h.ne_nil rfl)]; exact ih rfl
  | ternary h _ _ _ _ ih => rw [peek_append (h.ne_nil rfl)]; exact ih rfl
  | sign h =>
    intro mark hk
    rw [peek_cons] at hk
    simp [signOp?, hk] at h
  | named h =>
    intro mark hk
    rw [peek_cons] at hk
    simp [isWord, hk] at h
  | loosen _ _ ih => exact ih rfl
  | name _ ih => exact ih rfl
  | positional _ _ ih => exact ih rfl
  | _ => cases hpart

theorem Phrase.isDelimiter (h : Phrase us part) (hpart : part.isList = false)
    {mark : Delimiter} (hmark : mark ≠ .openParen ∧ mark ≠ .openBracket) (rest : List Token) :
    (peek (us ++ rest)).isDelimiter mark = false := by
  rw [peek_append (h.ne_nil hpart)]
  apply beq_false_of_ne
  intro hk
  rcases h.front hpart mark hk with hopen | hopen
  · exact hmark.1 hopen
  · exact hmark.2 hopen

/-! ## Lists -/

/-- The reader takes the tokens of every phrase of the rank that is not longer than `n`. -/
def Complete (rank n : Nat) (read : Reader Expr) : Prop :=
  ∀ {us rest : List Token} {e : Expr}, Phrase us (.value rank e) → us.length ≤ n →
    Stops rank rest → read (us ++ rest) = .ok (e, rest)

theorem commaList_complete {α : Type} {item : Reader α} {part : α → Part} {list : List α → Part} {mark : Delimiter}
    (hpart : ∀ x, (part x).isList = false) (hnil : ∀ {us}, Phrase us (list []) → us = [])
    (hcons : ∀ {us x xs}, Phrase us (list (x :: xs)) → ∃ vs, Phrase vs (part x) ∧ (us = vs ∧ xs = [] ∨
      ∃ t ws, us = vs ++ t :: ws ∧ t.kind = .delimiter .comma ∧ Phrase ws (list xs)))
    (hitem : ∀ {us rest x}, Phrase us (part x) → us.length ≤ n → Stops 0 rest →
      (peek rest).isOperator .assign = false → item (us ++ rest) = .ok (x, rest))
    {xs : List α} (h : Phrase us (list xs)) (hlength : us.length ≤ n)
    (hmark : mark = .closeParen ∨ mark = .closeBracket) (hr : r.kind = .delimiter mark)
    (hrounds : us.length ≤ rounds) (rest : List Token) :
    commaList item mark rounds (us ++ r :: rest) = .ok (xs, r :: rest) := by
  have hend : Stops 0 (r :: rest) := stops_of_kind hr (by rcases hmark with rfl | rfl <;> simp [joins]) _
  have hopen : mark ≠ .openParen ∧ mark ≠ .openBracket := by rcases hmark with rfl | rfl <;> simp
  have hcomma : mark ≠ .comma := by rcases hmark with rfl | rfl <;> simp
  induction xs generalizing us rounds with
  | nil =>
    cases hnil h
    cases rounds with
    | zero => rfl
    | succ rounds => rw [nil_append, commaList, if_pos (by simp [isDelimiter, hr])]
  | cons x xs ih =>
    obtain ⟨vs, hx, hmore⟩ := hcons h
    have hfront := hx.isDelimiter (hpart x) hopen
    have hpos := length_pos_iff.2 (hx.ne_nil (hpart x))
    rcases hmore with ⟨rfl, rfl⟩ | ⟨t, ws, rfl, ht, hxs⟩
    · obtain ⟨rounds, rfl⟩ : ∃ m, rounds = m + 1 := ⟨rounds - 1, by omega⟩
      rw [commaList_succ rounds (hfront _) (hitem hx hlength hend (by simp [isOperator, hr])),
        if_neg (by simp [isDelimiter, hr, hcomma])]
    · simp only [length_append, length_cons] at hlength hrounds
      obtain ⟨rounds, rfl⟩ : ∃ m, rounds = m + 1 := ⟨rounds - 1, by omega⟩
      have hstops : Stops 0 (t :: (ws ++ r :: rest)) := stops_of_kind ht (by simp [joins]) _
      rw [append_assoc, cons_append, commaList_succ rounds (hfront _)
        (hitem hx (by omega) hstops (by simp [isOperator, ht])), if_pos (by simp [isDelimiter, ht])]
      exact bind_eq_ok.2 ⟨_, ih hxs (by omega) (by omega), rfl⟩

section

variable {expr : Reader Expr} (he : Complete 0 n expr)
include he

theorem items_complete {es : List Expr} (h : Phrase us (.items es)) (hlength : us.length ≤ n)
    (hr : r.kind = .delimiter .closeBracket) (rest : List Token) :
    commaList expr .closeBracket (us ++ r :: rest).length (us ++ r :: rest) = .ok (es, r :: rest) := by
  refine commaList_complete (fun _ => rfl) (fun h => by cases h; rfl) ?_ (fun h hn hrest _ => he h hn hrest) h
    hlength (.inr rfl) hr (by simp) rest
  intro us e es h
  cases h with
  | lastItem h => exact ⟨us, h, .inl ⟨rfl, rfl⟩⟩
  | item h ht hes => exact ⟨_, h, .inr ⟨_, _, rfl, ht, hes⟩⟩

theorem argument_complete {arg : Argument Expr} (h : Phrase us (.argument arg)) (hlength : us.length ≤ n)
    (hrest : Stops 0 rest) (hassign : (peek rest).isOperator .assign = false) :
    argument expr (us ++ rest) = .ok (arg, rest) := by
  unfold argument
  cases h with
  | positional hplain h =>
    have hnamed : isNamed (us ++ rest) = false := by
      rw [isNamed_append (h.ne_nil rfl), hplain, hassign, Bool.and_false]
      rfl
    rw [hnamed, peek_append (h.ne_nil rfl)]
    exact bind_of_ok (he h hlength hrest)
  | @named t u us _ hword hsign h =>
    have hnamed : isNamed (t :: u :: us ++ rest) = true := by simp [isNamed, hword, isOperator, hsign]
    rw [hnamed]
    simp only [length_cons] at hlength
    exact bind_of_ok (he h (by omega) hrest)

theorem arguments_complete {args : List (Argument Expr)} (h : Phrase us (.arguments args))
    (hlength : us.length ≤ n) (hr : r.kind = .delimiter .closeParen) (rest : List Token) :
    commaList (argument expr) .closeParen (us ++ r :: rest).length (us ++ r :: rest) = .ok (args, r :: rest) := by
  refine commaList_complete (fun _ => rfl) (fun h => by cases h; rfl) ?_ (argument_complete he) h hlength
    (.inl rfl) hr (by simp) rest
  intro us arg args h
  cases h with
  | lastArgument h => exact ⟨us, h, .inl ⟨rfl, rfl⟩⟩
  | moreArguments h ht hargs => exact ⟨_, h, .inr ⟨_, _, rfl, ht, hargs⟩⟩

/-! ## Values -/

omit he in
theorem atom_of_leaf (h : leaf? t = some e)
    (hna : ∀ span, e = .na span → (peek rest).isDelimiter .openParen = false) :
    atom expr (t :: rest) = .ok (e, rest) := by
  unfold leaf? at h
  split at h
  · next hk =>
    split at h
    · next hx =>
      cases h
      simp only [atom, peek_cons, hk]
      exact bind_of_ok hx
    · cases h
  · next hk => cases h; simp [atom, hk]
  · next hk => cases h; simp [atom, hk]
  · next hk => cases h; simp [atom, hk, hna]
  · next hk => cases h; simp [atom, hk]
  · next hk => cases h; simp [atom, hk]
  · next hk => cases h; simp [atom, hk]
  · cases h

theorem atom_complete (h : Phrase us (.value 8 e)) (hlength : us.length ≤ n + 1)
    (hna : ∀ span, e = .na span → (peek rest).isDelimiter .openParen = false) :
    atom expr (us ++ rest) = .ok (e, rest) := by
  cases h with
  | leaf h => exact atom_of_leaf h hna
  | member ht hu => simp [atom, ht, hu]
  | @enclosed l r us e hl hr h =>
    simp only [length_cons, length_append, length_nil] at hlength
    have hread := he h (by omega) (stops_of_kind hr (by simp [joins]) rest)
    simp only [atom, cons_append, append_assoc, nil_append, peek_cons, drop_succ_cons, drop_zero, hl]
    exact (bind_of_ok hread).trans (bind_of_ok (expect_of_kind hr rest))
  | @tuple l r us es hl hr h hne =>
    simp only [length_cons, length_append, length_nil] at hlength
    have hread := items_complete he h (by omega) hr rest
    have hempty : es.isEmpty = false := by simpa using hne
    simp only [atom, cons_append, append_assoc, nil_append, peek_cons, drop_succ_cons, drop_zero, hl]
    refine (bind_of_ok hread).trans ((bind_of_ok (expect_of_kind hr rest)).trans ?_)
    rw [hempty, if_neg Bool.false_ne_true]
    rfl
  | operation h => exact absurd (rank_of_operation h).2 (by decide)
  | loosen h => exact absurd h (by decide)

theorem callee_complete {span : Span} {reference : Reference} (h : Phrase us (.callee span reference))
    (hlength : us.length ≤ n + 1) (hopen : (peek rest).kind = .delimiter .openParen) :
    atom expr (us ++ rest) = .ok (.name span reference, rest) := by
  cases h with
  | name h => exact atom_complete he h hlength (by simp)
  | @calledWord t x h =>
    have hcalled : (peek rest).isDelimiter .openParen = true := beq_of_eq hopen
    unfold calledWord? at h
    split at h
    · next hk => cases h; simp [atom, hk, hcalled]
    · next hk =>
      split at h
      · next hcast => cases h; simp [atom, hk, hcalled, hcast]
      · cases h
    · cases h

theorem postfixed_continues (h : Phrase us (.value 7 e)) (hlength : us.length ≤ n + 1)
    (hna : ∀ span, e = .na span → (peek rest).isDelimiter .openParen = false) :
    ∃ rounds, rest.length ≤ rounds ∧ postfixed expr (us ++ rest) = suffixes expr rounds e rest := by
  generalize hpart : Part.value 7 e = part at h
  induction h generalizing e rest with
  | loosen _ h =>
    cases hpart
    exact ⟨rest.length, Nat.le_refl _, postfixed_of_atom (atom_complete he h hlength hna)⟩
  | @call us vs l r span callee args hcallee hl hr hargs =>
    cases hpart
    simp only [length_append, length_cons, length_nil] at hlength
    have hopen : (peek (l :: (vs ++ r :: rest))).kind = .delimiter .openParen := hl
    have hatom := callee_complete he hcallee (by omega) hopen
    have hread := arguments_complete he hargs (by omega) hr rest
    refine ⟨(vs ++ r :: rest).length, by simp; omega, ?_⟩
    simp only [append_assoc, cons_append, nil_append]
    rw [postfixed_of_atom hatom, length_cons, suffixes_call hl hr hread]
  | @index us vs l r target offset htarget hindex hl hr hoffset ih =>
    cases hpart
    simp only [length_append, length_cons, length_nil] at hlength
    have hopen : (peek (l :: (vs ++ r :: rest))).isDelimiter .openParen = false := by simp [isDelimiter, hl]
    obtain ⟨rounds, hrounds, hpost⟩ := ih (by omega) (fun _ _ => hopen) rfl
    have hread := he hoffset (by omega) (stops_of_kind hr (by simp [joins]) rest)
    obtain ⟨rounds, rfl⟩ : ∃ m, rounds = m + 1 := ⟨rounds - 1, by simp at hrounds; omega⟩
    refine ⟨rounds, by simp at hrounds; omega, ?_⟩
    simp only [append_assoc, cons_append, nil_append]
    rw [hpost, suffixes_index hl hr hindex hread]
  | operation h =>
    cases hpart
    exact absurd (rank_of_operation h).2 (by decide)
  | _ => cases hpart

omit he in
theorem isDelimiter_of_stops (h : Stops 7 rest) : (peek rest).isDelimiter .openParen = false := by
  apply beq_false_of_ne
  intro hk
  exact Nat.lt_irrefl 7 (h 7 (by rw [hk]; rfl))

theorem postfixed_complete : Complete 7 (n + 1) (postfixed expr) := by
  intro us rest e h hlength hrest
  obtain ⟨rounds, -, hpost⟩ := postfixed_continues he h hlength fun _ _ => isDelimiter_of_stops hrest
  rw [hpost, suffixes_stop hrest]

theorem signed_complete : Complete 6 (n + 1) (signed expr) := by
  intro us rest e h hlength hrest
  generalize hpart : Part.value 6 e = part at h
  induction h generalizing e with
  | sign hop h ih =>
    cases hpart
    rw [cons_append, signed_cons hop]
    exact bind_of_ok (ih (Nat.le_of_lt hlength) rfl)
  | loosen _ h =>
    cases hpart
    rw [signed_of_none (by rw [peek_append (h.ne_nil rfl)]; exact h.signOp rfl)]
    exact postfixed_complete he h hlength (hrest.mono (by decide))
  | operation h =>
    cases hpart
    exact absurd (rank_of_operation h).2 (by decide)
  | _ => cases hpart

end

/-! ## Operations -/

theorem operation_of_stops (h : Stops k rest) : operation? k (peek rest) = none := by
  cases hop : operation? k (peek rest) with
  | none => rfl
  | some op => exact absurd (h k (joins_of_operation hop)) (Nat.lt_irrefl k)

theorem chain_continues (ho : Complete (k + 1) n operand) (hk : 0 < k ∧ k < 6)
    (h : Phrase us (.value k e)) (hlength : us.length ≤ n) (hrest : Stops (k + 1) rest) :
    ∃ rounds, rest.length ≤ rounds ∧ chain operand (operation? k) (us ++ rest) =
    chainFrom operand (operation? k) rounds e rest := by
  generalize hpart : Part.value k e = part at h
  induction h generalizing e rest with
  | loosen _ h =>
    cases hpart
    refine ⟨rest.length, Nat.le_refl _, ?_⟩
    exact bind_of_ok (ho h hlength hrest)
  | @operation _ us vs t op left right hop hleft hright ih =>
    cases hpart
    simp only [length_append, length_cons] at hlength
    have hstops : Stops (k + 1) (t :: (vs ++ rest)) := by
      intro j hj
      rw [peek_cons, joins_of_operation hop] at hj
      cases hj
      exact Nat.lt_succ_self k
    obtain ⟨rounds, hrounds, hread⟩ := ih (by omega) hstops rfl
    obtain ⟨rounds, rfl⟩ : ∃ m, rounds = m + 1 := ⟨rounds - 1, by simp at hrounds; omega⟩
    refine ⟨rounds, by simp at hrounds; omega, ?_⟩
    rw [append_assoc, cons_append, hread, chainFrom_step hop (ho hright (by omega) hrest)]
  | ternary => cases hpart; exact absurd hk.1 (by decide)
  | sign => cases hpart; exact absurd hk.2 (by decide)
  | call | index => cases hpart; exact absurd hk.2 (by decide)
  | leaf | member | enclosed | tuple => cases hpart; exact absurd hk.2 (by decide)
  | _ => cases hpart

theorem chain_complete (hk : 0 < k ∧ k < 6)
    (ho : Complete (k + 1) n operand) : Complete k n (chain operand (operation? k)) := by
  intro us rest e h hlength hrest
  obtain ⟨rounds, -, hread⟩ := chain_continues ho hk h hlength (hrest.mono (Nat.le_succ k))
  rw [hread, chainFrom_stop (operation_of_stops hrest)]

/-! ## Whole expressions -/

section

variable {expr : Reader Expr} (he : Complete 0 n expr)
include he

theorem operations_complete : Complete 1 (n + 1) (operations expr) := by
  apply chain_complete (k := 1) (by decide)
  apply chain_complete (k := 2) (by decide)
  apply chain_complete (k := 3) (by decide)
  apply chain_complete (k := 4) (by decide)
  apply chain_complete (k := 5) (by decide)
  exact signed_complete he

theorem conditional_complete : Complete 0 (n + 1) (conditional expr) := by
  intro us rest e h hlength hrest
  unfold conditional
  cases h with
  | loosen _ h =>
    have hquestion : ¬ (peek rest).isOperator .question = true := by
      intro hk
      exact Nat.not_lt_zero 0 (hrest 0 (by rw [eq_of_beq hk]; rfl))
    rw [bind_of_ok (operations_complete he h hlength (hrest.mono (Nat.zero_le 1)))]
    exact if_neg hquestion
  | @ternary us vs ws t u c yes no hc ht hyes hu hno =>
    simp only [length_append, length_cons] at hlength
    have hstops : Stops 1 (t :: (vs ++ u :: (ws ++ rest))) := stops_of_kind ht (by rintro j ⟨⟩; decide) _
    have hstops' : Stops 0 (u :: (ws ++ rest)) := stops_of_kind hu (by rintro j ⟨⟩) _
    have hmark : t.isOperator .question = true := beq_of_eq ht
    have hmark' : u.isOperator .colon = true := beq_of_eq hu
    simp only [append_assoc, cons_append]
    rw [bind_of_ok (operations_complete he hc (by omega) hstops)]
    refine (if_pos hmark).trans ((bind_of_ok (he hyes (by omega) hstops')).trans ?_)
    exact (if_pos hmark').trans (bind_of_ok (he hno (by omega) hrest))
  | operation h => exact absurd (rank_of_operation h).1 (by decide)

end

theorem expression_complete (depth : Nat) : Complete 0 depth (expression depth) := by
  induction depth with
  | zero =>
    intro us rest e h hlength
    exact absurd (eq_nil_of_length_eq_zero (Nat.le_zero.1 hlength)) (h.ne_nil rfl)
  | succ depth ih => exact conditional_complete ih

end ExprParser

open ExprParser in
/-- A text whose words are a phrase is read so. -/
theorem Expr.parse_of_phrase {text : List Char} {base : Span} {e : Expr}
    (h : Phrase (contentAt text base) (.value 0 e)) : Expr.parse text base = .ok e := by
  obtain ⟨eof, hkind, htokens⟩ := tokens_eq_contentAt text base
  have hend : Stops 0 [eof] := stops_of_kind hkind (by simp [joins]) []
  have hread := expression_complete (contentAt text base ++ [eof]).length h (by simp) hend
  have hfind : (contentAt text base ++ [eof]).find? (·.kind == .unknown) = none := by
    rw [find?_eq_none]
    intro t ht hunknown
    rcases mem_append.1 ht with ht | ht
    · exact ne_of_speaks (h.speaks t ht) .unknown rfl (eq_of_beq hunknown)
    · simp [mem_singleton.1 ht, hkind] at hunknown
  have hbegin : ((peek (contentAt text base ++ [eof])).kind == .eof) = false := by
    obtain ⟨t, ts, hcons⟩ := exists_cons_of_ne_nil (h.ne_nil rfl)
    rw [hcons]
    exact beq_false_of_ne (ne_eof_of_mem_contentAt (hcons ▸ mem_cons_self))
  unfold Expr.parse
  simp only [htokens, hfind, hbegin]
  refine (bind_of_ok hread).trans ?_
  simp only [peek_cons, hkind]
  rfl

end ChartScript
