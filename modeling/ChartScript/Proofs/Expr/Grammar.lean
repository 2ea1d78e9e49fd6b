import ChartScript.Proofs.Expr.Readers
/-!
# The grammar of expressions

What a run of tokens can be written for, by the rank it has there and with the places that its nodes
get.
-/
namespace ChartScript

open List

/-- The fault that no expression has: a number token that cannot be read. -/
def ExprFault.isGuard : ExprFault → Bool
  | malformedNumber _ => true
  | _ => false

namespace ExprParser

def operation? : (rank : Nat) → Token → Option BinaryOp
  | 1 => orOp?
  | 2 => andOp?
  | 3 => comparisonOp?
  | 4 => sumOp?
  | 5 => productOp?
  | _ => fun _ => none

def leaf? (t : Token) : Option Expr :=
  match t.kind with
  | .literal .number =>
    match numberValue t with
    | .ok x => some (.number t.span x !(t.text.toList.any fun c => c == '.' || c == 'e' || c == 'E'))
    | .error _ => none
  | .literal .string => some (.text t.span (unquote t.text))
  | .literal .bool => some (.bool t.span (t.text == "true"))
  | .literal .na => some (.na t.span)
  | .literal .color => some (.color t.span t.text)
  | .identifier => some (.name t.span (.plain t.text))
  | .series field => some (.series t.span field)
  | _ => none

def calledWord? (t : Token) : Option String :=
  match t.kind with
  | .literal .na => some "na"
  | .keyword word => if isCast word then some t.text else none
  | _ => none

/-- What tokens are written for. -/
inductive Part where
  /-- An expression of the rank or of a tighter one. -/
  | value (rank : Nat) (e : Expr)
  | callee (span : Span) (reference : Reference)
  | items (es : List Expr)
  | argument (arg : Argument Expr)
  | arguments (args : List (Argument Expr))

def Part.isList : Part → Bool
  | items _ | arguments _ => true
  | _ => false

/-- The tokens are written for the part. -/
inductive Phrase : List Token → Part → Prop
  | leaf {t : Token} {e : Expr} : leaf? t = some e → Phrase [t] (.value 8 e)
  | member {t u : Token} : t.kind = .qualifier → u.isWord = true →
      Phrase [t, u] (.value 8 (.name (t.span.through u.span) (.member t.qualifierName u.text)))
  | enclosed {l r : Token} {us : List Token} {e : Expr} : l.kind = .delimiter .openParen →
      r.kind = .delimiter .closeParen → Phrase us (.value 0 e) →
      Phrase (l :: (us ++ [r])) (.value 8 (e.withSpan (l.span.through r.span)))
  | tuple {l r : Token} {us : List Token} {es : List Expr} : l.kind = .delimiter .openBracket →
      r.kind = .delimiter .closeBracket → Phrase us (.items es) → es ≠ [] →
      Phrase (l :: (us ++ [r])) (.value 8 (.tuple (l.span.through r.span) es))
  | call {us vs : List Token} {l r : Token} {span : Span} {callee : Reference}
      {args : List (Argument Expr)} : Phrase us (.callee span callee) →
      l.kind = .delimiter .openParen → r.kind = .delimiter .closeParen →
      Phrase vs (.arguments args) →
      Phrase (us ++ l :: (vs ++ [r])) (.value 7 (.call (span.through r.span) callee span args))
  | index {us vs : List Token} {l r : Token} {e offset : Expr} : Phrase us (.value 7 e) →
      isIndex e = false → l.kind = .delimiter .openBracket → r.kind = .delimiter .closeBracket →
      Phrase vs (.value 0 offset) →
      Phrase (us ++ l :: (vs ++ [r])) (.value 7 (.index (e.span.through r.span) e offset))
  | sign {t : Token} {us : List Token} {op : UnaryOp} {e : Expr} : signOp? t = some op →
      Phrase us (.value 6 e) → Phrase (t :: us) (.value 6 (.unary (t.span.through e.span) op e))
  | operation {k : Nat} {us vs : List Token} {t : Token} {op : BinaryOp} {left right : Expr} :
      operation? k t = some op → Phrase us (.value k left) → Phrase vs (.value (k + 1) right) →
      Phrase (us ++ t :: vs) (.value k (.binary (left.span.through right.span) op left right))
  | ternary {us vs ws : List Token} {t u : Token} {c yes no : Expr} : Phrase us (.value 1 c) →
      t.kind = .operator .question → Phrase vs (.value 0 yes) → u.kind = .operator .colon →
      Phrase ws (.value 0 no) →
      Phrase (us ++ t :: (vs ++ u :: ws)) (.value 0 (.ternary (c.span.through no.span) c yes no))
  | loosen {k : Nat} {us : List Token} {e : Expr} : k < 8 → Phrase us (.value (k + 1) e) → Phrase us (.value k e)
  | name {us : List Token} {span : Span} {reference : Reference} :
      Phrase us (.value 8 (.name span reference)) → Phrase us (.callee span reference)
  | calledWord {t : Token} {x : String} : calledWord? t = some x → Phrase [t] (.callee t.span (.plain x))
  | noItems : Phrase [] (.items [])
  | lastItem {us : List Token} {e : Expr} : Phrase us (.value 0 e) → Phrase us (.items [e])
  | item {us vs : List Token} {t : Token} {e : Expr} {es : List Expr} : Phrase us (.value 0 e) →
      t.kind = .delimiter .comma → Phrase vs (.items es) → Phrase (us ++ t :: vs) (.items (e :: es))
  | positional {us : List Token} {e : Expr} : isNamed us = false → Phrase us (.value 0 e) →
      Phrase us (.argument ⟨none, e, (peek us).span.through e.span⟩)
  | named {t u : Token} {us : List Token} {e : Expr} : t.isWord = true →
      u.kind = .operator .assign → Phrase us (.value 0 e) →
      Phrase (t :: u :: us) (.argument ⟨some t.text, e, t.span.through e.span⟩)
  | noArguments : Phrase [] (.arguments [])
  | lastArgument {us : List Token} {arg : Argument Expr} : Phrase us (.argument arg) → Phrase us (.arguments [arg])
  | moreArguments {us vs : List Token} {t : Token} {arg : Argument Expr}
      {args : List (Argument Expr)} : Phrase us (.argument arg) → t.kind = .delimiter .comma →
      Phrase vs (.arguments args) → Phrase (us ++ t :: vs) (.arguments (arg :: args))

namespace Phrase

variable {us : List Token} {e : Expr} {j k : Nat}

theorem loosen_le (h : Phrase us (.value k e)) (hjk : j ≤ k) (hk : k ≤ 8) : Phrase us (.value j e) := by
  induction hjk with
  | refl => exact h
  | @step m _ ih => exact ih (.loosen (by omega) h) (by omega)

theorem callee {span : Span} {reference : Reference}
    (h : Phrase us (.value 7 (.name span reference))) : Phrase us (.callee span reference) := by
  cases h with
  | loosen _ h => exact .name h

theorem ne_nil {part : Part} (h : Phrase us part) (hpart : part.isList = false) : us ≠ [] := by
  induction h with
  | loosen _ _ ih => exact ih rfl
  | name _ ih => exact ih rfl
  | positional _ _ ih => exact ih rfl
  | lastItem | noItems | noArguments | lastArgument => cases hpart
  | _ => simp

end Phrase

/-! ## What is read is a phrase -/

/-- The fault stands at a token or at the end behind them, or it reaches from one token to another. A
number is malformed only if it cannot be read. -/
structure FaultOf (ts : List Token) (fault : Located ExprFault) : Prop where
  place : (∃ us, us <:+ ts ∧ fault.span = (peek us).span) ∨ ∃ t ∈ ts, ∃ u ∈ ts, fault.span = t.span.through u.span
  number : fault.cause.isGuard = true → ∃ t ∈ ts, t.kind = .literal .number ∧ Decimal.readFloat? t.text = none

section

variable {ts us : List Token}

theorem FaultOf.next {cause : ExprFault} (hs : us <:+ ts) (hcause : cause.isGuard = false) :
    FaultOf ts ⟨(peek us).span, cause⟩ :=
  ⟨.inl ⟨us, hs, rfl⟩, fun h => absurd h (by simp [hcause])⟩

theorem FaultOf.mono {fault : Located ExprFault} (h : FaultOf us fault) (hs : us <:+ ts) : FaultOf ts fault where
  place := h.place.imp (fun ⟨vs, hvs, hspan⟩ => ⟨vs, hvs.trans hs, hspan⟩)
    fun ⟨t, ht, u, hu, hspan⟩ => ⟨t, hs.mem ht, u, hs.mem hu, hspan⟩
  number hguard := (h.number hguard).imp fun _ ht => ⟨hs.mem ht.1, ht.2⟩

theorem within {α : Type} {good : α → Prop} {x : Except (Located ExprFault) α}
    (h : Yields good (FaultOf us) x) (hs : us <:+ ts) : Yields good (FaultOf ts) x :=
  h.mono (fun _ => id) fun _ hfault => hfault.mono hs

def Takes {α : Type} (part : α → Part) (ts : List Token)
    (result : Except (Located ExprFault) (α × List Token)) : Prop :=
  Yields (fun r => ∃ us, ts = us ++ r.2 ∧ Phrase us (part r.1)) (FaultOf ts) result

def Sound (rank : Nat) (read : Reader Expr) : Prop :=
  ∀ ts, Takes (.value rank) ts (read ts)

theorem cons_of_kind {kind : TokenKind} (h : (peek ts).kind = kind) (hkind : kind ≠ .eof) :
    ∃ t rest, ts = t :: rest ∧ t.kind = kind := by
  cases ts with
  | nil => exact absurd h.symm hkind
  | cons t rest => exact ⟨t, rest, rfl, h⟩

theorem cons_of_isWord (h : (peek ts).isWord = true) : ∃ t rest, ts = t :: rest := by
  cases ts with
  | nil => cases h
  | cons t rest => exact ⟨t, rest, rfl⟩

theorem expect_takes (mark : Delimiter) (ts : List Token) :
    Yields (fun r => ts = r.1 :: r.2 ∧ r.1.kind = .delimiter mark) (FaultOf ts) (expect mark ts) := by
  unfold expect
  split
  · next hmark =>
    obtain ⟨t, rest, rfl, hkind⟩ := cons_of_kind (eq_of_beq hmark) (by simp)
    exact ⟨rfl, hkind⟩
  · exact .next (suffix_refl _) rfl

end

/-! ### Operations -/

section

variable {k : Nat} {t : Token} {op : BinaryOp}

theorem rank_of_operation (h : operation? k t = some op) : 0 < k ∧ k < 6 := by
  unfold operation? at h
  split at h
  · decide
  · decide
  · decide
  · decide
  · decide
  · cases h

theorem joins_of_operation (h : operation? k t = some op) : t.kind.joins = some k := by
  unfold operation? at h
  split at h
  · unfold orOp? at h
    split at h
    · next hk => rw [eq_of_beq hk]; rfl
    · cases h
  · unfold andOp? at h
    split at h
    · next hk => rw [eq_of_beq hk]; rfl
    · cases h
  · unfold comparisonOp? at h
    split at h
    · next sign hk =>
      rw [hk]
      revert h
      cases sign <;> simp [BinaryOp.comparison?, TokenKind.joins]
    · cases h
  · unfold sumOp? at h
    split at h <;> first | (next hk => rw [hk]; rfl) | cases h
  · unfold productOp? at h
    split at h <;> first | (next hk => rw [hk]; rfl) | cases h
  · cases h

variable {operand : Reader Expr}

theorem chainFrom_takes (ho : Sound (k + 1) operand) (rounds : Nat) {us ts : List Token} {left : Expr}
    (hleft : Phrase us (.value k left)) :
    Takes (.value k) (us ++ ts) (chainFrom operand (operation? k) rounds left ts) := by
  induction rounds generalizing left us ts with
  | zero => exact ⟨us, rfl, hleft⟩
  | succ rounds ih =>
    unfold chainFrom
    split
    · exact ⟨us, rfl, hleft⟩
    · next op hop =>
      cases ts with
      | nil => cases joins_of_operation hop
      | cons t ts =>
        refine (within (ho ts) ⟨us ++ [t], by simp⟩).bind ?_
        rintro ⟨right, rest⟩ ⟨vs, rfl, hright⟩
        rw [← cons_append, ← append_assoc]
        exact ih (.operation hop hleft hright)

theorem chain_sound (hk : k < 8) (ho : Sound (k + 1) operand) : Sound k (chain operand (operation? k)) := by
  intro ts
  refine (ho ts).bind ?_
  rintro ⟨left, rest⟩ ⟨us, rfl, hus⟩
  exact chainFrom_takes ho _ (.loosen hk hus)

end

/-! ### Lists -/

theorem isNamed_append {us : List Token} (h : us ≠ []) (rest : List Token) :
    isNamed (us ++ rest) =
      (isNamed us || (us.length == 1 && (peek us).isWord && (peek rest).isOperator .assign)) := by
  cases us with
  | nil => exact absurd rfl h
  | cons t us =>
    cases us with
    | nil =>
      have hend : (peek []).isOperator .assign = false := rfl
      simp [isNamed, hend]
    | cons u us => simp [isNamed]

theorem commaList_takes {α : Type} {item : Reader α} {part : α → Part} {list : List α → Part}
    (hitem : ∀ ts, Takes part ts (item ts)) (hnil : Phrase [] (list []))
    (hlast : ∀ {us x}, Phrase us (part x) → Phrase us (list [x]))
    (hmore : ∀ {us vs t x xs}, Phrase us (part x) → t.kind = .delimiter .comma → Phrase vs (list xs) →
      Phrase (us ++ t :: vs) (list (x :: xs)))
    (close : Delimiter) (rounds : Nat) (ts : List Token) : Takes list ts (commaList item close rounds ts) := by
  induction rounds generalizing ts with
  | zero => exact ⟨[], rfl, hnil⟩
  | succ rounds ih =>
    unfold commaList
    split
    · exact ⟨[], rfl, hnil⟩
    · refine (hitem ts).bind ?_
      rintro ⟨x, rest⟩ ⟨us, rfl, hus⟩
      dsimp only
      split
      · next hcomma =>
        obtain ⟨t, rest, rfl, hk⟩ := cons_of_kind (eq_of_beq hcomma) (by simp)
        refine (within (ih rest) ⟨us ++ [t], by simp⟩).bind ?_
        rintro ⟨xs, rest⟩ ⟨vs, rfl, hvs⟩
        exact ⟨us ++ t :: vs, by simp, hmore hus hk hvs⟩
      · exact ⟨us, rfl, hlast hus⟩

section

variable {expr : Reader Expr} (he : Sound 0 expr)
include he

theorem argument_takes (ts : List Token) : Takes .argument ts (argument expr ts) := by
  unfold argument
  cases hnamed : isNamed ts with
  | true =>
    obtain ⟨hword, hsign⟩ := Bool.and_eq_true_iff.1 hnamed
    obtain ⟨t, ts, rfl⟩ := cons_of_isWord hword
    obtain ⟨u, ts, rfl, hassign⟩ := cons_of_kind (eq_of_beq hsign) (by simp)
    refine (within (he ts) ⟨[t, u], rfl⟩).bind ?_
    rintro ⟨value, rest⟩ ⟨us, rfl, hvalue⟩
    exact ⟨t :: u :: us, rfl, .named hword hassign hvalue⟩
  | false =>
    refine (he ts).bind ?_
    rintro ⟨value, rest⟩ ⟨us, rfl, hvalue⟩
    rw [isNamed_append (hvalue.ne_nil rfl), Bool.or_eq_false_iff] at hnamed
    refine ⟨us, rfl, ?_⟩
    rw [peek_append (hvalue.ne_nil rfl)]
    exact .positional hnamed.1 hvalue

/-! ### Values -/

def Begun (us rest : List Token) (e : Expr) : Prop :=
  Phrase us (.value 7 e) ∨ (peek rest).kind = .delimiter .openParen ∧
    ∃ span reference, e = .name span reference ∧ Phrase us (.callee span reference)

omit he in
theorem begun_leaf {t : Token} {e : Expr} (h : leaf? t = some e) (rest : List Token) :
    ∃ us, t :: rest = us ++ rest ∧ Begun us rest e :=
  ⟨[t], rfl, .inl (.loosen (by decide) (.leaf h))⟩

omit he in
theorem numberValue_faults {t : Token} (hk : t.kind = .literal .number) (rest : List Token) :
    Faults (FaultOf (t :: rest)) (numberValue t) := by
  unfold numberValue
  split
  · next hnone =>
    exact ⟨.inl ⟨_, suffix_refl _, rfl⟩, fun _ => ⟨t, mem_cons_self, hk, hnone⟩⟩
  · split
    · trivial
    · exact .next (suffix_refl (t :: rest)) rfl

theorem atom_takes (ts : List Token) :
    Yields (fun r => ∃ us, ts = us ++ r.2 ∧ Begun us r.2 r.1) (FaultOf ts) (atom expr ts) := by
  cases ts with
  | nil => exact .next (suffix_refl []) rfl
  | cons t rest =>
  have hhere : ∀ {cause : ExprFault}, cause.isGuard = false → FaultOf (t :: rest) ⟨t.span, cause⟩ :=
    .next (suffix_refl _)
  unfold atom
  simp only [peek_cons, drop_succ_cons, drop_zero]
  split
  · next hk =>
    refine (numberValue_faults hk rest).with_eq.bind ?_
    rintro x ⟨-, hx⟩
    exact begun_leaf (by simp [leaf?, hk, hx]) rest
  · next hk => exact begun_leaf (by simp [leaf?, hk]) rest
  · next hk => exact begun_leaf (by simp [leaf?, hk]) rest
  · next hk =>
    split
    · next hcalled =>
      exact ⟨[t], rfl, .inr ⟨eq_of_beq hcalled, _, _, rfl, .calledWord (by simp [calledWord?, hk])⟩⟩
    · exact begun_leaf (by simp [leaf?, hk]) rest
  · next hk => exact begun_leaf (by simp [leaf?, hk]) rest
  · next hk => exact begun_leaf (by simp [leaf?, hk]) rest
  · next hk => exact begun_leaf (by simp [leaf?, hk]) rest
  · next hk =>
    split
    · next hword =>
      obtain ⟨u, rest, rfl⟩ := cons_of_isWord hword
      exact ⟨[t, u], rfl, .inl (.loosen (by decide) (.member hk hword))⟩
    · exact .next (suffix_cons t rest) rfl
  · next hk =>
    refine (within (he rest) (suffix_cons t rest)).bind ?_
    rintro ⟨inner, rest⟩ ⟨us, rfl, hus⟩
    refine (within (expect_takes .closeParen rest) ⟨t :: us, rfl⟩).bind ?_
    rintro ⟨r, rest⟩ ⟨rfl, hr⟩
    exact ⟨t :: (us ++ [r]), by simp, .inl (.loosen (by decide) (.enclosed hk hr hus))⟩
  · next hk =>
    refine (within (commaList_takes he .noItems .lastItem .item _ _ rest) (suffix_cons t rest)).bind ?_
    rintro ⟨items, rest⟩ ⟨us, rfl, hus⟩
    refine (within (expect_takes .closeBracket rest) ⟨t :: us, rfl⟩).bind ?_
    rintro ⟨r, rest⟩ ⟨rfl, hr⟩
    split
    · exact ⟨.inr ⟨t, by simp, r, by simp, rfl⟩, nofun⟩
    · next hne =>
      exact ⟨t :: (us ++ [r]), by simp, .inl (.loosen (by decide) (.tuple hk hr hus (by simpa using hne)))⟩
  · next word hk =>
    split
    · next hcalled =>
      exact ⟨[t], rfl, .inr ⟨eq_of_beq hcalled.1, _, _, rfl, .calledWord (by simp [calledWord?, hk, hcalled.2])⟩⟩
    · split
      · exact hhere rfl
      · exact hhere rfl
  · exact hhere rfl
  · exact hhere rfl

theorem suffixes_takes {rounds : Nat} {us ts : List Token} {start : Expr} (hstart : Begun us ts start)
    (hrounds : ts.length ≤ rounds) : Takes (.value 7) (us ++ ts) (suffixes expr rounds start ts) := by
  induction rounds generalizing start us ts with
  | zero =>
    obtain hvalue | ⟨hopen, -⟩ := hstart
    · exact ⟨us, rfl, hvalue⟩
    · rw [eq_nil_of_length_eq_zero (Nat.le_zero.1 hrounds)] at hopen
      cases hopen
  | succ rounds ih =>
    have hvalue : (peek ts).kind ≠ .delimiter .openParen → Phrase us (.value 7 start) :=
      fun hne => hstart.resolve_right fun hcallee => hne hcallee.1
    have hhere : ∀ {cause : ExprFault}, cause.isGuard = false →
        FaultOf (us ++ ts) ⟨(peek ts).span, cause⟩ := .next (suffix_append us ts)
    unfold suffixes
    dsimp only
    split
    · next hk =>
      split
      · next span callee =>
        have hcallee : Phrase us (.callee span callee) := by
          obtain hvalue | ⟨-, _, _, ⟨⟩, hcallee⟩ := hstart
          · exact hvalue.callee
          · exact hcallee
        obtain ⟨l, ts, rfl, hl⟩ := cons_of_kind hk (by simp)
        refine (within (commaList_takes (argument_takes he) .noArguments .lastArgument .moreArguments _ _ ts)
          ⟨us ++ [l], by simp⟩).bind ?_
        rintro ⟨args, rest⟩ ⟨vs, rfl, hargs⟩
        refine (within (expect_takes .closeParen rest) ⟨us ++ l :: vs, by simp⟩).bind ?_
        rintro ⟨r, rest⟩ ⟨rfl, hr⟩
        simp only [length_cons, length_append] at hrounds
        have hmore := ih (.inl (.call hcallee hl hr hargs)) (show rest.length ≤ rounds by omega)
        simpa [Takes] using hmore
      · exact hhere rfl
    · next hk =>
      split
      · exact hhere rfl
      · next hindex =>
        have htarget := hvalue (by simp [hk])
        obtain ⟨l, ts, rfl, hl⟩ := cons_of_kind hk (by simp)
        refine (within (he ts) ⟨us ++ [l], by simp⟩).bind ?_
        rintro ⟨offset, rest⟩ ⟨vs, rfl, hoffset⟩
        have hrest : rest <:+ us ++ l :: (vs ++ rest) := ⟨us ++ l :: vs, by simp⟩
        split
        · exact .next hrest rfl
        · refine (within (expect_takes .closeBracket rest) hrest).bind ?_
          rintro ⟨r, rest⟩ ⟨rfl, hr⟩
          simp only [length_cons, length_append] at hrounds
          have hmore := ih (.inl (.index htarget (by simpa using hindex) hl hr hoffset))
            (show rest.length ≤ rounds by omega)
          simpa [Takes] using hmore
    · exact hhere rfl
    · next hopen _ _ => exact ⟨us, rfl, hvalue hopen⟩

theorem postfixed_sound : Sound 7 (postfixed expr) := by
  intro ts
  refine (atom_takes he ts).bind ?_
  rintro ⟨start, rest⟩ ⟨us, rfl, hstart⟩
  exact suffixes_takes he hstart (Nat.le_refl _)

theorem signed_sound : Sound 6 (signed expr) := by
  intro ts
  have hvalue : ∀ ts, signOp? (peek ts) = none → Takes (.value 6) ts (signed expr ts) := by
    intro ts hnone
    rw [signed_of_none hnone]
    exact (postfixed_sound he ts).mono (fun _ ⟨us, hts, hus⟩ => ⟨us, hts, .loosen (by decide) hus⟩) fun _ => id
  induction ts with
  | nil => exact hvalue [] rfl
  | cons t ts ih =>
    cases hop : signOp? t with
    | none => exact hvalue (t :: ts) hop
    | some op =>
      rw [signed_cons hop]
      refine (within ih (suffix_cons t ts)).bind ?_
      rintro ⟨operand, rest⟩ ⟨us, rfl, hus⟩
      exact ⟨t :: us, rfl, .sign hop hus⟩

/-! ### Whole expressions -/

theorem operations_sound : Sound 1 (operations expr) := by
  apply chain_sound (k := 1) (by decide)
  apply chain_sound (k := 2) (by decide)
  apply chain_sound (k := 3) (by decide)
  apply chain_sound (k := 4) (by decide)
  apply chain_sound (k := 5) (by decide)
  exact signed_sound he

theorem conditional_sound : Sound 0 (conditional expr) := by
  intro ts
  refine (operations_sound he ts).bind ?_
  rintro ⟨c, rest⟩ ⟨us, rfl, hus⟩
  dsimp only
  split
  · next hquestion =>
    obtain ⟨t, rest, rfl, ht⟩ := cons_of_kind (eq_of_beq hquestion) (by simp)
    refine (within (he rest) ⟨us ++ [t], by simp⟩).bind ?_
    rintro ⟨yes, rest⟩ ⟨vs, rfl, hyes⟩
    split
    · next hcolon =>
      obtain ⟨u, rest, rfl, hu⟩ := cons_of_kind (eq_of_beq hcolon) (by simp)
      refine (within (he rest) ⟨us ++ t :: (vs ++ [u]), by simp⟩).bind ?_
      rintro ⟨no, rest⟩ ⟨ws, rfl, hno⟩
      exact ⟨us ++ t :: (vs ++ u :: ws), by simp, .ternary hus ht hyes hu hno⟩
    · exact .next ⟨us ++ t :: vs, by simp⟩ rfl
  · exact ⟨us, rfl, .loosen (by decide) hus⟩

end

theorem expression_sound (depth : Nat) : Sound 0 (expression depth) := by
  induction depth with
  | zero => exact fun ts => .next (suffix_refl ts) rfl
  | succ depth ih => exact conditional_sound ih

end ExprParser

end ChartScript
