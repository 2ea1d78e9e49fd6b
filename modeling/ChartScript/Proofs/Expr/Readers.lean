import ChartScript.Expr.Parser
import ChartScript.Proofs.Outcome
/-!
# One step of a reader

What each reader does with the next tokens.
-/
namespace ChartScript

open List

def TokenKind.joins : TokenKind → Option Nat
  | .operator .question => some 0
  | .keyword .or => some 1
  | .keyword .and => some 2
  | .operator .eqEq | .operator .notEq | .operator .lt | .operator .le | .operator .gt
  | .operator .ge => some 3
  | .operator .plus | .operator .minus => some 4
  | .operator .star | .operator .slash | .operator .percent => some 5
  | .delimiter .openParen | .delimiter .openBracket | .delimiter .dot => some 7
  | _ => none

namespace ExprParser

variable {t close : Token} {ts us rest : List Token} {expr operand : Reader Expr} {e : Expr}

theorem bind_of_ok {ε α β : Type} {x : Except ε α} {a : α} (h : x = .ok a) {f : α → Except ε β} :
    (x >>= f) = f a := by
  rw [h]
  rfl

@[simp] theorem peek_cons (t : Token) (rest : List Token) : peek (t :: rest) = t := rfl

theorem peek_append (h : us ≠ []) (rest : List Token) : peek (us ++ rest) = peek us := by
  cases us with
  | nil => exact absurd rfl h
  | cons t us => rfl

theorem expect_of_kind {m : Delimiter} (h : t.kind = .delimiter m) (rest : List Token) :
    expect m (t :: rest) = .ok (t, rest) := by
  rw [expect, if_pos (by simp [Token.isDelimiter, h])]
  rfl

/-- What stands behind an expression of the rank is no part of it. -/
def Stops (rank : Nat) (rest : List Token) : Prop :=
  ∀ j, (peek rest).kind.joins = some j → j < rank

theorem Stops.mono {k l : Nat} (h : Stops k rest) (hkl : k ≤ l) : Stops l rest :=
  fun j hj => Nat.lt_of_lt_of_le (h j hj) hkl

theorem stops_of_kind {k : Nat} {kind : TokenKind} (ht : t.kind = kind)
    (hkind : ∀ j, kind.joins = some j → j < k) (rest : List Token) : Stops k (t :: rest) := by
  intro j hj
  rw [peek_cons, ht] at hj
  exact hkind j hj

/-! ## Lists -/

theorem commaList_succ {α : Type} {item : Reader α} {x : α} {mark : Delimiter} (rounds : Nat)
    (hfirst : (peek ts).isDelimiter mark = false) (hread : item ts = .ok (x, rest)) :
    commaList item mark (rounds + 1) ts = if (peek rest).isDelimiter .comma then do
        let (xs, rest) ← commaList item mark rounds (rest.drop 1)
        return (x :: xs, rest)
      else .ok ([x], rest) := by
  rw [commaList, if_neg (by simp [hfirst]), hread]
  rfl

/-! ## Calls, subscripts and signs -/

theorem postfixed_of_atom (h : atom expr ts = .ok (e, rest)) :
    postfixed expr ts = suffixes expr rest.length e rest := by
  rw [postfixed, h]
  rfl

theorem suffixes_stop (hrest : Stops 7 rest) (rounds : Nat) (e : Expr) :
    suffixes expr rounds e rest = .ok (e, rest) := by
  have hjoins : (peek rest).kind.joins ≠ some 7 := fun h => Nat.lt_irrefl 7 (hrest 7 h)
  cases rounds with
  | zero => rfl
  | succ rounds =>
    unfold suffixes
    dsimp only
    split
    · next hkind => exact absurd (by rw [hkind]; rfl) hjoins
    · next hkind => exact absurd (by rw [hkind]; rfl) hjoins
    · next hkind => exact absurd (by rw [hkind]; rfl) hjoins
    · rfl

theorem suffixes_call {calleeSpan : Span} {callee : Reference} {args : List (Argument Expr)}
    (hopen : t.kind = .delimiter .openParen) (hclose : close.kind = .delimiter .closeParen)
    (hargs : commaList (argument expr) .closeParen us.length us = .ok (args, close :: rest)) (rounds : Nat) :
    suffixes expr (rounds + 1) (.name calleeSpan callee) (t :: us) =
    suffixes expr rounds (.call (calleeSpan.through close.span) callee calleeSpan args) rest := by
  rw [suffixes.eq_def expr (rounds + 1)]
  simp only [peek_cons, drop_succ_cons, drop_zero, hopen]
  exact (bind_of_ok hargs).trans (bind_of_ok (expect_of_kind hclose rest))

theorem suffixes_index {offset : Expr} (hopen : t.kind = .delimiter .openBracket)
    (hclose : close.kind = .delimiter .closeBracket) (htarget : isIndex e = false)
    (hoffset : expr us = .ok (offset, close :: rest)) (rounds : Nat) :
    suffixes expr (rounds + 1) e (t :: us) =
    suffixes expr rounds (.index (e.span.through close.span) e offset) rest := by
  have hcomma : (peek (close :: rest)).isDelimiter .comma = false := by simp [Token.isDelimiter, hclose]
  rw [suffixes.eq_def expr (rounds + 1)]
  simp only [peek_cons, drop_succ_cons, drop_zero, hopen, htarget]
  refine (bind_of_ok hoffset).trans ?_
  dsimp only
  rw [hcomma, if_neg Bool.false_ne_true]
  exact bind_of_ok (expect_of_kind hclose rest)

theorem signed_cons {op : UnaryOp} (h : signOp? t = some op) (ts : List Token) : signed expr (t :: ts) = do
      let (e, rest) ← signed expr ts
      return (.unary (t.span.through e.span) op e, rest) := by
  rw [signed, signed]
  simp only [map_cons, takeWhile_cons, h, Option.isSome_some, if_true, length_cons, drop_succ_cons, foldr_cons]
  cases postfixed expr (ts.drop _) <;> rfl

theorem signed_of_none (h : signOp? (peek ts) = none) : signed expr ts = postfixed expr ts := by
  have hsigns : (ts.map fun t => (t.span, signOp? t)).takeWhile (·.2.isSome) = [] := by
    cases ts with
    | nil => rfl
    | cons t ts =>
      rw [peek_cons] at h
      simp [h]
  rw [signed, hsigns, length_nil, drop_zero]
  cases postfixed expr ts <;> rfl

/-! ## Operations -/

variable {op? : Token → Option BinaryOp}

theorem chainFrom_stop (h : op? (peek rest) = none) (rounds : Nat) (e : Expr) :
    chainFrom operand op? rounds e rest = .ok (e, rest) := by
  cases rounds with
  | zero => rfl
  | succ rounds => rw [chainFrom, h]

theorem chainFrom_step {op : BinaryOp} (hop : op? t = some op) {left right : Expr}
    (hread : operand ts = .ok (right, rest)) (rounds : Nat) :
    chainFrom operand op? (rounds + 1) left (t :: ts) =
    chainFrom operand op? rounds (.binary (left.span.through right.span) op left right) rest := by
  rw [chainFrom, peek_cons, hop]
  exact bind_of_ok hread

end ExprParser

end ChartScript
