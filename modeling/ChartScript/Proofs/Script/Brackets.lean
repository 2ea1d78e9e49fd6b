import ChartScript.Script.Line
import Mathlib.Data.List.Basic
/-!
# Brackets

The check of a line keeps the open brackets on a stack, while the search for the bracket that closes
another counts the open ones and does not look at their shape.
-/
namespace ChartScript.Line

open List

variable {c o t : Token} {inner opened rest ts : List Token}

/-- An opening bracket and a closing one of its shape. -/
def Pairs (o c : Token) : Prop :=
  (o.kind = .delimiter .openParen ∧ c.kind = .delimiter .closeParen) ∨
    (o.kind = .delimiter .openBracket ∧ c.kind = .delimiter .closeBracket)

/-- The brackets among the tokens are matched. -/
inductive Matched : List Token → Prop
  | nil : Matched []
  | other {t : Token} {ts : List Token} : bracketDelta t = 0 → Matched ts → Matched (t :: ts)
  | pair {o c : Token} {inner rest : List Token} : Pairs o c → Matched inner → Matched rest →
      Matched (o :: (inner ++ c :: rest))

/-- The brackets at two positions have the same shape, and those between them are matched. -/
def Partners (ts : List Token) (i j : Nat) : Prop :=
  ∃ before o inner c after, ts = before ++ o :: (inner ++ c :: after) ∧ before.length = i ∧
    j = i + (inner.length + 1) ∧ Pairs o c ∧ Matched inner

theorem Pairs.bracketDelta (h : Pairs o c) : bracketDelta o = 1 ∧ bracketDelta c = -1 := by
  rcases h with ⟨ho, hc⟩ | ⟨ho, hc⟩
  · simp [Line.bracketDelta, ho, hc]
  · simp [Line.bracketDelta, ho, hc]

/-! ## The stack -/

theorem checkBracketsFrom_cons : checkBracketsFrom opened (t :: rest) = .ok () ↔
    (bracketDelta t = 0 ∧ checkBracketsFrom opened rest = .ok ()) ∨
    (bracketDelta t = 1 ∧ checkBracketsFrom (t :: opened) rest = .ok ()) ∨
    ∃ o outer, opened = o :: outer ∧ Pairs o t ∧ checkBracketsFrom outer rest = .ok () := by
  obtain ⟨kind, span, text⟩ := t
  rw [checkBracketsFrom]
  cases kind with
  | delimiter mark =>
    cases mark with
    | openParen | openBracket | comma | dot => simp [bracketDelta, Pairs]
    | closeParen | closeBracket =>
      cases opened with
      | nil => simp [bracketDelta]
      | cons o outer =>
        simp only [head?_cons, Option.any_some, drop_succ_cons, drop_zero]
        split <;> simp_all [bracketDelta, Pairs, Token.isDelimiter]
  | _ => simp [bracketDelta, Pairs]

def Closes : List Token → List Token → Prop
  | [], ts => Matched ts
  | o :: outer, ts => ∃ inner c rest, ts = inner ++ c :: rest ∧ Pairs o c ∧ Matched inner ∧ Closes outer rest

theorem Closes.other (ht : bracketDelta t = 0) (h : Closes opened rest) : Closes opened (t :: rest) := by
  cases opened with
  | nil => exact .other ht h
  | cons o outer =>
    obtain ⟨inner, c, rest, rfl, hpair, hinner, hrest⟩ := h
    exact ⟨t :: inner, c, rest, rfl, hpair, .other ht hinner, hrest⟩

theorem Closes.pair (hpair : Pairs o c) (hinner : Matched inner) (h : Closes opened rest) :
    Closes opened (o :: (inner ++ c :: rest)) := by
  cases opened with
  | nil => exact .pair hpair hinner h
  | cons o' outer =>
    obtain ⟨inner', c', rest, rfl, hpair', hinner', hrest⟩ := h
    exact ⟨o :: (inner ++ c :: inner'), c', rest, by simp, hpair', .pair hpair hinner hinner', hrest⟩

theorem closes_of_check (h : checkBracketsFrom opened ts = .ok ()) : Closes opened ts := by
  induction ts generalizing opened with
  | nil =>
    cases opened with
    | nil => exact .nil
    | cons => cases h
  | cons t rest ih =>
    rcases checkBracketsFrom_cons.1 h with ⟨ht, h⟩ | ⟨-, h⟩ | ⟨o, outer, rfl, hpair, h⟩
    · exact (ih h).other ht
    · obtain ⟨inner, c, rest, rfl, hpair, hinner, hrest⟩ := ih h
      exact hrest.pair hpair hinner
    · exact ⟨[], t, rest, rfl, hpair, .nil, ih h⟩

theorem closes_of_open (hopen : bracketDelta t = 1) (h : checkBracketsFrom opened (t :: rest) = .ok ()) :
    Closes (t :: opened) rest := by
  rcases checkBracketsFrom_cons.1 h with ⟨hother, -⟩ | ⟨-, h⟩ | ⟨_, _, -, hpair, -⟩
  · rw [hopen] at hother; cases hother
  · exact closes_of_check h
  · rw [hpair.bracketDelta.2] at hopen; cases hopen

theorem check_of_matched (h : Matched ts) (hrest : checkBracketsFrom opened rest = .ok ()) :
    checkBracketsFrom opened (ts ++ rest) = .ok () := by
  induction h generalizing opened rest with
  | nil => exact hrest
  | other ht _ ih => exact checkBracketsFrom_cons.2 (.inl ⟨ht, ih hrest⟩)
  | pair hpair _ _ ihinner ih =>
    rw [cons_append, append_assoc]
    refine checkBracketsFrom_cons.2 (.inr (.inl ⟨hpair.bracketDelta.1, ihinner ?_⟩))
    exact checkBracketsFrom_cons.2 (.inr (.inr ⟨_, _, rfl, hpair, ih hrest⟩))

theorem exists_check_behind {as bs : List Token} (h : checkBracketsFrom opened (as ++ bs) = .ok ()) :
    ∃ opened', checkBracketsFrom opened' bs = .ok () := by
  induction as generalizing opened with
  | nil => exact ⟨opened, h⟩
  | cons t as ih =>
    rcases checkBracketsFrom_cons.1 h with ⟨-, h⟩ | ⟨-, h⟩ | ⟨_, _, -, -, h⟩
    · exact ih h
    · exact ih h
    · exact ih h

theorem exists_partners {i : Nat} (h : checkBrackets ts = .ok ()) (ht : ts[i]? = some t)
    (hopen : bracketDelta t = 1) : ∃ j, Partners ts i j := by
  obtain ⟨hi, rfl⟩ := List.getElem?_eq_some_iff.1 ht
  have hsplit := take_append_drop i ts
  rw [drop_eq_getElem_cons hi] at hsplit
  obtain ⟨opened, h⟩ := exists_check_behind (hsplit.symm ▸ h)
  obtain ⟨inner, c, rest, hrest, hpair, hinner, -⟩ := closes_of_open hopen h
  exact ⟨_, ts.take i, ts[i], inner, c, rest, hrest ▸ hsplit.symm, length_take_of_le (Nat.le_of_lt hi), rfl,
    hpair, hinner⟩

/-! ## Counting -/

theorem closingPosition?_matched {depth : Int} (h : Matched ts) (hdepth : 0 < depth) (rest : List Token) :
    closingPosition? depth (ts ++ rest) = (closingPosition? depth rest).map (· + ts.length) := by
  induction h generalizing depth rest with
  | nil => simp
  | other ht _ ih =>
    rw [cons_append, closingPosition?, ht, Int.add_zero, if_neg (by omega), ih hdepth]
    simp [Function.comp_def, Nat.add_assoc]
  | pair hpair _ _ ihinner ih =>
    obtain ⟨ho, hc⟩ := hpair.bracketDelta
    rw [cons_append, append_assoc, closingPosition?, ho, if_neg (by omega), ihinner (by omega), cons_append,
      closingPosition?, hc, Int.add_neg_cancel_right, if_neg (by omega), ih hdepth]
    simp only [Option.map_map, length_cons, length_append]
    congr 1
    funext k
    simp only [Function.comp_apply]
    omega

theorem matchingClose?_of_partners {i j : Nat} (h : Partners ts i j) : matchingClose? ts i = some j := by
  obtain ⟨before, o, inner, c, after, rfl, rfl, rfl, hpair, hinner⟩ := h
  obtain ⟨ho, hc⟩ := hpair.bracketDelta
  rw [matchingClose?, drop_left, closingPosition?, ho, closingPosition?_matched hinner (by decide)]
  simp [closingPosition?, hc]

/-- The check of the brackets is exact, and justifies that the search for the end of a bracket only
counts. A line passes the check exactly if its brackets are matched, and then what is found for each
opening bracket is the one position at which its partner stands. -/
theorem brackets_exact (ts : List Token) : (checkBrackets ts = .ok () ↔ Matched ts) ∧
    (checkBrackets ts = .ok () → ∀ i t, ts[i]? = some t → bracketDelta t = 1 →
      ∃ j, matchingClose? ts i = some j ∧ ∀ k, Partners ts i k ↔ k = j) := by
  refine ⟨⟨closes_of_check, fun h => ?_⟩, fun h i t ht hopen => ?_⟩
  · have hcheck : checkBracketsFrom [] (ts ++ []) = .ok () := check_of_matched h rfl
    rwa [append_nil] at hcheck
  · obtain ⟨j, hj⟩ := exists_partners h ht hopen
    have hfound := matchingClose?_of_partners hj
    refine ⟨j, hfound, fun k => ⟨fun hk => ?_, ?_⟩⟩
    · exact Option.some.inj ((matchingClose?_of_partners hk).symm.trans hfound)
    · rintro rfl
      exact hj

end ChartScript.Line
