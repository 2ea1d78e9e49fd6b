import ChartScript.Proofs.Script.Parsed
import ChartScript.Proofs.Token.Indentation
/-!
# The statement tree partitions the tokens

The line of a statement is a range of the token list that a line end closes, because the marks of blocks
only stand at the beginning of lines. From top to bottom, each line in front of the block below it,
these ranges take up the numbers of all tokens that are no layout, one after another.
-/
namespace ChartScript

open List Statement

/-- A line end, or the end of the text. -/
def Token.EndsLine (t : Token) : Prop :=
  t.kind = .newline ∨ t.kind = .eof

theorem Script.endsLine_of_layout {source : List Char} {before after : List Token} {u t : Token}
    (h : tokens source = before ++ u :: t :: after) (hu : isLayout u = false) (ht : isLayout t = true) :
    t.EndsLine := by
  by_contra hmark
  have hkind : t.kind = .indent ∨ t.kind = .dedent := by
    unfold isLayout at ht
    unfold Token.EndsLine at hmark
    split at ht <;> simp_all
  rw [append_cons] at h
  obtain ⟨front, back, hsplit, hfront, hback⟩ := filter_eq_append_iff.1 h
  obtain ⟨comments, rest, rfl, hcomments, -, -⟩ := filter_eq_cons_iff.1 hback
  have hlaid := Lexer.tokenize_laid source
  rw [hsplit, ← append_assoc] at hlaid
  have huword : u.kind ≠ .comment := by
    have hmem : u ∈ front.filter (·.kind != .comment) := by simp [hfront]
    simpa using (mem_filter.1 hmem).2
  have haside : Lexer.isAside u = false := by
    unfold isLayout at hu
    unfold Lexer.isAside
    cases hk : u.kind <;> simp_all
  have hlast : ((front ++ comments).filter (!Lexer.isAside ·)).getLast? = some u := by
    have hwords : (front ++ comments).filter (·.kind != .comment) = before ++ [u] := by
      rw [filter_append, hfront, filter_eq_nil_iff.2 hcomments, append_nil]
    have hasides : (front ++ comments).filter (!Lexer.isAside ·) = (before ++ [u]).filter (!Lexer.isAside ·) := by
      rw [← hwords, filter_filter]
      refine filter_congr fun x _ => ?_
      unfold Lexer.isAside
      cases x.kind <;> rfl
    rw [hasides, filter_append, filter_cons_of_pos (by simp [haside]), filter_nil, getLast?_concat]
  have hnewline := Lexer.Outline.newline_of_fresh (hlaid.admits.fresh hkind) hlast
  simp [isLayout, hnewline] at hu

namespace Statement

variable {ts rest : List Token} {k : Nat}

/-- The line is the range of the token list from `r.1` up to `r.2`; it is not empty, and a line end is
behind it. -/
structure IsRange (ts line : List Token) (r : Nat × Nat) : Prop where
  nonempty : r.1 < r.2
  line : line = (ts.drop r.1).take (r.2 - r.1)
  ends : ∀ t ∈ ts[r.2]?, t.EndsLine

/-- The numbers in a range. -/
def numbersOf (r : Nat × Nat) : List Nat :=
  List.range' r.1 (r.2 - r.1)

/-- The token with the number is part of a line. -/
def isWordAt (ts : List Token) (i : Nat) : Bool :=
  ts[i]?.any (!isLayout ·)

theorem isWordAt_of_drop {t : Token} {i : Nat} (h : rest = ts.drop k) (hk : k ≤ i)
    (ht : rest[i - k]? = some t) : isWordAt ts i = !isLayout t := by
  rw [h, getElem?_drop, Nat.add_sub_cancel' hk] at ht
  rw [isWordAt, ht, Option.any_some]

theorem ranges_of_items (hends : ∀ before u t after, ts = before ++ u :: t :: after → isLayout u = false →
      isLayout t = true → t.EndsLine) (h : rest = ts.drop k) : ∃ ranges : List (Nat × Nat),
    List.Forall₂ (IsRange ts) ((items rest).filterMap Item.line?) ranges ∧
    ranges.flatMap numbersOf = (List.range' k rest.length).filter (isWordAt ts) := by
  induction hn : rest.length using Nat.strongRecOn generalizing rest k with
  | _ n ih =>
    subst hn
    cases rest with
    | nil => exact ⟨[], .nil, rfl⟩
    | cons t rest =>
      cases ht : isLayout t with
      | true =>
        have hrest : rest = ts.drop (k + 1) := by rw [← tail_drop, ← h, tail_cons]
        have hword : isWordAt ts k = false := by
          rw [isWordAt_of_drop h (Nat.le_refl k) (by rw [Nat.sub_self]; rfl), ht, Bool.not_true]
        obtain ⟨ranges, hranges, hnumbers⟩ := ih _ (Nat.lt_succ_self _) hrest rfl
        refine ⟨ranges, ?_, ?_⟩
        · rcases items_layout rest ht with hi | hi | hi <;> simpa [hi, filterMap_cons] using hranges
        · rw [hnumbers, length_cons, range'_succ, filter_cons_of_neg (by simp [hword])]
      | false =>
        let line := t :: rest.takeWhile (!isLayout ·)
        let after := rest.dropWhile (!isLayout ·)
        have hsplit : t :: rest = line ++ after := by simp [line, after]
        have hlength : (t :: rest).length = line.length + after.length := by rw [hsplit, length_append]
        have hafter : after = ts.drop (k + line.length) := by rw [← drop_drop, ← h, hsplit, drop_left]
        have hline : ∀ u ∈ line, isLayout u = false :=
          forall_mem_cons.2 ⟨ht, fun u hu => by simpa using mem_takeWhile_imp hu⟩
        have hwords : ∀ i ∈ List.range' k line.length, isWordAt ts i = true := by
          intro i hi
          obtain ⟨hk, hlt⟩ := mem_range'_1.1 hi
          have hj : i - k < line.length := by omega
          have hu : (t :: rest)[i - k]? = some (line)[i - k] := by
            rw [hsplit, getElem?_append_left hj, getElem?_eq_getElem hj]
          rw [isWordAt_of_drop h hk hu, hline _ (getElem_mem hj), Bool.not_false]
        have hend : ∀ u ∈ ts[k + line.length]?, u.EndsLine := by
          intro u hu
          have hhead : after.head? = some u := by rw [hafter, head?_drop]; exact hu
          obtain ⟨more, hmore⟩ := head?_eq_some_iff.1 hhead
          obtain ⟨init, last, hlast⟩ := (eq_nil_or_concat line).resolve_left (cons_ne_nil _ _)
          have hlayout : isLayout u = true := by
            have := head?_dropWhile_not (!isLayout ·) rest
            rw [show rest.dropWhile (!isLayout ·) = u :: more from hmore] at this
            simpa using this
          refine hends (ts.take k ++ init) last u more ?_ (hline last (by simp [hlast])) hlayout
          calc ts = ts.take k ++ (line ++ after) := by rw [← hsplit, h, take_append_drop]
            _ = ts.take k ++ init ++ last :: u :: more := by simp [hlast, hmore]
        obtain ⟨ranges, hranges, hnumbers⟩ := ih after.length (by simp [hlength, line]) hafter rfl
        refine ⟨(k, k + line.length) :: ranges, ?_, ?_⟩
        · rw [items_line rest ht, filterMap_cons_some (Item.line?_line _)]
          refine .cons ⟨by simp [line], ?_, hend⟩ hranges
          rw [← h, hsplit, Nat.add_sub_cancel_left, take_left]
        · rw [hlength, ← range'_append_1, filter_append, filter_eq_self.2 hwords, ← hnumbers, flatMap_cons,
            numbersOf, Nat.add_sub_cancel_left]

/-- The lines of the statements are ranges of the tokens of the script, which take up the numbers of all
tokens that are no layout, without gap or overlap and in their order. -/
theorem tree_partitions_tokens (source : List Char) : let ts := Script.tokens source
    ∃ ranges : List (Nat × Nat), List.Forall₂ (IsRange ts) (linesAll (tree ts)) ranges ∧
      ranges.flatMap numbersOf = (List.range ts.length).filter (isWordAt ts) := by
  intro ts
  obtain ⟨ranges, hranges, hnumbers⟩ := ranges_of_items (k := 0)
    (fun _ _ _ _ => @Script.endsLine_of_layout source _ _ _ _) rfl
  rw [← linesAll_tree] at hranges
  exact ⟨ranges, hranges, by rw [hnumbers, drop_zero, range_eq_range']⟩

end Statement

end ChartScript
