import ChartScript.Script.Statement
import Mathlib.Data.List.TakeWhile
/-!
# The lines of the statement tree

Read from top to bottom, the statements of a tree have the lines of the token list it was made of,
and each line is a stretch of tokens that reaches from layout to layout.
-/
namespace ChartScript.Statement

open List

mutual

def lines : Statement → List (List Token)
  | mk line body => line :: linesAll body

/-- The lines of the statements and their blocks, from top to bottom. -/
def linesAll : List Statement → List (List Token)
  | [] => []
  | s :: rest => s.lines ++ linesAll rest

end

@[simp] theorem lines_mk (line : List Token) (body : List Statement) :
    (mk line body).lines = line :: linesAll body := by
  rw [lines]

@[simp] theorem linesAll_nil : linesAll [] = [] := by
  rw [linesAll]

@[simp] theorem linesAll_cons (s : Statement) (rest : List Statement) :
    linesAll (s :: rest) = s.lines ++ linesAll rest := by
  rw [linesAll]

@[simp] theorem linesAll_append (as bs : List Statement) : linesAll (as ++ bs) = linesAll as ++ linesAll bs := by
  induction as with
  | nil => simp
  | cons s as ih => simp [ih]

/-- The tokens of a statement and its block, from top to bottom. -/
def tokens (s : Statement) : List Token :=
  s.lines.flatten

def tokensAll (ss : List Statement) : List Token :=
  (linesAll ss).flatten

@[simp] theorem tokens_mk (line : List Token) (body : List Statement) :
    (mk line body).tokens = line ++ tokensAll body := by
  simp [tokens, tokensAll]

@[simp] theorem tokensAll_nil : tokensAll [] = [] := by
  simp [tokensAll]

@[simp] theorem tokensAll_cons (s : Statement) (rest : List Statement) :
    tokensAll (s :: rest) = s.tokens ++ tokensAll rest := by
  simp [tokens, tokensAll]

/-! ## Items -/

def Item.line? : Item → Option (List Token)
  | line tokens => some tokens
  | _ => none

@[simp] theorem Item.line?_line (line : List Token) : (Item.line line).line? = some line := rfl

@[simp] theorem Item.line?_indent : Item.indent.line? = none := rfl

@[simp] theorem Item.line?_dedent : Item.dedent.line? = none := rfl

theorem items_layout {t : Token} (rest : List Token) (h : isLayout t = true) :
    items (t :: rest) = items rest ∨ items (t :: rest) = .indent :: items rest ∨
    items (t :: rest) = .dedent :: items rest := by
  unfold isLayout at h
  split at h
  · next hk => exact .inl (by rw [items, hk])
  · next hk => exact .inr (.inl (by rw [items, hk]))
  · next hk => exact .inr (.inr (by rw [items, hk]))
  · next hk => exact .inl (by rw [items, hk])
  · cases h

theorem items_line {t : Token} (rest : List Token) (h : isLayout t = false) :
    items (t :: rest) = .line (t :: rest.takeWhile (!isLayout ·)) :: items (rest.dropWhile (!isLayout ·)) := by
  induction rest generalizing t with
  | nil =>
    unfold isLayout at h
    rw [items]
    split <;> simp_all [items]
  | cons u rest ih =>
    have hplain : t.kind ≠ .newline ∧ t.kind ≠ .eof ∧ t.kind ≠ .indent ∧ t.kind ≠ .dedent := by
      unfold isLayout at h
      split at h <;> simp_all
    obtain ⟨h1, h2, h3, h4⟩ := hplain
    rw [items]
    cases hu : isLayout u with
    | true => simp [hu]
    | false => simp [hu, ih hu]

theorem flatten_items (ts : List Token) : ((items ts).filterMap Item.line?).flatten = ts.filter (!isLayout ·) := by
  induction h : ts.length using Nat.strongRecOn generalizing ts with
  | _ n ih =>
    cases ts with
    | nil => rfl
    | cons t rest =>
      cases ht : isLayout t with
      | true =>
        have := ih rest.length (by simp at h; omega) rest rfl
        rcases items_layout rest ht with hi | hi | hi <;> simp [hi, ht, this, filterMap_cons]
      | false =>
        have hlen := (dropWhile_suffix (!isLayout ·) (l := rest)).length_le
        have := ih _ (by simp at h; omega) (rest.dropWhile (!isLayout ·)) rfl
        rw [items_line rest ht, filterMap_cons_some (Item.line?_line _), flatten_cons,
          this, filter_cons_of_pos (by simpa using ht), cons_append]
        congr 1
        conv => rhs; rw [← takeWhile_append_dropWhile (p := (!isLayout ·)) (l := rest)]
        have hw : (rest.takeWhile (!isLayout ·)).filter (!isLayout ·) = rest.takeWhile (!isLayout ·) :=
          filter_eq_self.2 fun u hu => mem_takeWhile_imp (p := (!isLayout ·)) hu
        rw [filter_append, hw]

theorem line_of_mem_items {ts line : List Token} (h : .line line ∈ items ts) :
    line ≠ [] ∧ (∀ t ∈ line, isLayout t = false) ∧ ∃ before after, ts = before ++ line ++ after ∧
    after.head?.all isLayout = true := by
  induction hn : ts.length using Nat.strongRecOn generalizing ts with
  | _ n ih =>
    cases ts with
    | nil => simp [items] at h
    | cons t rest =>
      cases ht : isLayout t with
      | true =>
        have hm : Item.line line ∈ items rest := by
          rcases items_layout rest ht with hi | hi | hi <;> simpa [hi] using h
        obtain ⟨hne, hl, before, after, hr, ha⟩ := ih rest.length (by simp at hn; omega) hm rfl
        exact ⟨hne, hl, t :: before, after, by simp [hr], ha⟩
      | false =>
        rw [items_line rest ht] at h
        rcases mem_cons.1 h with h | h
        · cases h
          refine ⟨by simp, ?_, [], rest.dropWhile (!isLayout ·), by simp, ?_⟩
          · intro u hu
            rcases mem_cons.1 hu with rfl | hu
            · exact ht
            · simpa using mem_takeWhile_imp hu
          · cases hd : rest.dropWhile (!isLayout ·) with
            | nil => rfl
            | cons u more =>
              have := head?_dropWhile_not (!isLayout ·) rest
              rw [hd] at this
              simpa using this
        · have hlen := (dropWhile_suffix (!isLayout ·) (l := rest)).length_le
          obtain ⟨hne, hl, before, after, hr, ha⟩ := ih _ (by simp at hn; omega) h rfl
          refine ⟨hne, hl, t :: rest.takeWhile (!isLayout ·) ++ before, after, ?_, ha⟩
          conv => lhs; rw [← takeWhile_append_dropWhile (p := (!isLayout ·)) (l := rest), hr]
          simp

/-! ## Levels -/

theorem linesAll_closeBlock_append (levels : List (List Statement)) :
    linesAll (closeBlock (· ++ ·) levels).flatten = linesAll levels.flatten := by
  unfold closeBlock
  split <;> simp

theorem linesAll_closeBlock_mk (line : List Token) (levels : List (List Statement)) :
    linesAll (closeBlock (mk line · :: ·) levels).flatten = line :: linesAll levels.flatten := by
  unfold closeBlock
  split <;> simp

theorem linesAll_levels (is : List Item) : linesAll (levels is).flatten = is.filterMap Item.line? := by
  fun_induction levels is with
  | case1 => simp
  | case2 rest ih => simpa [filterMap_cons] using ih
  | case3 rest ih => rw [linesAll_closeBlock_append, ih]; rfl
  | case4 line rest ih => rw [linesAll_closeBlock_mk, ih]; rfl
  | case5 line rest _ block outer hl ih => simp_all
  | case6 line rest _ hl ih => simp_all

theorem linesAll_tree (ts : List Token) : linesAll (tree ts) = (items ts).filterMap Item.line? :=
  linesAll_levels (items ts)

theorem tokensAll_tree (ts : List Token) : tokensAll (tree ts) = ts.filter (!isLayout ·) := by
  rw [tokensAll, linesAll_tree, flatten_items]

end ChartScript.Statement
