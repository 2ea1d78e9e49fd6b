import ChartScript.Proofs.Script.Division
/-!
# Closed blocks

Where all blocks are closed, the tree of statements can be divided: what follows is a tree of its own,
unless it begins with a block that the line before would own.
-/
namespace ChartScript

open List Lexer.Outline

namespace Statement

/-- From `n` open blocks on, blocks close only where one is open, and in the end none is. -/
def Closes : Nat → List Item → Prop
  | n, [] => n = 0
  | 0, .dedent :: _ => False
  | n + 1, .dedent :: rest => Closes n rest
  | n, .indent :: rest => Closes (n + 1) rest
  | n, .line _ :: rest => Closes n rest

def NoBlock (is : List Item) : Prop :=
  ∀ more, is = .indent :: more → False

def GoesOn (n : Nat) (is : List Item) : Prop :=
  ∃ inside last, inside.length = n ∧ levels is = inside ++ [last] ∧
    ∀ more first rest, NoBlock more → levels more = first :: rest →
      levels (is ++ more) = inside ++ (last ++ first) :: rest

variable {n : Nat} {is : List Item}

theorem closeBlock_goesOn (join : List Statement → List Statement → List Statement)
    (hjoin : ∀ a b c, join a (b ++ c) = join a b ++ c) {inside : List (List Statement)}
    (hn : inside.length = n + 1) (last : List Statement) :
    ∃ inside' last', inside'.length = n ∧ closeBlock join (inside ++ [last]) = inside' ++ [last'] ∧
    ∀ first rest, closeBlock join (inside ++ (last ++ first) :: rest) = inside' ++ (last' ++ first) :: rest := by
  rcases inside with _ | ⟨inner, _ | ⟨outer, inside⟩⟩
  · cases hn
  · refine ⟨[], join inner last, Nat.succ.inj hn, rfl, ?_⟩
    intro first rest
    simp [closeBlock, hjoin]
  · exact ⟨join inner outer :: inside, last, by simpa using hn, rfl, fun _ _ => rfl⟩

theorem levels_ne_nil (is : List Item) : levels is ≠ [] := by
  have hclose : ∀ join levels, closeBlock join levels ≠ [] := by
    intro join levels
    rcases levels with _ | ⟨inner, _ | ⟨outer, levels⟩⟩ <;> simp [closeBlock]
  fun_cases levels is with
  | case1 => simp
  | case2 => simp
  | case3 => exact hclose _ _
  | case4 => exact hclose _ _
  | case5 => simp
  | case6 => simp

theorem GoesOn.line (h : GoesOn n is) (line : List Token)
    (hblock : NoBlock is) : GoesOn n (.line line :: is) := by
  obtain ⟨inside, last, hn, hlevels, hmore⟩ := h
  have hjoined {more : List Item} (hnext : NoBlock more) : NoBlock (is ++ more) := by
    cases is with
    | nil => exact hnext
    | cons item is =>
      intro rest hrest
      rw [cons_append, List.cons.injEq] at hrest
      exact hblock is (by rw [hrest.1])
  cases inside with
  | nil =>
    refine ⟨[], mk line [] :: last, hn, by rw [levels_line hblock, hlevels]; rfl, ?_⟩
    intro more first rest hnext hfirst
    rw [cons_append, levels_line (hjoined hnext), hmore more first rest hnext hfirst]
    rfl
  | cons block inside =>
    refine ⟨(mk line [] :: block) :: inside, last, hn, by rw [levels_line hblock, hlevels]; rfl, ?_⟩
    intro more first rest hnext hfirst
    rw [cons_append, levels_line (hjoined hnext), hmore more first rest hnext hfirst]
    rfl

theorem goesOn_of_closes (h : Closes n is) : GoesOn n is := by
  fun_induction levels is generalizing n with
  | case1 =>
    rw [Closes] at h
    subst h
    refine ⟨[], [], rfl, by rw [levels]; rfl, ?_⟩
    intro more first rest _ hmore
    exact hmore
  | case2 is ih =>
    cases n with
    | zero => cases h
    | succ n =>
      obtain ⟨inside, last, hn, hlevels, hmore⟩ := ih h
      refine ⟨[] :: inside, last, by simp [hn], by rw [levels, hlevels]; rfl, ?_⟩
      intro more first rest hblock hfirst
      rw [cons_append, levels, hmore more first rest hblock hfirst]
      rfl
  | case3 is ih =>
    rw [Closes] at h
    obtain ⟨inside, last, hn, hlevels, hmore⟩ := ih h
    obtain ⟨inside', last', hn', hclose, hclose'⟩ :=
      closeBlock_goesOn (· ++ ·) (fun a b c => (append_assoc a b c).symm) hn last
    refine ⟨inside', last', hn', by rw [levels, hlevels, hclose], ?_⟩
    intro more first rest hblock hfirst
    rw [cons_append, levels, hmore more first rest hblock hfirst, hclose']
  | case4 line is ih =>
    rw [Closes, Closes] at h
    obtain ⟨inside, last, hn, hlevels, hmore⟩ := ih h
    obtain ⟨inside', last', hn', hclose, hclose'⟩ := closeBlock_goesOn (mk line · :: ·) (fun _ _ _ => rfl) hn last
    refine ⟨inside', last', hn', by rw [levels, hlevels, hclose], ?_⟩
    intro more first rest hblock hfirst
    rw [cons_append, cons_append, levels, hmore more first rest hblock hfirst, hclose']
  | case5 line is hblock block outer hlevels ih => exact (ih h).line line hblock
  | case6 line is hblock hlevels ih => exact (ih h).line line hblock

/-- Behind closed blocks a tree of its own begins. -/
theorem tree_append {ts us : List Token} (hcomplete : Complete ts) (hcloses : Closes 0 (items ts))
    (hblock : NoBlock (items us)) : tree (ts ++ us) = tree ts ++ tree us := by
  obtain ⟨inside, last, hn, hlevels, hmore⟩ := goesOn_of_closes hcloses
  have hinside : inside = [] := length_eq_zero_iff.1 hn
  subst hinside
  unfold tree
  rw [items_append hcomplete]
  cases hus : levels (items us) with
  | nil => exact absurd hus (levels_ne_nil _)
  | cons first rest =>
    rw [hmore _ first rest hblock hus, hlevels]
    simp

/-! ## Laid out tokens -/

theorem closes_word {t : Token} (h : isLayout t = false) (ts : List Token) :
    Closes n (items (t :: ts)) ↔ Closes n (items ts) := by
  have hline (line : List Token) (is : List Item) : Closes n (.line line :: is) ↔ Closes n is := by rw [Closes]
  rw [items_word h]
  cases ts.head?.any (!isLayout ·) with
  | false => exact hline _ _
  | true =>
    cases items ts with
    | nil => exact hline _ _
    | cons item more =>
      cases item with
      | line line => exact (hline _ _).trans (hline _ _).symm
      | indent => exact hline _ _
      | dedent => exact hline _ _

theorem closes_of_laid {stop : Nat} {o : Lexer.Outline} {ts : List Token}
    (h : Lexer.Laid stop o ts) : Closes o.blocks (items (ts.filter (·.kind != .comment))) := by
  induction h with
  | done hclosed => rwa [filter_nil, items, Closes]
  | @token o t ts hfits hrest ih =>
    by_cases hcomment : t.kind = .comment
    · rw [filter_cons_of_neg (by simp [hcomment])]
      simpa only [Lexer.Outline.next, hcomment] using ih
    rw [filter_cons_of_pos (by simp [hcomment])]
    cases hlayout : isLayout t with
    | false =>
      have hblocks : (o.next t).blocks = o.blocks := by
        unfold isLayout at hlayout
        unfold Lexer.Outline.next
        split at hlayout <;> simp_all
      rw [closes_word hlayout, ← hblocks]
      exact ih
    | true =>
      unfold isLayout at hlayout
      rw [items]
      split at hlayout
      · next hk => simpa only [hk, Lexer.Outline.next] using ih
      · next hk =>
        simp only [hk, Lexer.Outline.next] at ih ⊢
        rwa [Closes]
      · next hk =>
        obtain ⟨n, hn⟩ := Nat.exists_eq_add_one.2 (hfits.opened hk)
        simp only [hk, Lexer.Outline.next, hn] at ih ⊢
        exact ih
      · next hk => simpa only [hk, Lexer.Outline.next] using ih
      · cases hlayout

/-! ## The walk -/

theorem collectAll_append {source : List Char} {p : Place} {r r' : Progress}
    (xs ys : List Statement) (h : collectAll source p r (xs ++ ys) = .ok r') :
    ∃ q r₁, collectAll source p r xs = .ok r₁ ∧ collectAll source q r₁ ys = .ok r' := by
  induction xs generalizing p r with
  | nil => exact ⟨p, r, by rw [collectAll], h⟩
  | cons s xs ih =>
    rw [cons_append, collectAll] at h
    obtain ⟨⟨r₁, chain⟩, hs, hxs⟩ := bind_eq_ok.1 h
    obtain ⟨q, r₂, hfirst, hrest⟩ := ih hxs
    refine ⟨q, r₂, ?_, hrest⟩
    rw [collectAll]
    exact bind_eq_ok.2 ⟨(r₁, chain), hs, hfirst⟩

end Statement

end ChartScript
