import ChartScript.Proofs.Script.Lines
import ChartScript.Token.Lexer
/-!
# Blocks from widths

Which line a line stands below, read off the widths of the lines alone. A line looks up for the
nearest line that is less indented: if the line right below that one has the same width, both stand
in its block; if not, the line steps back to a width that was never opened, and stands beside it.

The layout tokens of lines with given widths, and the tree that is made of them, say the same.
-/
namespace ChartScript.Outline

open List

variable {α : Type}

def openerFrom (width below : Nat) : (above : List (Nat × α)) → Option α
  | [] => none
  | (v, a) :: further =>
    if width ≤ v then openerFrom width v further
    else if below = width then some a
    else openerFrom v v further

/-- The line above that opens the block of a line of the given width. -/
def opener (width : Nat) (above : List (Nat × α)) : Option α :=
  openerFrom width width above

/-- The nearest line above that is less indented. -/
def nearest (width : Nat) (above : List (Nat × α)) : Option α :=
  (above.find? (·.1 < width)).map (·.2)

def blocks : (above : List (Nat × α)) → List (Nat × Option α)
  | [] => []
  | (v, _) :: further => if v = 0 then [] else (v, opener v further) :: (blocks further).dropWhile (v ≤ ·.1)

/-! ## Blocks get narrower outwards -/

theorem dropWhile_dropWhile {p q : Nat × Option α → Bool} (h : ∀ b, q b = true → p b = true)
    (bs : List (Nat × Option α)) : (bs.dropWhile q).dropWhile p = bs.dropWhile p := by
  induction bs with
  | nil => rfl
  | cons b bs ih =>
    by_cases hq : q b = true
    · rw [dropWhile_cons_of_pos hq, ih, dropWhile_cons_of_pos (h b hq)]
    · rw [dropWhile_cons_of_neg hq]

theorem blocks_sorted (above : List (Nat × α)) : (blocks above).Pairwise (·.1 > ·.1) := by
  induction above with
  | nil => exact .nil
  | cons line further ih =>
    obtain ⟨v, a⟩ := line
    rw [blocks]
    split
    · exact .nil
    · have hsub := ih.sublist (dropWhile_sublist (v ≤ ·.1))
      refine pairwise_cons.2 ⟨fun b hb => ?_, hsub⟩
      -- the first block that is left is narrower, and the others are narrower still
      cases hd : (blocks further).dropWhile (v ≤ ·.1) with
      | nil => rw [hd] at hb; cases hb
      | cons first others =>
        have hfirst := head?_dropWhile_not (fun b : Nat × Option α => decide (v ≤ b.1)) (blocks further)
        rw [hd] at hfirst hb hsub
        have hlt : first.1 < v := by simpa using hfirst
        rcases mem_cons.1 hb with rfl | hb
        · exact hlt
        · have := (pairwise_cons.1 hsub).1 b hb
          omega

theorem blocks_pos (above : List (Nat × α)) : ∀ b ∈ blocks above, 0 < b.1 := by
  induction above with
  | nil => simp [blocks]
  | cons line further ih =>
    obtain ⟨v, a⟩ := line
    rw [blocks]
    split
    · simp
    · intro b hb
      rcases mem_cons.1 hb with rfl | hb
      · omega
      · exact ih b ((dropWhile_sublist _).mem hb)

/-! ## Who opens the block of a line -/

variable {below v width : Nat} {above further : List (Nat × α)} {a : α}

theorem openerFrom_of_le (h : ∀ line ∈ above, width ≤ line.1) : openerFrom width below above = none := by
  induction above generalizing below with
  | nil => rfl
  | cons line further ih =>
    rw [openerFrom, if_pos (h line (.head _))]
    exact ih fun line hline => h line (.tail _ hline)

theorem openerFrom_eq (hw : 0 < width) (h : below = width → ∀ line ∈ above.head?, width ≤ line.1) :
    openerFrom width below above = ((blocks above).dropWhile (width < ·.1)).head?.bind (·.2) := by
  induction above generalizing below with
  | nil => rfl
  | cons line further ih =>
    obtain ⟨v, a⟩ := line
    rw [openerFrom, blocks]
    rcases Nat.lt_trichotomy v width with hlt | rfl | hgt
    · -- narrower: the line stands beside it
      rw [if_neg (by omega)]
      have hne : below ≠ width := by
        intro heq
        have := h heq (v, a) rfl
        omega
      rw [if_neg hne]
      by_cases hv : v = 0
      · subst hv
        rw [if_pos rfl, openerFrom_of_le (by simp)]
        rfl
      · rw [if_neg hv, dropWhile_cons_of_neg (by simp; omega)]
        rfl
    · -- as wide: in the same block
      rw [if_pos (Nat.le_refl _), if_neg (by omega), dropWhile_cons_of_neg (by simp)]
      rfl
    · -- wider: its block is closed
      rw [if_pos (by omega), if_neg (by omega), dropWhile_cons_of_pos (by simpa using hgt),
        dropWhile_dropWhile (by simp; omega)]
      exact ih fun heq => by omega

/-! ## The next line -/

def still (width : Nat) (bs : List (Nat × Option α)) : List (Nat × Option α) :=
  bs.dropWhile (width < ·.1)

def opens (width : Nat) (bs : List (Nat × Option α)) : Bool :=
  (((still width bs).head?.map (·.1)).getD 0) < width

theorem le_of_mem_still : ∀ b ∈ still width (blocks above), b.1 ≤ width := by
  intro b hb
  have hsorted := (blocks_sorted above).sublist (dropWhile_sublist (width < ·.1))
  have hhead := head?_dropWhile_not (fun b : Nat × Option α => decide (width < b.1)) (blocks above)
  rw [still] at hb
  cases hd : (blocks above).dropWhile (width < ·.1) with
  | nil => rw [hd] at hb; cases hb
  | cons first others =>
    rw [hd] at hb hhead hsorted
    have hle : first.1 ≤ width := by simpa using hhead
    rcases mem_cons.1 hb with rfl | hb
    · exact hle
    · have := (pairwise_cons.1 hsorted).1 b hb
      omega

theorem still_zero (above : List (Nat × α)) : still 0 (blocks above) = [] :=
  dropWhile_eq_nil_iff.2 fun b hb => by simpa using blocks_pos above b hb

theorem opener_zero (above : List (Nat × α)) : opener 0 above = none :=
  openerFrom_of_le (by simp)

theorem opener_of_lt (h : v < width) : opener width ((v, a) :: further) = some a := by
  rw [opener, openerFrom, if_neg (by omega), if_pos rfl]

theorem opener_eq (h : ∀ line ∈ above.head?, width ≤ line.1) :
    opener width above = (still width (blocks above)).head?.bind (·.2) := by
  by_cases hw : width = 0
  · subst hw
    rw [opener_zero, still_zero]
    rfl
  · exact openerFrom_eq (by omega) fun _ => h

theorem width_le_of_still {o : Option α} {outer : List (Nat × Option α)}
    (h : still width (blocks above) = (width, o) :: outer) : ∀ line ∈ above.head?, width ≤ line.1 := by
  rintro ⟨v, a⟩ hline
  cases above with
  | nil => cases hline
  | cons line further =>
    cases hline
    by_contra hlt
    have hmem : (width, o) ∈ blocks ((v, a) :: further) :=
      (dropWhile_sublist _).mem (show (width, o) ∈ still width _ by rw [h]; exact .head _)
    -- no block is wider than the line that was read last
    rw [blocks] at hmem
    split at hmem
    · cases hmem
    · have hsorted := blocks_sorted ((v, a) :: further)
      rw [blocks, if_neg (by assumption)] at hsorted
      rcases mem_cons.1 hmem with heq | hmem
      · have := congrArg Prod.fst heq
        omega
      · have := (pairwise_cons.1 hsorted).1 _ hmem
        simp only at this
        omega

theorem blocks_cons (width : Nat) (a : α) (above : List (Nat × α)) : blocks ((width, a) :: above) =
      if opens width (blocks above) then (width, opener width above) :: still width (blocks above)
      else still width (blocks above) := by
  rw [blocks, opens]
  by_cases hw : width = 0
  · subst hw
    simp [still_zero]
  rw [if_neg hw]
  have hdrop : (blocks above).dropWhile (width ≤ ·.1) = (still width (blocks above)).dropWhile (width ≤ ·.1) :=
    (dropWhile_dropWhile (by simp; omega) _).symm
  rw [hdrop]
  cases hstill : still width (blocks above) with
  | nil => simp [Nat.pos_of_ne_zero hw]
  | cons first outer =>
    have hle : first.1 ≤ width := le_of_mem_still first (by rw [hstill]; exact .head _)
    by_cases heq : first.1 = width
    · -- the line belongs to a block that is open: its opener is that of the block
      obtain ⟨v, o⟩ := first
      subst heq
      have hsorted := (blocks_sorted above).sublist (dropWhile_sublist (v < ·.1))
      rw [← still, hstill] at hsorted
      have houter : outer.dropWhile (v ≤ ·.1) = outer := by
        cases outer with
        | nil => rfl
        | cons second outer =>
          have := (pairwise_cons.1 hsorted).1 second (.head _)
          exact dropWhile_cons_of_neg (by simpa using this)
      rw [opener_eq (width_le_of_still hstill), hstill, dropWhile_cons_of_pos (by simp), houter]
      simp
    · have hlt : first.1 < width := by omega
      simp [hlt]

/-! ## Layout -/

open Statement (Item)

def laid (indents : List Nat) : List (Nat × List Token) → List Item
  | [] => List.replicate indents.length .dedent
  | (width, line) :: rest =>
    (Lexer.reindent indents width).1.filterMap item? ++ .line line :: laid (Lexer.reindent indents width).2 rest
where
  item? : TokenKind → Option Item
    | .indent => some .indent
    | .dedent => some .dedent
    | _ => none

theorem filterMap_laid (indents : List Nat) (lines : List (Nat × List Token)) :
    (laid indents lines).filterMap Item.line? = lines.map (·.2) := by
  have hkinds : ∀ kinds : List TokenKind, (kinds.filterMap laid.item?).filterMap Item.line? = [] := by
    intro kinds
    rw [filterMap_filterMap, filterMap_eq_nil_iff]
    intro kind _
    unfold laid.item?
    split <;> rfl
  induction lines generalizing indents with
  | nil => rw [laid, filterMap_replicate]; rfl
  | cons line lines ih =>
    rw [laid, filterMap_append, hkinds, nil_append, filterMap_cons_some (Item.line?_line _), ih]
    rfl

theorem reindent_blocks (width : Nat) (line : α) (above : List (Nat × α)) :
    ∃ n, (blocks above).drop n = still width (blocks above) ∧ (n = 0 ↔ still width (blocks above) = blocks above) ∧
      (Lexer.reindent ((blocks above).map (·.1)) width).1.filterMap laid.item? =
        List.replicate n .dedent ++ (if opens width (blocks above) then [.indent] else []) ∧
      (Lexer.reindent ((blocks above).map (·.1)) width).2 = (blocks ((width, line) :: above)).map (·.1) := by
  have hdrop : ((blocks above).map (·.1)).dropWhile (width < ·) =
      (still width (blocks above)).map (·.1) := dropWhile_map
  have hhead : ((still width (blocks above)).map (·.1)).headD 0 =
      ((still width (blocks above)).head?.map (·.1)).getD 0 := by
    cases still width (blocks above) <;> rfl
  have hsuffix : still width (blocks above) <:+ blocks above := dropWhile_suffix _
  refine ⟨(blocks above).length - (still width (blocks above)).length,
    (suffix_iff_eq_drop.1 hsuffix).symm, ⟨fun hzero => ?_, fun hsame => by rw [hsame]; simp⟩,
    ?_, ?_⟩
  · exact hsuffix.eq_of_length_le (by omega)
  · rw [Lexer.reindent, hdrop, hhead]
    by_cases hopens : opens width (blocks above) = true
    · rw [if_pos (by simpa [opens] using hopens), if_pos hopens]
      simp [laid.item?, filterMap_replicate]
    · rw [if_neg (by simpa [opens] using hopens), if_neg hopens]
      simp [laid.item?, filterMap_replicate]
  · rw [Lexer.reindent, hdrop, hhead, blocks_cons]
    by_cases hopens : opens width (blocks above) = true
    · rw [if_pos (by simpa [opens] using hopens), if_pos hopens]
      rfl
    · rw [if_neg (by simpa [opens] using hopens), if_neg hopens]

def run : List (Option (List Token)) → List Item → List (Option (List Token) × List Token)
  | _, [] => []
  | os, .dedent :: rest => run os.tail rest
  | os, .indent :: rest => run (os.headD none :: os) rest
  | os, .line line :: .indent :: rest => (os.headD none, line) :: run (some line :: os) rest
  | os, .line line :: rest => (os.headD none, line) :: run os rest

theorem run_line (os : List (Option (List Token))) (line : List Token) {rest : List Item}
    (h : ∀ more, rest ≠ .indent :: more) : run os (.line line :: rest) = (os.headD none, line) :: run os rest := by
  cases rest with
  | nil => rfl
  | cons item more =>
    cases item with
    | indent => exact absurd rfl (h more)
    | line | dedent => rfl

theorem run_dedents (os : List (Option (List Token))) (n : Nat) (items : List Item) :
    run os (List.replicate n .dedent ++ items) = run (os.drop n) items := by
  induction n generalizing os with
  | zero => simp
  | succ n ih => rw [replicate_succ, cons_append, run, ih, drop_tail]

theorem run_line_dedents (os : List (Option (List Token))) (line : List Token) (n : Nat) (items : List Item) :
    run os (.line line :: (List.replicate (n + 1) .dedent ++ items)) =
    (os.headD none, line) :: run (os.drop (n + 1)) items := by
  rw [← run_dedents]
  exact run_line os line fun more heq => by cases heq

def owned : (above : List (Nat × List Token)) → List (Nat × List Token) →
    List (Option (List Token) × List Token)
  | _, [] => []
  | above, (width, line) :: rest => (opener width above, line) :: owned ((width, line) :: above) rest

theorem owned_getElem? (above lines : List (Nat × List Token)) (k : Nat) :
    (owned above lines)[k]? = lines[k]?.map fun l => (opener l.1 ((lines.take k).reverse ++ above), l.2) := by
  induction lines generalizing above k with
  | nil => simp [owned]
  | cons line lines ih =>
    cases k with
    | zero => simp [owned]
    | succ k => simp [owned, ih]

theorem headD_blocks (v : Nat) (prev : List Token) (further : List (Nat × List Token)) :
    ((blocks ((v, prev) :: further)).map (·.2)).headD none = opener v further := by
  rw [blocks]
  split
  · next hv => rw [hv, opener_zero]; rfl
  · rfl

theorem still_eq_iff : still width (blocks ((v, a) :: further)) = blocks ((v, a) :: further) ↔ v ≤ width := by
  rw [blocks]
  split
  · next hv => simp [still, hv]
  · rw [still]
    by_cases hlt : width < v
    · rw [dropWhile_cons_of_pos (by simpa using hlt)]
      constructor
      · intro heq
        have hle := (dropWhile_suffix (fun b : Nat × Option α => decide (width < b.1))
          (l := (blocks further).dropWhile (v ≤ ·.1))).length_le
        rw [heq, length_cons] at hle
        omega
      · omega
    · rw [dropWhile_cons_of_neg (by simpa using hlt)]
      simp
      omega

theorem opens_iff (h : v ≤ width) : opens width (blocks ((v, a) :: further)) = true ↔ v < width := by
  rw [opens, still_eq_iff.2 h, blocks, decide_eq_true_iff]
  split
  · next hv => simp [hv]
  · simp

theorem run_next (width v : Nat) (line prev : List Token) (further : List (Nat × List Token)) (items : List Item) :
    run ((blocks ((v, prev) :: further)).map (·.2)) (.line prev ::
    ((Lexer.reindent ((blocks ((v, prev) :: further)).map (·.1)) width).1.filterMap laid.item? ++ .line line ::
    items)) = (opener v further, prev) :: run ((blocks ((width, line) :: (v, prev) :: further)).map (·.2)) (.line
    line :: items) := by
  obtain ⟨n, hdrop, hzero, hlayout, _⟩ := reindent_blocks width line ((v, prev) :: further)
  rw [hlayout, blocks_cons width line]
  rw [still_eq_iff] at hzero
  by_cases hle : v ≤ width
  · -- nothing is closed
    rw [hzero.2 hle, still_eq_iff.2 hle, replicate_zero, nil_append]
    by_cases hlt : v < width
    · rw [if_pos ((opens_iff hle).2 hlt), if_pos ((opens_iff hle).2 hlt), singleton_append,
        run, headD_blocks, map_cons, opener_of_lt hlt]
    · have hopens : ¬ opens width (blocks ((v, prev) :: further)) = true := mt (opens_iff hle).1 hlt
      rw [if_neg hopens, if_neg hopens, nil_append, run, headD_blocks]
      simp
  · -- blocks are closed, and the line stands in what is left or beside it
    obtain ⟨k, rfl⟩ : ∃ k, n = k + 1 := ⟨n - 1, by omega⟩
    have hopener : opener width ((v, prev) :: further) =
        (still width (blocks ((v, prev) :: further))).head?.bind (·.2) :=
      opener_eq (by rintro _ ⟨⟩; simp only; omega)
    have hstill : ((blocks ((v, prev) :: further)).map (·.2)).drop (k + 1) =
        (still width (blocks ((v, prev) :: further))).map (·.2) := by
      rw [← map_drop, hdrop]
    rw [append_assoc, run_line_dedents, hstill, headD_blocks]
    by_cases hopens : opens width (blocks ((v, prev) :: further)) = true
    · rw [if_pos hopens, if_pos hopens, singleton_append, run, map_cons, hopener]
      congr 3
      cases still width (blocks ((v, prev) :: further)) <;> rfl
    · rw [if_neg hopens, if_neg hopens, nil_append]

theorem run_laid_below (v : Nat) (prev : List Token) (further lines : List (Nat × List Token)) :
    run ((blocks ((v, prev) :: further)).map (·.2)) (.line prev ::
    laid ((blocks ((v, prev) :: further)).map (·.1)) lines) =
    (opener v further, prev) :: owned ((v, prev) :: further) lines := by
  induction lines generalizing v prev further with
  | nil =>
    rw [laid, ← headD_blocks v prev]
    cases ((blocks ((v, prev) :: further)).map (·.1)).length with
    | zero => rfl
    | succ n =>
      have hend := run_line_dedents ((blocks ((v, prev) :: further)).map (·.2)) prev n []
      rwa [append_nil, run] at hend
  | cons next lines ih =>
    obtain ⟨width, line⟩ := next
    obtain ⟨_, _, _, _, hblocks⟩ := reindent_blocks width line ((v, prev) :: further)
    rw [laid, run_next, hblocks, ih, owned]

/-- The layout of lines puts each below the line that opens its block by the widths. -/
theorem run_laid (lines : List (Nat × List Token)) : run [] (laid [] lines) = owned [] lines := by
  cases lines with
  | nil => rfl
  | cons first lines =>
    obtain ⟨width, line⟩ := first
    have hfirst := run_laid_below width line [] lines
    rw [owned, ← hfirst, laid]
    by_cases hw : width = 0
    · subst hw
      rfl
    · have hpos : 0 < width := Nat.pos_of_ne_zero hw
      simp [Lexer.reindent, blocks, opener, openerFrom, hw, hpos, laid.item?, run]

/-! ## The tree -/

open Statement (mk levels closeBlock tree)

mutual

def edges (owner : Option (List Token)) : Statement → List (Option (List Token) × List Token)
  | mk line body => (owner, line) :: edgesAll (some line) body

def edgesAll (owner : Option (List Token)) :
    List Statement → List (Option (List Token) × List Token)
  | [] => []
  | s :: rest => edges owner s ++ edgesAll owner rest

end

@[simp] theorem edges_mk (owner : Option (List Token)) (line : List Token) (body : List Statement) :
    edges owner (mk line body) = (owner, line) :: edgesAll (some line) body := by
  rw [edges]

@[simp] theorem edgesAll_nil (owner : Option (List Token)) : edgesAll owner [] = [] := by
  rw [edgesAll]

@[simp] theorem edgesAll_cons (owner : Option (List Token)) (s : Statement) (rest : List Statement) :
    edgesAll owner (s :: rest) = edges owner s ++ edgesAll owner rest := by
  rw [edgesAll]

@[simp] theorem edgesAll_append (owner : Option (List Token)) (as bs : List Statement) :
    edgesAll owner (as ++ bs) = edgesAll owner as ++ edgesAll owner bs := by
  induction as with
  | nil => simp
  | cons s as ih => simp [ih]

def edgesOut : List (Option (List Token)) → List (List Statement) →
    List (Option (List Token) × List Token)
  | _, [] => []
  | os, block :: outer => edgesAll (os.headD none) block ++ edgesOut os.tail outer

theorem edgesOut_levels (os : List (Option (List Token))) (items : List Item) :
    edgesOut os (levels items) = run os items := by
  fun_induction levels items generalizing os with
  | case1 => simp [edgesOut, run]
  | case2 rest ih => rw [run, ← ih, edgesOut, edgesAll_nil, nil_append]
  | case3 rest ih =>
    rw [run, ← ih]
    unfold closeBlock
    split <;> simp [edgesOut, *]
  | case4 line rest ih =>
    rw [run, ← ih]
    unfold closeBlock
    split <;> simp [edgesOut, *]
  | case5 line rest hrest block outer hl ih =>
    rw [run_line os line fun more heq => hrest more heq, ← ih, hl]
    simp [edgesOut]
  | case6 line rest hrest hl ih =>
    rw [run_line os line fun more heq => hrest more heq, ← ih, hl]
    simp [edgesOut]

theorem edges_tree (ts : List Token) : edgesAll none (tree ts) = run [] (Statement.items ts) := by
  rw [← edgesOut_levels, tree]
  induction levels (Statement.items ts) with
  | nil => simp [edgesOut]
  | cons block outer ih => simp [edgesOut, ih]

end ChartScript.Outline
