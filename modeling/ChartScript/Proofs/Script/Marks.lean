import ChartScript.Proofs.Script.Breaks
import ChartScript.Proofs.Script.Pieces
/-!
# The words of a text and where lines begin

`marks` reads a text from any state of the pass: its words, those that begin a line with a mark.
There is one equation for each step of the pass. A text that is cut off where no word goes on has
the marks of the part, because the pass looks ahead only as far as the first word of the next row.
-/
namespace ChartScript.Lexer

open List Text Statement Position

/-- The words of a text that is read on from a state, those that begin a line with a mark. -/
def marks (s : State) (cs : List Char) : List (Bool × Token) :=
  marked (!s.hasContent) (code s cs)

variable {s : State} {c : Char} {cs rest : List Char} {x : Bool × Token} {bound : Nat}

@[simp] theorem marks_nil (s : State) : marks s [] = [] := by
  exact marked_eq_nil (fun t ht => s.finish_layout t (mem_filter.1 ht).1) _

theorem State.sound_of_none (h : s.margin = none) : s.Sound :=
  fun hne => absurd h hne

theorem marks_margin {width w : Nat} (rest : List Char) (hm : s.margin = some width)
    (hw : marginWidth? c = some w) :
    marks s (c :: rest) = marks (s.indented c (width + w)) rest := by
  rw [marks, code, scan_margin rest hm hw]
  rfl

theorem marks_settle (rest : List Char) (h : s.Sound) (hw : marginWidth? c = none) :
    marks s (c :: rest) = marks (s.settle (c :: rest)).2 (c :: rest) := by
  rw [marks, code, scan_settle rest hw, filter_append, marked_settle h, ← s.settle_hasContent (c :: rest)]
  rfl

theorem marks_newline (s : State) (rest : List Char) : marks s ('\n' :: rest) =
    if s.endsStatement rest then marks s.below rest else marks s.onward rest := by
  rw [marks, code, scan_newline]
  split
  · rfl
  · rfl

theorem marks_blank (rest : List Char) (hs : s.Sound) (hb : isBlank c = true) (hc : c ≠ '\n')
    (hm : s.margin = none ∨ marginWidth? c = none) :
    marks s (c :: rest) = marks ((s.settle (c :: rest)).2.advance c) rest := by
  rw [marks, code, scan_blank rest hb hc hm, filter_append, marked_settle hs, ← s.settle_hasContent (c :: rest)]
  rfl

theorem marks_comment {n : Nat} (hm : s.margin = none) (hx : lexeme c rest = .token .comment n) :
    marks s (c :: rest) = marks (s.past .comment (c :: rest) n) ((c :: rest).drop n) := by
  have hcontent : (s.past .comment (c :: rest) n).hasContent = s.hasContent := by simp [hasContent_past hx]
  rw [marks, code, scan_past hm hx, filter_cons_of_neg (by simp [token]), ← hcontent]
  rfl

theorem marks_word {kind : TokenKind} {n : Nat} (hm : s.margin = none) (hx : lexeme c rest = .token kind n)
    (hk : kind ≠ .comment) :
    marks s (c :: rest) = (!s.hasContent, s.position.token kind ((c :: rest).take n)) ::
    marks (s.past kind (c :: rest) n) ((c :: rest).drop n) := by
  have hcontent : (s.past kind (c :: rest) n).hasContent = true := by
    rw [hasContent_past hx, bne_iff_ne.2 hk, Bool.or_true]
  have hlayout : isLayout (s.position.token kind ((c :: rest).take n)) = false := lexeme_not_layout hx _ _
  rw [marks, code, scan_past hm hx, filter_cons_of_pos (by simpa [token] using hk),
    marked_word _ _ hlayout, marks, hcontent]
  rfl

theorem map_marks (s : State) (cs : List Char) :
    (marks s cs).map (·.2) = (words 0 s.position cs).filter (·.kind != .comment) := by
  have hmarked : ∀ (fresh : Bool) (ts : List Token), (marked fresh ts).map (·.2) = ts.filter (!isLayout ·) := by
    intro fresh ts
    induction ts generalizing fresh with
    | nil => rfl
    | cons t rest ih =>
      cases ht : isLayout t with
      | true => rw [marked_layout _ _ ht, ih, filter_cons_of_neg (by simp [ht])]
      | false => rw [marked_word _ _ ht, map_cons, ih, filter_cons_of_pos (by simp [ht])]
  rw [marks, hmarked, code, filter_comm, filter_scan]

theorem mem_words_of_marks (h : x ∈ marks s cs) : x.2 ∈ words 0 s.position cs :=
  (mem_filter.1 (map_marks s cs ▸ mem_map_of_mem h)).1

theorem start_le_of_mem_marks (h : x ∈ marks s cs) : s.position.offset ≤ x.2.span.start := by
  simpa [byteSize] using start_le_of_mem_words (mem_words_of_marks h)

/-! ## Cutting a text off -/

/-- No word of the text goes over from `xs` to `rest`. -/
def Uncrossed (p : Position) (xs rest : List Char) : Prop :=
  ∀ t ∈ words 0 p (xs ++ rest), t.span.start < p.offset + byteSize xs → t.span.stop ≤ p.offset + byteSize xs

section

variable {p : Position} {c : Char} {xs rest : List Char}

theorem Uncrossed.blank (h : Uncrossed p (c :: xs) rest) (hb : isBlank c = true) :
    Uncrossed (p.advance c) xs rest := by
  rw [Uncrossed, cons_append, words_gap p (lexeme_blank _ hb)] at h
  rw [Uncrossed, advance_offset, Nat.add_assoc]
  exact h

theorem Uncrossed.word {kind : TokenKind} {n : Nat} (h : Uncrossed p (c :: xs) rest) (hrest : Ends rest)
    (hx : lexeme c (xs ++ rest) = .token kind n) :
    n ≤ xs.length + 1 ∧ lexeme c xs = .token kind n ∧
    Uncrossed (p.after ((c :: xs).take n)) ((c :: xs).drop n) rest := by
  rw [Uncrossed, cons_append, words_token p hx] at h
  have hpos := c.utf8Size_pos
  have hn := length_le_of_stop_le hx (h _ mem_cons_self (by simp only [token, byteSize]; omega))
  refine ⟨hn, lexeme_cut hrest hx hn, fun t ht => ?_⟩
  obtain ⟨k, rfl⟩ : ∃ k, n = k + 1 := ⟨n - 1, by have := (lexeme_length hx).1; omega⟩
  have hsize : byteSize (c :: xs) = byteSize ((c :: xs).take (k + 1)) + byteSize ((c :: xs).drop (k + 1)) := by
    rw [← byteSize_append, take_append_drop]
  rw [after_offset, Nat.add_assoc, ← hsize]
  refine h t (.tail _ ?_)
  rw [Nat.add_sub_cancel, words_drop _ _ _ (by simp; omega), take_append_of_le_length (by omega),
    drop_append_of_le_length (by omega)]
  exact ht

theorem hasNoIndentation_cut (h : Uncrossed p (c :: xs) rest) (hrest : Ends rest) :
    hasNoIndentation (c :: (xs ++ rest)) = hasNoIndentation (c :: xs) := by
  cases xs with
  | cons d xs => simp only [cons_append, hasNoIndentation, startsComment_cons, head?_cons]
  | nil =>
    simp only [nil_append, hasNoIndentation, startsComment_cons, head?_nil,
      Option.any_none, Bool.and_false, Bool.or_false]
    suffices hno : ¬ (c = '/' ∧ (rest.head? = some '/' ∨ rest.head? = some '*')) by
      cases hd : rest.head? with
      | none => simp
      | some d =>
        simp only [hd, Option.some.injEq, not_and, not_or] at hno
        by_cases hc : c = '/'
        · simp [hno hc]
        · simp [hc]
    -- a comment would begin within the part and go beyond it
    rintro ⟨rfl, hd | hd⟩
    · have hx : lexeme '/' rest = .token .comment (1 + (rest.takeWhile (· ≠ '\n')).length) := by
        rw [lexeme, if_neg (by decide), if_pos ⟨rfl, hd⟩]
      have hn := (h.word hrest hx).1
      obtain ⟨more, rfl⟩ := head?_eq_some_iff.1 hd
      rw [takeWhile_cons_of_pos (by decide), length_cons, length_nil] at hn
      omega
    · have hx : lexeme '/' rest = .token .comment (2 + blockCommentLength (rest.drop 1)) := by
        rw [lexeme, if_neg (by decide), if_neg (by simp [hd]), if_pos ⟨rfl, hd⟩]
      have hn := (h.word hrest hx).1
      rw [length_nil] at hn
      omega

end

theorem continuesStatement_cut {p : Position} {xs : List Char} (indents : List Nat)
    (h : Uncrossed p xs rest) (hrest : Ends rest) (hword : xs.all isBlank = false) :
    continuesStatement indents (xs ++ rest) = continuesStatement indents xs := by
  have hmeasure : ∀ (xs : List Char) (p : Position), Uncrossed p xs rest →
      xs.all isBlank = false → (measure (xs ++ rest)).1 = (measure xs).1 ∧
        hasNoIndentation (measure (xs ++ rest)).2 = hasNoIndentation (measure xs).2 := by
    intro xs
    induction xs with
    | nil => intro _ _ hword; cases hword
    | cons c xs ih =>
      intro p h hword
      rw [cons_append]
      cases hw : marginWidth? c with
      | some w =>
        have hb := isBlank_of_marginWidth hw
        rw [all_cons, hb, Bool.true_and] at hword
        rw [measure_cons _ hw, measure_cons _ hw, (ih _ (h.blank hb) hword).1, (ih _ (h.blank hb) hword).2]
        exact ⟨rfl, rfl⟩
      | none =>
        rw [measure_of_none _ hw, measure_of_none _ hw]
        exact ⟨rfl, hasNoIndentation_cut h hrest⟩
  obtain ⟨hwidth, hno⟩ := hmeasure xs p h hword
  simp only [continuesStatement, hwidth, hno]

theorem words_blank (p : Position) (h : cs.all isBlank = true) : words 0 p cs = [] := by
  induction cs generalizing p with
  | nil => rfl
  | cons c rest ih =>
    rw [all_cons, Bool.and_eq_true] at h
    rw [words_gap p (lexeme_blank _ h.1), ih _ h.2]

theorem marks_blanks (h : cs.all isBlank = true) : marks s cs = [] := by
  have := map_marks s cs
  rw [words_blank _ h, filter_nil] at this
  exact map_eq_nil_iff.1 this

def before (bound : Nat) (xs : List (Bool × Token)) : List (Bool × Token) :=
  xs.filter (·.2.span.start < bound)

theorem before_cons_of_lt (xs : List (Bool × Token)) (h : x.2.span.start < bound) :
    before bound (x :: xs) = x :: before bound xs :=
  filter_cons_of_pos (by simpa using h)

theorem before_eq_nil (h : bound ≤ s.position.offset) : before bound (marks s cs) = [] := by
  refine filter_eq_nil_iff.2 fun x hx => ?_
  have := start_le_of_mem_marks hx
  simp only [decide_eq_true_eq]
  omega

def CutsOff (bound : Nat) (rest xs : List Char) : Prop :=
  ∀ s : State, s.Sound → Uncrossed s.position xs rest → s.position.offset + byteSize xs = bound →
    before bound (marks s (xs ++ rest)) = marks s xs

theorem cutsOff_cons {xs : List Char} (hrest : Ends rest)
    (below : ∀ ys, ys.length < (c :: xs).length → CutsOff bound rest ys) (hm : s.margin = none)
    (h : Uncrossed s.position (c :: xs) rest) (hb : s.position.offset + byteSize (c :: xs) = bound) :
    before bound (marks s (c :: (xs ++ rest))) = marks s (c :: xs) := by
  have hs : s.Sound := State.sound_of_none hm
  have hstep : (s.position.advance c).offset + byteSize xs = bound := by
    rw [← hb, advance_offset, byteSize, Nat.add_assoc]
  by_cases hc : c = '\n'
  · subst hc
    by_cases hblank : xs.all isBlank = true
    · -- nothing but blanks is left
      have hnil : marks s ('\n' :: xs) = [] := marks_blanks (by rw [all_cons, hblank]; rfl)
      have hwords : words 0 s.position ('\n' :: (xs ++ rest)) = words 0 (s.position.after ('\n' :: xs)) rest := by
        rw [← cons_append, words_append hrest (Nat.zero_le _) h,
          words_blank _ (by rw [all_cons, hblank]; rfl), nil_append]
      rw [hnil]
      refine filter_eq_nil_iff.2 fun x hx => ?_
      have := start_le_of_mem_words (hwords ▸ mem_words_of_marks hx)
      rw [after_offset, hb] at this
      simp only [decide_eq_true_eq]
      omega
    · have hnext := h.blank (by decide)
      have hcontinues := continuesStatement_cut s.indents hnext hrest (by simpa using hblank)
      have hends : s.endsStatement (xs ++ rest) = s.endsStatement xs := by
        rw [State.endsStatement, State.endsStatement, hcontinues]
      rw [marks_newline, marks_newline, hends]
      split
      · exact below xs (by simp) s.below (fun _ => rfl) hnext hstep
      · exact below xs (by simp) s.onward (State.sound_of_none rfl) hnext hstep
  · cases hx : lexeme c (xs ++ rest) with
    | gap =>
      have hblank := isBlank_of_gap hx
      rw [marks_blank _ hs hblank hc (.inl hm), marks_blank _ hs hblank hc (.inl hm), State.settle_of_none _ hm,
        State.settle_of_none _ hm]
      exact below xs (by simp) (s.advance c) hs (h.blank hblank) hstep
    | token kind n =>
      obtain ⟨hn, hcut, hnext⟩ := h.word hrest hx
      have hpos := (lexeme_length hx).1
      have htake : (c :: (xs ++ rest)).take n = (c :: xs).take n := by
        rw [← cons_append, take_append_of_le_length (by simpa using hn)]
      have hdrop : (c :: (xs ++ rest)).drop n = (c :: xs).drop n ++ rest := by
        rw [← cons_append, drop_append_of_le_length (by simpa using hn)]
      have hsize : byteSize (c :: xs) = byteSize ((c :: xs).take n) + byteSize ((c :: xs).drop n) := by
        rw [← byteSize_append, take_append_drop]
      have hpast : s.past kind (c :: (xs ++ rest)) n = s.past kind (c :: xs) n := by
        rw [State.past, htake, State.past]
      have hbelow := below ((c :: xs).drop n) (by rw [length_drop, length_cons]; omega)
        (s.past kind (c :: xs) n) (State.sound_of_none hm) hnext (by
          show (s.position.after ((c :: xs).take n)).offset + _ = bound
          rw [after_offset, Nat.add_assoc, ← hsize, hb])
      by_cases hk : kind = .comment
      · subst hk
        rw [marks_comment hm hx, marks_comment hm hcut, hpast, hdrop]
        exact hbelow
      · have hfirst : s.position.offset < bound := by
          have := c.utf8Size_pos
          rw [← hb, byteSize]
          omega
        rw [marks_word hm hx hk, marks_word hm hcut hk, hpast, hdrop, htake, before_cons_of_lt _ hfirst, hbelow]

theorem cutsOff (hrest : Ends rest) (bound : Nat) (xs : List Char) : CutsOff bound rest xs := by
  induction hlen : xs.length using Nat.strongRecOn generalizing xs with
  | _ len ih =>
    have below : ∀ ys : List Char, ys.length < xs.length → CutsOff bound rest ys :=
      fun ys hlt => ih ys.length (hlen ▸ hlt) ys rfl
    intro s hs h hb
    cases xs with
    | nil => rw [nil_append, marks_nil, before_eq_nil (by rw [← hb]; simp [byteSize])]
    | cons c xs =>
      rw [cons_append]
      cases hw : marginWidth? c with
      | none =>
        -- where a margin ends, the row is seen to have a statement or not
        have hsettle : s.settle (c :: (xs ++ rest)) = s.settle (c :: xs) := by
          simp only [State.settle, hasNoIndentation_cut h hrest]
        have hp := s.settle_position (c :: xs)
        rw [marks_settle _ hs hw, marks_settle _ hs hw, hsettle]
        exact cutsOff_cons hrest below (s.settle_margin _) (by rwa [hp]) (by rwa [hp])
      | some w =>
        cases hm : s.margin with
        | none => exact cutsOff_cons hrest below hm h hb
        | some width =>
          rw [marks_margin _ hm hw, marks_margin _ hm hw]
          exact below xs (by simp) (s.indented c (width + w))
            (fun _ => hs (by simp [hm])) (h.blank (isBlank_of_marginWidth hw)) (by
              show (s.position.advance c).offset + _ = bound
              rw [← hb, advance_offset, byteSize, Nat.add_assoc])

end ChartScript.Lexer
