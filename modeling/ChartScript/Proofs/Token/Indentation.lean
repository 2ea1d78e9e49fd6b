import ChartScript.Proofs.Token.Words
import Mathlib.Data.List.Induction
/-!
# Layout tokens

Line ends, and the marks that open and close blocks, are not read off single characters but decided
on the way: from the widths of the open blocks, the brackets and whether the statement has begun.
Whoever reads the tokens can keep account of the same things. `Outline` is that account, and `Laid`
says that every layout token fits it; the pass keeps both in step.
-/
namespace ChartScript.Lexer

open List Text

/-! ## An account of the tokens read -/

/-- What a reader of tokens remembers of the layout. -/
structure Outline where
  /-- Number of open blocks. -/
  blocks : Nat
  /-- Since the last line end, or the beginning, there was nothing of a statement. -/
  fresh : Bool
  /-- Number of open brackets. -/
  depth : Nat

namespace Outline

def start : Outline := ⟨0, true, 0⟩

def next (o : Outline) (t : Token) : Outline where
  blocks := match t.kind with
    | .indent => o.blocks + 1
    | .dedent => o.blocks - 1
    | _ => o.blocks
  fresh := match t.kind with
    | .newline => true
    | .indent | .dedent | .comment => o.fresh
    | _ => false
  depth := State.bracketDepth o.depth t.kind

/-- A layout token fits the account: a block that closes was open, blocks change before a statement
only, and within brackets there is no layout before the point `stop`. -/
structure Admits (o : Outline) (stop : Nat) (t : Token) : Prop where
  opened : t.kind = .dedent → 0 < o.blocks
  fresh : t.kind = .indent ∨ t.kind = .dedent → o.fresh = true
  outside : t.kind = .newline ∨ t.kind = .indent ∨ t.kind = .dedent → 0 < o.depth → t.span.start = stop

end Outline

/-- Every token fits the account of those before it, and at the end no block is open. -/
inductive Laid (stop : Nat) : Outline → List Token → Prop
  | done {o : Outline} : o.blocks = 0 → Laid stop o []
  | token {o : Outline} {t : Token} {ts : List Token} : o.Admits stop t → Laid stop (o.next t) ts →
      Laid stop o (t :: ts)

/-! ## The pass lays out its tokens -/

def State.outline (s : State) : Outline := ⟨s.indents.length, !s.hasContent, s.depth⟩

def State.AtMargin (s : State) : Prop :=
  s.margin ≠ none → s.hasContent = false ∧ s.depth = 0

variable {p : Position} {t : Token} {before after : List Token}

namespace Laid

variable {stop : Nat} {ts : List Token}

theorem newline {o : Outline} (chars : List Char) (hplace : 0 < o.depth → p.offset = stop)
    (h : Laid stop { o with fresh := true } ts) : Laid stop o (p.token .newline chars :: ts) :=
  .token ⟨nofun, nofun, fun _ => hplace⟩ h

theorem indent {o : Outline} (hfresh : o.fresh = true) (hplace : 0 < o.depth → p.offset = stop)
    (h : Laid stop { o with blocks := o.blocks + 1 } ts) : Laid stop o (p.token .indent [] :: ts) :=
  .token ⟨nofun, fun _ => hfresh, fun _ => hplace⟩ h

theorem dedents {n depth : Nat} (k : Nat) (hplace : 0 < depth → p.offset = stop)
    (h : Laid stop ⟨n, true, depth⟩ ts) :
    Laid stop ⟨n + k, true, depth⟩ (List.replicate k (p.token .dedent []) ++ ts) := by
  induction k with
  | zero => exact h
  | succ k ih => exact .token ⟨fun _ => Nat.succ_pos _, fun _ => rfl, fun _ => hplace⟩ ih

theorem reindent (indents : List Nat) (width : Nat)
    (h : Laid stop ⟨(reindent indents width).2.length, true, 0⟩ ts) :
    Laid stop ⟨indents.length, true, 0⟩ ((Lexer.reindent indents width).1.map (p.token · []) ++ ts) := by
  have hstill : (indents.dropWhile (width < ·)).length ≤ indents.length := (dropWhile_suffix _).length_le
  have hlength : indents.length = (indents.dropWhile (width < ·)).length +
      (indents.length - (indents.dropWhile (width < ·)).length) := by omega
  have houtside : 0 < 0 → p.offset = stop := fun h => absurd h (Nat.lt_irrefl 0)
  rw [hlength]
  by_cases hdeeper : (indents.dropWhile (width < ·)).headD 0 < width
  · simp only [Lexer.reindent, if_pos hdeeper] at h ⊢
    rw [map_append, map_replicate, append_assoc]
    exact dedents _ houtside (indent rfl houtside h)
  · simp only [Lexer.reindent, if_neg hdeeper] at h ⊢
    rw [map_replicate]
    exact dedents _ houtside h

theorem settle {s : State} (hs : s.AtMargin) (cs : List Char)
    (h : Laid stop (s.settle cs).2.outline ts) : Laid stop s.outline ((s.settle cs).1 ++ ts) := by
  revert h
  unfold State.settle
  split
  · exact id
  · next width hm =>
    obtain ⟨hcontent, hdepth⟩ := hs (by simp [hm])
    split
    · exact id
    · intro h
      simp only [State.outline, hcontent, hdepth, Bool.not_false] at h ⊢
      exact reindent s.indents width h

theorem word {s : State} {c : Char} {rest : List Char} {kind : TokenKind} {n : Nat}
    (hx : lexeme c rest = .token kind n) (p : Position) (chars : List Char)
    (h : Laid stop (s.note kind).outline ts) : Laid stop s.outline (p.token kind chars :: ts) := by
  have hlayout := lexeme_not_layout hx .origin ""
  have hnext : s.outline.next (p.token kind chars) = (s.note kind).outline := by
    cases kind <;> simp_all [Outline.next, State.outline, Position.token, State.note,
      TokenKind.isTrivia, Statement.isLayout]
  refine .token ⟨?_, ?_, ?_⟩ (hnext ▸ h)
  · rintro rfl
    cases hlayout
  · rintro (rfl | rfl)
    · cases hlayout
    · cases hlayout
  · rintro (rfl | rfl | rfl)
    · cases hlayout
    · cases hlayout
    · cases hlayout

end Laid

theorem finish_laid (s : State) : Laid s.position.offset s.outline s.finish := by
  have hclosed : Laid s.position.offset ⟨0, true, s.depth⟩ [s.position.token .eof []] :=
    .token ⟨nofun, nofun, nofun⟩ (.done rfl)
  have hopen := Laid.dedents s.indents.length (fun _ => rfl) hclosed
  rw [Nat.zero_add] at hopen
  rw [State.finish, map_const', append_assoc]
  cases hcontent : s.hasContent with
  | true => exact .newline [] (fun _ => rfl) hopen
  | false =>
    rw [State.outline, hcontent]
    exact hopen

theorem scan_laid (s : State) (cs : List Char) (hs : s.AtMargin) :
    Laid (s.position.offset + byteSize cs) s.outline (scan 0 s cs) := by
  induction s, cs using scan_induction with
  | finish s => exact finish_laid s
  | step s cs ts s' rest h ih =>
    have hstop : s'.position.offset + byteSize rest = s.position.offset + byteSize cs := by
      obtain ⟨read, rfl, hp⟩ := h.exists_read
      rw [hp, Position.after_offset, byteSize_append, Nat.add_assoc]
    rw [hstop] at ih
    rw [h.scan_eq]
    cases h with
    | ends hends =>
      have hdepth : s.depth = 0 := by
        simp only [State.endsStatement, Bool.and_eq_true, beq_iff_eq] at hends
        exact hends.1
      exact .newline _ (fun h => absurd hdepth (Nat.ne_of_gt h)) (ih fun _ => ⟨rfl, hdepth⟩)
    | runsOn => exact ih fun hne => absurd rfl hne
    | margin hm hw => exact ih fun _ => hs (by simp [hm])
    | blank => exact Laid.settle hs _ (ih fun hne => absurd (s.settle_margin _) hne)
    | word hx =>
      rw [append_assoc]
      exact Laid.settle hs _ (Laid.word hx _ _ (ih fun hne => absurd (s.settle_margin _) hne))

theorem tokenize_laid (source : List Char) : Laid (byteSize source) .start (tokenize source) := by
  have := scan_laid .start source fun _ => ⟨rfl, rfl⟩
  rwa [show State.start.position.offset = 0 from rfl, Nat.zero_add] at this

/-! ## What the account says -/

/-- The number of brackets that tokens leave open; one that closes none has no say. -/
def openBrackets (ts : List Token) : Nat :=
  ts.foldl (fun (depth : Nat) t => (depth + Line.bracketDelta t).toNat) 0

/-- Marks of blocks and comments can stand between a line end and a statement. -/
def isAside (t : Token) : Bool :=
  match t.kind with
  | .indent | .dedent | .comment => true
  | _ => false

namespace Outline

theorem next_depth (o : Outline) (t : Token) : (o.next t).depth = (o.depth + Line.bracketDelta t).toNat := by
  show State.bracketDepth o.depth t.kind = _
  unfold Line.bracketDelta
  cases t.kind with
  | delimiter mark => cases mark <;> simp only [State.bracketDepth] <;> omega
  | _ => simp only [State.bracketDepth]; omega

theorem depth_foldl (ts : List Token) (o : Outline) : (ts.foldl next o).depth =
    ts.foldl (fun (depth : Nat) t => (depth + Line.bracketDelta t).toNat) o.depth := by
  induction ts generalizing o with
  | nil => rfl
  | cons t ts ih => rw [foldl_cons, ih, next_depth, foldl_cons]

theorem next_fresh (o : Outline) (t : Token) :
    (o.next t).fresh = if isAside t then o.fresh else t.kind == .newline := by
  unfold next isAside
  cases t.kind <;> rfl

theorem newline_of_fresh {ts : List Token} {o : Outline} (h : (ts.foldl next o).fresh = true)
    (ht : (ts.filter (!isAside ·)).getLast? = some t) : t.kind = .newline := by
  induction ts using List.reverseRecOn with
  | nil => cases ht
  | append_singleton ts u ih =>
    rw [foldl_append, foldl_cons, foldl_nil, next_fresh] at h
    rw [filter_append] at ht
    cases hu : isAside u with
    | true =>
      rw [if_pos hu] at h
      rw [filter_cons_of_neg (by simp [hu]), filter_nil, append_nil] at ht
      exact ih h ht
    | false =>
      rw [if_neg (by simp [hu])] at h
      rw [filter_cons_of_pos (by simp [hu]), filter_nil, getLast?_concat] at ht
      cases ht
      exact eq_of_beq h

end Outline

namespace Laid

variable {stop : Nat} {o : Outline}

theorem admits (h : Laid stop o (before ++ t :: after)) :
    (before.foldl Outline.next o).Admits stop t := by
  induction before generalizing o with
  | nil =>
    cases h with
    | token hfits _ => exact hfits
  | cons u before ih =>
    cases h with
    | token _ hrest => exact ih hrest

theorem closes {ts : List Token} (h : Laid stop o ts) : (ts.foldl Outline.next o).blocks = 0 := by
  induction h with
  | done hclosed => exact hclosed
  | token _ _ ih => exact ih

theorem blocks (h : Laid stop o (before ++ after)) :
    (before.foldl Outline.next o).blocks + before.countP (·.kind == .dedent) =
    o.blocks + before.countP (·.kind == .indent) := by
  induction before generalizing o with
  | nil => rfl
  | cons t before ih =>
    cases h with
    | token hfits hrest =>
      have hstep : (o.next t).blocks + (if t.kind == .dedent then 1 else 0) =
          o.blocks + (if t.kind == .indent then 1 else 0) := by
        have hopened := hfits.opened
        unfold Outline.next
        cases hkind : t.kind <;> simp_all
        omega
      have := ih hrest
      rw [foldl_cons, countP_cons, countP_cons]
      omega

end Laid

/-- The layout of every text is well nested and keeps out of brackets. No block closes that was not
opened, and in the end all are closed. Blocks open and close at the beginning of lines only. Within
brackets there are no line ends and no blocks, until the text is over. -/
theorem tokenize_layout (source : List Char) : (∀ before after, tokenize source = before ++ after →
      before.countP (·.kind == .dedent) ≤ before.countP (·.kind == .indent)) ∧
    (tokenize source).countP (·.kind == .dedent) = (tokenize source).countP (·.kind == .indent) ∧
    (∀ before t after, tokenize source = before ++ t :: after → t.kind = .indent ∨ t.kind = .dedent →
      ∀ u, (before.filter (!isAside ·)).getLast? = some u → u.kind = .newline) ∧
    (∀ before t after, tokenize source = before ++ t :: after → 0 < openBrackets before →
      t.kind = .newline ∨ t.kind = .indent ∨ t.kind = .dedent →
      t.span.start = byteSize source) := by
  have hlaid := tokenize_laid source
  refine ⟨?_, ?_, ?_, ?_⟩
  · intro before after hsplit
    rw [hsplit] at hlaid
    have hblocks : _ = 0 + _ := hlaid.blocks
    omega
  · have hwhole := hlaid
    rw [← append_nil (tokenize source)] at hwhole
    have hblocks : _ = 0 + _ := hwhole.blocks
    have hclosed := hlaid.closes
    omega
  · intro before t after hsplit hkind u hu
    rw [hsplit] at hlaid
    exact Outline.newline_of_fresh (hlaid.admits.fresh hkind) hu
  · intro before t after hsplit hdepth hkind
    rw [hsplit] at hlaid
    refine hlaid.admits.outside hkind ?_
    rw [Outline.depth_foldl]
    exact hdepth

/-- A block opens behind a comment and a line end. A bracket in it that nothing closes keeps all
other layout back to the end of the text. -/
theorem tokenize_layout_unclosed : let source := "if é // b\n    f(\n  c\n".toList
    (∃ before t after, tokenize source = before ++ t :: after ∧ t.kind = .indent ∧
      ∃ u, (before.filter (!isAside ·)).getLast? = some u ∧ u.kind = .newline) ∧
    ∃ before t after, tokenize source = before ++ t :: after ∧ 0 < openBrackets before ∧
      t.kind = .newline ∧ t.span.start = byteSize source := by
  intro source
  obtain ⟨-, -, hlines, hbrackets⟩ := tokenize_layout source
  have hindent : tokenize source = (tokenize source).take 4 ++
      ⟨.indent, ⟨15, 15, 2, 5⟩, ""⟩ :: (tokenize source).drop 5 := by decide +kernel
  have hlast : (((tokenize source).take 4).filter (!isAside ·)).getLast? =
      some ⟨.newline, ⟨10, 11, 1, 10⟩, "\n"⟩ := by decide +kernel
  have hnewline : tokenize source = (tokenize source).take 8 ++
      ⟨.newline, ⟨22, 22, 4, 1⟩, ""⟩ :: (tokenize source).drop 9 := by decide +kernel
  have hopen : 0 < openBrackets ((tokenize source).take 8) := by decide +kernel
  exact ⟨⟨_, _, _, hindent, rfl, _, hlast, hlines _ _ _ hindent (.inl rfl) _ hlast⟩,
    _, _, _, hnewline, hopen, rfl, hbrackets _ _ _ hnewline hopen (.inl rfl)⟩

end ChartScript.Lexer
