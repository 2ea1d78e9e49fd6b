import ChartScript.Proofs.Script.RelocatedWalk
import ChartScript.Proofs.Token.Indentation
import ChartScript.Proofs.Token.LineStarts
import ChartScript.Proofs.Token.Positions
/-!
# Scripts divided at a line end

What is read of the tokens before a line end and of those behind it can be put together: lines, used
names and called names lie on one side or the other.
-/
namespace ChartScript

open List Text Statement

def Complete (ts : List Token) : Prop :=
  ∀ t ∈ ts.getLast?, isLayout t = true

variable {t : Token} {ts xs : List Token} {p : Token → Bool}

namespace Complete

theorem tail (h : Complete (t :: ts)) : Complete ts := by
  intro u hu
  cases ts with
  | nil => cases hu
  | cons v ts => exact h u (by rwa [getLast?_cons_cons])

theorem ne_nil_of_word (h : Complete (t :: ts)) (ht : isLayout t = false) : ts ≠ [] := by
  rintro rfl
  rw [h t rfl] at ht
  cases ht

theorem concat (ts : List Token) (ht : isLayout t = true) : Complete (ts ++ [t]) := by
  intro u hu
  rw [getLast?_concat] at hu
  cases hu
  exact ht

theorem filter_comments (h : Complete ts) : Complete (ts.filter (·.kind != .comment)) := by
  rcases eq_nil_or_concat' ts with rfl | ⟨ts, t, rfl⟩
  · exact h
  · have ht : isLayout t = true := h t getLast?_concat
    have hkept : [t].filter (·.kind != .comment) = [t] := filter_eq_self.2 fun u hu => by
        rw [mem_singleton.1 hu]
        exact kind_ne_comment ht
    rw [filter_append, hkept]
    exact concat _ ht

end Complete

namespace Statement

theorem items_word {rest : List Token} (h : isLayout t = false) : items (t :: rest) =
    match rest.head?.any (!isLayout ·), items rest with
    | true, .line tokens :: more => .line (t :: tokens) :: more
    | _, more => .line [t] :: more := by
  unfold isLayout at h
  rw [items]
  split at h
  · cases h
  · cases h
  · cases h
  · cases h
  · next h1 h2 h3 h4 =>
    split
    · next hk => exact absurd hk h1
    · next hk => exact absurd hk h4
    · next hk => exact absurd hk h2
    · next hk => exact absurd hk h3
    · rfl

theorem isLayout_of_isWord (h : t.isWord = true) : isLayout t = false := by
  unfold Token.isWord at h
  unfold isLayout
  split at h
  · next hk => rw [hk]
  · next hk => rw [hk]
  · cases h

theorem items_append (h : Complete xs) (ys : List Token) : items (xs ++ ys) = items xs ++ items ys := by
  induction xs with
  | nil => rfl
  | cons t xs ih =>
    have hrest := ih h.tail
    rw [cons_append]
    cases ht : isLayout t with
    | true =>
      unfold isLayout at ht
      split at ht
      · next hk => rw [items, hk, items, hk]; exact hrest
      · next hk => rw [items, hk, items, hk]; simp only [hrest, cons_append]
      · next hk => rw [items, hk, items, hk]; simp only [hrest, cons_append]
      · next hk => rw [items, hk, items, hk]; exact hrest
      · cases ht
    | false =>
      -- the line goes on up to layout, and that is before the end of `xs`
      have hne := h.ne_nil_of_word ht
      rw [items_word ht, items_word ht, head?_append_of_ne_nil _ hne, hrest]
      cases xs with
      | nil => exact absurd rfl hne
      | cons u xs =>
        cases hu : isLayout u with
        | true => simp [hu]
        | false => simp [hu, items_line xs hu]

end Statement

/-! ## Places of layout -/

section

variable {φ ψ : Span → Span}

def SameWords (φ ψ : Span → Span) (ts : List Token) : Prop :=
  ∀ t ∈ ts, isLayout t = false → t.relocate φ = t.relocate ψ

theorem SameWords.tail (h : SameWords φ ψ (t :: ts)) : SameWords φ ψ ts :=
  fun u hu => h u (mem_cons_of_mem t hu)

theorem Statement.items_congr (h : SameWords φ ψ ts) :
    items (ts.map (·.relocate φ)) = items (ts.map (·.relocate ψ)) := by
  rw [items_relocate, items_relocate]
  apply map_congr_left
  intro item hitem
  cases item with
  | indent => rfl
  | dedent => rfl
  | line line =>
    obtain ⟨-, hwords, before, after, rfl, -⟩ := line_of_mem_items hitem
    rw [Item.relocate, Item.relocate, Item.line.injEq]
    exact map_congr_left fun t ht => h t (by simp [ht]) (hwords t ht)

def Script.writtenLines (ts : List Token) : List Nat :=
  (ts.filter fun t => !t.kind.isTrivia && t.kind != .eof).map (·.span.line)

theorem Script.writtenLines_congr (h : SameWords φ ψ ts) :
    writtenLines (ts.map (·.relocate φ)) = writtenLines (ts.map (·.relocate ψ)) := by
  unfold writtenLines
  rw [filter_map, filter_map, map_map, map_map]
  apply map_congr_left
  intro t ht
  obtain ⟨hmem, hkind⟩ := mem_filter.1 ht
  have hword : isLayout t = false := by
    unfold isLayout
    split
    · next hk => simp [hk, TokenKind.isTrivia] at hkind
    · next hk => simp [hk, TokenKind.isTrivia] at hkind
    · next hk => simp [hk, TokenKind.isTrivia] at hkind
    · next hk => simp [hk] at hkind
    · rfl
  exact congrArg (·.span.line) (h t hmem hword)

/-- What is read of tokens line by line: where lines and the text end has no part in it, nor have the
places of layout. -/
structure ReadsLines {α : Type} (read : List Token → List α) : Prop where
  append {xs : List Token} (h : Complete xs) (ys : List Token) : read (xs ++ ys) = read xs ++ read ys
  ending {t : Token} (h : t.kind = .newline ∨ t.kind = .eof) (ts : List Token) : read (t :: ts) = read ts
  congr {φ ψ : Span → Span} {ts : List Token} (h : SameWords φ ψ ts) :
    read (ts.map (·.relocate φ)) = read (ts.map (·.relocate ψ))

theorem Statement.readsLines_items : ReadsLines items where
  append := items_append
  ending h ts := by rcases h with h | h <;> rw [items, h]
  congr := items_congr

namespace Script

/-- What is found at words only, by words that follow in the line. -/
structure ReadsWords {α : Type} (find? : Token → List Token → Option α) : Prop where
  layout {t : Token} (h : isLayout t = true) (rest : List Token) : find? t rest = none
  append (t : Token) {rest : List Token} (hne : rest ≠ []) (h : Complete rest) (ys : List Token) :
    find? t (rest ++ ys) = find? t rest
  congr {φ ψ : Span → Span} {t : Token} {rest : List Token} (h : SameWords φ ψ (t :: rest)) :
    find? (t.relocate φ) (rest.map (·.relocate φ)) = find? (t.relocate ψ) (rest.map (·.relocate ψ))

theorem ReadsWords.readsLines {α : Type} {find? : Token → List Token → Option α}
    (hfind : ReadsWords find?) : ReadsLines (gather find?) where
  append {xs} h ys := by
    induction xs with
    | nil => rfl
    | cons t xs ih =>
      have hsame : find? t (xs ++ ys) = find? t xs := by
        cases xs with
        | nil => rw [hfind.layout (h t rfl), hfind.layout (h t rfl)]
        | cons u xs => exact hfind.append t (cons_ne_nil u xs) h.tail ys
      rw [cons_append, gather, gather, hsame, ih h.tail, append_assoc]
  ending h ts := by
    rw [gather, hfind.layout (by rcases h with h | h <;> simp [isLayout, h])]
    rfl
  congr {φ ψ ts} h := by
    induction ts with
    | nil => rfl
    | cons t ts ih => rw [map_cons, map_cons, gather, gather, hfind.congr h, ih h.tail]

theorem readsLines_memberUses : ReadsLines memberUses := by
  refine ReadsWords.readsLines ⟨fun {t} h rest => ?_, fun t rest hne h ys => ?_, fun {φ ψ t rest} h => ?_⟩
  · have hk : t.kind ≠ .qualifier := by
      intro hk
      simp [isLayout, hk] at h
    cases rest <;> simp [memberUse?, hk]
  · cases rest with
    | nil => exact absurd rfl hne
    | cons name rest =>
      rw [cons_append, memberUse?, memberUse?]
      split
      · next huse => rw [head?_append_of_ne_nil _ (h.ne_nil_of_word (isLayout_of_isWord huse.2))]
      · rfl
  · cases rest with
    | nil => rfl
    | cons name rest =>
      simp only [map_cons, memberUse?, Token.relocate_kind, Token.relocate_isWord]
      split
      · next huse =>
        have hq : isLayout t = false := by simp [isLayout, huse.1]
        have hname := isLayout_of_isWord huse.2
        rw [h t mem_cons_self hq, h name (mem_cons_of_mem _ mem_cons_self) hname]
        simp [Option.any_map]
      · rfl

theorem readsLines_calledNames : ReadsLines calledNames := by
  refine ReadsWords.readsLines ⟨fun {t} h rest => ?_, fun t rest hne _ ys => ?_, fun {φ ψ t rest} h => ?_⟩
  · refine if_neg fun hcall => ?_
    simp [isLayout, hcall.1] at h
  · rw [calledName?, calledName?, head?_append_of_ne_nil _ hne]
  · simp only [calledName?, Token.relocate_kind, head?_map, Option.any_map,
      Token.relocate_isDelimiter]
    split
    · next hcall => rw [h t mem_cons_self (by simp [isLayout, hcall.1])]
    · rfl

end Script

theorem Script.readsLines_writtenLines : ReadsLines writtenLines where
  append _ ys := by simp [writtenLines]
  ending h ts := by rcases h with h | h <;> simp [writtenLines, h, TokenKind.isTrivia]
  congr := writtenLines_congr

end

variable {line : List Token} {k : Nat}

theorem Statement.line_mem_items (h : line ∈ linesAll (tree ts)) : .line line ∈ items ts := by
  rw [linesAll_tree, mem_filterMap] at h
  obtain ⟨item, hitem, hline⟩ := h
  cases item with
  | indent => cases hline
  | dedent => cases hline
  | line _ =>
    cases hline
    exact hitem

theorem Statement.mem_of_line_mem (h : .line line ∈ items (ts.filter p)) :
    ∀ t ∈ line, t ∈ ts := by
  obtain ⟨-, -, pre, post, heq, -⟩ := line_of_mem_items h
  intro t ht
  have hmem : t ∈ ts.filter p := by simp [heq, ht]
  exact (mem_filter.1 hmem).1

/-! ## Pieces of a text -/

theorem Span.Exact.slice_before {sp : Span} {before after : List Char}
    (h : sp.Exact (before ++ after)) (hstop : sp.stop ≤ byteSize before) (next : List Char) :
    slice (before ++ next) sp.start sp.stop = slice (before ++ after) sp.start sp.stop := by
  obtain ⟨pre, rest, hsource, hstart, hsize⟩ := h.cuts.divides
  generalize (slice (before ++ after) sp.start sp.stop).getD [] = piece at hsource hsize
  rw [← append_assoc] at hsource
  obtain ⟨m, rfl, -⟩ := divide_further hsource.symm (by rw [Lexer.byteSize_append]; omega)
  rw [hsize, ← hstart, append_assoc, append_assoc, append_assoc, append_assoc, slice_append, slice_append]

theorem Span.Exact.slice_behind {sp : Span} {before after : List Char} (h : sp.Exact (before ++ after))
    (hstart : byteSize before ≤ sp.start) (new : List Char) :
    slice (before ++ (new ++ after)) (sp.start + byteSize new) (sp.stop + byteSize new) =
    slice (before ++ after) sp.start sp.stop := by
  obtain ⟨pre, rest, hsource, hpre, hsize⟩ := h.cuts.divides
  generalize (slice (before ++ after) sp.start sp.stop).getD [] = piece at hsource hsize
  obtain ⟨m, rfl, rfl⟩ := divide_further hsource (by omega)
  have hmoved : before ++ (new ++ (m ++ (piece ++ rest))) = (before ++ new ++ m) ++ (piece ++ rest) := by simp
  have hplace : sp.start + byteSize new = byteSize (before ++ new ++ m) := by
    rw [← hpre]
    simp only [Lexer.byteSize_append]
    omega
  rw [hsource, show sp.stop + byteSize new = byteSize (before ++ new ++ m) + byteSize piece by omega,
    hplace, hmoved, hsize, ← hpre, slice_append, slice_append]

/-! ## Brackets -/

namespace Line

theorem closingPosition?_append {depth : Int} (h : closingPosition? depth xs = some k)
    (ys : List Token) : closingPosition? depth (xs ++ ys) = some k ∧ k < xs.length := by
  induction xs generalizing depth k with
  | nil => cases h
  | cons t xs ih =>
    rw [closingPosition?] at h
    rw [cons_append, closingPosition?, length_cons]
    split at h
    · next hclosed =>
      cases h
      exact ⟨if_pos hclosed, by omega⟩
    · next hopen =>
      obtain ⟨j, hj, rfl⟩ := Option.map_eq_some_iff.1 h
      obtain ⟨hsame, hlt⟩ := ih hj
      exact ⟨by rw [if_neg hopen, hsame]; rfl, by omega⟩

theorem bracketDelta_cases (t : Token) : bracketDelta t = 1 ∨ bracketDelta t = -1 ∨ bracketDelta t = 0 := by
  unfold bracketDelta
  split <;> simp

theorem matchingClose?_zero (ts : List Token) : matchingClose? ts 0 = closingPosition? 0 ts := by
  rw [matchingClose?, drop_zero]
  cases closingPosition? 0 ts <;> simp

theorem exists_closingPosition {n : Nat}
    (h : ts.foldl (fun (depth : Nat) t => (depth + bracketDelta t).toNat) (n + 1) = 0) :
    ∃ k, closingPosition? (n + 1) ts = some k := by
  induction ts generalizing n with
  | nil => cases h
  | cons t ts ih =>
    rw [closingPosition?]
    by_cases hclosed : (n : Int) + 1 + bracketDelta t = 0
    · exact ⟨0, if_pos hclosed⟩
    · obtain ⟨m, hm⟩ : ∃ m : Nat, (n : Int) + 1 + bracketDelta t = m + 1 := by
        rcases bracketDelta_cases t with hd | hd | hd
        · exact ⟨n + 1, by rw [hd]; push_cast; omega⟩
        · exact ⟨n - 1, by rw [hd] at hclosed ⊢; omega⟩
        · exact ⟨n, by rw [hd]; omega⟩
      have hstep : (((n + 1 : Nat) : Int) + bracketDelta t).toNat = m + 1 := by
        push_cast
        omega
      rw [foldl_cons, hstep] at h
      obtain ⟨k, hk⟩ := ih h
      exact ⟨k + 1, by rw [if_neg hclosed, hm, hk]; rfl⟩

end Line

/-! ## Headers -/

namespace Header

def version? (tokens : List Token) : Option Nat :=
  ((tokens.filter (·.kind == .comment)).findSome? fun t => versionText? t.text).bind
    Decimal.readNat32?

def opening (tokens : List Token) : List Token :=
  (tokens.filter (·.kind != .comment)).dropWhile (·.kind.isTrivia)

/-- What a declaration says, given with the tokens that follow it. -/
def declared? : List Token → Option (ScriptKind × String)
  | [] => none
  | declaration :: after => do
    let kind ← (readKind declaration).toOption
    guard (after.head?.any (·.isDelimiter .openParen))
    let (args, _) ← (Line.arguments after 0).toOption
    let name ← (Line.bind args ["title"]).lookup "title" >>= Literal.text?
    return (kind, name)

theorem readVersion_toOption (tokens : List Token) : (readVersion tokens).toOption = version? tokens := by
  unfold readVersion version?
  dsimp only
  have hfind : ∀ ts : List Token, ((ts.findSome? fun t => (versionText? t.text).map (t.span, ·)).map
      Prod.snd) = ts.findSome? fun t => versionText? t.text := by
    intro ts
    induction ts with
    | nil => rfl
    | cons t ts ih =>
      rw [findSome?_cons, findSome?_cons]
      cases versionText? t.text with
      | none => exact ih
      | some text => rfl
  rw [← hfind]
  cases (tokens.filter (·.kind == .comment)).findSome? fun t =>
      (versionText? t.text).map (t.span, ·) with
  | none => rfl
  | some found =>
    obtain ⟨span, text⟩ := found
    simp only [Option.map_some, Option.bind_some]
    cases Decimal.readNat32? text <;> rfl

theorem head?_opening (tokens : List Token) :
    (tokens.filter (!·.kind.isTrivia)).head? = (opening tokens).head? := by
  unfold opening
  induction tokens with
  | nil => rfl
  | cons t tokens ih =>
    by_cases hcomment : t.kind = .comment
    · simpa [filter_cons, hcomment, TokenKind.isTrivia] using ih
    · cases htrivia : t.kind.isTrivia with
      | true => simpa [filter_cons, htrivia, hcomment] using ih
      | false => simp [htrivia, hcomment]

theorem read_toOption (tokens : List Token) : (read tokens).toOption =
    (version? tokens).bind fun v => (declared? (opening tokens)).map fun d => ⟨v, d.1, d.2⟩ := by
  rw [← readVersion_toOption]
  unfold read
  have hhead := head?_opening tokens
  cases readVersion tokens with
  | error e => rfl
  | ok version =>
    cases hopening : opening tokens with
    | nil =>
      rw [hopening, head?_nil, head?_eq_none_iff] at hhead
      rw [hhead]
      rfl
    | cons declaration after =>
      obtain ⟨rest, hrest⟩ := head?_eq_some_iff.1 (hhead.trans (by rw [hopening]; rfl))
      have hafter : ((tokens.filter (·.kind != .comment)).dropWhile (·.kind.isTrivia)).drop 1 = after := by
        rw [← opening, hopening]
        rfl
      simp only [hrest, hafter, declared?]
      cases readKind declaration with
      | error e => rfl
      | ok kind =>
        cases after.head?.any (·.isDelimiter .openParen) with
        | false => rfl
        | true =>
          cases Line.arguments after 0 with
          | error e => rfl
          | ok found =>
            obtain ⟨args, close⟩ := found
            simp only [bind, Except.bind, if_true]
            cases hname : ((Line.bind args ["title"]).lookup "title").bind Literal.text? with
            | none => simp [Except.toOption, hname, throw, throwThe, MonadExceptOf.throw]
            | some name => simp [Except.toOption, hname, guard, pure, Except.pure]

theorem opening_append_of_none (h : opening xs = []) (ys : List Token) : opening (xs ++ ys) = opening ys := by
  unfold opening at h ⊢
  rw [filter_append, dropWhile_append, h]
  rfl

theorem opening_append (h : opening xs ≠ []) (ys : List Token) :
    opening (xs ++ ys) = opening xs ++ ys.filter (·.kind != .comment) := by
  unfold opening at h ⊢
  rw [filter_append, dropWhile_append, if_neg (by simpa using h)]

variable {φ : Span → Span}

theorem opening_relocate (ts : List Token) : opening (ts.map (·.relocate φ)) = (opening ts).map (·.relocate φ) := by
  have hdrop : ∀ ts : List Token, (ts.map (·.relocate φ)).dropWhile (·.kind.isTrivia) =
      (ts.dropWhile (·.kind.isTrivia)).map (·.relocate φ) := by
    intro ts
    induction ts with
    | nil => rfl
    | cons t ts ih =>
      cases h : t.kind.isTrivia with
      | true => simpa [h] using ih
      | false => simp [h]
  rw [opening, filter_map, hdrop]
  rfl

theorem declared?_relocate (ts : List Token) : declared? (ts.map (·.relocate φ)) = declared? ts := by
  cases ts with
  | nil => rfl
  | cons declaration after =>
    have hkind : (readKind (declaration.relocate φ)).toOption = (readKind declaration).toOption := by
      unfold readKind
      rw [Token.relocate_kind]
      split <;> rfl
    have hargs : (Line.arguments (after.map (·.relocate φ)) 0).toOption = _ := Line.arguments_relocate after 0
    rw [map_cons, declared?, declared?, hkind, hargs, head?_map, Option.any_map]
    cases (Line.arguments after 0).toOption with
    | none => rfl
    | some found =>
      obtain ⟨args, close⟩ := found
      simp only [Option.map_some, Option.bind_eq_bind, Option.bind_some, Prod.map_apply,
        Line.lookup_bind_relocate, literal_relocate, Token.relocate_isDelimiter]

theorem arguments_append (h : Line.closingPosition? 0 ts = some k) (ys : List Token) :
    Line.arguments (ts ++ ys) 0 = Line.arguments ts 0 := by
  obtain ⟨hsame, hlt⟩ := Line.closingPosition?_append h ys
  rw [Line.arguments, Line.arguments, Line.matchingClose?_zero, Line.matchingClose?_zero, hsame, h]
  simp only [Line.parts, take_append_of_le_length (Nat.le_of_lt hlt)]

theorem declared?_closed (h : Line.closingPosition? 0 ts = some k) (keyword : Token) (ys : List Token) :
    declared? (keyword :: (ts ++ ys)) = declared? (keyword :: ts) := by
  cases ts with
  | nil => cases h
  | cons bracket more =>
    simp only [declared?, arguments_append h]
    rfl

theorem readKind_eq_ok {kind : ScriptKind} (h : readKind t = .ok kind) :
    ∃ word ∈ [Keyword.indicator, .study, .strategy], t.kind = .keyword word := by
  unfold readKind at h
  split at h
  · next hk => exact ⟨_, by simp, hk⟩
  · next hk => exact ⟨_, by simp, hk⟩
  · next hk => exact ⟨_, by simp, hk⟩
  · cases h
  · cases h

theorem declared?_append (hne : ts ≠ []) (hcomplete : Complete ts) (hclosed : Lexer.openBrackets ts = 0)
    (xs ys : List Token) : declared? (ts ++ xs) = declared? (ts ++ ys) := by
  rcases ts with _ | ⟨declaration, after⟩
  · exact absurd rfl hne
  cases hkind : readKind declaration with
  | error e => simp [declared?, hkind, Except.toOption]
  | ok kind =>
    obtain ⟨word, -, hword⟩ := readKind_eq_ok hkind
    rcases after with _ | ⟨bracket, more⟩
    · exact absurd rfl (hcomplete.ne_nil_of_word (by simp [isLayout, hword]))
    cases hopen : bracket.isDelimiter .openParen with
    | false => simp [declared?, hopen]
    | true =>
      have hdelta : Line.bracketDelta bracket = 1 := by
        have hk : bracket.kind = .delimiter .openParen := by simpa [Token.isDelimiter] using hopen
        simp [Line.bracketDelta, hk]
      rw [Lexer.openBrackets, foldl_cons, foldl_cons, show Line.bracketDelta declaration = 0 by
        simp [Line.bracketDelta, hword], hdelta] at hclosed
      obtain ⟨k, hk⟩ := Line.exists_closingPosition (n := 0) hclosed
      have hcall : Line.closingPosition? 0 (bracket :: more) = some (k + 1) := by
        rw [Line.closingPosition?, hdelta, if_neg (by decide)]
        simpa using hk
      exact (declared?_closed hcall declaration xs).trans (declared?_closed hcall declaration ys).symm

end Header

theorem Complete.opening {ts : List Token} (h : Complete ts) : Complete (Header.opening ts) := by
  unfold Header.opening
  have hkept := h.filter_comments
  generalize ts.filter (·.kind != .comment) = us at hkept
  induction us with
  | nil => exact hkept
  | cons u us ih =>
    rw [dropWhile_cons]
    split
    · exact ih hkept.tail
    · exact hkept

/-! ## Tokens up to a line end -/

namespace Lexer

theorem openBrackets_filter (h : ∀ t, p t = false → Line.bracketDelta t = 0) (ts : List Token) :
    openBrackets (ts.filter p) = openBrackets ts := by
  have hfold : ∀ depth : Nat, (ts.filter p).foldl
      (fun (depth : Nat) t => (depth + Line.bracketDelta t).toNat) depth =
        ts.foldl (fun (depth : Nat) t => (depth + Line.bracketDelta t).toNat) depth := by
    induction ts with
    | nil => exact fun _ => rfl
    | cons t ts ih =>
      intro depth
      cases hp : p t with
      | true => rw [filter_cons_of_pos hp, foldl_cons, foldl_cons, ih]
      | false => rw [filter_cons_of_neg (by simp [hp]), foldl_cons, h t hp, ih]; simp
  exact hfold 0

theorem openBrackets_dropWhile (h : ∀ t, p t = true → Line.bracketDelta t = 0) (ts : List Token) :
    openBrackets (ts.dropWhile p) = openBrackets ts := by
  induction ts with
  | nil => rfl
  | cons t ts ih =>
    cases hp : p t with
    | true =>
      rw [dropWhile_cons_of_pos hp, ih, openBrackets, openBrackets, foldl_cons, h t hp]
      rfl
    | false => rw [dropWhile_cons_of_neg (by simp [hp])]

theorem openBrackets_opening (ts : List Token) : openBrackets (Header.opening ts) = openBrackets ts := by
  rw [Header.opening, openBrackets_dropWhile, openBrackets_filter]
  · intro t ht
    have hk : t.kind = .comment := by simpa using ht
    simp [Line.bracketDelta, hk]
  · intro t ht
    unfold TokenKind.isTrivia at ht
    split at ht
    · next hk => simp [Line.bracketDelta, hk]
    · next hk => simp [Line.bracketDelta, hk]
    · next hk => simp [Line.bracketDelta, hk]
    · next hk => simp [Line.bracketDelta, hk]
    · cases ht

variable {before after : List Char} {head tail : List Token}

theorem complete_of_endsLine (h : EndsLine before head) : Complete head := by
  rcases h with ⟨-, rfl⟩ | ⟨text, ts, -, rfl⟩
  · intro t ht
    cases ht
  · exact Complete.concat ts rfl

theorem openBrackets_of_endsLine (hsource : tokenize (before ++ after) = head ++ tail)
    (h : EndsLine before head) : openBrackets head = 0 := by
  rcases h with ⟨-, rfl⟩ | ⟨text, ts, rfl, rfl⟩
  · rfl
  have hlaid := tokenize_laid (text ++ ['\n'] ++ after)
  rw [hsource, append_assoc ts, singleton_append] at hlaid
  have hadmits : (ts.foldl Outline.next .start).Admits (byteSize (text ++ ['\n'] ++ after))
      ((State.start.position.after text).token .newline ['\n']) := hlaid.admits
  have hclosed : (ts.foldl Outline.next .start).depth = 0 := by
    by_contra hdepth
    have hplace := hadmits.outside (.inl rfl) (Nat.pos_of_ne_zero hdepth)
    simp only [Position.token, Position.after_offset, byteSize_append, byteSize,
      show State.start.position.offset = 0 from rfl] at hplace
    have := ('\n' : Char).utf8Size_pos
    omega
  rw [Outline.depth_foldl] at hclosed
  rw [openBrackets, foldl_append, show ts.foldl _ 0 = 0 from hclosed]
  rfl

end Lexer

/-! ## Whole scripts -/

namespace Script

def assembled (source : List Char) (ts : List Token) (header : Header) (declared : Declarations) :
    Script where
  toHeader := header
  toDeclarations := { declared with functions := withCallees (calledNames ts) declared.functions }
  source := source
  collectionUses := ((memberUses ts).filter fun u =>
    StatementForm.collectionQualifiers.contains u.1.qualifier).map (·.1)
  drawingCalls := ((memberUses ts).filter fun u =>
    StatementForm.drawingQualifiers.contains u.1.qualifier && u.2).map (·.1)
  indicators := sortedOnce (((memberUses ts).filter fun u => ["ta"].contains u.1.qualifier).map
    fun u => "ta." ++ u.1.member)
  codeLines := (writtenLines ts).eraseDups.length

theorem parse_toOption (source : List Char) : (parse source).toOption =
    if (tokenize source).any (·.kind == .unknown) then none else
      (Header.read (tokenize source)).toOption.bind fun header =>
        (collectAll source .top ⟨{}, false⟩ (tree (tokens source))).toOption.map
          fun r => assembled source (tokens source) header r.declared := by
  unfold parse
  dsimp only
  cases hbad : (tokenize source).find? (·.kind == .unknown) with
  | some bad =>
    have hany : (tokenize source).any (·.kind == .unknown) = true :=
      any_eq_true.2 ⟨bad, mem_of_find?_eq_some hbad, by simpa using find?_some hbad⟩
    rw [if_pos hany]
    rfl
  | none =>
    have hany : (tokenize source).any (·.kind == .unknown) = false := by
      rw [any_eq_false]
      exact fun t ht => find?_eq_none.1 hbad t ht
    rw [if_neg (by simp [hany])]
    cases Header.read (tokenize source) with
    | error e => rfl
    | ok header =>
      have htokens : (tokenize source).filter (·.kind != .comment) = tokens source := rfl
      simp only [bind, Except.bind, htokens]
      cases collectAll source .top ⟨{}, false⟩ (tree (tokens source)) with
      | error e => rfl
      | ok r => rfl

theorem assembled_of_parse {source : List Char} {s : Script} (h : parse source = .ok s) :
    ∃ header r, (Header.read (tokenize source)).toOption = some header ∧
    collectAll source .top ⟨{}, false⟩ (tree (tokens source)) = .ok r ∧
    s = assembled source (tokens source) header r.declared := by
  have hsome := parse_toOption source
  rw [h] at hsome
  split at hsome
  · cases hsome
  · obtain ⟨header, hheader, hrest⟩ := Option.bind_eq_some_iff.1 hsome.symm
    obtain ⟨r, hr, hs⟩ := Option.map_eq_some_iff.1 hrest
    refine ⟨header, r, hheader, ?_, hs.symm⟩
    cases hwalk : collectAll source .top ⟨{}, false⟩ (tree (tokens source)) with
    | error e => rw [hwalk] at hr; cases hr
    | ok found => rw [hwalk] at hr; cases hr; rfl

end Script

end ChartScript
