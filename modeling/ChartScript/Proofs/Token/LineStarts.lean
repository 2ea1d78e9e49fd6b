import ChartScript.Proofs.Token.Lossless
import ChartScript.Proofs.Token.RowEnds
/-!
# Where statements end

A line feed that ends a statement divides the work: the tokens up to it depend on nothing behind it,
and behind it the pass begins anew, but for the blocks that are open and the place it has come to.
-/
namespace ChartScript

open List Text

namespace Lexer

/-- The point is at the beginning, or right behind a line feed that is a token. -/
def LineStart (before after : List Char) : Prop :=
  before = [] ∨ ∃ text, before = text ++ ['\n'] ∧
    ∃ t ∈ tokenize (before ++ after), t.kind = .newline ∧ t.span.start = byteSize text

/-! ## Looking ahead up to a line feed -/

theorem onRow_newline (xs rest : List Char) : onRow (xs ++ '\n' :: rest) = onRow xs := by
  induction xs with
  | nil => rfl
  | cons c xs ih =>
    by_cases hc : c = '\n'
    · subst hc
      rfl
    · rw [cons_append, onRow_cons _ hc, ih, onRow_cons _ hc]

theorem continuesStatement_newline (indents : List Nat) (xs rest : List Char) :
    continuesStatement indents (xs ++ '\n' :: rest) = continuesStatement indents xs := by
  rw [← continuesStatement_onRow, onRow_newline, continuesStatement_onRow]

theorem hasNoIndentation_newline (xs rest : List Char) :
    hasNoIndentation (xs ++ '\n' :: rest) = hasNoIndentation xs := by
  rw [← hasNoIndentation_onRow, onRow_newline, hasNoIndentation_onRow]

theorem head?_newline (xs rest rest' : List Char) : (xs ++ '\n' :: rest).head? = (xs ++ '\n' :: rest').head? := by
  cases xs <;> rfl

theorem blockCommentLength_newline {xs : List Char} (rest rest' : List Char)
    (h : blockCommentLength (xs ++ '\n' :: rest) ≤ xs.length) :
    blockCommentLength (xs ++ '\n' :: rest') = blockCommentLength (xs ++ '\n' :: rest) := by
  induction xs with
  | nil =>
    rw [nil_append, blockCommentLength_cons, if_neg (by simp)] at h
    simp at h
  | cons c xs ih =>
    rw [cons_append, blockCommentLength_cons] at h
    rw [cons_append, cons_append, blockCommentLength_cons, blockCommentLength_cons, head?_newline xs rest' rest]
    split
    · rfl
    · next hopen =>
      rw [if_neg hopen, length_cons] at h
      rw [ih (by omega)]

theorem lexeme_newline {c : Char} {xs rest : List Char} {kind : TokenKind} {n : Nat}
    (rest' : List Char) (h : lexeme c (xs ++ '\n' :: rest) = .token kind n)
    (hn : n ≤ (c :: xs).length) : lexeme c (xs ++ '\n' :: rest') = .token kind n := by
  by_cases hk : kind = .comment
  · subst hk
    have hblank := isBlank_of_token h
    have hhead := head?_newline xs rest' rest
    obtain ⟨rfl, ⟨hd, rfl⟩ | ⟨hd, rfl⟩⟩ := comment_cases h
    · rw [lexeme, if_neg (by simp [hblank]), if_pos ⟨rfl, hhead.trans hd⟩, ← onRow, ← onRow,
        onRow_newline, onRow_newline]
    · rw [lexeme, if_neg (by simp [hblank]), if_neg (by simp [hhead.trans hd]), if_pos ⟨rfl, hhead.trans hd⟩]
      cases xs with
      | nil => cases hd
      | cons d xs =>
        simp only [cons_append, drop_succ_cons, drop_zero, length_cons] at hn ⊢
        rw [blockCommentLength_newline rest rest' (by omega)]
  · have hstart := startsComment_of_token h hk
    have hrow : ∀ rest, startsComment (c :: (xs ++ '\n' :: rest)) = startsComment (c :: onRow xs) :=
      fun rest => by rw [← startsComment_onRow, onRow_newline]
    have hstart' : startsComment (c :: (xs ++ '\n' :: rest')) = false := by rw [hrow, ← hrow rest, hstart]
    rw [← lexeme_onRow hstart', onRow_newline, ← onRow_newline xs rest, lexeme_onRow hstart, h]

/-! ## Dividing the pass -/

def State.Indented (s : State) : Prop :=
  ∀ width ∈ s.indents, 0 < width

theorem State.Indented.settle {s : State} (h : s.Indented) (cs : List Char) : (s.settle cs).2.Indented := by
  unfold State.settle
  split
  · exact h
  · next width _ =>
    split
    · exact h
    · have hstill : ∀ w ∈ s.indents.dropWhile (width < ·), 0 < w := fun w hw => h w ((dropWhile_suffix _).mem hw)
      intro w hw
      simp only [reindent] at hw
      split at hw
      · next hdeeper =>
        rcases mem_cons.1 hw with rfl | hw
        · omega
        · exact hstill w hw
      · exact hstill w hw

/-- From `s` on, `text` is read as `ts`, and the pass goes on in `s'`, as long as what follows has the
given property. -/
structure Divides (s : State) (text : List Char) (p : List Char → Prop) (ts : List Token)
    (s' : State) : Prop where
  scan_eq (next : List Char) : p next → scan 0 s (text ++ next) = ts ++ scan 0 s' next
  position : s'.position = s.position.after text
  indented : s.Indented → s'.Indented

theorem Divides.behind {s s₁ s' : State} {text : List Char} {p : List Char → Prop} {ts : List Token}
    (h : Divides s₁ text p ts s') (read : List Char) (new : List Token)
    (hscan : ∀ next, p next → scan 0 s (read ++ text ++ next) = new ++ scan 0 s₁ (text ++ next))
    (hp : s₁.position = s.position.after read) (hi : s.Indented → s₁.Indented) :
    Divides s (read ++ text) p (new ++ ts) s' where
  scan_eq next hnext := by rw [hscan next hnext, h.scan_eq next hnext, append_assoc]
  position := by rw [h.position, hp, Position.after_append]
  indented hs := h.indented (hi hs)

def Separate (known next : List Char) : Prop :=
  next = known ∨ ∀ indents, continuesStatement indents next = false

/-- The pass is at the beginning of a line that begins a statement, if anything. -/
structure State.IsFresh (s : State) : Prop where
  margin : s.margin = some 0
  hasContent : s.hasContent = false
  depth : s.depth = 0

theorem offset_le_of_mem_scan {cs : List Char} {s : State} {t : Token} (ht : t ∈ scan 0 s cs) :
    s.position.offset ≤ t.span.start :=
  (scan_tiles s cs).offset_le t ht

def DividesAt (s : State) (text known : List Char) (t : Token) : Prop :=
  t = (s.position.after text).token .newline ['\n'] ∧
    ∃ ts s', Divides s (text ++ ['\n']) (Separate known) (ts ++ [t]) s' ∧ s'.IsFresh

section

variable {known : List Char} {s : State} {t : Token}

theorem dividesAt_nil (ht : t ∈ scan 0 s ('\n' :: known))
    (hstart : t.span.start = s.position.offset) : DividesAt s [] known t := by
  have hlater : ∀ s' : State, s'.position = s.position.advance '\n' → t ∉ scan 0 s' known := by
    intro s' hp hmem
    have := offset_le_of_mem_scan hmem
    rw [hp, Position.advance_offset] at this
    have := ('\n' : Char).utf8Size_pos
    omega
  rw [scan_newline] at ht
  split at ht
  · next hends =>
    rcases mem_cons.1 ht with rfl | ht
    · have hdepth : s.depth = 0 := by
        simp only [State.endsStatement, Bool.and_eq_true, beq_iff_eq] at hends
        exact hends.1
      refine ⟨rfl, [], s.below, ⟨fun next hnext => ?_, rfl, id⟩, rfl, rfl, hdepth⟩
      have hends' : s.endsStatement next = true := by
        rcases hnext with rfl | hnext
        · exact hends
        · simp [State.endsStatement, hdepth, hnext]
      rw [nil_append, singleton_append, scan_newline, if_pos hends']
      rfl
    · exact absurd ht (hlater _ rfl)
  · exact absurd ht (hlater _ rfl)

theorem DividesAt.behind (read : List Char) {more : List Char} (new : List Token) (s₁ : State)
    (ih : t ∈ scan 0 s₁ (more ++ '\n' :: known) →
      t.span.start = s₁.position.offset + byteSize more → DividesAt s₁ more known t)
    (ht : t ∈ scan 0 s (read ++ more ++ '\n' :: known))
    (hstart : t.span.start = s.position.offset + byteSize (read ++ more))
    (hscan : ∀ next, scan 0 s (read ++ more ++ '\n' :: next) = new ++ scan 0 s₁ (more ++ '\n' :: next))
    (hnew : t ∉ new) (hp : s₁.position = s.position.after read) (hi : s.Indented → s₁.Indented) :
    DividesAt s (read ++ more) known t := by
  rw [hscan, mem_append] at ht
  have hplace : t.span.start = s₁.position.offset + byteSize more := by
    rw [hstart, byteSize_append, hp, Position.after_offset, Nat.add_assoc]
  obtain ⟨hnewline, ts, s', hdivides, hfresh⟩ := ih (ht.resolve_left hnew) hplace
  refine ⟨by rw [hnewline, hp, Position.after_append], new ++ ts, s', ?_, hfresh⟩
  have hbehind := hdivides.behind (s := s) read new (fun next _ => by simpa using hscan next) hp hi
  rwa [← append_assoc read, ← append_assoc new] at hbehind

variable {c : Char} {xs : List Char}

theorem settle_newline (s : State) (c : Char) (xs next : List Char) :
    s.settle (c :: (xs ++ '\n' :: next)) = s.settle (c :: xs) := by
  have hmargin := hasNoIndentation_newline (c :: xs) next
  rw [cons_append] at hmargin
  simp only [State.settle, hmargin]

theorem not_mem_settle (hstart : t.span.start = s.position.offset + byteSize (c :: xs)) :
    t ∉ (s.settle (c :: xs)).1 := by
  intro hmem
  obtain ⟨kinds, hkinds, -⟩ := settle_kinds s (c :: xs)
  rw [hkinds] at hmem
  obtain ⟨kind, -, rfl⟩ := mem_map.1 hmem
  have hpos : 0 < byteSize (c :: xs) := byteSize_pos (by simp)
  simp only [Position.token] at hstart
  omega

theorem dividesAt_newline (ih : ∀ s, t ∈ scan 0 s (xs ++ '\n' :: known) →
      t.span.start = s.position.offset + byteSize xs → DividesAt s xs known t)
    (ht : t ∈ scan 0 s ('\n' :: xs ++ '\n' :: known))
    (hstart : t.span.start = s.position.offset + byteSize ('\n' :: xs)) :
    DividesAt s ('\n' :: xs) known t := by
  have hends : ∀ next, s.endsStatement (xs ++ '\n' :: next) = s.endsStatement xs := fun next => by
    simp only [State.endsStatement, continuesStatement_newline]
  by_cases hend : s.endsStatement xs = true
  · refine .behind ['\n'] [s.position.token .newline ['\n']] s.below (ih _) ht hstart
      (fun next => ?_) (fun hmem => ?_) rfl id
    · show scan 0 s ('\n' :: (xs ++ '\n' :: next)) = _
      rw [scan_newline, hends, if_pos hend]
      rfl
    · have hpos : 0 < byteSize ('\n' :: xs) := byteSize_pos (by simp)
      rw [mem_singleton.1 hmem] at hstart
      simp only [Position.token] at hstart
      omega
  · refine .behind ['\n'] [] s.onward (ih _) ht hstart (fun next => ?_) (by simp) rfl id
    show scan 0 s ('\n' :: (xs ++ '\n' :: next)) = _
    rw [scan_newline, hends, if_neg hend]
    rfl

theorem dividesAt_blank (ih : ∀ s, t ∈ scan 0 s (xs ++ '\n' :: known) →
      t.span.start = s.position.offset + byteSize xs → DividesAt s xs known t)
    (hb : isBlank c = true) (hc : c ≠ '\n') (ht : t ∈ scan 0 s (c :: xs ++ '\n' :: known))
    (hstart : t.span.start = s.position.offset + byteSize (c :: xs)) :
    DividesAt s (c :: xs) known t := by
  by_cases hm : s.margin = none ∨ marginWidth? c = none
  · refine .behind [c] (s.settle (c :: xs)).1 ((s.settle (c :: xs)).2.advance c) (ih _) ht hstart
      (fun next => ?_) (not_mem_settle hstart)
      (s.settle_advance c _) (·.settle _)
    show scan 0 s (c :: (xs ++ '\n' :: next)) = _
    rw [scan_blank _ hb hc hm, settle_newline]
  · obtain ⟨width, hw⟩ := Option.ne_none_iff_exists'.1 (fun h => hm (.inl h))
    obtain ⟨w, hcw⟩ := Option.ne_none_iff_exists'.1 (fun h => hm (.inr h))
    exact .behind [c] [] (s.indented c (width + w)) (ih _) ht hstart
      (fun next => scan_margin _ hw hcw) (by simp) rfl id

theorem dividesAt_word {kind : TokenKind} {n : Nat} (ih : ∀ s (more : List Char), more.length < (c :: xs).length →
      t ∈ scan 0 s (more ++ '\n' :: known) →
      t.span.start = s.position.offset + byteSize more → DividesAt s more known t)
    (hx : lexeme c (xs ++ '\n' :: known) = .token kind n)
    (ht : t ∈ scan 0 s (c :: xs ++ '\n' :: known))
    (hstart : t.span.start = s.position.offset + byteSize (c :: xs)) :
    DividesAt s (c :: xs) known t := by
  have hnew : ∀ chars, t ∉ (s.settle (c :: xs)).1 ++ [s.position.token kind chars] := by
    intro chars
    rw [mem_append, mem_singleton]
    rintro (hmem | rfl)
    · exact not_mem_settle hstart hmem
    · have hpos : 0 < byteSize (c :: xs) := byteSize_pos (by simp)
      simp only [Position.token] at hstart
      omega
  have hn : n ≤ (c :: xs).length := by
    have hlater := ht
    rw [cons_append, (Advances.word hx).scan_eq, settle_newline, mem_append] at hlater
    have hle := offset_le_of_mem_scan (hlater.resolve_left (hnew _))
    rw [s.settle_past, Position.after_offset, hstart] at hle
    by_contra hlt
    obtain ⟨k, rfl⟩ : ∃ k, n = (c :: xs).length + (k + 1) := ⟨n - (c :: xs).length - 1, by omega⟩
    have hpos : 0 < byteSize ('\n' :: known.take k) := byteSize_pos (by simp)
    rw [← cons_append, take_length_add_append, take_succ_cons, byteSize_append] at hle
    omega
  have hlength := (lexeme_length hx).1
  have hsplit : (c :: xs).take n ++ (c :: xs).drop n = c :: xs := take_append_drop n (c :: xs)
  have hbehind : DividesAt s ((c :: xs).take n ++ (c :: xs).drop n) known t := by
    refine .behind _ ((s.settle (c :: xs)).1 ++ [s.position.token kind ((c :: xs).take n)])
      ((s.settle (c :: xs)).2.past kind (c :: xs) n)
      (ih _ _ ?_) (by rwa [hsplit]) (by rwa [hsplit]) (fun next => ?_) (hnew _)
      (s.settle_past kind n _ _) (fun hs => hs.settle (c :: xs))
    · rw [length_drop, length_cons]
      omega
    · rw [hsplit, cons_append, (Advances.word (lexeme_newline next hx hn)).scan_eq, settle_newline,
        ← cons_append, State.past, State.past, take_append_of_le_length hn, drop_append_of_le_length hn]
  rwa [hsplit] at hbehind

end

theorem dividesAt {known : List Char} {t : Token} (text : List Char) (s : State)
    (ht : t ∈ scan 0 s (text ++ '\n' :: known))
    (hstart : t.span.start = s.position.offset + byteSize text) : DividesAt s text known t := by
  induction hlen : text.length using Nat.strongRecOn generalizing text s with
  | _ len ih =>
    cases text with
    | nil => exact dividesAt_nil ht (by simpa [byteSize] using hstart)
    | cons c xs =>
      have hxs : xs.length < len := by rw [← hlen, length_cons]; omega
      have ihxs : ∀ s, t ∈ scan 0 s (xs ++ '\n' :: known) →
          t.span.start = s.position.offset + byteSize xs → DividesAt s xs known t :=
        fun s ht hstart => ih xs.length hxs xs s ht hstart rfl
      by_cases hc : c = '\n'
      · subst hc
        exact dividesAt_newline ihxs ht hstart
      · cases hx : lexeme c (xs ++ '\n' :: known) with
        | gap => exact dividesAt_blank ihxs (isBlank_of_gap hx) hc ht hstart
        | token kind n =>
          exact dividesAt_word (fun s more hlt ht hstart =>
            ih more.length (hlen ▸ hlt) more s ht hstart rfl) hx ht hstart

def EndsLine (before : List Char) (ts : List Token) : Prop :=
  (before = [] ∧ ts = []) ∨ ∃ text ts', before = text ++ ['\n'] ∧
    ts = ts' ++ [(State.start.position.after text).token .newline ['\n']]

theorem divides_of_lineStart {before after : List Char} (h : LineStart before after) :
    ∃ ts s', Divides .start before (Separate after) ts s' ∧ s'.IsFresh ∧ EndsLine before ts := by
  rcases h with rfl | ⟨text, rfl, t, ht, hk, hstart⟩
  · exact ⟨[], .start, ⟨fun _ _ => rfl, rfl, id⟩, ⟨rfl, rfl, rfl⟩, .inl ⟨rfl, rfl⟩⟩
  · rw [append_assoc] at ht
    obtain ⟨rfl, ts, s', hdivides, hfresh⟩ := dividesAt text .start ht (by rw [hstart]; exact (Nat.zero_add _).symm)
    exact ⟨_, s', hdivides, hfresh, .inr ⟨text, ts, rfl, rfl⟩⟩

end Lexer

end ChartScript
