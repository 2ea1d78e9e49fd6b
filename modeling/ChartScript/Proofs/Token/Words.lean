import ChartScript.Proofs.Token.Lexeme
/-!
# The tokens of a text without its layout

Line ends and indentation decide where statements begin and end, but not how a text falls into
words. `words` reads the words alone, and the tokens of a text that are not layout are exactly
these. Words follow each other in the text without overlap, and behind each of them reading goes on
as if the text began there.
-/
namespace ChartScript.Lexer

open List Text Position Statement

/-! ## Points in a text -/

/-- The point behind a text that begins at `p`. -/
def Position.after (p : Position) (cs : List Char) : Position :=
  cs.foldl advance p

@[simp] theorem Position.after_nil (p : Position) : p.after [] = p := rfl

@[simp] theorem Position.after_cons (p : Position) (c : Char) (cs : List Char) :
    p.after (c :: cs) = (p.advance c).after cs := rfl

theorem Position.after_append (p : Position) (as bs : List Char) : p.after (as ++ bs) = (p.after as).after bs := by
  simp [after, foldl_append]

@[simp] theorem Position.advance_offset (p : Position) (c : Char) :
    (p.advance c).offset = p.offset + c.utf8Size := by
  unfold advance
  split <;> rfl

theorem Position.after_offset (p : Position) (cs : List Char) : (p.after cs).offset = p.offset + byteSize cs := by
  induction cs generalizing p with
  | nil => rfl
  | cons c cs ih => rw [after_cons, ih, advance_offset, byteSize]; omega

def Position.token (p : Position) (kind : TokenKind) (chars : List Char) : Token :=
  ⟨kind, ⟨p.offset, p.offset + byteSize chars, p.line, p.column⟩, String.ofList chars⟩

theorem State.token_eq (s : State) (kind : TokenKind) (chars : List Char) :
    s.token kind chars = s.position.token kind chars := rfl

/-! ## One step of the pass -/

def State.below (s : State) : State :=
  { s.advance '\n' with margin := some 0, hasContent := false }

def State.onward (s : State) : State :=
  { s.advance '\n' with margin := none }

def State.indented (s : State) (c : Char) (width : Nat) : State :=
  { s.advance c with margin := some width }

def State.past (s : State) (kind : TokenKind) (cs : List Char) (n : Nat) : State :=
  { s.note kind with position := s.position.after (cs.take n) }

variable {c : Char} {cs rest : List Char} {kind : TokenKind} {n skip : Nat} {s : State} {p : Position} {t : Token}

theorem isBlank_of_marginWidth {w : Nat} (h : marginWidth? c = some w) : isBlank c = true := by
  unfold marginWidth? at h
  split_ifs at h with h1 h2
  · rw [h1]; decide
  · rw [h2]; decide

theorem marginWidth_of_token (h : lexeme c rest = .token kind n) : marginWidth? c = none := by
  have hb := isBlank_of_token h
  cases hw : marginWidth? c with
  | none => rfl
  | some w => rw [isBlank_of_marginWidth hw] at hb; cases hb

theorem State.settle_of_none (cs : List Char) (h : s.margin = none) : s.settle cs = ([], s) := by
  rw [State.settle, h]

theorem State.settle_position (s : State) (cs : List Char) : (s.settle cs).2.position = s.position := by
  unfold State.settle
  split
  · rfl
  · split <;> rfl

theorem State.settle_advance (s : State) (c : Char) (cs : List Char) :
    ((s.settle cs).2.advance c).position = s.position.advance c := by
  rw [State.advance, s.settle_position]

theorem State.settle_past (s : State) (kind : TokenKind) (n : Nat) (cs cs' : List Char) :
    ((s.settle cs).2.past kind cs' n).position = s.position.after (cs'.take n) := by
  rw [State.past, s.settle_position]

theorem State.settle_margin (s : State) (cs : List Char) : (s.settle cs).2.margin = none := by
  unfold State.settle
  split
  · assumption
  · split <;> rfl

theorem State.settle_hasContent (s : State) (cs : List Char) : (s.settle cs).2.hasContent = s.hasContent := by
  unfold State.settle
  split
  · rfl
  · split <;> rfl

theorem State.settle_depth (s : State) (cs : List Char) : (s.settle cs).2.depth = s.depth := by
  unfold State.settle
  split
  · rfl
  · split <;> rfl

theorem State.settle_layout (s : State) (cs : List Char) : ∀ t ∈ (s.settle cs).1, isLayout t = true := by
  intro t ht
  unfold State.settle at ht
  split at ht
  · cases ht
  · split at ht
    · cases ht
    · obtain ⟨kind, hk, rfl⟩ := mem_map.1 ht
      simp only [reindent] at hk
      split at hk
      · rcases mem_append.1 hk with h | h
        · rw [eq_of_mem_replicate h]; rfl
        · rw [mem_singleton.1 h]; rfl
      · rw [eq_of_mem_replicate hk]; rfl

theorem State.finish_layout (s : State) : ∀ t ∈ s.finish, isLayout t = true := by
  intro t ht
  simp only [State.finish, mem_append, mem_map, mem_singleton] at ht
  rcases ht with (ht | ⟨_, _, rfl⟩) | rfl
  · split at ht
    · rw [mem_singleton.1 ht]; rfl
    · cases ht
  · rfl
  · rfl

theorem hasContent_past (hx : lexeme c rest = .token kind n) (s : State) (cs : List Char) :
    (s.past kind cs n).hasContent = (s.hasContent || kind != .comment) := by
  have hlayout := lexeme_not_layout hx .origin ""
  cases kind <;> simp_all [State.past, State.note, TokenKind.isTrivia, isLayout]

@[simp] theorem scan_nil (skip : Nat) (s : State) : scan skip s [] = s.finish := by
  cases skip <;> rfl

@[simp] theorem scan_skip (skip : Nat) (s : State) (c : Char) (rest : List Char) :
    scan (skip + 1) s (c :: rest) = scan skip (s.advance c) rest := rfl

theorem scan_margin {width w : Nat} (rest : List Char) (hm : s.margin = some width) (hw : marginWidth? c = some w) :
    scan 0 s (c :: rest) = scan 0 (s.indented c (width + w)) rest := by
  rw [scan, hm, hw]
  rfl

theorem scan_step (rest : List Char) (h : s.margin = none ∨ marginWidth? c = none) : scan 0 s (c :: rest) =
      match (s.settle (c :: rest)).2.lexeme c rest with
      | .gap => (s.settle (c :: rest)).1 ++ scan 0 ((s.settle (c :: rest)).2.advance c) rest
      | .token .newline _ =>
        (s.settle (c :: rest)).1 ++ s.position.token .newline [c] ::
          scan 0 { (s.settle (c :: rest)).2.advance c with margin := some 0, hasContent := false } rest
      | .token kind length =>
        (s.settle (c :: rest)).1 ++ s.position.token kind ((c :: rest).take length) ::
          scan (length - 1) (((s.settle (c :: rest)).2.note kind).advance c) rest := by
  have hp : (s.settle (c :: rest)).2.position = s.position := s.settle_position (c :: rest)
  rw [scan]
  generalize s.settle (c :: rest) = x at hp ⊢
  obtain ⟨layout, s'⟩ := x
  dsimp only at hp ⊢
  simp only [State.token_eq, hp]
  split
  · next hm hw => rcases h with h | h <;> simp_all
  · rfl

theorem scan_newline (s : State) (rest : List Char) : scan 0 s ('\n' :: rest) = if s.endsStatement rest then
        s.position.token .newline ['\n'] :: scan 0 s.below rest
      else scan 0 s.onward rest := by
  have hs : s.settle ('\n' :: rest) = ([], { s with margin := none }) := by
    unfold State.settle
    split
    · next hm => rw [← hm]
    · rfl
  have he : State.endsStatement { s with margin := none } rest = s.endsStatement rest := rfl
  rw [scan_step rest (.inr (by decide)), hs]
  simp only [State.lexeme, if_true, he, nil_append]
  cases s.endsStatement rest <;> rfl

theorem scan_blank (rest : List Char) (hb : isBlank c = true) (hc : c ≠ '\n')
    (h : s.margin = none ∨ marginWidth? c = none) :
    scan 0 s (c :: rest) = (s.settle (c :: rest)).1 ++ scan 0 ((s.settle (c :: rest)).2.advance c) rest := by
  rw [scan_step rest h, State.lexeme, if_neg hc, lexeme_blank rest hb]

theorem scan_word (hx : lexeme c rest = .token kind n) :
    scan 0 s (c :: rest) = (s.settle (c :: rest)).1 ++ s.position.token kind ((c :: rest).take n) ::
    scan (n - 1) (((s.settle (c :: rest)).2.note kind).advance c) rest := by
  have hb : isBlank c = false := isBlank_of_token hx
  have hc : c ≠ '\n' := by rintro rfl; cases hb
  have hw : marginWidth? c = none := marginWidth_of_token hx
  have hk : kind ≠ .newline := by rintro rfl; have := lexeme_not_layout hx .origin ""; cases this
  rw [scan_step rest (.inr hw), State.lexeme, if_neg hc, hx]
  split
  · next h => cases h
  · next h => cases h; exact absurd rfl hk
  · next h => cases h; rfl

theorem scan_drop (cs : List Char) (skip : Nat) (s : State) (h : skip ≤ cs.length) :
    scan skip s cs = scan 0 { s with position := s.position.after (cs.take skip) } (cs.drop skip) := by
  induction cs generalizing skip s with
  | nil => simp at h; subst h; rfl
  | cons c rest ih =>
    cases skip with
    | zero => rfl
    | succ k => simpa [State.advance] using ih k (s.advance c) (by simpa using h)

theorem scan_word_past (hx : lexeme c rest = .token kind n) : scan 0 s (c :: rest) =
    (s.settle (c :: rest)).1 ++ s.position.token kind ((c :: rest).take n) ::
      scan 0 ((s.settle (c :: rest)).2.past kind (c :: rest) n) ((c :: rest).drop n) := by
  obtain ⟨k, rfl⟩ : ∃ k, n = k + 1 := ⟨n - 1, by have := (lexeme_length hx).1; omega⟩
  have hk : k ≤ rest.length := by have := (lexeme_length hx).2; omega
  rw [scan_word hx, Nat.add_sub_cancel, scan_drop rest k _ hk]
  rfl

/-- What the pass does at the front of a text: the tokens it finds, the state it goes on in and the
text that is left. -/
inductive Advances (s : State) : List Char → List Token → State → List Char → Prop
  | ends {rest : List Char} (h : s.endsStatement rest = true) :
    Advances s ('\n' :: rest) [s.position.token .newline ['\n']] s.below rest
  | runsOn {rest : List Char} (h : s.endsStatement rest = false) : Advances s ('\n' :: rest) [] s.onward rest
  | margin {c : Char} {rest : List Char} {width w : Nat} (hm : s.margin = some width)
    (hw : marginWidth? c = some w) : Advances s (c :: rest) [] (s.indented c (width + w)) rest
  | blank {c : Char} {rest : List Char} (hb : isBlank c = true) (hc : c ≠ '\n')
    (hm : s.margin = none ∨ marginWidth? c = none) :
    Advances s (c :: rest) (s.settle (c :: rest)).1 ((s.settle (c :: rest)).2.advance c) rest
  | word {c : Char} {rest : List Char} {kind : TokenKind} {n : Nat} (hx : lexeme c rest = .token kind n) :
    Advances s (c :: rest) ((s.settle (c :: rest)).1 ++ [s.position.token kind ((c :: rest).take n)])
      ((s.settle (c :: rest)).2.past kind (c :: rest) n) ((c :: rest).drop n)

variable {ts after : List Token} {s' : State}

theorem Advances.scan_eq (h : Advances s cs ts s' rest) :
    scan 0 s cs = ts ++ scan 0 s' rest := by
  cases h with
  | ends h => rw [scan_newline, if_pos h]; rfl
  | runsOn h => rw [scan_newline, if_neg (by simp [h])]; rfl
  | margin hm hw => exact scan_margin rest hm hw
  | blank hb hc hm => exact scan_blank rest hb hc hm
  | word hx => rw [scan_word_past hx, append_assoc, singleton_append]

theorem exists_advances (s : State) (c : Char) (rest : List Char) :
    ∃ ts s' more, Advances s (c :: rest) ts s' more := by
  by_cases hc : c = '\n'
  · subst hc
    cases h : s.endsStatement rest with
    | true => exact ⟨_, _, _, .ends h⟩
    | false => exact ⟨_, _, _, .runsOn h⟩
  cases hx : lexeme c rest with
  | token kind n => exact ⟨_, _, _, .word hx⟩
  | gap =>
    by_cases hm : s.margin = none ∨ marginWidth? c = none
    · exact ⟨_, _, _, .blank (isBlank_of_gap hx) hc hm⟩
    · obtain ⟨width, hw⟩ := Option.ne_none_iff_exists'.1 (fun h => hm (.inl h))
      obtain ⟨w, hcw⟩ := Option.ne_none_iff_exists'.1 (fun h => hm (.inr h))
      exact ⟨_, _, _, .margin hw hcw⟩

theorem Advances.length_lt (h : Advances s cs ts s' rest) : rest.length < cs.length := by
  cases h with
  | word hx =>
    have := (lexeme_length hx).1
    rw [length_drop, length_cons]
    omega
  | _ => exact Nat.lt_succ_self _

theorem Advances.exists_read (h : Advances s cs ts s' rest) :
    ∃ read, cs = read ++ rest ∧ s'.position = s.position.after read := by
  cases h with
  | ends | runsOn | margin => exact ⟨[_], rfl, rfl⟩
  | @blank c rest => exact ⟨[c], rfl, s.settle_advance c _⟩
  | @word c rest kind n hx => exact ⟨(c :: rest).take n, (take_append_drop n _).symm, s.settle_past kind n _ _⟩

theorem scan_induction {P : State → List Char → Prop} (finish : ∀ s, P s [])
    (step : ∀ s cs ts s' rest, Advances s cs ts s' rest → P s' rest → P s cs) (s : State) (cs : List Char) :
    P s cs := by
  induction hlen : cs.length using Nat.strongRecOn generalizing cs s with
  | _ len ih =>
    cases cs with
    | nil => exact finish s
    | cons c rest =>
      obtain ⟨ts, s', more, h⟩ := exists_advances s c rest
      exact step _ _ ts _ _ h (ih more.length (hlen ▸ h.length_lt) s' more rfl)

/-! ## Words -/

def words : (skip : Nat) → Position → List Char → List Token
  | _, _, [] => []
  | skip + 1, p, c :: rest => words skip (p.advance c) rest
  | 0, p, c :: rest =>
    match lexeme c rest with
    | .gap => words 0 (p.advance c) rest
    | .token kind length => p.token kind ((c :: rest).take length) :: words (length - 1) (p.advance c) rest

@[simp] theorem words_nil (skip : Nat) (p : Position) : words skip p [] = [] := by
  cases skip <;> rfl

@[simp] theorem words_skip (skip : Nat) (p : Position) (c : Char) (rest : List Char) :
    words (skip + 1) p (c :: rest) = words skip (p.advance c) rest := rfl

theorem words_gap (p : Position) (h : lexeme c rest = .gap) :
    words 0 p (c :: rest) = words 0 (p.advance c) rest := by
  rw [words, h]

theorem words_token (p : Position) (h : lexeme c rest = .token kind n) :
    words 0 p (c :: rest) = p.token kind ((c :: rest).take n) :: words (n - 1) (p.advance c) rest := by
  rw [words, h]

theorem words_drop (cs : List Char) (skip : Nat) (p : Position) (h : skip ≤ cs.length) :
    words skip p cs = words 0 (p.after (cs.take skip)) (cs.drop skip) := by
  induction cs generalizing skip p with
  | nil => simp
  | cons c rest ih =>
    cases skip with
    | zero => rfl
    | succ k => simpa using ih k (p.advance c) (by simpa using h)

theorem words_past (p : Position) (h : lexeme c rest = .token kind n) : words 0 p (c :: rest) =
    p.token kind ((c :: rest).take n) :: words 0 (p.after ((c :: rest).take n)) ((c :: rest).drop n) := by
  obtain ⟨k, rfl⟩ : ∃ k, n = k + 1 := ⟨n - 1, by have := (lexeme_length h).1; omega⟩
  have hk : k ≤ rest.length := by have := (lexeme_length h).2; omega
  rw [words_token p h, Nat.add_sub_cancel, words_drop rest k _ hk]
  rfl

theorem filter_scan (s : State) (cs : List Char) : (scan 0 s cs).filter (!isLayout ·) = words 0 s.position cs := by
  have hnil : ∀ ts : List Token, (∀ t ∈ ts, isLayout t = true) → ts.filter (!isLayout ·) = [] :=
    fun ts h => filter_eq_nil_iff.2 fun t ht => by simp [h t ht]
  induction s, cs using scan_induction with
  | finish s => rw [scan_nil, words_nil, hnil _ s.finish_layout]
  | step s cs ts s' rest h ih =>
    rw [h.scan_eq, filter_append, ih]
    cases h with
    | ends | runsOn => exact (words_gap (c := '\n') _ rfl).symm
    | margin hm hw => exact (words_gap _ (lexeme_blank _ (isBlank_of_marginWidth hw))).symm
    | blank hb hc hm =>
      rw [hnil _ (s.settle_layout _), words_gap _ (lexeme_blank _ hb), s.settle_advance, nil_append]
    | word hx =>
      rw [filter_append, hnil _ (s.settle_layout _), words_past _ hx, s.settle_past, nil_append,
        filter_singleton, token, lexeme_not_layout hx]
      rfl

theorem filter_tokenize (source : List Char) : (tokenize source).filter (!isLayout ·) = words 0 ⟨0, 1, 1⟩ source :=
  filter_scan .start source

/-! ## Order -/

theorem byteSize_append (as bs : List Char) : byteSize (as ++ bs) = byteSize as + byteSize bs := by
  induction as with
  | nil => simp [byteSize]
  | cons c as ih => simp only [cons_append, byteSize, ih]; omega

theorem byteSize_pos (h : cs ≠ []) : 0 < byteSize cs := by
  cases cs with
  | nil => exact absurd rfl h
  | cons c cs => have := c.utf8Size_pos; simp only [byteSize]; omega

theorem start_le_of_mem_words (h : t ∈ words skip p cs) : p.offset + byteSize (cs.take skip) ≤ t.span.start := by
  fun_induction words skip p cs with
  | case1 => cases h
  | case2 p k c rest ih =>
    have := ih h
    simp only [advance_offset, take_succ_cons, byteSize] at this ⊢
    omega
  | case3 p c rest hx ih =>
    have := ih h
    simp only [advance_offset, take_zero, byteSize] at this ⊢
    omega
  | case4 p c rest kind n hx ih =>
    rcases mem_cons.1 h with rfl | h
    · exact Nat.le_refl _
    · have := ih h
      simp only [advance_offset, take_zero, byteSize] at this ⊢
      omega

theorem start_lt_stop_of_mem_words (h : t ∈ words skip p cs) : t.span.start < t.span.stop := by
  fun_induction words skip p cs with
  | case1 => cases h
  | case2 p k c rest ih | case3 p c rest hx ih => exact ih h
  | case4 p c rest kind n hx ih =>
    rcases mem_cons.1 h with rfl | h
    · have hn := (lexeme_length hx).1
      have : 0 < byteSize ((c :: rest).take n) := byteSize_pos (by simp; omega)
      simp only [token]; omega
    · exact ih h

theorem words_pairwise (cs : List Char) (skip : Nat) (p : Position) :
    (words skip p cs).Pairwise (·.span.stop ≤ ·.span.start) := by
  fun_induction words skip p cs with
  | case1 => exact .nil
  | case2 p k c rest ih | case3 p c rest hx ih => exact ih
  | case4 p c rest kind n hx ih =>
    refine pairwise_cons.2 ⟨fun t ht => ?_, ih⟩
    have h := start_le_of_mem_words ht
    obtain ⟨k, rfl⟩ : ∃ k, n = k + 1 := ⟨n - 1, by have := (lexeme_length hx).1; omega⟩
    simp only [advance_offset, Nat.add_sub_cancel] at h
    simp only [token, take_succ_cons, byteSize]
    omega

theorem words_apart {u : Token} (ht : t ∈ words skip p cs) (hu : u ∈ words skip p cs) :
    t = u ∨ t.span.stop ≤ u.span.start ∨ u.span.stop ≤ t.span.start := by
  obtain ⟨i, hi, rfl⟩ := mem_iff_getElem.1 ht
  obtain ⟨j, hj, rfl⟩ := mem_iff_getElem.1 hu
  have hpairs := pairwise_iff_getElem.1 (words_pairwise cs skip p)
  rcases Nat.lt_trichotomy i j with hlt | rfl | hlt
  · exact .inr (.inl (hpairs i j hi hj hlt))
  · exact .inl rfl
  · exact .inr (.inr (hpairs j i hj hi hlt))

/-! ## Reading on behind a word -/

theorem split_behind {α : Type} {as xs before after : List α} {t : α} (h : as ++ xs = before ++ t :: after)
    (ht : t ∉ as) : ∃ before', before = as ++ before' ∧ xs = before' ++ t :: after := by
  rcases append_eq_append_iff.1 h with ⟨bs, h1, h2⟩ | ⟨bs, h1, h2⟩
  · exact ⟨bs, h1, h2⟩
  · cases bs with
    | nil => exact ⟨[], by simpa using h1.symm, by simpa using h2.symm⟩
    | cons b bs => cases h2; exact absurd (by rw [h1]; simp) ht

def DividedBy (t : Token) (after : List Token) (s : State) (cs : List Char) : Prop :=
  ∃ (pre : List Char) (c : Char) (mid rest : List Char) (s' : State), cs = pre ++ c :: mid ++ rest ∧
    lexeme c (mid ++ rest) = .token t.kind (mid.length + 1) ∧ t = (s.position.after pre).token t.kind (c :: mid) ∧
    s'.margin = none ∧ s'.position = s.position.after (pre ++ c :: mid) ∧ after = scan 0 s' rest

theorem Advances.dividedBy (h : Advances s cs ts s' rest)
    (hrest : DividedBy t after s' rest) : DividedBy t after s cs := by
  obtain ⟨read, rfl, hp⟩ := h.exists_read
  obtain ⟨pre, c, mid, rest', s'', rfl, hx, hw, hm, hp', ha⟩ := hrest
  refine ⟨read ++ pre, c, mid, rest', s'', by simp, hx, ?_, hm, ?_, ha⟩
  · rw [after_append, ← hp]; exact hw
  · rw [append_assoc, after_append, ← hp]; exact hp'

theorem scan_split {before : List Token} (h : scan 0 s cs = before ++ t :: after)
    (ht : isLayout t = false) : DividedBy t after s cs := by
  have hnot : ∀ ts : List Token, (∀ u ∈ ts, isLayout u = true) → t ∉ ts := fun ts hts hmem => by
    have := hts t hmem
    rw [ht] at this
    cases this
  induction s, cs using scan_induction generalizing before with
  | finish s =>
    rw [scan_nil] at h
    exact absurd (h ▸ by simp) (hnot _ s.finish_layout)
  | step s cs ts s' rest hstep ih =>
    rw [hstep.scan_eq] at h
    cases hstep with
    | @word c rest kind n hx =>
      rw [append_assoc] at h
      obtain ⟨before', -, h'⟩ := split_behind h (hnot _ (s.settle_layout _))
      cases before' with
      | cons _ before' => exact (Advances.word hx).dividedBy (ih (List.cons.inj h').2)
      | nil =>
        obtain ⟨rfl, rfl⟩ := List.cons.inj h'
        obtain ⟨k, rfl⟩ : ∃ k, n = k + 1 := ⟨n - 1, by have := (lexeme_length hx).1; omega⟩
        have hk : k ≤ rest.length := by have := (lexeme_length hx).2; omega
        refine ⟨[], c, rest.take k, rest.drop k, (s.settle (c :: rest)).2.past kind (c :: rest) (k + 1), by simp,
          ?_, rfl, s.settle_margin _, ?_, rfl⟩
        · simpa [length_take, hk, token] using hx
        · exact s.settle_past kind (k + 1) _ _
    | ends hends =>
      obtain ⟨before', -, h'⟩ := split_behind h (hnot _ (by simp [token, isLayout]))
      exact (Advances.ends hends).dividedBy (ih h')
    | runsOn hends => exact (Advances.runsOn hends).dividedBy (ih h)
    | margin hm hw => exact (Advances.margin hm hw).dividedBy (ih h)
    | blank hb hc hm =>
      obtain ⟨before', -, h'⟩ := split_behind h (hnot _ (s.settle_layout _))
      exact (Advances.blank hb hc hm).dividedBy (ih h')

theorem kind_of_isWord (ht : t ∈ tokenize cs) (hword : t.isWord = true) : t.kind = wordKind t.text := by
  have hlayout : isLayout t = false := by
    unfold Token.isWord at hword
    unfold isLayout
    split at hword
    · next hk => rw [hk]
    · next hk => rw [hk]
    · cases hword
  obtain ⟨before, after, hsplit⟩ := append_of_mem ht
  obtain ⟨pre, c, mid, rest, _, _, hx, hw, _⟩ := scan_split hsplit hlayout
  have htext : t.text = String.ofList (c :: mid) := by rw [hw]; rfl
  have hkind := lexeme_word hx (s := t.span) (w := t.text) hword
  rw [htext]
  simpa using hkind

end ChartScript.Lexer
