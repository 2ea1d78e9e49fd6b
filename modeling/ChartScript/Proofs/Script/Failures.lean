import ChartScript.Proofs.Script.StatementFaults
/-!
# Where reading a script fails

A script that has a header is refused because of one of its statements.
-/
namespace ChartScript

open List StatementForm

variable {source : List Char} {s : Statement} {e : SyntaxError} {header : Header}

namespace Statement

/-! ## The step of a statement -/

/-- What a statement leads to: what is read with it, the chain that the next statement may continue,
and where the statements of its block stand if they are read. -/
structure Entry where
  progress : Progress
  chain : List Nat
  inner : Option Place

def enter (source : List Char) (p : Place) (r : Progress) (s : Statement) :
    Except SyntaxError Entry := do
  Line.checkBrackets s.line
  s.checkBlock (s.form source)
  match s.form source with
  | .condition =>
    let predicate ← predicate (headSpan s.line) (s.line.drop 1)
    let block ← s.requireBlock "`if`"
    let index := r.declared.conditions.length
    return {
      progress := r.addCondition ⟨predicate, block, none, p.depth, p.scope, none, s.span⟩
      chain := [index]
      inner := some (p.body index .onTrue) }
  | .alternative =>
    let some head := p.chain.head? | throw ⟨headSpan s.line, .strayElse⟩
    let block ← s.requireBlock "`else`"
    let second := ((s.line)[1]?.map (·.span)).getD .origin
    if s.hasIf then
      let span := second.through s.span
      let r := r.setFalseBody p.chain span
      let predicate ← predicate second (s.line.drop 2)
      let index := r.declared.conditions.length
      return {
        progress := r.addCondition ⟨predicate, block, none, p.depth, p.scope, some head, span⟩
        chain := p.chain ++ [index]
        inner := some (p.body index .onTrue) }
    else
      return {
        progress := r.setFalseBody p.chain block
        chain := []
        inner := some (p.body (p.chain.getLast?.getD head) .onFalse) }
  | form => return ⟨← r.add source p s form, [], none⟩

def Entry.run (source : List Char) (body : List Statement) (x : Entry) :
    Except SyntaxError (Progress × List Nat) :=
  match x.inner with
  | none => .ok (x.progress, x.chain)
  | some q => (collectAll source q x.progress body).map (·, x.chain)

theorem collect_eq (source : List Char) (p : Place) (r : Progress) (s : Statement) :
    collect source p r s = s.enter source p r >>= Entry.run source s.body := by
  cases s with
  | mk line body =>
    rw [collect, enter, bind_assoc]
    refine bind_congr fun _ => ?_
    rw [bind_assoc]
    refine bind_congr fun _ => ?_
    have hform : (mk line body).form source = ofLine source line := rfl
    rw [hform]
    cases ofLine source line with
    | condition =>
      rw [bind_assoc]
      refine bind_congr fun predicate => ?_
      rw [bind_assoc]
      refine bind_congr fun block => ?_
      rfl
    | alternative =>
      dsimp only
      cases p.chain.head? with
      | none => rfl
      | some head =>
        rw [bind_assoc]
        refine bind_congr fun block => ?_
        cases hif : (line)[1]?.any (·.isKeyword .if_) with
        | true =>
          rw [if_pos rfl, hasIf, Statement.line, hif, if_pos rfl, bind_assoc]
          rfl
        | false =>
          rw [if_neg Bool.false_ne_true, hasIf, Statement.line, hif, if_neg Bool.false_ne_true]
          rfl
    | _ =>
      rw [bind_assoc]
      rfl

theorem enter_blames (hne : ∀ line ∈ s.lines, line ≠ []) (p : Place) (r : Progress) :
    Faults (Blames source s) (s.enter source p r) := by
  have htoken : ∀ {α : Type} {x : Except SyntaxError α}, Faults (FaultAt s.tokens) x → Faults (Blames source s) x :=
    fun h => h.mono (fun _ _ => trivial) fun _ he => .token he
  have hhead := (headSpan_begins (line_ne_nil hne)).mono s.line_subset
  refine (htoken ((Line.checkBrackets_faults s.line).mono (fun _ _ => trivial)
    fun _ he => he.mono s.line_subset)).bind fun _ _ => ?_
  refine (htoken (checkBlock_faults hne _)).bind fun _ _ => ?_
  split
  · refine (htoken (predicate_faults hhead _)).bind fun predicate _ => ?_
    exact (htoken (requireBlock_faults hne _)).bind fun _ _ => trivial
  · split
    · refine (htoken (requireBlock_faults hne _)).bind fun block _ => ?_
      split
      · next hif =>
        -- the keyword `if` is there to point at
        have hsecond : Span.Begins (((s.line)[1]?.map Token.span).getD .origin) s.tokens := by
          cases hword : (s.line)[1]? with
          | none => simp [hasIf, hword] at hif
          | some second => exact .token (s.line_subset (mem_of_getElem? hword))
        exact (htoken (predicate_faults hsecond _)).bind fun _ _ => trivial
      · trivial
    · exact .token (head_faultAt hne rfl rfl)
  · exact (add_blames hne p r).bind fun _ _ => trivial

/-! ## The statement that fails -/

/-- Reading the statements fails at one of them, or at one of their blocks. -/
inductive Fails (source : List Char) :
    Place → Progress → List Statement → Statement → SyntaxError → Prop
  | here {p : Place} {r : Progress} {s : Statement} {rest : List Statement} {e : SyntaxError} :
      s.enter source p r = .error e → Fails source p r (s :: rest) s e
  | within {p q : Place} {r : Progress} {s t : Statement} {rest : List Statement} {x : Entry}
      {e : SyntaxError} : s.enter source p r = .ok x → x.inner = some q →
      Fails source q x.progress s.body t e → Fails source p r (s :: rest) t e
  | later {p : Place} {r r' : Progress} {s t : Statement} {rest : List Statement} {chain : List Nat}
      {e : SyntaxError} : collect source p r s = .ok (r', chain) →
      Fails source { p with chain := chain } r' rest t e → Fails source p r (s :: rest) t e

mutual

theorem fails_of_collect {source : List Char} {p : Place} {r : Progress} {e : SyntaxError}
    {rest : List Statement} : (s : Statement) → collect source p r s = .error e →
    ∃ t, Fails source p r (s :: rest) t e
  | mk line body, h => by
    rw [collect_eq] at h
    rcases bind_eq_error.1 h with henter | ⟨x, henter, hrun⟩
    · exact ⟨_, .here henter⟩
    · unfold Entry.run at hrun
      split at hrun
      · cases hrun
      · next q hq =>
        cases hblock : collectAll source q x.progress body with
        | ok r' =>
          rw [show (mk line body).body = body from rfl, hblock] at hrun
          cases hrun
        | error e' =>
          rw [show (mk line body).body = body from rfl, hblock] at hrun
          cases hrun
          obtain ⟨t, ht⟩ := fails_of_collectAll body hblock
          exact ⟨t, .within henter hq ht⟩

theorem fails_of_collectAll {source : List Char} {p : Place} {r : Progress} {e : SyntaxError} :
    (ss : List Statement) → collectAll source p r ss = .error e → ∃ t, Fails source p r ss t e
  | [], h => by
    cases h
  | s :: rest, h => by
    rw [collectAll] at h
    rcases bind_eq_error.1 h with hs | ⟨x, hs, hrest⟩
    · exact fails_of_collect s hs
    · obtain ⟨t, ht⟩ := fails_of_collectAll rest hrest
      exact ⟨t, .later hs ht⟩

end

variable {p : Place} {r : Progress} {ss : List Statement}

theorem collectAll_eq_error_iff :
    collectAll source p r ss = .error e ↔ ∃ t, Fails source p r ss t e := by
  constructor
  · exact fails_of_collectAll ss
  · rintro ⟨t, h⟩
    induction h with
    | @here p r s rest e henter =>
      rw [collectAll, collect_eq, henter]
      rfl
    | @within p q r s t rest x e henter hinner _ ih =>
      rw [collectAll, collect_eq, henter]
      have hrun : x.run source s.body = .error e := by
        rw [Entry.run, hinner]
        dsimp only
        rw [ih]
        rfl
      rw [show (Except.ok x >>= Entry.run source s.body) = .error e from hrun]
      rfl
    | later hs _ ih =>
      rw [collectAll, hs]
      exact ih

theorem Fails.found {t : Statement} (h : Fails source p r ss t e)
    (hss : Proper ss) : Proper [t] ∧ t.tokens ⊆ tokensAll ss ∧ ∃ q r', t.enter source q r' = .error e := by
  induction h with
  | @here p r s rest e henter =>
    refine ⟨hss.head, ?_, p, r, henter⟩
    rw [tokensAll_cons]
    exact subset_append_left _ _
  | @within p q r s t rest x e henter hinner _ ih =>
    cases s with
    | mk line body =>
      obtain ⟨hproper, hsub, hown⟩ := ih hss.body
      refine ⟨hproper, ?_, hown⟩
      rw [tokensAll_cons, tokens_mk]
      have hbody : tokensAll body ⊆ line ++ tokensAll body := subset_append_right _ _
      exact List.Subset.trans hsub (List.Subset.trans hbody (subset_append_left _ _))
  | later hs _ ih =>
    obtain ⟨hproper, hsub, hown⟩ := ih hss.tail
    refine ⟨hproper, ?_, hown⟩
    rw [tokensAll_cons]
    exact List.Subset.trans hsub (subset_append_right _ _)

end Statement

/-! ## The beginning of the text -/

theorem Span.Exact.start_eq_zero {s : Span} (h : s.Exact source) (hline : s.line = 1)
    (hcolumn : s.column = 1) : s.start = 0 := by
  obtain ⟨pre, hpre, hl, hc⟩ := h.begins
  obtain ⟨rest, -, hstart⟩ := Text.takeBytes_eq_some.1 hpre
  have hnone : '\n' ∉ pre := count_eq_zero.1 (by omega)
  have hlead : Text.leading pre = pre := Text.leading_append [] hnone
  have hnil : pre = [] := length_eq_zero_iff.1 (by rw [hlead] at hc; omega)
  rw [hstart, hnil]
  rfl

theorem Assignment.isTypeWord_of_head {t : Token} {rest : List Token} {a : Assignment} {name : String}
    {word : Keyword} (h : ofLine? source (t :: rest) = some a) (ha : a.target = .single name)
    (ht : t.kind = .keyword word) (hvar : word ≠ .var) (hvarip : word ≠ .varip) : word.isTypeWord = true := by
  have heach : persistenceOf (t :: rest) = .each := by
    unfold persistenceOf
    rw [head?_cons, Option.map_some, ht]
    split
    · next heq => exact absurd (by simpa using heq) hvar
    · next heq => exact absurd (by simpa using heq) hvarip
    · rfl
  obtain ⟨position, typeTokens, -, -, htarget, htypes, -⟩ := ofLine?_eq_some h
  rw [heach, if_pos rfl, drop_zero, ha] at htarget
  obtain ⟨last, hlast, htarget⟩ := Option.bind_eq_some_iff.1 htarget
  split at htarget
  · obtain ⟨_, -, htarget⟩ := Option.bind_eq_some_iff.1 htarget
    obtain ⟨_, -, htarget⟩ := Option.bind_eq_some_iff.1 htarget
    cases htarget
  · split at htarget
    · next hidentifier =>
      cases htarget
      -- the keyword is not the name, so it stands before it
      have hmem : t ∈ ((t :: rest).take position).dropLast := by
        cases position with
        | zero => cases hlast
        | succ k =>
          rw [take_succ_cons] at hlast ⊢
          cases htake : rest.take k with
          | nil =>
            have heq : t = last := by simpa [htake] using hlast
            rw [← heq, ht] at hidentifier
            cases hidentifier
          | cons u us => simp
      have htype := htypes t hmem
      rw [isTypeToken, ht] at htype
      exact htype
    · cases htarget

namespace Header

theorem declaration_of_read {ts : List Token} (h : read ts = .ok header) :
    ∃ d rest word, ts.filter (!·.kind.isTrivia) = d :: rest ∧ d.kind = .keyword word ∧ word ≠ .var ∧ word ≠ .varip ∧
    word.isTypeWord = false := by
  obtain ⟨version, -, h⟩ := bind_eq_ok.1 h
  split at h
  · cases h
  · next d rest hwords =>
    obtain ⟨kind, hkind, -⟩ := bind_eq_ok.1 h
    refine ⟨d, rest, ?_⟩
    unfold readKind at hkind
    split at hkind
    · next hd => exact ⟨.indicator, hwords, hd, by decide, by decide, rfl⟩
    · next hd => exact ⟨.study, hwords, hd, by decide, by decide, rfl⟩
    · next hd => exact ⟨.strategy, hwords, hd, by decide, by decide, rfl⟩
    · cases hkind
    · cases hkind

end Header

namespace Statement

variable (hheader : Header.read (tokenize source) = .ok header) (hproper : Proper [s])
  (hwords : s.tokens ⊆ (tokenize source).filter Token.isContent)
include hheader hproper hwords

theorem origin_not_begins (hform : s.form source = .input) : ¬ Span.origin.Begins s.tokens := by
  rintro ⟨t, ht, hline, hcolumn⟩
  have hstart : t.span.start = 0 :=
    (Lexer.tokenize_exact (mem_filter.1 (hwords ht)).1).start_eq_zero hline.symm hcolumn.symm
  obtain ⟨line, body⟩ := s
  have ho := hproper.line_ordered
  obtain ⟨head, more, rfl⟩ := exists_cons_of_ne_nil (hproper.ne_nil line (by simp))
  -- the statement begins where the text does
  have hhead : head.span.start = 0 := by
    rcases mem_cons.1 ht with rfl | ht
    · exact hstart
    · have := (pairwise_cons.1 ho.pairwise).1 t ht
      have := ho.nonempty head (by simp)
      omega
  obtain ⟨hmem, hcontent⟩ := mem_filter.1 (hwords mem_cons_self)
  rw [Token.isContent, Bool.and_eq_true] at hcontent
  obtain ⟨d, rest, word, hfirst, hkind, hvar, hvarip, htype⟩ := Header.declaration_of_read hheader
  have hin : head ∈ d :: rest := by
    rw [← hfirst]
    exact mem_filter.2 ⟨hmem, hcontent.1⟩
  rcases mem_cons.1 hin with rfl | hin
  · have hfits : Fits source (head :: more) .input := by
      rw [← hform]
      exact fits_ofLine source _
    have hinput : isInput source (head :: more) = true := hfits
    unfold isInput at hinput
    cases ha : Assignment.ofLine? source (head :: more) with
    | none => simp [ha] at hinput
    | some a =>
      cases hname : a.target with
      | tuple names => simp [ha, hname] at hinput
      | single name =>
        rw [Assignment.isTypeWord_of_head ha hname hkind hvar hvarip] at htype
        cases htype
  · -- otherwise the declaration stands before it
    have hd : d ∈ (tokenize source).filter (!·.kind.isTrivia) := by
      rw [hfirst]
      exact mem_cons_self
    have hlt : d.span.start < d.span.stop := by
      refine (Script.ordered_words source).nonempty d ?_
      simp [Script.tokens, (mem_filter.1 hd).1, isLayout, hkind]
    have hpairs := (Lexer.tokenize_tiles source).pairwise.sublist
      (filter_sublist (p := fun t : Token => !t.kind.isTrivia))
    rw [hfirst] at hpairs
    have := (pairwise_cons.1 hpairs).1 head hin
    omega

theorem Blames.begins_iff (h : Blames source s e) :
    (e.span.Begins s.tokens ↔ ¬ s.EmptyDefault source e) ∧ (s.EmptyDefault source e → e.span = .origin) := by
  cases h with
  | token hfault =>
    have hnot : ¬ s.EmptyDefault source e := by
      rintro ⟨-, hdefault⟩
      rw [hfault.default] at hdefault
      cases hdefault
    exact ⟨⟨fun _ => hnot, fun _ => hfault.place⟩, fun hempty => absurd hempty hnot⟩
  | @default value accepted hform htokens hsub he =>
    subst he
    cases value with
    | nil =>
      have hempty : s.EmptyDefault source ⟨.origin, .defaultNotLiteral accepted⟩ := ⟨htokens, rfl⟩
      refine ⟨⟨fun hbegins => ?_, fun hnot => absurd hempty hnot⟩, fun _ => rfl⟩
      exact absurd hbegins (origin_not_begins hheader hproper hwords hform)
    | cons t ts =>
      obtain ⟨span, hspan⟩ := Line.span?_isSome (cons_ne_nil t ts)
      rw [hspan, Option.getD_some]
      have hnot : ¬ s.EmptyDefault source ⟨span, .defaultNotLiteral accepted⟩ := by
        rintro ⟨hempty, -⟩
        rw [htokens] at hempty
        cases hempty
      refine ⟨⟨fun _ => hnot, fun _ => ?_⟩, fun hempty => absurd hempty hnot⟩
      exact (Line.span?_begins hspan).mono (List.Subset.trans hsub s.line_subset)

end Statement

/-! ## Whole scripts -/

namespace Script

open Statement

theorem parse_eq_error (h : parse source = .error e) :
    (∃ t ∈ tokenize source, t.kind = .unknown ∧ e = unknownFault t) ∨ Header.read (tokenize source) = .error e ∨
    ∃ header, Header.read (tokenize source) = .ok header ∧
    collectAll source .top ⟨{}, false⟩ (tree (tokens source)) = .error e := by
  unfold parse at h
  simp only at h
  split at h
  · next bad hbad =>
    cases h
    exact .inl ⟨bad, mem_of_find?_eq_some hbad, by simpa using find?_some hbad, rfl⟩
  · rcases bind_eq_error.1 h with hheader | ⟨header, hheader, h⟩
    · exact .inr (.inl hheader)
    · rcases bind_eq_error.1 h with hwalk | ⟨r, -, h⟩
      · exact .inr (.inr ⟨header, hheader, hwalk⟩)
      · cases h

theorem blames_of_fails (h : Fails source .top ⟨{}, false⟩ (tree (tokens source)) s e) :
    Proper [s] ∧ s.tokens ⊆ (tokenize source).filter Token.isContent ∧ Blames source s e := by
  obtain ⟨hproper, hsub, p, r, henter⟩ := h.found (proper_tree source)
  rw [tokensAll_tree, filter_tokens] at hsub
  have hne : ∀ line ∈ s.lines, line ≠ [] := fun line hline => hproper.ne_nil line (by simpa using hline)
  exact ⟨hproper, hsub, (enter_blames hne p r).fault henter⟩

/-- If a script with a header is refused, it is for one of its statements, and the error begins with
a token of that statement or of its block. The exception is an input that names its default and
leaves it empty: then, and only then, the error points at the beginning of the text, where no token
of the input stands. -/
theorem error_begins_in_statement {source : List Char} {e : SyntaxError}
    (h : parse source = .error e) :
    (∃ t ∈ tokenize source, t.kind = .unknown ∧ e = unknownFault t) ∨
      Header.read (tokenize source) = .error e ∨
      (∃ s, Fails source .top ⟨{}, false⟩ (tree (tokens source)) s e) ∧
        ∀ s, Fails source .top ⟨{}, false⟩ (tree (tokens source)) s e →
          (e.span.Begins s.tokens ↔ ¬ s.EmptyDefault source e) ∧
            (s.EmptyDefault source e → e.span = .origin) := by
  obtain hunknown | hheader | ⟨header, hheader, hwalk⟩ := parse_eq_error h
  · exact .inl hunknown
  · exact .inr (.inl hheader)
  · refine .inr (.inr ⟨collectAll_eq_error_iff.1 hwalk, fun s hfails => ?_⟩)
    obtain ⟨hproper, hwords, hblames⟩ := blames_of_fails hfails
    exact hblames.begins_iff hheader hproper hwords

def plotWithoutSeries : List Char :=
  ("//@version=5\nindicator(\"S\")\n" ++
   "if close > open\n" ++
   "    plot(close)\n" ++
   "else if close < open\n" ++
   "    plot(title = \"é\")\n").toList

theorem error_begins_in_statement_nested : ∃ s e, parse plotWithoutSeries = .error e ∧
    e.span.line = 6 ∧ e.span.column = 5 ∧
    Fails plotWithoutSeries .top ⟨{}, false⟩ (tree (tokens plotWithoutSeries)) s e ∧
    e.span.Begins s.tokens := by
  have hrun : (∀ t ∈ tokenize plotWithoutSeries, t.kind ≠ .unknown) ∧
      (∃ header, Header.read (tokenize plotWithoutSeries) = .ok header ∧ True) ∧
      ∃ e, parse plotWithoutSeries = .error e ∧ e.span.line = 6 ∧ e.span.column = 5 ∧
        e.cause.isDefault = false := by
    decide +kernel
  obtain ⟨hknown, ⟨header, hheader, -⟩, e, he, hline, hcolumn, hdefault⟩ := hrun
  obtain ⟨t, ht, hkind, -⟩ | hnone | ⟨⟨s, hfails⟩, hall⟩ := error_begins_in_statement he
  · exact absurd hkind (hknown t ht)
  · rw [hheader] at hnone
    cases hnone
  · refine ⟨s, e, he, hline, hcolumn, hfails, (hall s hfails).1.2 ?_⟩
    rintro ⟨-, hempty⟩
    rw [hdefault] at hempty
    cases hempty

def inputWithoutLiteral : List Char :=
  "//@version=5\nindicator(\"S\")\nn = input.int(defval=)\n".toList

/-- The error about the input on the third line points at the first line. -/
theorem empty_default_points_elsewhere : ∃ s e, parse inputWithoutLiteral = .error e ∧
    e.span.line = 1 ∧ e.span.column = 1 ∧
    Fails inputWithoutLiteral .top ⟨{}, false⟩ (tree (tokens inputWithoutLiteral)) s e ∧
    ¬ e.span.Begins s.tokens := by
  have hrun : (∀ t ∈ tokenize inputWithoutLiteral, t.kind ≠ .unknown) ∧
      (∃ header, Header.read (tokenize inputWithoutLiteral) = .ok header ∧ True) ∧
      ∃ e, parse inputWithoutLiteral = .error e ∧ e.span = .origin ∧ e.cause.isDefault = true := by
    decide +kernel
  obtain ⟨hknown, ⟨header, hheader, -⟩, e, he, horigin, hdefault⟩ := hrun
  obtain ⟨t, ht, hkind, -⟩ | hnone | ⟨_, -, hwalk⟩ := parse_eq_error he
  · exact absurd hkind (hknown t ht)
  · rw [hheader] at hnone
    cases hnone
  · obtain ⟨s, hfails⟩ := collectAll_eq_error_iff.1 hwalk
    obtain ⟨hproper, hwords, hblames⟩ := blames_of_fails hfails
    refine ⟨s, e, he, by rw [horigin]; rfl, by rw [horigin]; rfl, hfails, ?_⟩
    cases hblames with
    | token hfault =>
      rw [hfault.default] at hdefault
      cases hdefault
    | default hform =>
      rw [horigin]
      exact origin_not_begins hheader hproper hwords hform

end Script

end ChartScript
