import ChartScript.Proofs.Script.Expressions
import ChartScript.Proofs.Script.Reread
/-!
# The two readings of a function body

The block of a function is read twice: as statements of the script, and later as a text of its own
whose lines are lowered one by one.
-/
namespace ChartScript

open List Line

/-! ## Blocks -/

variable {source : List Char} {body : List Statement} {after before : List (List Token)}
  {span : Span}

namespace Statement

mutual

theorem lines_of_node {n : Statement} : (s : Statement) → n ∈ s.nodes →
    ∃ before after, s.lines = before ++ (n.lines ++ after)
  | mk line body, h => by
    rcases mem_cons.1 h with rfl | h
    · exact ⟨[], [], by simp⟩
    · obtain ⟨before, after, heq⟩ := lines_of_nodeAll body h
      exact ⟨line :: before, after, by rw [lines_mk, heq, cons_append]⟩

theorem lines_of_nodeAll {n : Statement} : (ss : List Statement) → n ∈ nodesAll ss →
    ∃ before after, linesAll ss = before ++ (n.lines ++ after)
  | [], h => by simp at h
  | s :: rest, h => by
    rw [linesAll_cons]
    rcases mem_append.1 h with h | h
    · obtain ⟨before, after, heq⟩ := lines_of_node s h
      exact ⟨before, after ++ linesAll rest, by rw [heq]; simp⟩
    · obtain ⟨before, after, heq⟩ := lines_of_nodeAll rest h
      exact ⟨s.lines ++ before, after, by rw [heq]; simp⟩

end

theorem linesAll_flat {ss : List Statement} (h : ∀ s ∈ ss, s.body = []) : linesAll ss = ss.map line := by
  induction ss with
  | nil => simp
  | cons s rest ih =>
    obtain ⟨line, body⟩ := s
    have hbody : body = [] := h _ (.head _)
    rw [linesAll_cons, lines_mk, hbody, ih fun s hs => h s (.tail _ hs)]
    simp [Statement.line]

theorem proper_of_lines (hlines : linesAll (tree (Script.tokens source)) = before ++ (linesAll body ++ after)) :
    Proper body := by
  have hall := Script.proper_tree source
  refine ⟨fun line hline => hall.ne_nil line (by rw [hlines]; simp [hline]), ?_⟩
  have ho := hall.ordered
  rw [tokensAll, hlines, flatten_append, flatten_append] at ho
  exact ho.right.left

theorem ends_of_block (hlines : linesAll (tree (Script.tokens source)) = before ++ (linesAll body ++ after))
    (hspan : blockSpan? body = some span) :
    ∃ first last, (∃ line more, linesAll body = (first :: line) :: more) ∧
    (∃ init line, linesAll body = init ++ [line ++ [last]]) ∧ span.start = first.span.start ∧
    span.stop = last.span.stop ∧ first.span.start < last.span.stop := by
  have hproper := proper_of_lines hlines
  have hcovers := covers_blockSpan body hproper hspan
  have ho := hproper.ordered
  have hlt := (hcovers.among ho).start_lt_stop
  have hne := hproper.ne_nil
  rw [tokensAll] at hcovers ho
  obtain ⟨first, line, more, hfirst⟩ : ∃ first line more, linesAll body = (first :: line) :: more := by
    cases body with
    | nil => simp [blockSpan?] at hspan
    | cons b rest =>
      obtain ⟨bline, bbody⟩ := b
      obtain ⟨first, line, rfl⟩ := exists_cons_of_ne_nil (hne bline (by simp))
      exact ⟨first, line, _, rfl⟩
  obtain ⟨init, line', last, hlast⟩ : ∃ init line last, linesAll body = init ++ [line ++ [last]] := by
    rcases eq_nil_or_concat (linesAll body) with hnil | ⟨init, line, hline⟩
    · rw [hnil] at hfirst
      cases hfirst
    · rw [concat_eq_append] at hline
      rcases eq_nil_or_concat line with rfl | ⟨line', last, rfl⟩
      · exact absurd rfl (hne [] (by rw [hline]; simp))
      · exact ⟨init, line', last, by rw [hline, concat_eq_append]⟩
  have hstart : span.start = first.span.start := by
    rw [hfirst, flatten_cons, cons_append] at hcovers ho
    exact hcovers.start_eq ho
  have hstop : span.stop = last.span.stop := by
    rw [hlast, flatten_append, flatten_singleton, ← append_assoc] at hcovers ho
    exact hcovers.stop_eq ho
  exact ⟨first, last, ⟨line, more, hfirst⟩, ⟨init, line', hlast⟩, hstart, hstop, by omega⟩

end Statement

open Statement

namespace Script

theorem block_of_function {s : Script} {f : FuncDecl} (h : parse source = .ok s)
    (hf : f ∈ s.functions) (hblock : f.singleLine = false) :
    ∃ st ∈ nodesAll (tree (tokens source)), st.span = f.span ∧ st.bodySpan? = some f.body := by
  obtain ⟨st, hst, -, callees, hmade⟩ := exists_function h hf
  obtain ⟨_, _, _, hspan, _, hbody⟩ := Statement.function_eq_ok hmade
  exact ⟨st, (reachedAll_sublist source _).mem hst, hspan.symm, hbody hblock⟩

theorem rereads_block (hlines : linesAll (tree (tokens source)) = before ++ (linesAll body ++ after))
    (hspan : blockSpan? body = some span) :
    ∃ base : Span, base.start = span.start ∧ base.stop = span.stop ∧
    (∃ first ∈ (tokenize source).filter Token.isContent, base.holds first = true) ∧ base.Rereads source := by
  have hcovers := covers_blockSpan body (proper_of_lines hlines) hspan
  obtain ⟨first, last, ⟨line, more, hfirst⟩, ⟨init, line', hlast⟩, hstart, hstop, hlt⟩ :=
    ends_of_block hlines hspan
  rw [linesAll_tree] at hlines
  have hitem : ∀ l ∈ linesAll body, .line l ∈ items (tokens source) := by
    intro l hl
    have hmem : l ∈ (items (tokens source)).filterMap Item.line? := by
      rw [hlines]
      simp [hl]
    obtain ⟨item, hitem, hitemline⟩ := mem_filterMap.1 hmem
    cases item with
    | line l' =>
      cases hitemline
      exact hitem
    | indent | dedent => cases hitemline
  obtain ⟨_, hwords, earlier, later, htokens, -⟩ :=
    line_of_mem_items (hitem (first :: line) (by simp [hfirst]))
  obtain ⟨_, hwords', earlier', later', htokens', hlayout⟩ :=
    line_of_mem_items (hitem (line' ++ [last]) (by simp [hlast]))
  have hbegin : tokens source = earlier ++ first :: (line ++ later) := by
    rw [htokens]
    simp
  have hend : tokens source = (earlier' ++ line') ++ last :: later' := by
    rw [htokens']
    simp
  have hword : isLayout first = false := hwords first (by simp)
  refine ⟨{ first.span with stop := last.span.stop }, hstart.symm, hstop.symm, ⟨first, ?_, ?_⟩, ?_⟩
  · rw [← filter_tokens, hbegin]
    simp [hword]
  · have hle : first.span.stop ≤ span.stop := hcovers.le_stop first (by simp [tokensAll, hfirst])
    rw [hstop] at hle
    simpa [Span.holds] using hle
  · refine rereads_between hbegin hend ⟨hword, hwords' last (by simp)⟩ (fun t ht => ?_) hlt rfl
    rw [ht] at hlayout
    exact .inl (by simpa using hlayout)

theorem node_of_span {a b : Statement} (ha : a ∈ nodesAll (tree (tokens source)))
    (hb : b ∈ nodesAll (tree (tokens source))) (h : a.span = b.span) : a = b := by
  have hrising := (rising_nodesAll exists_start _ (proper_tree source)).pairwise
  rw [pairwise_map] at hrising
  obtain ⟨i, hi, rfl⟩ := mem_iff_getElem.1 ha
  obtain ⟨j, hj, rfl⟩ := mem_iff_getElem.1 hb
  have hpairs := pairwise_iff_getElem.1 hrising
  rcases Nat.lt_trichotomy i j with hlt | rfl | hlt
  · have := hpairs i j hi hj hlt
    rw [h] at this
    omega
  · rfl
  · have := hpairs j i hj hi hlt
    rw [h] at this
    omega

end Script

/-! ## Places of lines -/

theorem Line.span?_offsetBy (base : Span) (ts : List Token) :
    span? (ts.map (·.offsetBy base)) = (span? ts).map (·.offsetBy base) := by
  unfold span?
  rw [head?_map, getLast?_map]
  cases ts.head? with
  | none => rfl
  | some first =>
    cases ts.getLast? with
    | none => rfl
    | some last =>
      simp only [Option.map_some, Token.offsetBy, Span.through, Span.offsetBy, Nat.add_max_add_left]

namespace BodyLine

theorem span_ofTokens {text : List Char} {base first : Span} {ts : List Token} {b : Statement}
    (hline : ts.map (·.offsetBy first) = b.line) (hflat : b.body = []) (ho : Ordered b.line) (hne : b.line ≠ [])
    (hbase : base.start = first.start) :
    b.span.start ≤ (ofTokens text base ts).span.start ∧
    (ofTokens text base ts).span.start < (ofTokens text base ts).span.stop ∧
    (ofTokens text base ts).span.stop = b.span.stop := by
  obtain ⟨line, body⟩ := b
  cases hflat
  have hwords : ts ≠ [] := by
    rintro rfl
    exact hne hline.symm
  obtain ⟨hvalue, before, hts⟩ := valueTokens_suffix hwords
  obtain ⟨place, hplace⟩ := span?_isSome hvalue
  obtain ⟨own, hown⟩ := span?_isSome hne
  have hspan : (Statement.mk line []).span = own := by
    rw [Statement.span, show span? line = some own from hown, blockSpan?]
  have hmoved : span? ((valueTokens ts).map (·.offsetBy first)) = some (place.offsetBy first) := by
    rw [span?_offsetBy, hplace]
    rfl
  have hsplit : line = before.map (·.offsetBy first) ++ (valueTokens ts).map (·.offsetBy first) := by
    rw [← map_append, ← hts]
    exact hline.symm
  have ho' : Ordered (before.map (·.offsetBy first) ++ (valueTokens ts).map (·.offsetBy first)) :=
    hsplit ▸ ho
  have hcovers := covers_span ho'.right hmoved
  have hlt := (hcovers.among ho'.right).start_lt_stop
  obtain ⟨hstart, hstop⟩ := (covers_span ho hown).within hcovers (by
    intro t ht
    rw [hsplit]
    exact mem_append_right _ ht)
  have hend : own.stop ≤ (place.offsetBy first).stop := by
    obtain ⟨t, ht, hts⟩ := (covers_span ho hown).last
    rw [hsplit] at ht
    rcases mem_append.1 ht with ht | ht
    · obtain ⟨u, hu, hus⟩ := hcovers.first
      have := ho'.stop_le_start ht hu
      omega
    · rw [← hts]
      exact hcovers.le_stop t ht
  have hofTokens : (ofTokens text base ts).span = place.offsetBy base := by
    show ((span? (valueTokens ts)).getD .origin).offsetBy base = _
    rw [hplace, Option.getD_some]
  rw [hspan, hofTokens]
  simp only [Span.offsetBy] at hstart hstop hend hlt ⊢
  omega

/-- The line is at the end of the statement. -/
def AtEndOf (line : BodyLine) (b : Statement) : Prop :=
  b.span.start ≤ line.span.start ∧ line.span.start < line.span.stop ∧
    line.span.stop = b.span.stop

theorem forall₂_of_flat (hplain : Script.PlainMargins source)
    (hlines : linesAll (tree (Script.tokens source)) = before ++ (linesAll body ++ after))
    (hspan : blockSpan? body = some span) (hflat : ∀ b ∈ body, b.body = [])
    (haligned : ∀ b ∈ body.tail, Script.beginsRow source b.line = true → Script.indentation source b.line % 4 = 0)
    (text : List Char) :
    List.Forall₂ (fun ts b => (ofTokens text span ts).AtEndOf b) ((items (Script.tokens ((Text.slice source
    span.start span.stop).getD []))).filterMap Item.line?) body := by
  have hproper := proper_of_lines hlines
  obtain ⟨first, last, ⟨line, more, hfirst⟩, ⟨init, line', hlast⟩, hstart, hstop, -⟩ :=
    ends_of_block hlines hspan
  have ho := hproper.ordered
  have hne := hproper.ne_nil
  rw [tokensAll] at ho
  rw [linesAll_tree] at hlines
  rw [linesAll_flat hflat] at hlines hfirst hlast ho hne
  have hblock := Script.lines_of_block hplain hlines ⟨line, more, hfirst⟩ ⟨init, line', hlast⟩ (by
    intro line hline
    rw [← map_tail] at hline
    obtain ⟨b, hb, rfl⟩ := mem_map.1 hline
    exact haligned b hb)
  rw [hstart, hstop]
  generalize ((items (Script.tokens ((Text.slice source first.span.start last.span.stop).getD
    []))).filterMap Item.line?) = lines at hblock ⊢
  have hlength : lines.length = body.length := by simpa using congrArg List.length hblock
  refine forall₂_iff_get.2 ⟨hlength, fun i hi hj => ?_⟩
  have hline : (lines.get ⟨i, hi⟩).map (·.offsetBy first.span) = (body.get ⟨i, hj⟩).line := by
    have := congrArg (·[i]?) hblock
    simpa [hi, hj] using this
  have hmem : (body.get ⟨i, hj⟩).line ∈ body.map Statement.line :=
    mem_map_of_mem (get_mem body ⟨i, hj⟩)
  exact span_ofTokens hline (hflat _ (get_mem body ⟨i, hj⟩)) (ho.of_flatten hmem) (hne _ hmem) hstart

/-- A body with no block inside, whose statements after the first begin their rows at a multiple of
four if they begin them at all, has one line for each statement of its block, at the end of it. -/
theorem one_per_statement {source : List Char} {s : Script} {f : FuncDecl}
    (h : Script.parse source = .ok s) (hf : f ∈ s.functions) (hblock : f.singleLine = false) :
    (∃ st ∈ nodesAll (tree (Script.tokens source)), st.span = f.span) ∧
      ∀ st ∈ nodesAll (tree (Script.tokens source)), st.span = f.span →
        st.bodySpan? = some f.body ∧
        (Script.PlainMargins source → (∀ b ∈ st.body, b.body = []) →
          (∀ b ∈ st.body.tail, Script.beginsRow source b.line = true →
            Script.indentation source b.line % 4 = 0) →
          List.Forall₂ AtEndOf (ofFunction s f) st.body) := by
  obtain ⟨st, hst, hspan, hbody⟩ := Script.block_of_function h hf hblock
  refine ⟨⟨st, hst, hspan⟩, fun st' hst' hspan' => ?_⟩
  obtain rfl := Script.node_of_span hst hst' (hspan.trans hspan'.symm)
  refine ⟨hbody, fun hplain hflat haligned => ?_⟩
  obtain ⟨before, after, hlines⟩ := lines_of_nodeAll _ hst
  obtain ⟨line, body⟩ := st
  rw [lines_mk, ← singleton_append, append_assoc, ← append_assoc] at hlines
  have hforall := forall₂_of_flat hplain hlines hbody hflat haligned (s.text f.body)
  rw [ofFunction_of_block hblock, forall₂_map_left_iff]
  rwa [Script.text, (Script.walk_of_parse h).1]

def fourWideSource : List Char :=
  ("//@version=5\nindicator(\"F\")\n" ++
   "f(x) =>\n" ++
   "    a = x +\n" ++
   "      close\n" ++
   "    // half way\n" ++
   "\n" ++
   "    /* note */ b = a\n" ++
   "    b\n" ++
   "plot(f(open))\n").toList

theorem one_per_statement_four_wide : ∃ s f st, Script.parse fourWideSource = .ok s ∧
    f ∈ s.functions ∧ f.singleLine = false ∧
    st ∈ nodesAll (tree (Script.tokens fourWideSource)) ∧ st.span = f.span ∧
    Script.PlainMargins fourWideSource ∧ st.body.length = 3 ∧ (∀ b ∈ st.body, b.body = []) ∧
    (∀ b ∈ st.body.tail, Script.beginsRow fourWideSource b.line = true →
      Script.indentation fourWideSource b.line % 4 = 0) ∧
    List.Forall₂ AtEndOf (ofFunction s f) st.body := by
  have hplain : Script.PlainMargins fourWideSource := by decide +kernel
  have hrun : ∃ s, Script.parse fourWideSource = .ok s ∧ ∃ f ∈ s.functions, f.singleLine = false ∧
      ∃ st ∈ nodesAll (tree (Script.tokens fourWideSource)), st.span = f.span ∧ st.body.length = 3 ∧
        (∀ b ∈ st.body, b.body = []) ∧ ∀ b ∈ st.body.tail, Script.beginsRow fourWideSource b.line = true →
          Script.indentation fourWideSource b.line % 4 = 0 := by
    decide +kernel
  obtain ⟨s, hs, f, hf, hblock, st, hst, hspan, hlength, hflat, hrows⟩ := hrun
  exact ⟨s, f, st, hs, hf, hblock, hst, hspan, hplain, hlength, hflat, hrows,
    ((one_per_statement hs hf hblock).2 st hst hspan).2 hplain hflat hrows⟩

def twoWideSource : List Char :=
  ("//@version=5\nindicator(\"F\")\n" ++
   "f() =>\n" ++
   "\n" ++
   "  a = close\n" ++
   "  a\n" ++
   "plot(f())\n").toList

/-- The block has two statements, but its text is read as one line. -/
theorem two_wide_reads_as_one_line : ∃ s f st, Script.parse twoWideSource = .ok s ∧
    f ∈ s.functions ∧ f.singleLine = false ∧
    st ∈ nodesAll (tree (Script.tokens twoWideSource)) ∧ st.span = f.span ∧
    (∀ b ∈ st.body, b.body = []) ∧ st.body.length = 2 ∧ (ofFunction s f).length = 1 := by
  have hrun : ∃ s, Script.parse twoWideSource = .ok s ∧ ∃ f ∈ s.functions, f.singleLine = false ∧
      (ofFunction s f).length = 1 ∧ ∃ st ∈ nodesAll (tree (Script.tokens twoWideSource)),
        st.span = f.span ∧ (∀ b ∈ st.body, b.body = []) ∧ st.body.length = 2 := by
    decide +kernel
  obtain ⟨s, hs, f, hf, hblock, hone, st, hst, hspan, hflat, htwo⟩ := hrun
  exact ⟨s, f, st, hs, hf, hblock, hst, hspan, hflat, htwo, hone⟩

end BodyLine

end ChartScript
