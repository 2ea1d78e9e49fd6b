import ChartScript.Complexity
import ChartScript.Proofs.Script.ClosedBlocks
import ChartScript.Proofs.Script.Declared
import ChartScript.Proofs.Script.Forest
/-!
# Scripts that go on

Statements that are added at the end of a script leave alone what was read of it.
-/
namespace ChartScript

open List Text Statement Header

/-! ## Tokens -/

namespace Lexer

/-- The tokens of a text and of one that goes on: they have in common those up to the last line end and
the marks that close blocks. -/
structure Extended (source next : List Char) (head marks more : List Token) (last : Token) : Prop where
  known : tokenize source = head ++ (marks ++ [last])
  new : tokenize (source ++ next) = head ++ (marks ++ more)
  endsLine : EndsLine source head
  marks_kind : ∀ t ∈ marks, t.kind = .dedent
  last_kind : last.kind = .eof
  more_begins : ∃ t ts, more = t :: ts ∧ isLayout t = false ∧ t.kind ≠ .comment

variable {source : List Char} {c : Char}

theorem not_continuesStatement (h : isBlank c = false) (rest : List Char) (indents : List Nat) :
    continuesStatement indents (c :: rest) = false := by
  have hc : marginWidth? c = none := by
    cases hw : marginWidth? c with
    | none => rfl
    | some w => rw [isBlank_of_marginWidth hw] at h; cases h
  simp [continuesStatement, measure_of_none rest hc]

theorem settle_unindented {s : State} (hmargin : s.margin = some 0) (hindents : s.Indented) {cs : List Char}
    (hcs : hasNoIndentation cs = false) : (s.settle cs).1 = s.indents.map fun _ => s.token .dedent [] := by
  have hstill : s.indents.dropWhile (0 < ·) = [] := dropWhile_eq_nil_iff.2 fun w hw => by simpa using hindents w hw
  simp [State.settle, hmargin, hcs, reindent, hstill]

theorem extended (h : LineStart source []) (hblank : isBlank c = false) (hc : c ≠ '/') (rest : List Char) :
    ∃ head marks more last, Extended source (c :: rest) head marks more last := by
  obtain ⟨head, s, hdivides, hfresh, hends⟩ := divides_of_lineStart h
  have hindented : s.Indented := hdivides.indented (by simp [State.Indented, State.start])
  obtain ⟨kind, n, hx⟩ : ∃ kind n, lexeme c rest = .token kind n := by
    cases hx : lexeme c rest with
    | gap => rw [isBlank_of_gap hx] at hblank; cases hblank
    | token kind n => exact ⟨kind, n, rfl⟩
  have hcomment : kind ≠ .comment := by
    rintro rfl
    exact hc (comment_cases hx).1
  have hknown := hdivides.scan_eq [] (.inl rfl)
  have hnew := hdivides.scan_eq (c :: rest) (.inr fun indents => not_continuesStatement hblank rest indents)
  have hfinish : scan 0 s [] = s.indents.map (fun _ => s.token .dedent []) ++ [s.token .eof []] := by
    simp [scan, State.finish, hfresh.hasContent]
  have hsettle := settle_unindented hfresh.margin hindented (hasNoIndentation_of_word hx hcomment)
  rw [append_nil, hfinish] at hknown
  rw [(Advances.word hx).scan_eq, hsettle, append_assoc] at hnew
  refine ⟨head, _, _, _, hknown, hnew, hends, ?_, rfl, _, _, rfl, ?_, hcomment⟩
  · intro t ht
    obtain ⟨_, _, rfl⟩ := mem_map.1 ht
    rfl
  · exact lexeme_not_layout hx _ _

end Lexer

/-! ## Walking over the same statements -/

variable {source : List Char} {ss : List Statement}

namespace Statement

mutual

theorem relocate_id : (s : Statement) → s.relocate id = s
  | mk line body => by
    have hline : line.map (·.relocate id) = line := map_id line
    rw [relocate_mk, relocateAll_id body, hline]

theorem relocateAll_id : (ss : List Statement) → relocateAll id ss = ss
  | [] => by rw [relocateAll]
  | s :: rest => by rw [relocateAll, relocate_id s, relocateAll_id rest]

end

theorem Progress.relocate_id (r : Progress) : r.relocate id = r := by
  have hdeclared (d : Declarations) : d.relocate id = d := by
    simp [Declarations.relocate, InputDecl.relocate, VarDecl.relocate, FuncDecl.relocate, FuncParam.relocate,
      OrderCall.relocate, PlotCall.relocate, Condition.relocate, TypeDecl.relocate, OtherStatement.relocate]
  rw [relocate, hdeclared]

theorem collectAll_congr {source' : List Char} (h : Movable id source source' (linesAll ss)) (p : Place)
    (r : Progress) : (collectAll source' p r ss).toOption = (collectAll source p r ss).toOption := by
  have hmirrors := collectAll_relocate (φ := id) (fun _ _ => rfl) p r ss h
  rw [Progress.relocate_id, relocateAll_id] at hmirrors
  rw [hmirrors]
  cases collectAll source p r ss with
  | error e => rfl
  | ok found => exact congrArg some (Progress.relocate_id found)

theorem movable_append (source next : List Char) :
    Movable id source (source ++ next) (linesAll (tree (Script.tokens source))) := by
  intro line hline
  have hmem := mem_of_line_mem (line_mem_items hline)
  refine ⟨(Script.proper_tree source).ne_nil line hline, ?_⟩
  intro a ha b hb
  have hexact := (Lexer.tokenize_exact (hmem a ha)).through (Lexer.tokenize_exact (hmem b hb))
  have hstop := hexact.stop_le
  rw [← append_nil source] at hexact
  simpa using hexact.slice_before hstop next

end Statement

variable {s s' : Script} {r r' : Progress} {α : Type} {p : Place}

namespace Lexer.Extended

variable {source next : List Char} {head marks more : List Token} {last : Token}

def common (head marks : List Token) : List Token :=
  (head ++ marks).filter (·.kind != .comment)

variable (h : Extended source next head marks more last)
include h

theorem words_known : Script.tokens source = common head marks ++ [last] := by
  rw [Script.tokens, h.known, common, ← append_assoc, filter_append,
    filter_cons_of_pos (by simp [h.last_kind]), filter_nil]

theorem words_new : Script.tokens (source ++ next) = common head marks ++ more.filter (·.kind != .comment) := by
  rw [Script.tokens, h.new, common, ← append_assoc, filter_append]

theorem complete : Complete (common head marks) := by
  apply Complete.filter_comments
  rcases eq_nil_or_concat' marks with rfl | ⟨marks, t, rfl⟩
  · rw [append_nil]
    exact complete_of_endsLine h.endsLine
  · rw [← append_assoc]
    exact Complete.concat _ (by simp [isLayout, h.marks_kind t (by simp)])

theorem items_known : items (Script.tokens source) = items (common head marks) := by
  rw [h.words_known, items_append h.complete]
  simp [items, h.last_kind]

theorem tree_new : tree (Script.tokens (source ++ next)) = tree (Script.tokens source) ++
    tree (more.filter (·.kind != .comment)) := by
  have hcloses : Closes 0 (items (common head marks)) := by
    rw [← h.items_known]
    exact closes_of_laid (tokenize_laid source)
  have hblock : NoBlock (items (more.filter (·.kind != .comment))) := by
    obtain ⟨t, ts, rfl, hlayout, hcomment⟩ := h.more_begins
    rw [filter_cons_of_pos (by simpa using hcomment), items_line _ hlayout]
    exact fun _ hindent => by cases hindent
  rw [h.words_new, tree_append h.complete hcloses hblock]
  simp only [tree, h.items_known]

theorem walk_new (hr : collectAll source .top ⟨{}, false⟩ (tree (Script.tokens source)) = .ok r)
    (hr' : collectAll (source ++ next) .top ⟨{}, false⟩ (tree (Script.tokens (source ++ next))) = .ok r') :
    ∃ q ss, Walk (source ++ next) q r ss r' := by
  rw [h.tree_new] at hr'
  obtain ⟨q, r₁, hfirst, hrest⟩ := collectAll_append _ _ hr'
  have hsame := collectAll_congr (movable_append source next) .top ⟨{}, false⟩
  rw [hfirst, hr] at hsame
  cases hsame
  exact ⟨q, _, walk_of_collectAll _ hrest⟩

theorem prefix_read {read : List Token → List α} (hread : ReadsLines read) :
    read (Script.tokens source) <+: read (Script.tokens (source ++ next)) := by
  have hlast : read [last] = [] := by
    have hnil := hread.append h.complete []
    rw [hread.ending (.inr h.last_kind)]
    simpa using hnil
  rw [h.words_known, h.words_new, hread.append h.complete, hread.append h.complete, hlast, append_nil]
  exact prefix_append _ _

theorem version_new {v : Nat} (hv : version? (tokenize source) = some v) :
    version? (tokenize (source ++ next)) = some v := by
  unfold version? at hv ⊢
  rw [h.known, ← append_assoc, filter_append, filter_cons_of_neg (by simp [h.last_kind]),
    filter_nil, append_nil] at hv
  obtain ⟨text, htext, hnumber⟩ := Option.bind_eq_some_iff.1 hv
  rw [h.new, ← append_assoc, filter_append, findSome?_append, htext]
  exact hnumber

theorem declared_new {d : ScriptKind × String} (hd : declared? (opening (tokenize source)) = some d) :
    declared? (opening (tokenize (source ++ next))) = some d := by
  rw [h.known] at hd
  rw [h.new]
  by_cases hopening : opening head = []
  · -- the marks and the end of the text are no declaration
    have hmarks : opening marks = [] := by
      unfold opening
      rw [dropWhile_eq_nil_iff]
      intro t ht
      rw [h.marks_kind t (mem_filter.1 ht).1]
      rfl
    have hlast : opening [last] = [last] := by simp [opening, h.last_kind, TokenKind.isTrivia]
    rw [opening_append_of_none hopening, opening_append_of_none hmarks, hlast] at hd
    simp [declared?, readKind, h.last_kind, Except.toOption] at hd
  · rw [opening_append hopening] at hd ⊢
    rw [← hd]
    refine declared?_append hopening (complete_of_endsLine h.endsLine).opening ?_ _ _
    rw [openBrackets_opening]
    have hknown : tokenize (source ++ []) = head ++ (marks ++ [last]) := by rw [append_nil, h.known]
    exact openBrackets_of_endsLine hknown h.endsLine

theorem header_new {header : Header} (hread : (read (tokenize source)).toOption = some header) :
    (read (tokenize (source ++ next))).toOption = some header := by
  rw [read_toOption] at hread ⊢
  obtain ⟨v, hv, hrest⟩ := Option.bind_eq_some_iff.1 hread
  obtain ⟨d, hd, rfl⟩ := Option.map_eq_some_iff.1 hrest
  rw [h.version_new hv, h.declared_new hd]
  rfl

end Lexer.Extended

/-! ## Scripts -/

theorem Text.sublist_insertSorted (x : String) (xs : List String) : xs.Sublist (insertSorted x xs) := by
  fun_induction insertSorted x xs with
  | case1 => exact nil_sublist _
  | case2 => exact List.Sublist.refl _
  | case3 => exact sublist_cons_self _ _
  | case4 y rest _ _ ih => exact ih.cons_cons y

theorem Text.sublist_sortedOnce {xs ys : List String} (h : xs <+: ys) :
    (sortedOnce xs).Sublist (sortedOnce ys) := by
  obtain ⟨ys, rfl⟩ := h
  unfold sortedOnce
  rw [foldl_append]
  generalize xs.foldl (fun sorted x => insertSorted x sorted) [] = sorted
  induction ys generalizing sorted with
  | nil => exact List.Sublist.refl _
  | cons y ys ih =>
    exact (sublist_insertSorted y sorted).trans (ih _)

theorem Statement.prefix_of_walk (h : Walk source p r ss r')
    (k : Kind source α) : k.all r.declared <+: k.all r'.declared := by
  obtain ⟨new, -, hnew⟩ := collected k h
  rw [hnew]
  exact prefix_append _ _

def FuncDecl.withoutCallees (f : FuncDecl) : FuncDecl :=
  { f with callees := [] }

namespace Script

/-- The script is the beginning of another one. What its functions call and what its conditions do when
they do not hold may be added to. -/
structure Begins (s s' : Script) : Prop where
  header : s'.toHeader = s.toHeader
  inputs : s.inputs <+: s'.inputs
  varDecls : s.varDecls <+: s'.varDecls
  orders : s.orders <+: s'.orders
  plots : s.plots <+: s'.plots
  types : s.types <+: s'.types
  collectionUses : s.collectionUses <+: s'.collectionUses
  drawingCalls : s.drawingCalls <+: s'.drawingCalls
  others : s.others <+: s'.others
  functions : s.functions.map (·.withoutCallees) <+: s'.functions.map (·.withoutCallees)
  conditions : s.conditions.map (·.withoutElse) <+: s'.conditions.map (·.withoutElse)
  indicators : s.indicators ⊆ s'.indicators

theorem withoutCallees_withCallees (called : List Token) (fs : List FuncDecl) :
    (withCallees called fs).map (·.withoutCallees) = fs.map (·.withoutCallees) := by
  rw [withCallees, map_map]
  rfl

theorem begins_assembled {source next : List Char} {ss : List Statement}
    (hwalk : Walk (source ++ next) p r ss r')
    (huses : memberUses (tokens source) <+: memberUses (tokens (source ++ next))) (header : Header) :
    Begins (assembled source (tokens source) header r.declared)
      (assembled (source ++ next) (tokens (source ++ next)) header r'.declared) where
  header := rfl
  inputs := prefix_of_walk hwalk (.inputs _)
  varDecls := prefix_of_walk hwalk (.varDecls _)
  orders := prefix_of_walk hwalk (.orders _)
  plots := prefix_of_walk hwalk (.plots _)
  types := prefix_of_walk hwalk (.types _)
  collectionUses := (huses.filter _).map _
  drawingCalls := (huses.filter _).map _
  others := prefix_of_walk hwalk (.others _)
  functions := by
    have hprefix := (prefix_of_walk hwalk (.functions _)).map FuncDecl.withoutCallees
    rw [assembled, assembled, withoutCallees_withCallees, withoutCallees_withCallees]
    exact hprefix
  conditions := prefix_of_walk hwalk (.conditions _)
  indicators := (sublist_sortedOnce ((huses.filter _).map _)).subset

theorem Begins.nesting_le (h : s.Begins s') : s.nesting ≤ s'.nesting := by
  have hmax (depths : List Nat) (n : Nat) : n ≤ depths.foldl max n := by
    induction depths generalizing n with
    | nil => exact Nat.le_refl n
    | cons depth depths ih => exact (Nat.le_max_left n depth).trans (ih _)
  have hdepths : s.conditions.map (·.depth) <+: s'.conditions.map (·.depth) := by
    have hprefix := h.conditions.map (·.depth)
    rw [map_map, map_map] at hprefix
    exact hprefix
  obtain ⟨more, hmore⟩ := hdepths
  rw [nesting, nesting, ← hmore, foldl_append]
  exact hmax more _

theorem Begins.count_le (h : s.Begins s') (hlines : s.codeLines ≤ s'.codeLines)
    (hindicators : s.indicators.length ≤ s'.indicators.length) (f : Factor) : f.count s ≤ f.count s' := by
  cases f with
  | lines => exact hlines
  | functions => simpa [Factor.count] using h.functions.length_le
  | customTypes => exact h.types.length_le
  | arrayMatrix => exact h.collectionUses.length_le
  | drawing => exact h.drawingCalls.length_le
  | nesting => exact h.nesting_le
  | indicators => exact hindicators
  | varDecls => exact h.varDecls.length_le

/-- Statements added behind the last line end of a script disturb nothing that was read of it: the
longer script begins with the script, and none of the counts that make up its complexity is less. -/
theorem appended_begins {source rest : List Char} {c : Char} {s s' : Script}
    (hend : Lexer.LineStart source []) (hblank : Text.isBlank c = false) (hc : c ≠ '/')
    (h : parse source = .ok s) (h' : parse (source ++ c :: rest) = .ok s') :
    s.Begins s' ∧ ∀ f : Factor, f.count s ≤ f.count s' := by
  obtain ⟨head, marks, more, last, hextended⟩ := Lexer.extended hend hblank hc rest
  obtain ⟨header, r, hheader, hr, rfl⟩ := assembled_of_parse h
  obtain ⟨header', r', hheader', hr', rfl⟩ := assembled_of_parse h'
  rw [hextended.header_new hheader] at hheader'
  cases hheader'
  obtain ⟨q, ss, hwalk⟩ := hextended.walk_new hr hr'
  have huses := hextended.prefix_read readsLines_memberUses
  have hbegins := begins_assembled hwalk huses header
  refine ⟨hbegins, hbegins.count_le ?_ ?_⟩
  · obtain ⟨lines, hlines⟩ := hextended.prefix_read readsLines_writtenLines
    simp only [assembled, ← hlines, eraseDups_append, length_append]
    exact Nat.le_add_right _ _
  · exact (sublist_sortedOnce ((huses.filter _).map _)).length_le

def openChain : List Char :=
  "//@version=5\nindicator(\"N\")\nif close > open\n    x = 1\n".toList

def closingBranch : List Char :=
  "lse\n    y = ta.sma(close, 5)\n".toList

theorem appended_begins_else : ∃ s s', parse openChain = .ok s ∧
    parse (openChain ++ 'e' :: closingBranch) = .ok s' ∧
    s.conditions.map (·.falseBody.isSome) = [false] ∧ s'.conditions.map (·.falseBody.isSome) = [true] ∧
    s.Begins s' ∧ ∀ f : Factor, f.count s ≤ f.count s' := by
  have hfacts : openChain = openChain.dropLast ++ ['\n'] ∧
      ⟨.newline, ⟨53, 54, 4, 10⟩, "\n"⟩ ∈ tokenize (openChain ++ []) ∧
      byteSize openChain.dropLast = 53 ∧ isBlank 'e' = false ∧
      (∃ s, parse openChain = .ok s ∧ s.conditions.map (·.falseBody.isSome) = [false]) ∧
      ∃ s, parse (openChain ++ 'e' :: closingBranch) = .ok s ∧ s.conditions.map (·.falseBody.isSome) = [true] := by
    decide +kernel
  obtain ⟨hfeed, hnewline, hsize, hblank, ⟨s, hs, hopen⟩, s', hs', hclosed⟩ := hfacts
  have hend : Lexer.LineStart openChain [] := .inr ⟨openChain.dropLast, hfeed, _, hnewline, rfl, hsize.symm⟩
  exact ⟨s, s', hs, hs', hopen, hclosed, appended_begins hend hblank (by decide) hs hs'⟩

end Script

end ChartScript
