import ChartScript.Proofs.Script.Declared
import ChartScript.Proofs.Script.Pieces
/-!
# The expressions of a script

A script keeps the places of its expressions and reads their text later.
-/
namespace ChartScript

open List Line Statement Token

variable {line part : List Token} {source : List Char}

variable {ws : List Token} {t : Token} {ps : List String} {x : VarDecl} {key : String}

namespace Line

/-- A run of tokens in a line that nothing, a bracket or a comma follows. -/
def Run (line ws : List Token) : Prop :=
  ∃ before after, line = before ++ (ws ++ after) ∧ ∀ t ∈ after.head?, t.isEnd = true

theorem Run.subset (h : Run line ws) : ws ⊆ line := by
  obtain ⟨before, after, rfl, -⟩ := h
  intro t ht
  simp [ht]

def Piece (line : List Token) (s : Span) : Prop :=
  ∃ ws, Run line ws ∧ span? ws = some s

theorem run_drop (line : List Token) (n : Nat) : Run line (line.drop n) :=
  ⟨line.take n, [], by simp, by simp⟩

theorem Run.drop (h : Run line ws) (n : Nat) : Run line (ws.drop n) := by
  obtain ⟨before, after, rfl, hend⟩ := h
  refine ⟨before ++ ws.take n, after, ?_, hend⟩
  rw [append_assoc, ← append_assoc (ws.take n), take_append_drop]

/-! ## Parts between brackets -/

theorem isEnd_of_bracketDelta (h : bracketDelta t ≠ 0) : t.isEnd = true := by
  unfold bracketDelta at h
  unfold isEnd
  split at h <;> simp_all

theorem isEnd_of_comma (h : t.isDelimiter .comma = true) : t.isEnd = true := by
  have hk : t.kind = .delimiter .comma := by simpa [isDelimiter] using h
  simp [isEnd, hk]

theorem closingPosition?_isEnd {depth : Int} {ts : List Token} {k : Nat} (h : closingPosition? depth ts = some k)
    (hk : depth ≠ 0 ∨ 0 < k) : ∀ t ∈ (ts.drop k).head?, t.isEnd = true := by
  induction ts generalizing depth k with
  | nil => simp [closingPosition?] at h
  | cons u rest ih =>
    rw [closingPosition?] at h
    split at h
    · next hzero =>
      cases h
      intro t ht
      cases ht
      have hdepth := hk.resolve_right (Nat.lt_irrefl 0)
      exact isEnd_of_bracketDelta (by omega)
    · next hopen =>
      obtain ⟨j, hj, rfl⟩ := Option.map_eq_some_iff.1 h
      exact ih hj (.inl hopen)

variable {close start : Nat} {args : List Arg}

theorem matchingClose?_isEnd (h : matchingClose? line start = some close) (hlt : start < close) :
    ∀ t ∈ (line.drop close).head?, t.isEnd = true := by
  obtain ⟨k, hk, rfl⟩ := Option.map_eq_some_iff.1 h
  rw [← drop_drop]
  exact closingPosition?_isEnd hk (.inr (by omega))

theorem splitAtCommas_run (depth : Int) (ts : List Token) : ∃ part more, splitAtCommas depth ts = part :: more ∧
    (∃ after, ts = part ++ after ∧ ∀ t ∈ after.head?, t.isEnd = true) ∧ ∀ p ∈ more, Run ts p := by
  induction ts generalizing depth with
  | nil => exact ⟨[], [], rfl, ⟨[], rfl, by simp⟩, by simp⟩
  | cons t rest ih =>
    have further : ∀ {p : List Token}, Run rest p → Run (t :: rest) p := by
      rintro p ⟨before, after, rfl, hend⟩
      exact ⟨t :: before, after, rfl, hend⟩
    rw [splitAtCommas]
    split
    · next hcomma =>
      obtain ⟨part, more, hsplit, ⟨after, hrest, hend⟩, hmore⟩ := ih depth
      refine ⟨[], part :: more, by rw [hsplit], ⟨t :: rest, rfl, ?_⟩, fun p hp => ?_⟩
      · intro u hu
        cases hu
        exact isEnd_of_comma hcomma.2
      · rcases mem_cons.1 hp with rfl | hp
        · exact further ⟨[], after, hrest, hend⟩
        · exact further (hmore p hp)
    · obtain ⟨part, more, hsplit, ⟨after, hrest, hend⟩, hmore⟩ := ih (depth + bracketDelta t)
      rw [hsplit]
      exact ⟨t :: part, more, rfl, ⟨after, by rw [hrest]; rfl, hend⟩, fun p hp => further (hmore p hp)⟩

theorem parts_run (h : matchingClose? line start = some close)
    (hpart : part ∈ parts line start close) : Run line part := by
  obtain ⟨hmem, hne⟩ := mem_filter.1 hpart
  have hrun : Run ((line.take close).drop (start + 1)) part := by
    obtain ⟨first, more, hsplit, ⟨after, hfirst, hend⟩, hmore⟩ :=
      splitAtCommas_run 0 ((line.take close).drop (start + 1))
    rw [hsplit] at hmem
    rcases mem_cons.1 hmem with rfl | hmem
    · exact ⟨[], after, hfirst, hend⟩
    · exact hmore part hmem
  obtain ⟨before, after, hinner, hend⟩ := hrun
  have hlt : start < close := by
    by_contra hle
    have hnil : (line.take close).drop (start + 1) = [] := drop_eq_nil_of_le (by rw [length_take]; omega)
    have : part = [] := by simp_all
    simp [this] at hne
  refine ⟨(line.take close).take (start + 1) ++ before, after ++ line.drop close, ?_, ?_⟩
  · calc line = line.take close ++ line.drop close := (take_append_drop close line).symm
      _ = (line.take close).take (start + 1) ++ (line.take close).drop (start + 1) ++
          line.drop close := by rw [take_append_drop (start + 1)]
      _ = _ := by rw [hinner]; simp only [append_assoc]
  · intro t ht
    cases after with
    | nil => exact matchingClose?_isEnd h hlt t ht
    | cons u after => exact hend t ht

/-! ## Arguments -/

theorem ofTokens_run (h : Run line part) : Run line (Arg.ofTokens part).value := by
  unfold Arg.ofTokens
  split
  · split
    · exact h.drop 2
    · exact h
  · exact h

theorem arguments_run (h : arguments line start = .ok (args, close)) : ∀ arg ∈ args, Run line arg.value := by
  unfold arguments at h
  split at h
  · next hclose =>
    cases h
    intro arg harg
    obtain ⟨part, hpart, rfl⟩ := mem_map.1 harg
    exact ofTokens_run (parts_run hclose hpart)
  · cases h

theorem mem_of_mem_bind {x : String × List Token} (h : x ∈ bind args ps) :
    ∃ arg ∈ args, arg.value = x.2 := by
  fun_induction bind args ps with
  | case1 => simp at h
  | case2 ps name value args ih =>
    rcases mem_cons.1 h with rfl | h
    · exact ⟨_, mem_cons_self, rfl⟩
    · obtain ⟨arg, harg, hvalue⟩ := ih h
      exact ⟨arg, mem_cons_of_mem _ harg, hvalue⟩
  | case3 value args p ps ih =>
    rcases mem_cons.1 h with rfl | h
    · exact ⟨_, mem_cons_self, rfl⟩
    · obtain ⟨arg, harg, hvalue⟩ := ih h
      exact ⟨arg, mem_cons_of_mem _ harg, hvalue⟩
  | case4 value args ih =>
    obtain ⟨arg, harg, hvalue⟩ := ih h
    exact ⟨arg, mem_cons_of_mem _ harg, hvalue⟩

theorem lookup_mem {v : List Token} {bound : List (String × List Token)}
    (h : bound.lookup key = some v) : (key, v) ∈ bound := by
  obtain ⟨before, after, rfl, _⟩ := lookup_eq_some_iff.1 h
  simp

theorem argument_piece (h : arguments line start = .ok (args, close)) {s : Span}
    (hs : ((bind args ps).lookup key).bind span? = some s) : Piece line s := by
  obtain ⟨v, hv, hspan⟩ := Option.bind_eq_some_iff.1 hs
  obtain ⟨arg, harg, hvalue⟩ := mem_of_mem_bind (lookup_mem hv)
  have hrun : Run line v := by
    rw [← show arg.value = v from hvalue]
    exact arguments_run h arg harg
  exact ⟨v, hrun, hspan⟩

end Line

/-! ## Declarations -/

def OrderCall.expressions (x : OrderCall) : List Span :=
  [x.when, x.quantity, x.stop, x.limit].filterMap fun e => e

def PlotCall.expressions (x : PlotCall) : List Span :=
  [x.series, x.color].filterMap fun e => e

def FuncDecl.expressions (x : FuncDecl) : List Span :=
  x.params.filterMap (·.default) ++ if x.singleLine then [x.body] else []

/-- The places whose text is read as an expression. -/
def Declarations.expressions (d : Declarations) : List Span :=
  d.varDecls.map (·.value) ++ d.conditions.map (·.predicate) ++
    d.orders.flatMap (·.expressions) ++ d.plots.flatMap (·.expressions) ++
    d.functions.flatMap (·.expressions)

namespace Declarations

variable {d : Declarations} {span : Span}

theorem value_mem_expressions (hx : x ∈ d.varDecls) : x.value ∈ d.expressions := by
  simp only [expressions, mem_append, mem_map]
  exact .inl (.inl (.inl (.inl ⟨x, hx, rfl⟩)))

theorem predicate_mem_expressions {c : Condition} (hc : c ∈ d.conditions) : c.predicate ∈ d.expressions := by
  simp only [expressions, mem_append, mem_map]
  exact .inl (.inl (.inl (.inr ⟨c, hc, rfl⟩)))

theorem order_mem_expressions {o : OrderCall} (ho : o ∈ d.orders) (hspan : span ∈ o.expressions) :
    span ∈ d.expressions := by
  simp only [expressions, mem_append, mem_flatMap]
  exact .inl (.inl (.inr ⟨o, ho, hspan⟩))

theorem plot_mem_expressions {p : PlotCall} (hp : p ∈ d.plots) (hspan : span ∈ p.expressions) :
    span ∈ d.expressions := by
  simp only [expressions, mem_append, mem_flatMap]
  exact .inl (.inr ⟨p, hp, hspan⟩)

theorem default_mem_expressions {f : FuncDecl} (hf : f ∈ d.functions) {p : FuncParam}
    (hp : p ∈ f.params) (hspan : p.default = some span) : span ∈ d.expressions := by
  simp only [expressions, mem_append, mem_flatMap]
  exact .inr ⟨f, hf, mem_append_left _ (mem_filterMap.2 ⟨p, hp, hspan⟩)⟩

end Declarations

namespace Statement

variable {s : Statement} {scope : Option BodyRef}

theorem order_pieces {x : OrderCall} (h : s.order scope = .ok x) : ∀ span ∈ x.expressions, Piece s.line span := by
  obtain ⟨_, args, _, hargs, _, _, hquantity, hwhen, hstop, hlimit, _⟩ := order_eq_ok h
  intro span hspan
  simp only [OrderCall.expressions, mem_filterMap, exists_eq_right, mem_cons, not_mem_nil, or_false] at hspan
  rcases hspan with heq | heq | heq | heq
  · exact argument_piece hargs (hwhen ▸ heq.symm)
  · exact argument_piece hargs (hquantity ▸ heq.symm)
  · exact argument_piece hargs (hstop ▸ heq.symm)
  · exact argument_piece hargs (hlimit ▸ heq.symm)

theorem plot_pieces {x : PlotCall} (h : s.plot scope = .ok x) : ∀ span ∈ x.expressions, Piece s.line span := by
  obtain ⟨args, _, hargs, hseries, hcolor, _⟩ := plot_eq_ok h
  intro span hspan
  simp only [PlotCall.expressions, mem_filterMap, exists_eq_right, mem_cons, not_mem_nil, or_false] at hspan
  rcases hspan with heq | heq
  · rw [hseries] at heq
    obtain ⟨key, _, hkey⟩ := Option.bind_eq_some_iff.1 heq.symm
    exact argument_piece hargs hkey
  · exact argument_piece hargs (hcolor ▸ heq.symm)

theorem ofLine?_value {a : Assignment} (h : Assignment.ofLine? source line = some a) :
    ∃ n, a.value = line.drop n := by
  obtain ⟨position, _, h⟩ := Option.bind_eq_some_iff.1 h
  obtain ⟨_, _, h⟩ := Option.bind_eq_some_iff.1 h
  obtain ⟨_, _, h⟩ := Option.bind_eq_some_iff.1 h
  obtain ⟨_, _, h⟩ := Option.bind_eq_some_iff.1 h
  obtain ⟨_, _, h⟩ := Option.bind_eq_some_iff.1 h
  cases h
  exact ⟨position + 1, rfl⟩

theorem varDecl_piece (h : s.varDecl source scope = .ok x) : Piece s.line x.value := by
  obtain ⟨a, ha, hvalue, _⟩ := varDecl_eq_ok h
  obtain ⟨n, hn⟩ := ofLine?_value ha
  exact ⟨a.value, hn ▸ run_drop s.line n, hvalue⟩

theorem parameter_piece {x : FuncParam} {span : Span} (h : parameter source part = .ok x)
    (hpart : Run line part) (hspan : x.default = some span) : Piece line span := by
  unfold parameter at h
  cases hsign : part.findIdx? (·.isOperator .assign) with
  | none =>
    rw [hsign] at h
    dsimp only at h
    split at h
    · cases h
    · split at h
      · cases h
        cases hspan
      · cases h
  | some i =>
    rw [hsign] at h
    dsimp only at h
    split at h
    · cases h
    · split at h
      · cases h
        exact ⟨_, hpart.drop (i + 1), hspan⟩
      · cases h

theorem function_eq_ok {x : FuncDecl} (h : s.function source = .ok x) :
    ∃ close, matchingClose? s.line 1 = some close ∧ (parts s.line 1 close).mapM (parameter source) =
    .ok x.params ∧ x.span = s.span ∧ (x.singleLine = true → span? (s.line.drop (close + 2)) = some x.body) ∧
    (x.singleLine = false → s.bodySpan? = some x.body) := by
  unfold function at h
  dsimp only at h
  cases hclose : matchingClose? s.line 1 with
  | none =>
    rw [hclose] at h
    cases h
  | some close =>
    rw [hclose] at h
    obtain ⟨params, hparams, h⟩ := bind_eq_ok.1 h
    refine ⟨close, rfl, ?_⟩
    cases hinline : span? (s.line.drop (close + 2)) with
    | some inline =>
      cases hblock : s.bodySpan? with
      | none =>
        rw [hinline, hblock] at h
        cases h
        exact ⟨hparams, rfl, fun _ => rfl, fun hsingle => by cases hsingle⟩
      | some block =>
        rw [hinline, hblock] at h
        cases h
    | none =>
      cases hblock : s.bodySpan? with
      | none =>
        rw [hinline, hblock] at h
        cases h
      | some block =>
        rw [hinline, hblock] at h
        cases h
        exact ⟨hparams, rfl, (fun hsingle => by cases hsingle), fun _ => rfl⟩

theorem function_pieces {x : FuncDecl} (h : s.function source = .ok x) :
    ∀ span ∈ x.expressions, Piece s.line span := by
  obtain ⟨close, hclose, hparams, -, hbody, -⟩ := function_eq_ok h
  intro span hspan
  rcases mem_append.1 hspan with hdefault | hbodyspan
  · obtain ⟨param, hparam, hspan⟩ := mem_filterMap.1 hdefault
    obtain ⟨i, hi, rfl⟩ := mem_iff_getElem.1 hparam
    have hmade := forall₂_of_mapM hparams
    have hlt : i < (parts s.line 1 close).length := by rw [hmade.length_eq]; exact hi
    exact parameter_piece (hmade.get hlt hi) (parts_run hclose (getElem_mem hlt)) hspan
  · split at hbodyspan
    · next hsingle =>
      rw [mem_singleton.1 hbodyspan]
      exact ⟨_, run_drop s.line (close + 2), hbody hsingle⟩
    · cases hbodyspan

end Statement

/-! ## Whole scripts -/

namespace Script

theorem expression_piece {s : Script} (h : parse source = .ok s) {span : Span} (hspan : span ∈ s.expressions) :
    ∃ line, .line line ∈ items (tokens source) ∧ Piece line span := by
  suffices ∃ n ∈ statements source, Piece n.line span by
    obtain ⟨n, hn, hpiece⟩ := this
    exact ⟨n.line, line_mem_items hn, hpiece⟩
  simp only [Declarations.expressions, mem_append, mem_map, mem_flatMap] at hspan
  rcases hspan with (((⟨x, hx, rfl⟩ | ⟨x, hx, rfl⟩) | ⟨x, hx, hspan⟩) | ⟨x, hx, hspan⟩) | ⟨x, hx, hspan⟩
  · obtain ⟨n, hn, scope, hmade⟩ := exists_statement h (.varDecls source) rfl (fun _ _ => rfl) hx
    exact ⟨n, hn, varDecl_piece hmade⟩
  · obtain ⟨n, hn, hopens⟩ := exists_condition h hx
    exact ⟨n, hn, _, run_drop n.line _, hopens.predicate⟩
  · obtain ⟨n, hn, scope, hmade⟩ := exists_statement h (.orders source) rfl (fun _ _ => rfl) hx
    exact ⟨n, hn, order_pieces hmade span hspan⟩
  · obtain ⟨n, hn, scope, hmade⟩ := exists_statement h (.plots source) rfl (fun _ _ => rfl) hx
    exact ⟨n, hn, plot_pieces hmade span hspan⟩
  · obtain ⟨n, hn, -, callees, hmade⟩ := exists_function h hx
    exact ⟨n, hn, function_pieces hmade span hspan⟩

theorem rereads_run {text : List Char} {s : Span}
    (hline : .line line ∈ items (tokens text)) (hrun : Run line ws) (hs : span? ws = some s) : s.Rereads text := by
  obtain ⟨before, after, rfl, hend⟩ := hrun
  obtain ⟨_, hwords, earlier, later, htokens, hlayout⟩ := line_of_mem_items hline
  have hwhole : tokens text = (earlier ++ before) ++ (ws ++ (after ++ later)) := by
    rw [htokens]
    simp only [append_assoc]
  have hnext : ∀ u ∈ (after ++ later).head?, isLayout u = true ∨ u.isEnd = true := by
    intro u hu
    cases after with
    | nil =>
      rw [nil_append] at hu
      rw [hu] at hlayout
      exact .inl (by simpa using hlayout)
    | cons _ after => exact .inr (hend u hu)
  exact rereads_piece hwhole (fun t ht => hwords t (by simp [ht])) hnext hs

/-- The text of an expression, read on its own and moved to its place, has the tokens that the
source has there. -/
theorem tokenize_expression {source : List Char} {s : Script} (h : parse source = .ok s)
    {span : Span} (hspan : span ∈ s.expressions) :
    ((tokenize (s.text span)).filter isContent).map (·.offsetBy span) =
      ((tokenize source).filter isContent).filter span.holds := by
  obtain ⟨line, hline, ws, hrun, hs⟩ := expression_piece h hspan
  rw [text, (walk_of_parse h).1]
  exact (rereads_run hline hrun hs).content

def commentedSource : List Char :=
  ("//@version=5\nindicator(\"R\")\n" ++
   "f(a, b = ta.sma(close, /* bars */ 9)) => a.x\n" ++
   "y = (close /* day */ +\n" ++
   "  #ff0000 // night\n" ++
   "  * open[1.]) // end\n" ++
   "plot(y, color = color.red)\n").toList

theorem tokenize_expression_commented : ∃ s, parse commentedSource = .ok s ∧
    (⟨77, 128, 4, 5⟩ : Span) ∈ s.expressions ∧
    ((tokenize (s.text ⟨77, 128, 4, 5⟩)).filter isContent).map (·.offsetBy ⟨77, 128, 4, 5⟩) =
      ((tokenize commentedSource).filter isContent).filter (Span.holds ⟨77, 128, 4, 5⟩) := by
  have hrun : ∃ s, parse commentedSource = .ok s ∧ ⟨77, 128, 4, 5⟩ ∈ s.expressions := by
    decide +kernel
  obtain ⟨s, hs, hspan⟩ := hrun
  exact ⟨s, hs, hspan, tokenize_expression hs hspan⟩

end Script

end ChartScript
