import ChartScript.Proofs.Script.Brackets
import ChartScript.Proofs.Script.Declared
import ChartScript.Proofs.Script.Division
/-!
# The line of the script declaration

The first line of a script is the declaration: a keyword and the arguments behind it, which give the
kind and the title.
-/
namespace ChartScript

open List Line

/-- The tokens end with the bracket that closes the one at a position. -/
def Line.EndsCall (ts : List Token) (start : Nat) : Prop :=
  ∃ close, matchingClose? ts start = some close ∧ ts.length = close + 1

variable {ts : List Token} {start close : Nat} {kind : ScriptKind}

theorem Line.matchingClose?_lt (h : matchingClose? ts start = some close) :
    close < ts.length := by
  obtain ⟨k, hk, rfl⟩ := Option.map_eq_some_iff.1 h
  have hlt := (closingPosition?_append hk []).2
  rw [length_drop] at hlt
  omega

theorem Line.endsCall_of_pastCall {args : List Arg}
    (hargs : arguments ts start = .ok (args, close)) (hpast : Statement.pastCall ts close = .ok ()) :
    EndsCall ts start := by
  unfold arguments at hargs
  split at hargs
  · next hclose =>
    cases hargs
    have hlt := matchingClose?_lt hclose
    unfold Statement.pastCall at hpast
    split at hpast
    · cases hpast
    · next hnone =>
      have hle := getElem?_eq_none_iff.1 hnone
      exact ⟨close, hclose, by omega⟩
  · cases hargs

namespace Statement

variable {s : Statement} {scope : Option BodyRef} {source : List Char} {t : Token} {line : List Token}
  {body more : List Statement} {r : Progress}

theorem order_endsCall {x : OrderCall} (h : s.order scope = .ok x) : EndsCall s.line 2 := by
  unfold order at h
  dsimp only at h
  split at h
  · obtain ⟨⟨args, close⟩, hargs, h⟩ := bind_eq_ok.1 h
    obtain ⟨⟨⟩, hpast, -⟩ := bind_eq_ok.1 h
    exact endsCall_of_pastCall hargs hpast
  · cases h

theorem plot_endsCall {x : PlotCall} (h : s.plot scope = .ok x) : EndsCall s.line 1 := by
  unfold plot at h
  dsimp only at h
  split at h
  · obtain ⟨⟨args, close⟩, hargs, h⟩ := bind_eq_ok.1 h
    obtain ⟨⟨⟩, hpast, -⟩ := bind_eq_ok.1 h
    exact endsCall_of_pastCall hargs hpast
  · cases h

/-! ## The first line -/

theorem tree_word {margin : List Token} (hmargin : ∀ u ∈ margin, isLayout u = true) (ht : isLayout t = false)
    (rest : List Token) : ∃ body more, tree (margin ++ t :: rest) = mk (t :: rest.takeWhile (!isLayout ·)) body :: more := by
  have hlines : ∃ lines, (items (margin ++ t :: rest)).filterMap Item.line? =
      (t :: rest.takeWhile (!isLayout ·)) :: lines := by
    induction margin with
    | nil => exact ⟨_, by rw [nil_append, items_line rest ht, filterMap_cons_some (Item.line?_line _)]⟩
    | cons u margin ih =>
      obtain ⟨lines, hlines⟩ := ih fun v hv => hmargin v (mem_cons_of_mem u hv)
      refine ⟨lines, ?_⟩
      rcases items_layout (margin ++ t :: rest) (hmargin u mem_cons_self) with hi | hi | hi <;>
        simp [hi, hlines, filterMap_cons]
  obtain ⟨lines, hlines⟩ := hlines
  rw [← linesAll_tree] at hlines
  cases htree : tree (margin ++ t :: rest) with
  | nil => simp [htree] at hlines
  | cons first more =>
    obtain ⟨line, body⟩ := first
    rw [htree, linesAll_cons, lines_mk, cons_append] at hlines
    exact ⟨body, more, by rw [(cons.inj hlines).1]⟩

variable (hheader : StatementForm.isHeader line = true)
include hheader

theorem ofLine_header : StatementForm.ofLine source line = .header := by
  rw [StatementForm.ofLine, if_pos hheader]

theorem collectAll_header (hcheck : checkBrackets line = .ok ()) :
    collectAll source .top ⟨{}, false⟩ (mk line [] :: more) = collectAll source .top ⟨{}, true⟩ more := by
  rw [collectAll, collect, hcheck, ofLine_header hheader]
  rfl

theorem header_of_collectAll (h : collectAll source .top ⟨{}, false⟩ (mk line body :: more) = .ok r) :
    checkBrackets line = .ok () ∧ body = [] := by
  rw [collectAll, collect, ofLine_header hheader] at h
  obtain ⟨x, h, -⟩ := bind_eq_ok.1 h
  obtain ⟨⟨⟩, hcheck, h⟩ := bind_eq_ok.1 h
  obtain ⟨⟨⟩, hblock, -⟩ := bind_eq_ok.1 h
  refine ⟨hcheck, ?_⟩
  cases body with
  | nil => rfl
  | cons first rest =>
    simp only [checkBlock, bodySpan?, Statement.body, blockSpan?] at hblock
    split at hblock
    · cases hblock
    · next hnone => split at hnone <;> cases hnone

end Statement

theorem Header.declared?_eq_some {name : String}
    (h : declared? ts = some (kind, name)) :
    ∃ keyword bracket after, ts = keyword :: bracket :: after ∧ readKind keyword = .ok kind ∧
      bracket.kind = .delimiter .openParen := by
  cases ts with
  | nil => cases h
  | cons keyword after =>
    obtain ⟨kind', hkind, h⟩ := Option.bind_eq_some_iff.1 h
    obtain ⟨⟨⟩, hguard, h⟩ := Option.bind_eq_some_iff.1 h
    obtain ⟨⟨args, close⟩, -, h⟩ := Option.bind_eq_some_iff.1 h
    obtain ⟨name', -, h⟩ := Option.bind_eq_some_iff.1 h
    cases h
    cases after with
    | nil => simp at hguard
    | cons bracket after =>
      refine ⟨keyword, bracket, after, rfl, ?_, by simpa [Token.isDelimiter] using hguard⟩
      cases hread : readKind keyword with
      | error e => rw [hread] at hkind; cases hkind
      | ok => rw [hread] at hkind; cases hkind; rfl

theorem StatementForm.isHeader_of_readKind {keyword bracket : Token}
    (hkind : Header.readKind keyword = .ok kind) (hbracket : bracket.kind = .delimiter .openParen)
    (rest : List Token) : isHeader (keyword :: bracket :: rest) = true := by
  obtain ⟨word, hmem, hword⟩ := Header.readKind_eq_ok hkind
  have hopens : ∀ w ∈ [Keyword.indicator, .study, .strategy],
      (w == .indicator || w == .study || w == .strategy || w == .library) = true := by
    decide
  simp only [isHeader, opensWith, head?_cons, Option.map_some, hword]
  rw [hopens word hmem]
  simp [Token.isDelimiter, hbracket]

namespace Script

open Statement StatementForm

variable {source : List Char} {s : Script} (h : parse source = .ok s)
include h

theorem opening_of_parse : ∃ keyword bracket after body more,
    tree (tokens source) = Statement.mk (keyword :: bracket :: after.takeWhile (!isLayout ·)) body :: more ∧
    Header.declared? (keyword :: bracket :: after) = some (s.kind, s.name) ∧
    Header.readKind keyword = .ok s.kind ∧ bracket.kind = .delimiter .openParen := by
  obtain ⟨header, r, hheader, -, rfl⟩ := assembled_of_parse h
  rw [Header.read_toOption] at hheader
  obtain ⟨v, -, hheader⟩ := Option.bind_eq_some_iff.1 hheader
  obtain ⟨⟨kind, name⟩, hdeclared, rfl⟩ := Option.map_eq_some_iff.1 hheader
  obtain ⟨keyword, bracket, after, hopening, hkind, hbracket⟩ := Header.declared?_eq_some hdeclared
  have hmargin : ∀ u ∈ (tokens source).takeWhile (·.kind.isTrivia), isLayout u = true := by
    intro u hu
    have htrivia := mem_takeWhile_imp hu
    have hcomment := (mem_filter.1 ((takeWhile_sublist _).mem hu)).2
    cases hk : u.kind with
    | newline | indent | dedent => simp [isLayout, hk]
    | comment => simp [hk] at hcomment
    | _ => simp [hk, TokenKind.isTrivia] at htrivia
  have hword : isLayout bracket = false := by simp [isLayout, hbracket]
  obtain ⟨word, -, hkeyword⟩ := Header.readKind_eq_ok hkind
  obtain ⟨body, more, htree⟩ := tree_word hmargin (t := keyword) (by simp [isLayout, hkeyword]) (bracket :: after)
  rw [takeWhile_cons_of_pos (by simp [hword])] at htree
  refine ⟨keyword, bracket, after, body, more, ?_, hopening ▸ hdeclared, hkind, hbracket⟩
  rw [← htree, ← hopening]
  exact congrArg tree takeWhile_append_dropWhile.symm

/-- The line of a declaration in an accepted script is its call and whatever stands behind it. Other
words behind the call make no difference to what the statements declare, while a line with an order or
a plot ends with its call. -/
theorem declaration_line : (∃ call behind more, tree (tokens source) = Statement.mk (call ++ behind) [] :: more ∧
      statementsOf source .header = [Statement.mk (call ++ behind) []] ∧
      EndsCall call 1 ∧ Header.declared? call = some (s.kind, s.name) ∧
      ∀ other, checkBrackets other = .ok () →
        collectAll source .top ⟨{}, false⟩ (Statement.mk (call ++ other) [] :: more) =
          collectAll source .top ⟨{}, false⟩ (tree (tokens source))) ∧
    (∀ n ∈ statementsOf source .order, EndsCall n.line 2) ∧ ∀ n ∈ statementsOf source .plot, EndsCall n.line 1 := by
  refine ⟨?_, fun n hn => ?_, fun n hn => ?_⟩
  · obtain ⟨keyword, bracket, after, body, more, htree, hdeclared, hkind, hbracket⟩ := opening_of_parse h
    obtain ⟨-, r, -, hwalk, -⟩ := assembled_of_parse h
    obtain ⟨word, -, hkeyword⟩ := Header.readKind_eq_ok hkind
    have hheader := isHeader_of_readKind hkind hbracket
    have hopen : bracketDelta bracket = 1 := by simp [bracketDelta, hbracket]
    rw [htree] at hwalk
    obtain ⟨hcheck, rfl⟩ := header_of_collectAll (hheader _) hwalk
    obtain ⟨opened, hbehind⟩ := exists_check_behind (show checkBracketsFrom [] ([keyword] ++ _) = .ok () from hcheck)
    obtain ⟨inner, c, behind, hline, hpair, hinner, -⟩ := closes_of_open hopen hbehind
    refine ⟨keyword :: bracket :: (inner ++ [c]), behind, more, ?_, ?_, ?_, ?_, fun other hother => ?_⟩
    · simp [htree, hline]
    · have hone := declaration_once h
      have hform : ofLine source (keyword :: bracket :: after.takeWhile (!isLayout ·)) = .header :=
        ofLine_header (hheader _)
      rw [statementsOf, statements, htree, reachedAll_cons, reached_plain [] (by simp [hform]) (by simp [hform]),
        singleton_append, filter_cons_of_pos (by simp [Statement.form, Statement.line, hform])] at hone ⊢
      have hnil := length_eq_zero_iff.1 (Nat.le_zero.1 (Nat.le_of_succ_le_succ hone))
      rw [hnil, hline]
      simp
    · have hpartners : Partners (keyword :: bracket :: (inner ++ [c])) 1 (1 + (inner.length + 1)) :=
        ⟨[keyword], bracket, inner, c, [], rfl, rfl, rfl, hpair, hinner⟩
      exact ⟨_, matchingClose?_of_partners hpartners, by simp; omega⟩
    · have hpartners : Partners (bracket :: (inner ++ [c])) 0 (0 + (inner.length + 1)) :=
        ⟨[], bracket, inner, c, [], rfl, rfl, rfl, hpair, hinner⟩
      have hclose := matchingClose?_of_partners hpartners
      rw [matchingClose?_zero] at hclose
      rw [← hdeclared, ← takeWhile_append_dropWhile (p := (!isLayout ·)) (l := after), hline]
      have := Header.declared?_closed hclose keyword (behind ++ after.dropWhile (!isLayout ·))
      simpa using this.symm
    · have hcall : Matched (keyword :: bracket :: (inner ++ [c])) :=
        .other (by simp [bracketDelta, hkeyword]) (.pair hpair hinner .nil)
      rw [htree, collectAll_header (hheader _) hcheck]
      exact collectAll_header (hheader _) (check_of_matched hcall hother)
  · obtain ⟨x, -, scope, hx⟩ := exists_of_forall₂ (declared_of_parse h (.orders source) rfl fun _ _ => rfl) hn
    exact order_endsCall hx
  · obtain ⟨x, -, scope, hx⟩ := exists_of_forall₂ (declared_of_parse h (.plots source) rfl fun _ _ => rfl) hn
    exact plot_endsCall hx

omit h

def crowdedSource : List Char :=
  "//@version=5\nstrategy(\"S\") plot(close)\nstrategy.close(\"A\")\nplot(open)\n".toList

theorem crowded_read : (∃ s, parse crowdedSource = .ok s ∧ s.name = "S" ∧ s.plots.length = 1) ∧
    (∃ n ∈ statementsOf crowdedSource .header, matchingClose? n.line 1 = some 3 ∧ n.line.length = 8) ∧
    (statementsOf crowdedSource .order).length = 1 := by
  decide +kernel

theorem declaration_line_crowded : ∃ s call behind n, parse crowdedSource = .ok s ∧
    statementsOf crowdedSource .header = [Statement.mk (call ++ behind) []] ∧ EndsCall call 1 ∧
    Header.declared? call = some (s.kind, "S") ∧ statementsOf crowdedSource .order = [n] ∧ EndsCall n.line 2 := by
  obtain ⟨⟨s, hs, hname, -⟩, -, horder⟩ := crowded_read
  obtain ⟨⟨call, behind, -, -, hheader, hcall, hdeclared, -⟩, horders, -⟩ := declaration_line hs
  obtain ⟨n, hn⟩ := length_eq_one_iff.1 horder
  exact ⟨s, call, behind, n, hs, hheader, hcall, hname ▸ hdeclared, hn, horders n (hn ▸ mem_cons_self)⟩

/-- The line of the declaration goes on behind its call, and the plot on it is lost. -/
theorem declaration_goes_on : ∃ s, parse crowdedSource = .ok s ∧ s.plots.length = 1 ∧
    ∃ n ∈ statementsOf crowdedSource .header, ¬ EndsCall n.line 1 := by
  obtain ⟨⟨s, hs, -, hplots⟩, ⟨n, hn, hclose, hlength⟩, -⟩ := crowded_read
  refine ⟨s, hs, hplots, n, hn, ?_⟩
  rintro ⟨close, hclose', hend⟩
  rw [hclose] at hclose'
  cases hclose'
  omega

end Script

end ChartScript
