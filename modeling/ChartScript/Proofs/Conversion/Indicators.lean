import ChartScript.Proofs.Conversion.Accepted
import ChartScript.Proofs.Lowering.Neighbours
import ChartScript.Proofs.Lowering.Yields
import ChartScript.Proofs.Module.Rows
import ChartScript.Proofs.Script.Members
/-!
# The indicators of a conversion

A conversion names the indicators that stand behind `ta` among the tokens of the source.
-/
namespace ChartScript

namespace Script

variable {source : List Char} {s : Script}

theorem among_indicators (h : parse source = .ok s) {text : List Char} {base : Span} {e : Expr}
    (he : Expr.parse text base = .ok e)
    (hpiece : ∀ t u, [t, u] <:+: (tokenize text).filter Token.isContent →
      ∃ t' u', [t', u'] <:+: (tokenize source).filter Token.isContent ∧
        t'.kind = t.kind ∧ t'.text = t.text ∧ u'.kind = u.kind ∧ u'.text = u.text) :
    Expr.Spelling.Among (· ∈ s.indicators) e.spellings := by
  intro x hx
  obtain ⟨t, u, hpair, hkind, hname, hword, rfl⟩ := Expr.spelled_of_parse he hx
  obtain ⟨t', u', hsource, htkind, httext, hukind, hutext⟩ := hpiece t u hpair
  rw [← hutext]
  refine mem_indicators h hsource (htkind.trans hkind) ?_ ?_
  · rwa [Token.qualifierName, httext]
  · rwa [Token.isWord, hukind]

theorem spellsAmong_of_parse (h : parse source = .ok s) : s.SpellsAmong (· ∈ s.indicators) where
  expressions span hspan e he := by
    refine among_indicators h he fun t u hpair => ?_
    obtain ⟨t', u', hsource, -, hkinds⟩ := pair_of_expression h hspan hpair
    exact ⟨t', u', hsource, hkinds⟩
  lines f hf line hline e he := by
    refine among_indicators h he fun t u hpair => ?_
    obtain ⟨t', u', hsource, -, hkinds⟩ := BodyLine.pieceOf_source h hf hline hpair
    exact ⟨t', u', hsource, hkinds⟩

end Script

/-- Whatever the syntax check, a conversion names every indicator that lowering has recorded. These are
the ones that the header of the module lists, and its code calls no others. -/
theorem indicators_reported (check : SyntaxCheck) {settings : ConversionSettings} {source : List Char}
    {c : Conversion} (h : convert settings source check = .ok (.ok c)) :
    ∃ s l m, Accepted check settings source s l m ∧ c = s.conversion settings m ∧
      (∀ q ∈ Need.indicators l.needs, q ∈ c.indicators) ∧
      (Need.indicators l.needs ≠ [] →
        "//! Indicators: " ++ ", ".intercalate (Need.indicators l.needs) ++ "." ∈ m.lines) ∧
      ∀ item ∈ l.items, ∀ x, .path ["ta", x] ∈ item.value.code.mentions → "ta." ++ x ∈ Need.indicators l.needs := by
  obtain ⟨s, l, m, haccepted, rfl⟩ := convert_eq_ok.1 h
  have hneeds : m.needs = l.needs := by rw [(Module.build_cases haccepted.built).1]
  refine ⟨s, l, m, haccepted, rfl, fun q hq => ?_, fun hne => ?_, fun item hitem x hx => ?_⟩
  · have hspelled := Script.spellsAmong_of_parse haccepted.parsed
    have hneeded := (Lowering.script_yields haccepted.parsed hspelled).value haccepted.lowered
    exact hneeded q (Need.mem_indicators.1 hq)
  · rw [← hneeds] at hne ⊢
    rw [Module.lines_eq, Module.titleLines, if_neg (by simpa using hne)]
    simp
  · have hsupply := Lowering.script_supply haccepted.lowered
    exact Need.mem_indicators.2 ((hsupply.code item hitem _ hx).indicator x rfl)

def indicatorSource : List Char :=
  ("//@version=5\nindicator(\"I\")\n" ++
   "v = ta.rsi + nz(1, ta.hma)\n" ++
   "f(x, n = ta.wma(v, 3)) =>\n" ++
   "    y = ta.rma(x, 2)\n" ++
   "    y + n\n" ++
   "plot(f(ta.ema(ta.sma(v, 3), 5)))\n").toList

theorem indicators_reported_everywhere : ∃ c, convert {} indicatorSource = .ok (.ok c) ∧
    ∃ s l m, Accepted Module.isWellFormed {} indicatorSource s l m ∧ c = s.conversion {} m ∧
      Need.indicators l.needs = ["ta.ema", "ta.rma", "ta.rsi", "ta.sma", "ta.wma"] ∧
      ∀ q ∈ ["ta.ema", "ta.rma", "ta.rsi", "ta.sma", "ta.wma"], q ∈ c.indicators := by
  obtain ⟨s, l, m, haccepted, hc, hneeds⟩ := exists_accepted {} indicatorSource
    (fun _ l => Need.indicators l.needs = ["ta.ema", "ta.rma", "ta.rsi", "ta.sma", "ta.wma"]) (by decide +kernel)
  obtain ⟨s', l', m', haccepted', heq, hreported, -⟩ := indicators_reported _ hc
  cases haccepted.parsed.symm.trans haccepted'.parsed
  cases haccepted.lowered.symm.trans haccepted'.lowered
  rw [hneeds] at hreported
  exact ⟨_, hc, s, l, m', haccepted', heq, hneeds, hreported⟩

end ChartScript
