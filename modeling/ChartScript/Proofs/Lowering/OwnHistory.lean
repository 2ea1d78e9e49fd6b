import ChartScript.Conversion
import ChartScript.Proofs.Lowering.Hygiene
import ChartScript.Proofs.Script.Breaks
import ChartScript.Proofs.Script.Expressions
/-!
# Reassignments that read their own history

A past value of a name cannot be had while the name is given a new value over all bars at once.
-/
namespace ChartScript

open List Statement

/-! ## Lines of a function -/

variable {text : List Char} {s : Script} {t : Token} {e : Expr}

theorem Script.mem_tokenize_of_run {line ws : List Token} {s : Span}
    (hline : .line line ∈ items (Script.tokens text)) (hrun : Line.Run line ws)
    (hs : Line.span? ws = some s) (ht : t ∈ ws) :
    ∃ u ∈ tokenize ((Text.slice text s.start s.stop).getD []), u.kind = t.kind := by
  have hcontent := (Script.rereads_run hline hrun hs).content
  obtain ⟨before, after, rfl, _⟩ := hrun
  obtain ⟨_, hwords, earlier, later, htokens, _⟩ := line_of_mem_items hline
  have hws : ∀ u ∈ ws, isLayout u = false := fun u hu => hwords u (by simp [hu])
  have hwhole : Script.tokens text = (earlier ++ before) ++ (ws ++ (after ++ later)) := by
    rw [htokens]
    simp only [append_assoc]
  have hmem : t ∈ ((tokenize text).filter Token.isContent).filter s.holds := by
    have hin : t ∈ Script.tokens text := by rw [hwhole]; simp [ht]
    obtain ⟨hin, hcomment⟩ := mem_filter.1 hin
    have hcovers := Line.covers_span (ordered_of_piece hwhole hws) hs
    refine mem_filter.2 ⟨mem_filter.2 ⟨hin, ?_⟩, ?_⟩
    · rw [Token.isContent_eq, hws t ht, hcomment]
      rfl
    · simp [Span.holds, hcovers.start_le t ht, hcovers.le_stop t ht]
  rw [← hcontent] at hmem
  obtain ⟨u, hu, rfl⟩ := mem_map.1 hmem
  exact ⟨u, (mem_filter.1 hu).1, rfl⟩

namespace BodyLine

theorem valueTokens_run (tokens : List Token) : Line.Run tokens (valueTokens tokens) := by
  unfold valueTokens
  dsimp only
  split
  · exact Line.run_drop tokens _
  · exact Line.run_drop tokens 0

theorem sign_of_value {tokens : List Token} (h : ∀ t ∈ valueTokens tokens, t.isReassignment = false) :
    ∀ t ∈ tokens, t.isReassignment = true → t.kind = .operator .reassign := by
  unfold valueTokens at h
  dsimp only at h
  intro t ht hre
  split at h
  · next hsome =>
    obtain ⟨name, sign, value, more, hdrop, hname, hsign⟩ := target?_isSome hsome
    have hvalue : tokens.drop ((tokens.takeWhile isTypeWord).length + 2) = value :: more := by
      rw [← drop_drop, hdrop]
      rfl
    rw [hvalue] at h
    rw [← take_append_drop (tokens.takeWhile isTypeWord).length tokens, hdrop,
      ← prefix_iff_eq_take.1 (List.takeWhile_prefix _)] at ht
    rw [mem_append, mem_cons, mem_cons] at ht
    rcases ht with ht | rfl | rfl | ht
    · have hword := mem_takeWhile_imp ht
      unfold isTypeWord at hword
      unfold Token.isReassignment at hre
      split at hword <;> simp_all
    · simp [Token.isReassignment, hname] at hre
    · rcases hsign with hk | hk
      · simp [Token.isReassignment, hk, Operator.isReassignment] at hre
      · exact hk
    · rw [h t ht] at hre
      cases hre
  · rw [h t ht] at hre
    cases hre

theorem sign_of_parse {base : Span} {line : List Token}
    (hline : .line line ∈ items (Script.tokens text))
    (h : Expr.parse (ofTokens text base line).text (ofTokens text base line).span = .ok e) :
    ∀ t ∈ line, t.isReassignment = true → t.kind = .operator .reassign := by
  refine sign_of_value fun t ht => ?_
  obtain ⟨s, hs⟩ := Line.span?_isSome (ne_nil_of_mem ht)
  have htext : (ofTokens text base line).text = (Text.slice text s.start s.stop).getD [] := by
    show (Text.slice text ((Line.span? (valueTokens line)).getD .origin).start
      ((Line.span? (valueTokens line)).getD .origin).stop).getD [] = _
    rw [hs, Option.getD_some]
  obtain ⟨u, hu, hk⟩ := Script.mem_tokenize_of_run hline (valueTokens_run line) hs ht
  have hplain := Expr.parse_plain h u (htext ▸ hu)
  rwa [Token.isReassignment, hk] at hplain

end BodyLine

namespace Lowering

theorem parse_eq_ok {span : Span} (h : parse text span = .ok e) :
    Expr.parse text span = .ok e := by
  unfold parse at h
  cases hp : Expr.parse text span with
  | error fault =>
    rw [hp] at h
    cases h
  | ok e' =>
    rw [hp] at h
    cases h
    rfl

theorem function_sign {scope : Scope} {f : FuncDecl} {out : Lowered × Signature}
    (h : function s scope f = .ok out) (ht : t ∈ tokenize (s.text f.body))
    (hre : t.isReassignment = true) : f.singleLine = false ∧ t.kind = .operator .reassign := by
  obtain ⟨exprs, _, _, _, _, hexprs, _⟩ := function_eq_ok h
  have hparsed : ∀ line ∈ BodyLine.ofFunction s f, ∃ e, Expr.parse line.text line.span = .ok e := by
    intro line hline
    obtain ⟨i, hi, rfl⟩ := mem_iff_getElem.1 hline
    have hall := forall₂_of_mapM hexprs
    exact ⟨_, parse_eq_ok (hall.get hi (hall.length_eq ▸ hi))⟩
  cases hsingle : f.singleLine with
  | true =>
    have hlines : BodyLine.ofFunction s f = [⟨none, s.text f.body, f.body⟩] := by
      rw [BodyLine.ofFunction, if_pos hsingle]
    obtain ⟨e, he⟩ := hparsed ⟨none, s.text f.body, f.body⟩ (by rw [hlines]; simp)
    rw [Expr.parse_plain he t ht] at hre
    cases hre
  | false =>
    rw [BodyLine.ofFunction_of_block hsingle] at hparsed
    refine ⟨rfl, ?_⟩
    -- a sign is a word of one of the lines
    obtain ⟨op, hop⟩ : ∃ op, t.kind = .operator op := by
      by_contra hnone
      rw [Token.isReassignment_of_kind fun op hk => hnone ⟨op, hk⟩] at hre
      cases hre
    have hword : t ∈ (Script.tokens (s.text f.body)).filter (!isLayout ·) := by
      simp [Script.tokens, ht, hop, isLayout]
    rw [← flatten_items] at hword
    obtain ⟨line, hline, htline⟩ := mem_flatten.1 hword
    obtain ⟨e, he⟩ := hparsed _ (mem_map_of_mem hline)
    obtain ⟨item, hitem, hitemline⟩ := mem_filterMap.1 hline
    cases item with
    | line line' =>
      cases hitemline
      exact BodyLine.sign_of_parse hitem he t htline hre
    | indent | dedent => cases hitemline

/-! ## Reassignments -/

theorem lowered_of_convert {settings : ConversionSettings} {source : List Char} {check : SyntaxCheck}
    {c : Conversion} (h : convert settings source check = .ok (.ok c)) :
    ∃ s l, Script.parse source = .ok s ∧ script s = .ok l := by
  unfold convert at h
  cases hs : Script.parse source with
  | error e =>
    rw [hs] at h
    cases h
  | ok s =>
    rw [hs] at h
    dsimp only [Script.convert] at h
    split at h
    · cases h
    · split at h
      · cases h
      · next l hl => exact ⟨s, l, rfl, hl⟩

theorem reassignment_reads_no_history {l : LoweredScript} (h : script s = .ok l)
    {d : VarDecl} (hd : d ∈ s.varDecls) (hmode : d.mode ≠ .declare) :
    ∃ x e, d.target = .single x ∧ Expr.parse (s.text d.value) d.value = .ok e ∧ e.readsHistoryOf x = false := by
  obtain ⟨scope, pattern, v, scope', hassigned⟩ := assignment_lowered h hd
  cases hassigned with
  | declared hdeclare => exact absurd hdeclare hmode
  | unpacked hdeclare => exact absurd hdeclare hmode
  | reassigned _ htarget he hx => exact ⟨_, _, htarget, parse_eq_ok he, hx⟩

/-- A source that is converted was read and lowered. In a script that is lowered no reassignment at
script level, plain or compound, reads the past of the name it changes. In the bodies of functions
there is no compound assignment, and a plain reassignment only in a block of lines. -/
theorem accepted_reassignments (source : List Char) :
    (∀ settings check c, convert settings source check = .ok (.ok c) →
      ∃ s l, Script.parse source = .ok s ∧ script s = .ok l) ∧
    ∀ s l, Script.parse source = .ok s → script s = .ok l →
      (∀ d ∈ s.varDecls, d.mode ≠ .declare → ∃ x e, d.target = .single x ∧
        Expr.parse (s.text d.value) d.value = .ok e ∧ e.readsHistoryOf x = false) ∧
      ∀ f ∈ s.functions, ∀ t ∈ tokenize (s.text f.body), t.isReassignment = true →
        f.singleLine = false ∧ t.kind = .operator .reassign := by
  refine ⟨fun settings check c h => lowered_of_convert h, fun s l _ hl => ⟨fun d hd hmode => ?_, ?_⟩⟩
  · exact reassignment_reads_no_history hl hd hmode
  · intro f hf t ht hre
    obtain ⟨scope, out, hout⟩ := function_lowered hl hf
    exact function_sign hout ht hre

def reassigningSource : List Char :=
  ("//@version=5\nindicator(\"R\")\n" ++
   "x = close\n" ++
   "x := x + open\n" ++
   "x += high\n" ++
   "f(a) =>\n" ++
   "    y = a\n" ++
   "    y := y + close\n" ++
   "    y\n" ++
   "plot(x)\n").toList

theorem accepted_reassignments_each_sort : ∃ s l, Script.parse reassigningSource = .ok s ∧
    script s = .ok l ∧ s.varDecls.map (·.mode) = [.declare, .reassign, .compound .plusAssign] ∧
    (∀ d ∈ s.varDecls, d.mode ≠ .declare → ∃ x e, d.target = .single x ∧
      Expr.parse (s.text d.value) d.value = .ok e ∧ e.readsHistoryOf x = false) ∧
    ∃ f ∈ s.functions, (∃ t ∈ tokenize (s.text f.body), t.isReassignment = true) ∧
      ∀ t ∈ tokenize (s.text f.body), t.isReassignment = true →
        f.singleLine = false ∧ t.kind = .operator .reassign := by
  have hrun : ∃ s, Script.parse reassigningSource = .ok s ∧
      s.varDecls.map (·.mode) = [.declare, .reassign, .compound .plusAssign] ∧
      (∃ f ∈ s.functions, ∃ t ∈ tokenize (s.text f.body), t.isReassignment = true) ∧
      ∃ l, script s = .ok l ∧ True := by
    decide +kernel
  obtain ⟨s, hs, hmodes, ⟨f, hf, hsign⟩, l, hl, -⟩ := hrun
  obtain ⟨hlevel, hbodies⟩ := (accepted_reassignments reassigningSource).2 s _ hs hl
  exact ⟨s, _, hs, hl, hmodes, hlevel, f, hf, hsign, hbodies f hf⟩

def ownHistorySource : List Char :=
  ("//@version=5\nindicator(\"F\")\n" ++
   "f(len) =>\n" ++
   "    x = close\n" ++
   "    x := x[len] + close\n" ++
   "    x\n" ++
   "plot(close)\n").toList

/-- In the body of a function a reassignment that reads its own past is accepted: if the score is
below the threshold, the script is converted. -/
theorem local_reads_own_history : ∃ s f line e, Script.parse ownHistorySource = .ok s ∧
    f ∈ s.functions ∧ line ∈ BodyLine.ofFunction s f ∧ line.target = some ("x", true) ∧
    Expr.parse line.text line.span = .ok e ∧ e.readsHistoryOf "x" = true ∧
    ∀ t : Thresholds, ¬ t.mechanical ≤ s.score →
      ∃ c, convert { thresholds := t } ownHistorySource = .ok (.ok c) := by
  have hrun : ∃ s, Script.parse ownHistorySource = .ok s ∧ s.refusal? 1 = none ∧
      (∃ f ∈ s.functions, ∃ line ∈ BodyLine.ofFunction s f, line.target = some ("x", true) ∧
        ∃ e, Expr.parse line.text line.span = .ok e ∧ e.readsHistoryOf "x" = true) ∧
      ∃ l, script s = .ok l ∧ ∃ g, s.generate l {} = .ok g ∧ True := by
    decide +kernel
  obtain ⟨s, hs, hrefusal, ⟨f, hf, line, hline, htarget, e, he, hreads⟩, l, hl, g, hg, -⟩ := hrun
  refine ⟨s, f, line, e, hs, hf, hline, htarget, he, hreads, fun t ht => ?_⟩
  have hrejection : s.rejection? { thresholds := t } = none := by
    rw [Script.rejection?, if_neg ht, hrefusal]
    rfl
  rw [convert, hs]
  dsimp only [Script.convert]
  rw [hrejection, hl]
  dsimp only
  rw [hg]
  exact ⟨_, rfl⟩

end Lowering

end ChartScript
