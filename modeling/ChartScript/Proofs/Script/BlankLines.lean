import ChartScript.Complexity
import ChartScript.Proofs.Script.Division
import ChartScript.Proofs.Token.BlankLines
/-!
# Scripts and their blank lines

A line without a statement changes nothing in a script but the places below it.
-/
namespace ChartScript

open List Text Header

/-- The script at other places of another source. -/
def Script.relocate (φ : Span → Span) (source : List Char) (s : Script) : Script :=
  { s with
    toDeclarations := s.toDeclarations.relocate φ
    source := source
    collectionUses := s.collectionUses.map (·.relocate φ)
    drawingCalls := s.drawingCalls.map (·.relocate φ) }

/-- The script without its source and with all places forgotten. -/
def Script.unplaced (s : Script) : Script :=
  s.relocate (fun _ => .origin) []

/-! ## Scripts with moved parts -/

/-- The parts of one source are found in another at the moved places. -/
structure Script.Moved (φ : Span → Span) (source source' : List Char) : Prop where
  respects : Span.Respects φ
  /-- Which place lies within which is kept. -/
  within (a b : Span) : ((φ a).start ≤ (φ b).start ↔ a.start ≤ b.start) ∧
    ((φ a).stop ≤ (φ b).stop ↔ a.stop ≤ b.stop)
  unknown : (tokenize source').any (·.kind == .unknown) = (tokenize source).any (·.kind == .unknown)
  header : (read (tokenize source')).toOption = (read (tokenize source)).toOption
  tree : Statement.tree (tokens source') = Statement.relocateAll φ (Statement.tree (tokens source))
  lines : Statement.Movable φ source source' (Statement.linesAll (Statement.tree (tokens source)))
  uses : memberUses (tokens source') = (memberUses (tokens source)).map (Prod.map (·.relocate φ) id)
  called : calledNames (tokens source') = (calledNames (tokens source)).map (·.relocate φ)
  codeLines : (writtenLines (tokens source')).eraseDups.length = (writtenLines (tokens source)).eraseDups.length

namespace Script

variable {φ : Span → Span} {source source' : List Char}

section

variable (hwithin : ∀ a b : Span,
  ((φ a).start ≤ (φ b).start ↔ a.start ≤ b.start) ∧ ((φ a).stop ≤ (φ b).stop ↔ a.stop ≤ b.stop))
include hwithin

theorem calleesIn_relocate (body : Span) (functions : List String) (called : List Token) :
    calleesIn (φ body) functions (called.map (·.relocate φ)) = calleesIn body functions called := by
  have hfilter : (called.map (·.relocate φ)).filter (fun t =>
      (φ body).start ≤ t.span.start && t.span.stop ≤ (φ body).stop) =
        (called.filter fun t => body.start ≤ t.span.start && t.span.stop ≤ body.stop).map (·.relocate φ) := by
    rw [filter_map]
    congr 1
    apply filter_congr
    intro t _
    simp [(hwithin body t.span).1, (hwithin t.span body).2]
  rw [calleesIn, hfilter, map_map, calleesIn]
  rfl

theorem withCallees_relocate (called : List Token) (fs : List FuncDecl) :
    withCallees (called.map (·.relocate φ)) (fs.map (·.relocate φ)) =
    (withCallees called fs).map (·.relocate φ) := by
  simp only [withCallees, map_map]
  apply map_congr_left
  intro f _
  simp only [Function.comp_apply, FuncDecl.relocate, calleesIn_relocate hwithin]
  rfl

end

theorem assembled_relocate (h : Moved φ source source') (header : Header) (d : Declarations) :
    assembled source' (tokens source') header (d.relocate φ) =
    (assembled source (tokens source) header d).relocate φ source' := by
  have hpicked (p : MemberUse × Bool → Bool) (hp : ∀ u b, p (u.relocate φ, b) = p (u, b)) :
      (memberUses (tokens source')).filter p =
        ((memberUses (tokens source)).filter p).map (Prod.map (·.relocate φ) id) := by
    rw [h.uses, filter_map]
    congr 1
    exact filter_congr fun u _ => hp u.1 u.2
  unfold assembled
  simp only [relocate, Script.mk.injEq, Declarations.relocate, true_and,
    and_true, h.called, withCallees_relocate h.within, h.codeLines, map_map]
  refine ⟨?_, ?_, ?_⟩
  · rw [hpicked _ fun _ _ => rfl, map_map]
    rfl
  · rw [hpicked _ fun _ _ => rfl, map_map]
    rfl
  · rw [hpicked _ fun _ _ => rfl, map_map]
    rfl

theorem Moved.mirrors (h : Moved φ source source') :
    Mirrors (·.relocate φ source') (parse source) (parse source') := by
  have hwalk := Statement.collectAll_relocate h.respects .top ⟨{}, false⟩ _ h.lines
  rw [Mirrors, ← h.tree] at hwalk
  rw [Mirrors, parse_toOption, parse_toOption, h.unknown, h.header]
  cases (tokenize source).any (·.kind == .unknown) with
  | true => rfl
  | false =>
    cases (read (tokenize source)).toOption with
    | none => rfl
    | some header =>
      rw [show (⟨{}, false⟩ : Statement.Progress).relocate φ = ⟨{}, false⟩ from rfl] at hwalk
      rw [hwalk]
      cases (Statement.collectAll source .top ⟨{}, false⟩ (Statement.tree (tokens source))).toOption with
      | none => rfl
      | some r => exact congrArg some (assembled_relocate h header r.declared)

end Script

/-! ## Lines that are put in -/

namespace Span

variable (point : Lexer.Position) (bytes : Nat)

theorem parted_within (a b : Span) :
    ((a.parted point bytes).start ≤ (b.parted point bytes).start ↔ a.start ≤ b.start) ∧
    ((a.parted point bytes).stop ≤ (b.parted point bytes).stop ↔ a.stop ≤ b.stop) := by
  simp only [parted]
  constructor
  · split <;> split <;> omega
  · split <;> split <;> omega

theorem respects_parted : Respects (parted point bytes) := by
  intro a b
  have hstop : ((a.through b).parted point bytes).stop =
      max (b.parted point bytes).stop (a.parted point bytes).stop := by
    rcases Nat.le_total a.stop b.stop with h | h
    · rw [Nat.max_eq_left ((parted_within point bytes a b).2.2 h)]
      simp only [parted, through, Nat.max_eq_left h]
    · rw [Nat.max_eq_right ((parted_within point bytes b a).2.2 h)]
      simp only [parted, through, Nat.max_eq_right h]
  exact Span.mk.injEq .. ▸ ⟨rfl, hstop, rfl, rfl⟩

theorem respects_down (lines : Nat) : Respects (down bytes lines) := by
  intro a b
  simp only [down, through, Span.mk.injEq, true_and, and_true]
  omega

end Span

theorem length_eraseDups_map {f : Nat → Nat} (hf : ∀ a b, f a = f b → a = b) (xs : List Nat) :
    (xs.map f).eraseDups.length = xs.eraseDups.length := by
  induction hn : xs.length using Nat.strongRecOn generalizing xs with
  | _ n ih =>
    cases xs with
    | nil => rfl
    | cons x xs =>
      have hfilter : (xs.map f).filter (fun y => !y == f x) = (xs.filter fun y => !y == x).map f := by
        rw [filter_map]
        congr 1
        apply filter_congr
        intro y _
        by_cases hy : y = x
        · simp [hy]
        · have : f y ≠ f x := fun h => hy (hf y x h)
          simp [hy, this]
      have hshort : (xs.filter fun y => !y == x).length < n := by
        have := length_filter_le (fun y => !y == x) xs
        simp only [length_cons] at hn
        omega
      rw [map_cons, eraseDups_cons, eraseDups_cons, hfilter, length_cons, length_cons, ih _ hshort _ rfl]

namespace BlankLine

open Lexer

variable {l : BlankLine} {before after : List Char} {head tail : List Token}

/-- The comment on the line is one that tells the version. -/
def givesVersion (l : BlankLine) : Bool :=
  l.comment.any ("@version=".toList.isPrefixOf ·)

theorem filter_tokens (l : BlankLine) (p : Position) : (l.tokens p).filter (·.kind != .comment) =
    [(p.after l.row).token .newline ['\n']] := by
  unfold tokens
  split <;> rfl

theorem isPrefixOf_ending (l : BlankLine) {word text : List Char} (h : word.contains '\r' = false) :
    word.isPrefixOf (text ++ l.ending) = word.isPrefixOf text := by
  unfold ending
  split
  · rw [Bool.eq_iff_iff, isPrefixOf_iff_prefix, isPrefixOf_iff_prefix, prefix_concat_iff]
    constructor
    · rintro (rfl | hprefix)
      · simp at h
      · exact hprefix
    · exact Or.inr
  · rw [append_nil]

theorem versionText?_eq_none (l : BlankLine) (h : l.givesVersion = false) {p : Position} {t : Token}
    (ht : t ∈ l.tokens p) (hkind : t.kind = .comment) : versionText? t.text = none := by
  cases hcomment : l.comment with
  | none =>
    simp only [tokens, hcomment, mem_singleton] at ht
    rw [ht] at hkind
    cases hkind
  | some text =>
    simp only [tokens, hcomment, mem_cons, not_mem_nil, or_false] at ht
    rcases ht with rfl | rfl
    · have hremark : l.remark = '/' :: '/' :: text := by rw [remark, hcomment]
      have hopening : "//@version=".toList.isPrefixOf (l.remark ++ l.ending) = false := by
        rw [givesVersion, hcomment] at h
        have hplain : "@version=".toList.isPrefixOf (text ++ l.ending) =
            "@version=".toList.isPrefixOf text := l.isPrefixOf_ending rfl
        rw [hremark]
        exact hplain.trans h
      simp only [versionText?, Position.token, String.toList_ofList, hopening]
      rfl
    · cases hkind

namespace Inserted

section

variable (h : l.Inserted before after head tail)
include h

theorem words_known : Script.tokens (before ++ after) =
    head.filter (·.kind != .comment) ++ tail.filter (·.kind != .comment) := by
  rw [Script.tokens, h.known, filter_append]

theorem words_new : Script.tokens (before ++ (l.chars ++ after)) =
    head.filter (·.kind != .comment) ++ ((pointBehind before).after l.row).token .newline ['\n'] ::
    (tail.filter (·.kind != .comment)).map (·.relocate (.down (byteSize l.chars) 1)) := by
  rw [Script.tokens, h.tokens, filter_append, filter_append, l.filter_tokens, filter_map]
  rfl

theorem read_eq {α : Type} {read : List Token → List α} (hread : ReadsLines read) :
    read (Script.tokens (before ++ (l.chars ++ after))) =
    read ((Script.tokens (before ++ after)).map (·.relocate (.parted (pointBehind before) (byteSize
    l.chars)))) := by
  have hcomplete := (complete_of_endsLine h.endsLine).filter_comments
  have hfixed : (head.filter (·.kind != .comment)).map
      (·.relocate (.parted (pointBehind before) (byteSize l.chars))) = head.filter (·.kind != .comment) :=
    (map_congr_left fun t ht => (h.above t (mem_filter.1 ht).1).2).trans (map_id _)
  rw [h.words_new, h.words_known, map_append, hfixed, hread.append hcomplete,
    hread.append hcomplete, hread.ending (.inl rfl)]
  rw [hread.congr fun t ht hword => ((h.below t (mem_filter.1 ht).1).2 hword).symm]

theorem unknown_eq : (tokenize (before ++ (l.chars ++ after))).any (·.kind == .unknown) =
    (tokenize (before ++ after)).any (·.kind == .unknown) := by
  have hown : (l.tokens (pointBehind before)).any (·.kind == .unknown) = false := by
    unfold BlankLine.tokens
    split <;> rfl
  rw [h.known, h.tokens, any_append, any_append, any_append, hown, any_map]
  rfl

theorem movable : Statement.Movable (.parted (pointBehind before) (byteSize l.chars)) (before ++ after) (before ++
    (l.chars ++ after)) (Statement.linesAll (Statement.tree (Script.tokens (before ++ after)))) := by
  have hcomplete := (complete_of_endsLine h.endsLine).filter_comments
  have hexact : ∀ t ∈ head ++ tail, t.span.Exact (before ++ after) := by
    rw [← h.known]
    exact fun t ht => tokenize_exact ht
  intro line hline
  have hitem := Statement.line_mem_items hline
  refine ⟨(Statement.line_of_mem_items hitem).1, fun a ha b hb => ?_⟩
  -- a line lies above the point or below it
  rw [h.words_known, Statement.items_append hcomplete] at hitem
  rw [Span.respects_parted]
  rcases mem_append.1 hitem with hitem | hitem
  · have habove := Statement.mem_of_line_mem hitem
    have hfixed (t : Token) (ht : t ∈ line) : t.span.parted (pointBehind before) (byteSize l.chars) = t.span :=
      congrArg (·.span) (h.above t (habove t ht)).2
    rw [hfixed a ha, hfixed b hb]
    have hin := (hexact a (mem_append_left _ (habove a ha))).through (hexact b (mem_append_left _ (habove b hb)))
    exact hin.slice_before (Nat.max_le.2 ⟨(h.above b (habove b hb)).1, (h.above a (habove a ha)).1⟩) _
  · have hbelow := Statement.mem_of_line_mem hitem
    have hmoved (t : Token) (ht : t ∈ line) :
        t.span.parted (pointBehind before) (byteSize l.chars) = t.span.down (byteSize l.chars) 1 :=
      congrArg (·.span) ((h.below t (hbelow t ht)).2 ((Statement.line_of_mem_items hitem).2.1 t ht))
    rw [hmoved a ha, hmoved b hb, ← Span.respects_down]
    have hin := (hexact a (mem_append_right _ (hbelow a ha))).through (hexact b (mem_append_right _ (hbelow b hb)))
    exact hin.slice_behind (h.below a (hbelow a ha)).1 _

theorem version_eq (hversion : l.givesVersion = false) :
    version? (tokenize (before ++ (l.chars ++ after))) = version? (tokenize (before ++ after)) := by
  have hown : ((l.tokens (pointBehind before)).filter (·.kind == .comment)).findSome?
      (fun t => versionText? t.text) = none := by
    rw [findSome?_eq_none_iff]
    intro t ht
    obtain ⟨hmem, hkind⟩ := mem_filter.1 ht
    exact l.versionText?_eq_none hversion hmem (by simpa using hkind)
  unfold version?
  rw [h.known, h.tokens]
  simp only [filter_append, findSome?_append, hown, Option.none_or, filter_map, findSome?_map]
  rfl

theorem declared_eq : declared? (opening (tokenize (before ++ (l.chars ++ after)))) =
    declared? (opening (tokenize (before ++ after))) := by
  rw [h.known, h.tokens]
  by_cases hopening : opening head = []
  · have hown : opening (l.tokens (pointBehind before)) = [] := by
      rw [opening, l.filter_tokens]
      rfl
    rw [opening_append_of_none hopening, opening_append_of_none hopening,
      opening_append_of_none hown, opening_relocate, declared?_relocate]
  · rw [opening_append hopening, opening_append hopening]
    refine declared?_append hopening (complete_of_endsLine h.endsLine).opening ?_ _ _
    rw [openBrackets_opening]
    exact openBrackets_of_endsLine h.known h.endsLine

theorem codeLines_eq : (Script.writtenLines (Script.tokens (before ++ (l.chars ++ after)))).eraseDups.length =
    (Script.writtenLines (Script.tokens (before ++ after))).eraseDups.length := by
  have hmoved : ∀ ts : List Token, Script.writtenLines
      (ts.map (·.relocate (.parted (pointBehind before) (byteSize l.chars)))) =
        (Script.writtenLines ts).map fun n => if n < (pointBehind before).line then n else n + 1 := by
    intro ts
    unfold Script.writtenLines
    rw [filter_map, map_map, map_map]
    rfl
  rw [h.read_eq Script.readsLines_writtenLines, hmoved]
  apply length_eraseDups_map
  intro a b hab
  split at hab <;> split at hab <;> omega

end

theorem moved (h : l.Inserted before after head tail) (hversion : l.givesVersion = false) :
    Script.Moved (.parted (pointBehind before) (byteSize l.chars)) (before ++ after)
      (before ++ (l.chars ++ after)) where
  respects := Span.respects_parted _ _
  within := Span.parted_within _ _
  unknown := h.unknown_eq
  header := by rw [Header.read_toOption, Header.read_toOption, h.version_eq hversion, h.declared_eq]
  tree := by rw [← Statement.tree_relocate, Statement.tree, Statement.tree, h.read_eq Statement.readsLines_items]
  lines := h.movable
  uses := by rw [h.read_eq Script.readsLines_memberUses, Script.memberUses_relocate (Span.respects_parted _ _)]
  called := by rw [h.read_eq Script.readsLines_calledNames, Script.calledNames_relocate]
  codeLines := h.codeLines_eq

end Inserted

end BlankLine

theorem Declarations.relocate_relocate (ψ φ : Span → Span) (d : Declarations) :
    (d.relocate φ).relocate ψ = d.relocate (ψ ∘ φ) := by
  simp only [relocate, map_map]
  simp [Function.comp_def, InputDecl.relocate, VarDecl.relocate, FuncDecl.relocate, FuncParam.relocate,
    OrderCall.relocate, PlotCall.relocate, Condition.relocate, TypeDecl.relocate, OtherStatement.relocate]

namespace Script

variable (φ : Span → Span) (source : List Char) (s : Script)

theorem unplaced_relocate : (s.relocate φ source).unplaced = s.unplaced := by
  simp only [unplaced, relocate, Declarations.relocate_relocate, map_map]
  rfl

theorem count_relocate (f : Factor) : f.count (s.relocate φ source) = f.count s := by
  cases f <;> simp [Factor.count, relocate, Declarations.relocate, nesting, Function.comp_def, Condition.relocate]

theorem value_relocate (f : Factor) : f.value (s.relocate φ source) = f.value s := by
  rw [Factor.value, count_relocate, Factor.value]

theorem factors_relocate : (s.relocate φ source).factors = s.factors := by
  simp only [factors, value_relocate]

theorem score_relocate : (s.relocate φ source).score = s.score := by
  simp only [score, value_relocate]

end Script

open Lexer in
/-- A line without a statement, put in where a line starts, adds its own tokens to the others. Unless
its comment tells a version, the script is read as before, and is the same up to places. -/
theorem blank_line_inert {before after : List Char} (h : LineStart before after) (l : BlankLine) :
    (∃ head tail, tokenize (before ++ after) = head ++ tail ∧
      tokenize (before ++ (l.chars ++ after)) = head ++ (l.tokens (pointBehind before) ++
        tail.map (·.relocate (.down (byteSize l.chars) 1))) ∧
      (∀ t ∈ head, t.span.stop ≤ byteSize before) ∧ ∀ t ∈ tail, byteSize before ≤ t.span.start) ∧
    (l.givesVersion = false → ((∃ s, Script.parse (before ++ (l.chars ++ after)) = .ok s) ↔
        ∃ s, Script.parse (before ++ after) = .ok s) ∧
      ∀ s s', Script.parse (before ++ after) = .ok s →
        Script.parse (before ++ (l.chars ++ after)) = .ok s' → s'.unplaced = s.unplaced ∧
          s'.codeLines = s.codeLines ∧ s'.factors = s.factors ∧ s'.score = s.score) := by
  obtain ⟨head, tail, hinserted⟩ := l.inserted h
  refine ⟨⟨head, tail, hinserted.known, hinserted.tokens, fun t ht => (hinserted.above t ht).1,
    fun t ht => (hinserted.below t ht).1⟩, fun hversion => ?_⟩
  have hparse := (hinserted.moved hversion).mirrors
  constructor
  · constructor
    · rintro ⟨s', hs'⟩
      obtain ⟨s, hs, -⟩ := hparse.eq_ok.1 hs'
      exact ⟨s, hs⟩
    · rintro ⟨s, hs⟩
      exact ⟨_, hparse.eq_ok.2 ⟨s, hs, rfl⟩⟩
  · intro s s' hs hs'
    obtain ⟨found, hfound, rfl⟩ := hparse.eq_ok.1 hs'
    rw [hs] at hfound
    cases hfound
    exact ⟨s.unplaced_relocate _ _, rfl, s.factors_relocate _ _, s.score_relocate _ _⟩

def blockBegin : List Char :=
  "//@version=5\nindicator(\"N\")\nif close > open\n    x = 1\n".toList

def blockEnd : List Char :=
  "    plot(close)\n".toList

def remarkLine : BlankLine where
  margin := ['\t', ' ']
  comment := some " note".toList
  returns := true
  margin_blank := by simp
  comment_row := by simp

theorem blank_line_inert_in_block : Lexer.LineStart blockBegin blockEnd ∧
    ∃ s s', Script.parse (blockBegin ++ blockEnd) = .ok s ∧ s.plots.map (·.scope) = [some ⟨0, .onTrue⟩] ∧
      Script.parse (blockBegin ++ (remarkLine.chars ++ blockEnd)) = .ok s' ∧
        s'.unplaced = s.unplaced ∧ s'.score = s.score := by
  have hfacts : blockBegin = blockBegin.dropLast ++ ['\n'] ∧
      ⟨.newline, ⟨53, 54, 4, 10⟩, "\n"⟩ ∈ tokenize (blockBegin ++ blockEnd) ∧
      byteSize blockBegin.dropLast = 53 ∧ remarkLine.givesVersion = false ∧
      ∃ s, Script.parse (blockBegin ++ blockEnd) = .ok s ∧ s.plots.map (·.scope) = [some ⟨0, .onTrue⟩] := by
    decide +kernel
  obtain ⟨hfeed, hnewline, hsize, hversion, s, hs, hscope⟩ := hfacts
  have hstart : Lexer.LineStart blockBegin blockEnd :=
    .inr ⟨blockBegin.dropLast, hfeed, _, hnewline, rfl, hsize.symm⟩
  obtain ⟨-, hinert⟩ := blank_line_inert hstart remarkLine
  obtain ⟨hiff, hsame⟩ := hinert hversion
  obtain ⟨s', hs'⟩ := hiff.2 ⟨s, hs⟩
  obtain ⟨hplaces, -, -, hscore⟩ := hsame s s' hs hs'
  exact ⟨hstart, s, s', hs, hscope, hs', hplaces, hscore⟩

end ChartScript
