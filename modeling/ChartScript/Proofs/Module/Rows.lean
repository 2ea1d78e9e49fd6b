import ChartScript.Module.Build
import ChartScript.Proofs.Lowering.Needs
import ChartScript.Proofs.Module.TypeNames
/-!
# The words in the rows of a module

A module whose parts use only what it imports and binds is written in rows that do so too.
-/
namespace ChartScript

open List Emitted EmittedName Text WholeRows

/-! ## Names on each bar -/

def Test.name : Test → String
  | flag n | nonzero n | truthy n => n

def BarValue.name : BarValue → String
  | fixed n | series n => n

def EmittedOrder.names (o : EmittedOrder) : List String :=
  ([o.quantity, o.stop, o.limit].filterMap id).map BarValue.name

mutual

def Action.names : Action → List String
  | .order _ test o => (test.map Test.name).toList ++ o.names
  | .choose chain => chain.names

def Chain.names : Chain → List String
  | .stop => []
  | .otherwise body => namesOfAll body
  | .arm test body rest => test.name :: namesOfAll body ++ rest.names

def namesOfAll : List Action → List String
  | [] => []
  | a :: rest => a.names ++ namesOfAll rest

end

namespace Module

/-! ## What a module imports and what its run provides -/

/-- What the library has for emitted code. -/
def libraryNames : List String :=
  Import.all.map Import.name

/-- What a run may provide: the parameters and the series of the bars. -/
def runNames : List String :=
  "params" :: seriesNames

def letNames (m : Module) : List String :=
  (if m.inputs.isEmpty then [] else ["params"]) ++ (Need.fields m.needs).map (·.name) ++
    (Need.averages m.needs).map (·.name) ++ if m.needs.contains .barIndex then ["bar_index"] else []

def Imported (m : Module) (w : String) : Prop :=
  w ∈ libraryNames → ∃ i ∈ m.imports, i.name = w

def Usable (m : Module) (w : String) : Prop :=
  m.Imported w ∧ (w ∈ runNames → w ∈ m.letNames)

/-- The parts of a module have plain names and use only what it imports and provides. -/
structure Fits (m : Module) : Prop where
  typeName : isWord m.typeName = true ∧ m.typeName ∉ libraryNames
  fields : ∀ f ∈ m.inputs, Plain f.field ∧ ∀ x ∈ f.default.mentions, x.Fits m.Imported
  needs : ∀ n ∈ m.needs, n.Listed
  binds : ∀ pattern code, .bind pattern code ∈ m.steps →
    (∀ n ∈ pattern.names, Plain n) ∧ ∀ x ∈ code.mentions, x.Fits m.Usable
  plots : ∀ p, .plot p ∈ m.steps → ∀ x ∈ p.series.mentions, x.Fits m.Usable
  actions : ∀ n ∈ namesOfAll (m.actions.getD []), Plain n

variable {m : Module} {g n : String} {f : InputField}

theorem usable_of_not_watched (m : Module) (w : String) (h : w ∉ watchedNames) : m.Usable w :=
  ⟨fun hw => absurd (mem_append_left _ hw) h, fun hw => absurd (mem_append_right _ hw) h⟩

def used (m : Module) : List Import :=
  [.bars, .runOutput] ++ m.needs.flatMap Import.ofNeed ++ m.steps.flatMap Import.ofStep ++
    Import.ofActions (m.actions.getD []) ++ if m.sourceInputs.isEmpty then [] else [.source]

variable {i : Import} {t : Test} {o : EmittedOrder}

theorem imported_of_used (h : i ∈ m.used) : m.Imported i.name :=
  fun _ => by
    have hall : i ∈ Import.all := by cases i <;> decide
    exact ⟨i, mem_filter.2 ⟨hall, contains_iff_mem.2 h⟩, rfl⟩

theorem usable_of_used (h : i ∈ m.used) : m.Usable i.name :=
  ⟨imported_of_used h, fun hw => absurd hw (by cases i <;> decide)⟩

section

variable {Q : String → Prop} (hQ : ∀ w, w ∉ watchedNames → Q w)
include hQ

theorem glue_whole (known : List Import) (hknown : ∀ i ∈ known, Q i.name)
    (h : isGlue (watchedNames.filter (!(known.map Import.name).contains ·)) g = true) : Whole Q g := by
  refine whole_of_isGlue (fun w hw => ?_) h
  by_cases hmem : w ∈ known.map Import.name
  · obtain ⟨i, hi, rfl⟩ := mem_map.1 hmem
    exact hknown i hi
  · exact hQ w fun hwatched => hw (mem_filter.2 ⟨hwatched, by simpa using hmem⟩)

/-! ## What is done on each bar -/

theorem plain_part (h : Plain n) : Part Q n :=
  word_part h.isWord (hQ n h.not_watched)

theorem renderTest_part (hname : Plain t.name)
    (himports : ∀ i ∈ Import.ofTest t, Q i.name) : Part Q (renderTest t) := by
  cases t with
  | flag n => exact plain_part hQ hname
  | nonzero n =>
    have hzero : Part Q " != 0.0" :=
      ((whole_of_isGlue hQ (g := " != ") rfl).append_part (nat_part hQ 0)).member
        (m := "0") rfl
    exact (plain_part hQ hname).append hzero rfl
  | truthy n =>
    have hopen : Whole Q "ops::truthy(&" := glue_whole hQ [.ops] himports rfl
    exact (hopen.glue hQ (plain_part hQ hname) _ rfl rfl).part

theorem renderBarValue_part {v : BarValue} (hname : Plain v.name)
    (himports : ∀ i ∈ Import.ofBarValue v, Q i.name) : Part Q (renderBarValue v) := by
  cases v with
  | fixed n => exact between_part hQ rfl (plain_part hQ hname) rfl rfl
  | series n =>
    have hopen : Whole Q "ops::value_at(&" := glue_whole hQ [.ops] himports rfl
    exact (hopen.glue hQ (plain_part hQ hname) _ rfl rfl).part

theorem request_whole (known : List Import) (hknown : ∀ i ∈ known, Q i.name) (id : String) {front back : String}
    (hfront : isGlue (watchedNames.filter (!(known.map Import.name).contains ·)) front = true)
    (hback : isGlue (watchedNames.filter (!(known.map Import.name).contains ·)) back = true) :
    Whole Q (front ++ quote id ++ back) :=
  ((glue_whole hQ known hknown hfront).append (quote_whole id)).append (glue_whole hQ known hknown hback)

theorem renderRequest_whole {request : OrderRequest}
    (h : ∀ i ∈ Import.ofRequest request, Q i.name) : Whole Q (renderRequest request) := by
  have hdirected : ∀ (front id : String) (d : Direction), (∀ i ∈ [Import.order, .direction], Q i.name) →
      isGlue (watchedNames.filter (!([Import.order, .direction].map Import.name).contains ·)) front =
        true → Whole Q (front ++ quote id ++ ", " ++ renderDirection d ++ ", idx)") := by
    intro front id d hknown hfront
    have hback : isGlue (watchedNames.filter
        (!([Import.order, .direction].map Import.name).contains ·))
        (", " ++ renderDirection d ++ ", idx)") = true := by
      cases d <;> rfl
    simpa [String.append_assoc] using request_whole hQ _ hknown id hfront hback
  cases request with
  | entry id d => exact hdirected _ id d h rfl
  | order id d => exact hdirected _ id d h rfl
  | close id => exact request_whole hQ [.order] h id rfl rfl
  | closeAll => exact glue_whole hQ [.order] h rfl
  | exit id => exact request_whole hQ [.order] h id rfl rfl
  | cancel id => exact request_whole hQ [.order] h id rfl rfl
  | cancelAll => exact glue_whole hQ [.order] h rfl

theorem renderPart_part {α : Type} {a : String} (method : String) {render : α → String}
    {value : Option α} (ha : Part Q a) (hmethod : isWord method = true) (hvalue : ∀ v ∈ value, Part Q (render v)) :
    Part Q (a ++ renderPart method render value) := by
  cases value with
  | none => simpa [renderPart] using ha
  | some v =>
    have hargs : ∀ x ∈ [render v], Part Q x := by simpa using hvalue
    simpa [renderPart, String.append_assoc] using arguments_part hQ (ha.member hmethod) hargs

theorem renderOrder_part (hnames : ∀ n ∈ o.names, Plain n)
    (h : ∀ i ∈ Import.ofOrder o, Q i.name) : Part Q (renderOrder o) := by
  have hvalue : ∀ value ∈ [o.quantity, o.stop, o.limit], ∀ v ∈ value, Part Q (renderBarValue v) := by
    intro value hmem v hv
    have hv : v ∈ [o.quantity, o.stop, o.limit].filterMap id := mem_filterMap.2 ⟨value, hmem, hv⟩
    exact renderBarValue_part hQ (hnames _ (mem_map_of_mem hv)) fun i hi =>
      h i (mem_append_right _ (mem_flatMap.2 ⟨v, hv, hi⟩))
  have hrequest := (renderRequest_whole hQ fun i hi => h i (mem_append_left _ hi)).part
  have hquantity := renderPart_part hQ "with_qty" hrequest rfl (hvalue o.quantity (by simp))
  have hstop := renderPart_part hQ "with_stop" hquantity rfl (hvalue o.stop (by simp))
  have hlimit := renderPart_part hQ "with_limit" hstop rfl (hvalue o.limit (by simp))
  exact renderPart_part hQ "with_from_entry" hlimit rfl fun v _ => (quote_whole v).part

theorem orderRow_whole (depth : Nat) (hnames : ∀ n ∈ o.names, Plain n)
    (h : ∀ i ∈ Import.ofOrder o, Q i.name) :
    Whole Q (line depth ("out.order(" ++ renderOrder o ++ ");") ++ "\n") := by
  have hopen : Whole Q "out.order(" := whole_of_isGlue hQ rfl
  have horder := hopen.glue hQ (renderOrder_part hQ hnames h) ");" rfl rfl
  exact line_whole depth (horder.append (whole_of_isGlue hQ rfl))

theorem testRow_whole (depth : Nat) {front : String} (hfront : Whole Q front)
    (hname : Plain t.name) (h : ∀ i ∈ Import.ofTest t, Q i.name) :
    Whole Q (line depth (front ++ renderTest t ++ " \x7b") ++ "\n") := by
  have htest := hfront.glue hQ (renderTest_part hQ hname h) " \x7b" rfl rfl
  exact line_whole depth (htest.append (whole_of_isGlue hQ rfl))

theorem glueRow_whole (depth : Nat) (h : isGlue watchedNames (g ++ "\n") = true) :
    Whole Q (line depth g ++ "\n") :=
  line_whole depth (whole_of_isGlue hQ h)

end

mutual

theorem actionLines_whole {Q : String → Prop} (hQ : ∀ w, w ∉ watchedNames → Q w) (depth : Nat) :
    ∀ a : Action, (∀ n ∈ a.names, Plain n) → (∀ i ∈ Import.ofAction a, Q i.name) → WholeRows Q (actionLines depth a)
  | .order _ none o, hnames, h => by
    rw [Action.names, forall_mem_append] at hnames
    rw [Import.ofAction, forall_mem_append] at h
    exact .cons (orderRow_whole hQ depth hnames.2 h.1) .nil
  | .order _ (some t) o, hnames, h => by
    rw [Action.names, forall_mem_append] at hnames
    rw [Import.ofAction, forall_mem_append] at h
    rw [actionLines]
    have hif : Whole Q "if " := whole_of_isGlue hQ rfl
    exact .cons (testRow_whole hQ depth hif (hnames.1 _ (by simp)) h.2)
      (.cons (orderRow_whole hQ (depth + 1) hnames.2 h.1) (.cons (glueRow_whole hQ depth rfl) .nil))
  | .choose chain, hnames, h => by
    exact chainLines_whole hQ depth (whole_of_isGlue hQ rfl) chain hnames h

theorem chainLines_whole {Q : String → Prop} (hQ : ∀ w, w ∉ watchedNames → Q w) (depth : Nat)
    {opening : String} (hopening : Whole Q opening) :
    ∀ chain : Chain, (∀ n ∈ chain.names, Plain n) → (∀ i ∈ Import.ofChain chain, Q i.name) →
      WholeRows Q (chainLines depth opening chain)
  | .stop, _, _ => by
    exact .cons (glueRow_whole hQ depth rfl) .nil
  | .otherwise body, hnames, h => by
    rw [chainLines]
    have hrow : Whole Q (opening ++ "\x7b" ++ "\n") :=
      (hopening.append (whole_of_isGlue hQ rfl)).append (whole_of_isGlue hQ rfl)
    exact append (.cons (line_whole depth hrow)
      (actionsLines_whole hQ (depth + 1) body hnames h))
      (.cons (glueRow_whole hQ depth rfl) .nil)
  | .arm t body rest, hnames, h => by
    rw [Chain.names, cons_append, forall_mem_cons, forall_mem_append] at hnames
    rw [Import.ofChain, forall_mem_append, forall_mem_append] at h
    obtain ⟨htest, hbody, hrest⟩ := hnames
    have hif : Whole Q (opening ++ "if ") :=
      hopening.append (whole_of_isGlue hQ rfl)
    have helse : Whole Q "\x7d else " := whole_of_isGlue hQ rfl
    exact append (.cons (testRow_whole hQ depth hif htest h.1.1)
      (actionsLines_whole hQ (depth + 1) body hbody h.1.2))
      (chainLines_whole hQ depth helse rest hrest h.2)

theorem actionsLines_whole {Q : String → Prop} (hQ : ∀ w, w ∉ watchedNames → Q w) (depth : Nat) :
    ∀ as : List Action, (∀ n ∈ namesOfAll as, Plain n) → (∀ i ∈ Import.ofActions as, Q i.name) →
      WholeRows Q (actionsLines depth as)
  | [], _, _ => by
    exact .nil
  | a :: rest, hnames, h => by
    rw [namesOfAll, forall_mem_append] at hnames
    rw [Import.ofActions, forall_mem_append] at h
    rw [actionsLines]
    exact (actionLines_whole hQ depth a hnames.1 h.1).append (actionsLines_whole hQ depth rest hnames.2 h.2)

end

/-! ## What is done once -/

section

variable {Q : String → Prop} (hQ : ∀ w, w ∉ watchedNames → Q w)
include hQ

theorem pattern_part {pattern : Pattern} (h : ∀ n ∈ pattern.names, Plain n) : Part Q pattern.render := by
  cases pattern with
  | single n => exact plain_part hQ (h n (by simp [Pattern.names]))
  | tuple names =>
    have hnames := intercalate_part (whole_of_isGlue hQ (g := ", ") rfl) rfl
      fun n hn => plain_part hQ (h n hn)
    exact between_part hQ rfl hnames rfl rfl

theorem renderPlot_part {p : EmittedPlot} (hplot : Q "Plot") (hkind : Q "PlotKind")
    (hseries : ∀ x ∈ p.series.mentions, x.Fits Q) : Part Q (renderPlot p) := by
  have hopen : Whole Q ("Plot::new(PlotKind::" ++ p.mark.tag ++ ", ") := by
    refine glue_whole hQ [.plot, .plotKind] (by simpa [Import.name] using ⟨hplot, hkind⟩) ?_
    cases p.mark <;> rfl
  have htitle := (hopen.append (quote_whole p.title)).append (b := ", ")
    (whole_of_isGlue hQ rfl)
  have hcall := htitle.glue hQ (render_part hQ p.series hseries) ")" rfl rfl
  exact renderPart_part hQ "with_color" hcall.part rfl fun v _ => (quote_whole v).part

theorem stepLines_whole {step : Step}
    (hbind : ∀ pattern code, step = .bind pattern code →
      (∀ n ∈ pattern.names, Plain n) ∧ ∀ x ∈ code.mentions, x.Fits Q)
    (hplot : ∀ p, step = .plot p → ∀ x ∈ p.series.mentions, x.Fits Q)
    (himports : ∀ i ∈ Import.ofStep step, Q i.name) : WholeRows Q (stepLines step) := by
  cases step with
  | bind pattern code =>
    obtain ⟨hnames, hcode⟩ := hbind pattern code rfl
    have hlet : Whole Q "let " := whole_of_isGlue hQ rfl
    have hpattern := hlet.glue hQ (pattern_part hQ hnames) " = " rfl rfl
    have hvalue := hpattern.glue hQ (render_part hQ code hcode) ";" rfl rfl
    exact .block 2 (hvalue.append (whole_of_isGlue hQ rfl))
  | plot p =>
    have hshown : Q "Plot" ∧ Q "PlotKind" := by
      constructor
      · exact himports .plot (by simp only [Import.ofStep]; split <;> simp)
      · exact himports .plotKind (by simp only [Import.ofStep]; split <;> simp)
    have hopen : Whole Q "out.plot(" := whole_of_isGlue hQ rfl
    have hcall := hopen.glue hQ (renderPlot_part hQ hshown.1 hshown.2 (hplot p rfl)) ");" rfl rfl
    exact .block 2 (hcall.append (whole_of_isGlue hQ rfl))

end

/-! ## The run -/

def letRow (n : String) : String :=
  if n = "params" then line 2 "let params = &self.params;" else fieldLine n

def restLines (m : Module) : List String :=
  (m.sourceInputs.map fun f =>
    line 2 ("let " ++ f.field ++ " = bars.source(params." ++ f.field ++ ");")) ++
    [line 2 "let mut out = RunOutput::new();"] ++ m.steps.flatMap stepLines ++
    m.loopLines ++ [line 2 "out"]

theorem runLines_eq (m : Module) : m.runLines = m.letNames.map letRow ++ m.restLines := by
  have hfields : ∀ fs : List BarField, fs.map (fieldLine ·.name) = (fs.map (·.name)).map letRow := by
    intro fs
    rw [map_map]
    exact map_congr_left fun f _ => by cases f <;> rfl
  have haverages : ∀ as : List Average, as.map (fieldLine ·.name) = (as.map (·.name)).map letRow := by
    intro as
    rw [map_map]
    exact map_congr_left fun a _ => by cases a <;> rfl
  simp only [runLines, localLines, letNames, restLines, hfields, haverages, map_append,
    append_assoc, apply_ite (List.map letRow)]
  rfl

theorem letNames_subset (m : Module) : m.letNames ⊆ runNames := by
  have hfield : ∀ f : BarField, f.name ∈ runNames := by intro f; cases f <;> decide
  have haverage : ∀ a : Average, a.name ∈ runNames := by intro a; cases a <;> decide
  intro n hn
  simp only [letNames, mem_append, mem_map] at hn
  rcases hn with ((hn | ⟨f, _, rfl⟩) | ⟨a, _, rfl⟩) | hn
  · split at hn
    · cases hn
    · rw [mem_singleton.1 hn]
      decide
  · exact hfield f
  · exact haverage a
  · split at hn
    · rw [mem_singleton.1 hn]
      decide
    · cases hn

theorem scan_letRow (hn : n ∈ runNames) :
    ∃ tail, Emitted.scan .start (letRow n ++ "\n").toList =
        (.word "let" :: .word n :: tail, .start) ∧
      ∀ w, .word w ∈ tail → w ∉ watchedNames := by
  have hall : runNames.all (fun n =>
      let r := Emitted.scan .start (letRow n ++ "\n").toList
      decide (r.1.take 2 = [.word "let", .word n]) && decide (r.2 = .start) &&
        (r.1.drop 2).all fun p => watchedNames.all (p != .word ·)) = true := by
    decide +kernel
  have hrow := all_eq_true.1 hall n hn
  simp only [Bool.and_eq_true, decide_eq_true_eq] at hrow
  obtain ⟨⟨hfront, hmode⟩, htail⟩ := hrow
  refine ⟨(Emitted.scan .start (letRow n ++ "\n").toList).1.drop 2, Prod.ext ?_ hmode,
    fun w hw => ?_⟩
  · conv => lhs; rw [← take_append_drop 2 (Emitted.scan _ _).1, hfront]
    rfl
  · intro hwatched
    have hne := all_eq_true.1 (all_eq_true.1 htail _ hw) w hwatched
    exact bne_iff_ne.1 hne rfl

def LetFirst (ps : List Piece) : Prop :=
  ∀ before n after, ps = before ++ .word n :: after → n ∈ watchedNames →
    ∃ b, before = b ++ [.word "let"]

theorem LetFirst.append {ps qs : List Piece} (hp : LetFirst ps) (hq : LetFirst qs) : LetFirst (ps ++ qs) := by
  intro before n after hsplit hn
  rcases append_eq_append_iff.1 hsplit with ⟨as, rfl, has⟩ | ⟨bs, rfl, hbs⟩
  · obtain ⟨b, rfl⟩ := hq as n after has hn
    exact ⟨ps ++ b, by simp⟩
  · cases bs with
    | nil =>
      obtain ⟨b, hb⟩ := hq [] n after (by simpa using hbs.symm) hn
      simp at hb
    | cons p bs =>
      obtain ⟨rfl, _⟩ := List.cons.inj hbs
      exact hp before n bs rfl hn

theorem letFirst_row {tail : List Piece} (h : ∀ w, .word w ∈ tail → w ∉ watchedNames) :
    LetFirst (.word "let" :: .word n :: tail) := by
  intro before w after hsplit hw
  match before with
  | [] =>
    obtain rfl : "let" = w := by simpa using (List.cons.inj hsplit).1
    exact absurd hw (by decide)
  | [p] =>
    obtain ⟨rfl, _⟩ := List.cons.inj hsplit
    exact ⟨[], rfl⟩
  | p :: q :: rest =>
    have htail : tail = rest ++ .word w :: after := (List.cons.inj (List.cons.inj hsplit).2).2
    exact absurd hw (h w (by simp [htail]))

theorem scan_letRows {ns : List String} (h : ns ⊆ runNames) :
    ∃ ps, Emitted.scan .start (ofRows (ns.map letRow)) = (ps, .start) ∧
      (∀ n ∈ ns, [.word "let", .word n] <:+: ps) ∧ LetFirst ps := by
  induction ns with
  | nil => exact ⟨[], rfl, by simp, fun before n after hsplit => by simp at hsplit⟩
  | cons n ns ih =>
    obtain ⟨hn, hns⟩ := cons_subset.1 h
    obtain ⟨ps, hscan, hmem, hfirst⟩ := ih hns
    obtain ⟨tail, hrow, htail⟩ := scan_letRow hn
    refine ⟨(.word "let" :: .word n :: tail) ++ ps, ?_, ?_, (letFirst_row htail).append hfirst⟩
    · have hrows : ofRows ((n :: ns).map letRow) =
          (letRow n ++ "\n").toList ++ ofRows (ns.map letRow) := by
        simp [ofRows]
      rw [hrows, scan_append, hrow, hscan]
    · refine forall_mem_cons.2 ⟨⟨[], tail ++ ps, by simp⟩, fun n' hn' => ?_⟩
      exact (hmem n' hn').trans (suffix_append _ _).isInfix

theorem let_before_use (h : WholeRows m.Usable m.restLines) {before after : List Piece}
    (hsplit : pieces (ofRows m.runLines) = before ++ .word n :: after) (hn : n ∈ runNames) :
    (∃ b, before = b ++ [.word "let"]) ∨ [.word "let", .word n] <:+: before := by
  obtain ⟨ps, hscan, hmem, hfirst⟩ := scan_letRows m.letNames_subset
  have hpieces : pieces (ofRows m.runLines) = ps ++ (Emitted.scan .start (ofRows m.restLines)).1 := by
    rw [runLines_eq, ofRows_append, pieces, scan_append, hscan, h.2]
    simp [Mode.ending, Mode.start, wordPiece]
  -- behind the rows that provide names, all of them are there
  have hprovided : ∀ as : List Piece, (Emitted.scan .start (ofRows m.restLines)).1 =
      as ++ .word n :: after → [.word "let", .word n] <:+: ps ++ as := fun as has =>
    (hmem n ((h.1 n (by simp [has])).2 hn)).trans (prefix_append ps as).isInfix
  rw [hpieces] at hsplit
  rcases append_eq_append_iff.1 hsplit with ⟨as, rfl, has⟩ | ⟨bs, hps, hbs⟩
  · exact .inr (hprovided as has)
  · cases bs with
    | nil =>
      rw [append_nil] at hps
      have := hprovided [] hbs.symm
      rw [append_nil, hps] at this
      exact .inr this
    | cons p bs =>
      obtain ⟨rfl, _⟩ := List.cons.inj hbs
      exact .inl (hfirst before n bs hps (mem_append_right _ hn))

section

variable {m : Module} (hm : m.Fits)
include hm

theorem sourceRow_whole (hf : f ∈ m.sourceInputs) :
    Whole m.Usable
      (line 2 ("let " ++ f.field ++ " = bars.source(params." ++ f.field ++ ");") ++ "\n") := by
  have hQ := m.usable_of_not_watched
  have hmem : f ∈ m.inputs := (mem_filter.1 hf).1
  have hfield := (hm.fields f hmem).1
  have hparams : m.Usable "params" := by
    refine ⟨fun h => absurd h (by decide), fun _ => ?_⟩
    have hne : m.inputs.isEmpty = false := by
      cases hinputs : m.inputs with
      | nil => simp [hinputs] at hmem
      | cons => rfl
    simp [letNames, hne]
  have hlet : Whole m.Usable "let " := whole_of_isGlue hQ rfl
  have hname := hlet.glue hQ (plain_part hQ hfield) " = bars.source(" rfl rfl
  have hsetting := (word_part (x := "params") rfl hparams).member hfield.isWord
  have hcall := hname.glue hQ hsetting ");\n" rfl rfl
  refine line_whole 2 ?_
  have hbreak : " = bars.source(params." = " = bars.source(" ++ "params" ++ "." := rfl
  have hend : ");\n" = ");" ++ "\n" := rfl
  rw [hbreak]
  rw [hend] at hcall
  simpa only [String.append_assoc] using hcall

theorem loopLines_whole : WholeRows m.Usable m.loopLines := by
  have hQ := m.usable_of_not_watched
  unfold loopLines
  split
  · exact .nil
  · next actions hactions =>
    have hnames := hm.actions
    rw [hactions] at hnames
    have hused : ∀ i ∈ Import.ofActions actions, m.Usable i.name := fun i hi =>
      usable_of_used (by simp [used, hactions, hi])
    have hhead := glueRow_whole hQ 2 (g := "for idx in 0..bars.len() \x7b") rfl
    have htail := glueRow_whole hQ 2 (g := "\x7d") rfl
    exact (append (.cons hhead .nil) (actionsLines_whole hQ 3 actions hnames hused)).append
      (.cons htail .nil)

theorem restLines_whole : WholeRows m.Usable m.restLines := by
  have hQ := m.usable_of_not_watched
  have hsources := wholeRows_of_forall (forall_mem_map.2 fun f hf => sourceRow_whole hm hf)
  have hout : Whole m.Usable (line 2 "let mut out = RunOutput::new();" ++ "\n") :=
    line_whole 2 (glue_whole hQ [.runOutput] (forall_mem_singleton.2 (usable_of_used (by simp [used]))) rfl)
  have hsteps : WholeRows m.Usable (m.steps.flatMap stepLines) := by
    refine .flatMap fun step hstep => stepLines_whole hQ ?_ ?_ fun i hi => ?_
    · rintro pattern code rfl
      exact hm.binds pattern code hstep
    · rintro p rfl
      exact hm.plots p hstep
    · exact usable_of_used (by
        simp only [used, mem_append, mem_flatMap]
        exact .inl (.inl (.inr ⟨step, hstep, hi⟩)))
  have hend := glueRow_whole hQ 2 (g := "out") rfl
  exact (((hsources.append (.cons hout .nil)).append hsteps).append (loopLines_whole hm)).append (.cons hend .nil)

end

/-! ## Around the run -/

/-- The import of a module. -/
def useLine (m : Module) : String :=
  "use " ++ m.runtimePath ++ "::\x7b" ++ ", ".intercalate (m.imports.map (·.name)) ++ "\x7d;"

/-- The comment that a module begins with. -/
def titleLines (m : Module) : List String :=
  ["//! Generated by pinecast from " ++ quote m.title ++ " (" ++ kindName m.kind ++
     ", version " ++ toString m.version ++ ")."] ++
    (if (Need.indicators m.needs).isEmpty then []
     else ["//!", "//! Indicators: " ++ ", ".intercalate (Need.indicators m.needs) ++ "."]) ++
    [""]

theorem lines_eq (m : Module) :
    m.lines = m.titleLines ++ m.useLine :: ([""] ++ m.paramsLines ++ m.structLines) := by
  simp [lines, headerLines, titleLines, useLine]

theorem commentRow_whole {Q : String → Prop} {row : String}
    (hopen : row.toList.take 2 = ['/', '/']) (hrow : '\n' ∉ row.toList) : Whole Q (row ++ "\n") := by
  have hchars : row.toList = '/' :: '/' :: row.toList.drop 2 := by
    have := take_append_drop 2 row.toList
    rw [hopen] at this
    exact this.symm
  have hsplit : row = "//" ++ String.ofList (row.toList.drop 2) :=
    String.toList_injective (by simpa using hchars)
  rw [hsplit]
  exact comment_whole fun h => hrow (mem_of_mem_drop (by simpa using h))

theorem newline_not_mem_indicators {needs : List Need} (h : ∀ n ∈ needs, n.Listed) :
    '\n' ∉ (", ".intercalate (Need.indicators needs)).toList := by
  have hcatalogue : Indicator.catalogue.all (fun i => !i.qualifiedName.toList.contains '\n') = true := by
    decide
  have hnames : ∀ q ∈ Need.indicators needs, '\n' ∉ q.toList := by
    intro q hq
    obtain ⟨i, hi, rfl⟩ := h _ (Need.mem_indicators.1 hq)
    simpa using all_eq_true.1 hcatalogue i hi
  generalize Need.indicators needs = qs at hnames
  induction qs with
  | nil => simp
  | cons q qs ih =>
    have hq := hnames q mem_cons_self
    have hrest := ih fun x hx => hnames x (mem_cons_of_mem _ hx)
    cases qs with
    | nil => simpa using hq
    | cons y qs =>
      rw [String.intercalate_cons_cons]
      simp only [String.toList_append, mem_append, not_or]
      exact ⟨⟨hq, by decide⟩, hrest⟩

theorem titleLines_whole (hm : m.Fits) {Q : String → Prop} : WholeRows Q m.titleLines := by
  have hversion : '\n' ∉ (toString m.version).toList := by
    intro h
    have := isDigit_of_mem_toDigits _ (by simpa [Nat.toList_repr] using h)
    cases this
  have hkind : '\n' ∉ (kindName m.kind).toList := by cases m.kind <;> decide
  have htitle : Whole Q ("//! Generated by pinecast from " ++ quote m.title ++ " (" ++
      kindName m.kind ++ ", version " ++ toString m.version ++ ")." ++ "\n") := by
    refine commentRow_whole (by simp) ?_
    simp only [String.toList_append, mem_append, not_or]
    exact ⟨⟨⟨⟨⟨⟨by decide, newline_not_mem_quote _⟩, by decide⟩, hkind⟩, by decide⟩, hversion⟩,
      by decide⟩
  have hindicators : Whole Q ("//! Indicators: " ++ ", ".intercalate (Need.indicators m.needs) ++
      "." ++ "\n") := by
    refine commentRow_whole (by simp) ?_
    simp only [String.toList_append, mem_append, not_or]
    exact ⟨⟨by decide, newline_not_mem_indicators hm.needs⟩, by decide⟩
  have hempty : Whole Q ("" ++ "\n") :=
    reads_of_scan (show Emitted.scan .start ("" ++ "\n").toList = ([], .start) from rfl) (by simp)
  refine (append (.cons htitle .nil) ?_).append (.cons hempty .nil)
  split
  · exact .nil
  · exact .cons (commentRow_whole rfl (by decide)) (.cons hindicators .nil)

def optionalNames : List String :=
  libraryNames.filter fun w => w ≠ Import.bars.name ∧ w ≠ Import.runOutput.name

theorem imported_of_not_optional (m : Module) (w : String) (hw : w ∉ optionalNames) : m.Imported w := fun hlibrary => by
  have hknown : w = Import.bars.name ∨ w = Import.runOutput.name := by
    by_contra hno
    exact hw (mem_filter.2 ⟨hlibrary, by simpa [not_or] using hno⟩)
  rcases hknown with rfl | rfl
  · exact imported_of_used (by simp [used]) hlibrary
  · exact imported_of_used (by simp [used]) hlibrary

section

variable {m : Module}

theorem fixedRow_whole (h : isGlue optionalNames (g ++ "\n") = true) :
    Whole m.Imported (g ++ "\n") :=
  whole_of_isGlue m.imported_of_not_optional h

theorem namedRow_whole {a x b : String} (ha : isGlue optionalNames a = true)
    (hx : Part m.Imported x) (hb : isGlue optionalNames (b ++ "\n") = true)
    (happart : beginsApart (b ++ "\n") = true) : Whole m.Imported (a ++ x ++ b ++ "\n") := by
  have hO := m.imported_of_not_optional
  have := ((whole_of_isGlue hO ha).append_part hx).append_whole (whole_of_isGlue hO hb) happart
  rwa [← String.append_assoc] at this

theorem imported_source (hf : f ∈ m.inputs) (hkind : f.kind = .source) : m.Imported Import.source.name := by
  have hsource : f ∈ m.sourceInputs := mem_filter.2 ⟨hf, by simp [hkind]⟩
  have hne : m.sourceInputs.isEmpty = false := by simpa using ne_nil_of_mem hsource
  exact imported_of_used (by simp [used, hne])

theorem inputType_part (hf : f ∈ m.inputs) : Part m.Imported f.typeName := by
  have hO := m.imported_of_not_optional
  unfold InputField.typeName
  cases hkind : f.kind with
  | int => exact word_part (x := "i64") rfl (hO _ (by decide))
  | float => exact word_part (x := "f64") rfl (hO _ (by decide))
  | bool => exact word_part (x := "bool") rfl (hO _ (by decide))
  | string | color => exact word_part (x := "String") rfl (hO _ (by decide))
  | source => exact word_part (x := "Source") rfl (imported_source hf hkind)

variable (hm : m.Fits)
include hm

theorem typeName_part : Part m.Imported m.typeName :=
  word_part hm.typeName.1 fun h => absurd h hm.typeName.2

theorem paramsName_part : Part m.Imported m.paramsName :=
  word_part (isWord_append hm.typeName.1 rfl) fun h => absurd h (params_not_mem (by decide) m.typeName)

theorem runLines_whole : WholeRows m.Imported m.runLines := by
  have hlets : runNames.all (fun n => isGlue optionalNames (letRow n ++ "\n")) = true := by
    decide +kernel
  rw [runLines_eq]
  refine append ?_ ((restLines_whole hm).imp fun w h => h.1)
  exact wholeRows_of_forall (forall_mem_map.2 fun n hn =>
    fixedRow_whole (all_eq_true.1 hlets n (m.letNames_subset hn)))

theorem structLines_whole : WholeRows m.Imported m.structLines := by
  have htype := typeName_part hm
  have hparams := paramsName_part hm
  have htail : WholeRows m.Imported ["    \x7d", "\x7d"] :=
    .cons (fixedRow_whole rfl) (.cons (fixedRow_whole rfl) .nil)
  refine append (append (wholeRows_of_forall ?_) (runLines_whole hm)) htail
  simp only [forall_mem_cons]
  exact ⟨fixedRow_whole rfl, fixedRow_whole rfl,
    namedRow_whole rfl htype rfl rfl,
    namedRow_whole rfl hparams rfl rfl,
    fixedRow_whole rfl, fixedRow_whole rfl,
    namedRow_whole rfl htype rfl rfl,
    namedRow_whole rfl hparams rfl rfl,
    fixedRow_whole rfl, fixedRow_whole rfl,
    fixedRow_whole rfl, fixedRow_whole rfl,
    fixedRow_whole rfl, by simp⟩

theorem fieldLines_whole (hf : f ∈ m.inputs) (htitle : ∀ t, f.title = some t → '\n' ∉ t.toList) :
    WholeRows m.Imported (fieldLines f) := by
  have hO := m.imported_of_not_optional
  have hfield : Part m.Imported f.field :=
    plain_part (fun w h => (m.usable_of_not_watched w h).1) (hm.fields f hf).1
  have hrow : Whole m.Imported ("    pub " ++ f.field ++ ": " ++ f.typeName ++ "," ++ "\n") := by
    have hpub : Whole m.Imported "    pub " := whole_of_isGlue hO rfl
    have hname := hpub.glue hO hfield ": " rfl rfl
    have htype := hname.glue hO (inputType_part hf) "," rfl rfl
    exact htype.append (whole_of_isGlue hO rfl)
  refine append ?_ (.cons hrow .nil)
  cases htext : f.title with
  | none => exact .nil
  | some t =>
    have hcomment : Whole m.Imported ("/// " ++ t ++ "\n") := by
      refine commentRow_whole (by simp) ?_
      simp only [String.toList_append, mem_append, not_or]
      exact ⟨by decide, htitle t htext⟩
    have hmargin : Whole m.Imported "    " := whole_of_isGlue hO rfl
    refine .cons ?_ .nil
    have := hmargin.append hcomment
    rwa [← String.append_assoc, ← String.append_assoc] at this

theorem paramsLines_whole (htitles : ∀ f ∈ m.inputs, ∀ t, f.title = some t → '\n' ∉ t.toList) :
    WholeRows m.Imported m.paramsLines := by
  have hO := m.imported_of_not_optional
  have hparams := paramsName_part hm
  have hcomment : Whole m.Imported ("/// Inputs of " ++ quote m.title ++ "." ++ "\n") := by
    refine commentRow_whole (by simp) ?_
    simp only [String.toList_append, mem_append, not_or]
    exact ⟨⟨by decide, newline_not_mem_quote _⟩, by decide⟩
  have hdefault : ∀ f ∈ m.inputs, Whole m.Imported
      ("            " ++ f.field ++ ": " ++ f.default.render ++ "," ++ "\n") := by
    intro f hf
    obtain ⟨hfield, hcode⟩ := hm.fields f hf
    have hQ : ∀ w, w ∉ watchedNames → m.Imported w := fun w h => (m.usable_of_not_watched w h).1
    have hmargin : Whole m.Imported "            " := whole_of_isGlue hO rfl
    have hname := hmargin.glue hO (plain_part hQ hfield) ": " rfl rfl
    have hvalue := hname.glue hO (render_part hQ f.default hcode) "," rfl rfl
    exact hvalue.append (whole_of_isGlue hO rfl)
  refine append (.cons hcomment .nil) ?_
  split
  · exact .cons (fixedRow_whole rfl) (.cons (namedRow_whole rfl hparams rfl rfl) .nil)
  · have hhead : WholeRows m.Imported ["#[derive(Debug, Clone, PartialEq)]",
        "pub struct " ++ m.paramsName ++ " \x7b"] :=
      .cons (fixedRow_whole rfl) (.cons (namedRow_whole rfl hparams rfl rfl) .nil)
    have hfields : WholeRows m.Imported (m.inputs.flatMap fieldLines) :=
      .flatMap fun f hf => fieldLines_whole hm hf (htitles f hf)
    have hdefaults := wholeRows_of_forall (forall_mem_map.2 hdefault)
    have hend : WholeRows m.Imported ["        \x7d", "    \x7d", "\x7d"] :=
      .cons (fixedRow_whole rfl) (.cons (fixedRow_whole rfl) (.cons (fixedRow_whole rfl) .nil))
    refine append (append (append (append hhead hfields) (wholeRows_of_forall ?_)) hdefaults) hend
    simp only [forall_mem_cons]
    exact ⟨fixedRow_whole rfl, fixedRow_whole rfl,
      namedRow_whole rfl hparams rfl rfl,
      fixedRow_whole rfl, fixedRow_whole rfl, by simp⟩

end

end Module

end ChartScript
