import ChartScript.Proofs.Conversion.Accepted
import ChartScript.Proofs.Module.Rows
/-!
# Modules import and bind what they use

In the text of a module every word that stands for something of the library is imported, and a run
provides the parameters and the series of the bars before it uses them.
-/
namespace ChartScript.Module

open List Emitted EmittedName Lowering Text

/-! ## The name of the type -/

theorem isWord_of_isCapitalised {name : String} (h : isCapitalised name = true) : isWord name = true := by
  obtain ⟨hhead, hall⟩ := Bool.and_eq_true_iff.1 h
  rw [isWord, Bool.and_eq_true_iff]
  constructor
  · cases hname : name.toList with
    | nil => simp [hname] at hhead
    | cons c rest => rfl
  · exact all_eq_true.2 fun c hc => by simp [isWordChar, all_eq_true.1 hall c hc]

theorem typeNameOf_word (title : String) : isWord (typeNameOf title) = true ∧ typeNameOf title ∉ libraryNames :=
  ⟨isWord_of_isCapitalised (typeNameOf_capitalised title), typeNameOf_not_mem (by decide) (by decide) title⟩

/-! ## Names on each bar -/

theorem namesOfAll_eq (as : List Action) : namesOfAll as = as.flatMap Action.names := by
  induction as with
  | nil => rw [namesOfAll]; rfl
  | cons a rest ih => rw [namesOfAll, ih, flatMap_cons]

def Hoisted (l : LoweredScript) (n : String) : Prop :=
  ∃ key v, key.isHoisted = true ∧ named? l key = some v ∧ v.2 = n

variable {s : Script} {l : LoweredScript} {options : GeneratorOptions} {m : Module} {w : String}

theorem hoisted_plain (h : script s = .ok l) {n : String} (hn : Hoisted l n) : Plain n := by
  obtain ⟨key, v, hkey, hv, rfl⟩ := hn
  obtain ⟨x, hx, _, hbinding⟩ := named?_eq_some h hkey hv
  exact (script_supply h).names x hx _ (by simp [LoweredItem.names, hbinding, Pattern.names])

section

variable {s : Script} {l : LoweredScript}

theorem name_test (v : ValueKind × String) : (test v).name = v.2 := by
  obtain ⟨kind, n⟩ := v
  cases kind <;> rfl

theorem orderAction_names {i : Nat} {o : OrderCall} {a : Action}
    (h : orderAction l i o = .ok a) : ∀ n ∈ a.names, Hoisted l n := by
  obtain ⟨request, _, rfl⟩ := bind_pure_eq_ok.1 h
  have hvalue : ∀ v, (barValue v).name = v.2 := by
    rintro ⟨kind, n⟩
    unfold barValue
    split <;> rfl
  intro n hn
  rcases mem_append.1 hn with hn | hn
  · simp only [Option.map_map, Option.mem_toList, Option.map_eq_some_iff] at hn
    obtain ⟨v, hv, rfl⟩ := hn
    exact ⟨_, v, rfl, hv, (name_test v).symm⟩
  · obtain ⟨b, hb, rfl⟩ := mem_map.1 hn
    have hpart : ∃ key v, key.isHoisted = true ∧ named? l key = some v ∧ barValue v = b := by
      simp only [mem_filterMap, id_eq, mem_cons, not_mem_nil, or_false,
        exists_eq_left, exists_eq_or_imp, Option.map_eq_some_iff] at hb
      rcases hb with ⟨v, hv, rfl⟩ | ⟨v, hv, rfl⟩ | ⟨v, hv, rfl⟩
      · exact ⟨_, v, rfl, hv, rfl⟩
      · exact ⟨_, v, rfl, hv, rfl⟩
      · exact ⟨_, v, rfl, hv, rfl⟩
    obtain ⟨key, v, hkey, hv, rfl⟩ := hpart
    exact ⟨key, v, hkey, hv, (hvalue v).symm⟩

theorem arms_names {body : Option BodyRef → Except GenerationFault (List Action)} {last : Nat}
    (hbody : ∀ scope as, body scope = .ok as → ∀ n ∈ namesOfAll as, Hoisted l n) {ks : List Nat}
    {chain : Chain} (h : arms s l body last ks = .ok chain) : ∀ n ∈ chain.names, Hoisted l n := by
  induction ks generalizing chain with
  | nil =>
    unfold arms at h
    split at h
    · obtain ⟨as, has, rfl⟩ := bind_pure_eq_ok.1 h
      exact hbody _ as has
    · cases h
      simp [Chain.names]
  | cons k ks ih =>
    obtain ⟨t, ht, h⟩ := bind_eq_ok.1 h
    obtain ⟨as, has, h⟩ := bind_eq_ok.1 h
    obtain ⟨rest, hrest, rfl⟩ := bind_pure_eq_ok.1 h
    rw [Chain.names, cons_append, forall_mem_cons, forall_mem_append]
    refine ⟨?_, hbody _ as has, ih hrest⟩
    unfold conditionTest at ht
    split at ht
    · next v hv =>
      cases ht
      exact ⟨_, v, rfl, hv, (name_test v).symm⟩
    · cases ht

theorem actionsOf_names (depth : Nat) (scope : Option BodyRef) (as : List Action)
    (h : actionsOf s l depth scope = .ok as) : ∀ n ∈ namesOfAll as, Hoisted l n := by
  induction depth generalizing scope as with
  | zero =>
    cases h
    simp [namesOfAll]
  | succ depth ih =>
    intro n hn
    rw [namesOfAll_eq] at hn
    obtain ⟨a, ha, hn⟩ := mem_flatMap.1 hn
    obtain ⟨e, _, he⟩ := exists_of_mem_mapM h ha
    cases e with
    | order i o => exact orderAction_names he n hn
    | condition i c =>
      obtain ⟨chain, hchain, rfl⟩ := bind_pure_eq_ok.1 he
      exact arms_names ih hchain n hn

end

/-! ## From a script to its module -/

theorem build_parts (h : build s l options = .ok m) :
    m.typeName = typeNameOf s.name ∧ m.inputs = l.inputs ∧ m.needs = l.needs ∧
    m.steps = l.items.filterMap (step? s options) ∧ ∀ n ∈ namesOfAll (m.actions.getD []), Hoisted l n := by
  obtain ⟨hm, hactions⟩ := build_cases h
  have hnames : ∀ n ∈ namesOfAll (m.actions.getD []), Hoisted l n := by
    rcases hactions with ⟨-, hnone⟩ | ⟨as, has, hsome⟩
    · rw [hnone]
      simp [namesOfAll]
    · rw [hsome]
      exact actionsOf_names _ _ as has
  rw [hm]
  exact ⟨rfl, rfl, rfl, rfl, hnames⟩

theorem import_of_need {n : Need} (h : w ∈ n.names) (hw : w ∈ libraryNames) :
    ∃ i ∈ Import.ofNeed n, i.name = w := by
  cases n with
  | field f =>
    rw [mem_singleton.1 h] at hw
    exact absurd hw (by cases f <;> decide)
  | average a =>
    rw [mem_singleton.1 h] at hw
    exact absurd hw (by cases a <;> decide)
  | barIndex =>
    rw [mem_singleton.1 h] at hw
    exact absurd hw (by decide)
  | ops => exact ⟨.ops, .head _, (mem_singleton.1 h).symm⟩
  | indicator => exact ⟨.ta, .head _, (mem_singleton.1 h).symm⟩
  | seriesType => exact ⟨.series, .head _, (mem_singleton.1 h).symm⟩
  | direction => exact ⟨.direction, .head _, (mem_singleton.1 h).symm⟩

theorem let_of_need {n : Need} (hn : n ∈ m.needs) (h : w ∈ n.names) (hw : w ∈ runNames) : w ∈ m.letNames := by
  have hcontains : m.needs.contains n = true := contains_iff_mem.2 hn
  cases n with
  | field f =>
    have hf : f ∈ Need.fields m.needs := mem_filter.2 ⟨by cases f <;> decide, hcontains⟩
    rw [mem_singleton.1 h]
    simp only [letNames, mem_append]
    exact .inl (.inl (.inr (mem_map_of_mem hf)))
  | average a =>
    have ha : a ∈ Need.averages m.needs := mem_filter.2 ⟨by cases a <;> decide, hcontains⟩
    rw [mem_singleton.1 h]
    simp only [letNames, mem_append]
    exact .inl (.inr (mem_map_of_mem ha))
  | barIndex =>
    rw [mem_singleton.1 h]
    simp only [letNames, mem_append, if_pos hcontains]
    exact .inr (.head _)
  | ops | indicator | seriesType | direction =>
    rw [mem_singleton.1 h] at hw
    exact absurd hw (by decide)

theorem usable_of_available (h : Available m.needs m.inputs w) : m.Usable w := by
  constructor
  · intro hw
    rcases h (mem_append_left _ hw) with hneed | ⟨rfl, _⟩
    · obtain ⟨n, hn, hname⟩ := mem_flatMap.1 hneed
      obtain ⟨i, hi, rfl⟩ := import_of_need hname hw
      have hused : i ∈ m.needs.flatMap Import.ofNeed := mem_flatMap.2 ⟨n, hn, hi⟩
      exact imported_of_used (by simp only [used, mem_append, hused, or_true, true_or]) hw
    · exact absurd hw (by decide)
  · intro hw
    rcases h (mem_append_right _ hw) with hneed | ⟨rfl, hne⟩
    · obtain ⟨n, hn, hname⟩ := mem_flatMap.1 hneed
      exact let_of_need hn hname hw
    · simp [letNames, hne]

theorem owned_fits {v : Lowered} (hv : ∀ x ∈ v.code.mentions, x.Fits m.Usable)
    (hops : v.kind ≠ .series → m.Usable "ops") : ∀ x ∈ v.owned.mentions, x.Fits m.Usable := by
  have hclone : (Mention.member "clone").Fits m.Usable := rfl
  unfold Lowered.owned
  split
  · split
    · simpa [hclone, or_imp, forall_and] using hv
    · exact hv
  · next hkind =>
    have hseries : (Mention.path ["ops", "series"]).Fits m.Usable :=
      ⟨"ops", ["series"], rfl, rfl, hops hkind, by simp; rfl⟩
    have hbars : (Mention.name "bars").Fits m.Usable := ⟨rfl, usable_of_not_watched _ _ (by decide)⟩
    have hlen : (Mention.member "len").Fits m.Usable := rfl
    simpa [Code.broadcast, Code.ops, Code.barCount, hseries, hbars, hlen, or_imp, forall_and] using hv

theorem bind_of_step? {item : LoweredItem} {pattern : Pattern} {code : Code}
    (h : step? s options item = some (.bind pattern code)) :
    item.binding = some pattern ∧ item.value.code = code := by
  unfold step? at h
  split at h
  · next hbinding =>
    cases h
    exact ⟨hbinding, rfl⟩
  · split at h
    · obtain ⟨_, _, hplot⟩ := Option.map_eq_some_iff.1 h
      cases hplot
    · cases h
  · cases h

theorem plot_of_step? {item : LoweredItem} {p : EmittedPlot} (h : step? s options item = some (.plot p)) :
    p.series = item.value.owned ∧ p.broadcast = (item.value.kind != .series) := by
  unfold step? at h
  split at h
  · cases h
  · split at h
    · obtain ⟨q, hq, hplot⟩ := Option.map_eq_some_iff.1 h
      cases hplot
      unfold plot? at hq
      split at hq
      · split at hq
        · cases hq
          exact ⟨rfl, rfl⟩
        · cases hq
      · cases hq
    · cases h
  · cases h

theorem build_fits (hl : script s = .ok l) (h : build s l options = .ok m) : m.Fits := by
  obtain ⟨htype, hinputs, hneeds, hsteps, hactions⟩ := build_parts h
  have hsupply := script_supply hl
  have hcode : ∀ item ∈ l.items, ∀ x ∈ item.value.code.mentions, x.Fits m.Usable := by
    intro item hitem x hx
    refine (hsupply.code item hitem x hx).fits.imp fun w hw => usable_of_available ?_
    rwa [hneeds, hinputs]
  refine ⟨htype ▸ typeNameOf_word s.name, fun f hf => ?_, by rw [hneeds]; exact hsupply.needs,
    fun pattern code hstep => ?_, fun p hstep => ?_, fun n hn => hoisted_plain hl (hactions n hn)⟩
  · have hfield := hsupply.fields f (hinputs ▸ hf)
    refine ⟨hfield.plain, fun x hx => (hfield.default x hx).imp fun w hw hlibrary => ?_⟩
    obtain ⟨rfl, hkind⟩ := hw (mem_append_left _ hlibrary)
    exact imported_source hf hkind hlibrary
  · rw [hsteps] at hstep
    obtain ⟨item, hitem, hstep⟩ := mem_filterMap.1 hstep
    obtain ⟨hbinding, rfl⟩ := bind_of_step? hstep
    exact ⟨fun n hn => hsupply.names item hitem n (by simpa [LoweredItem.names, hbinding] using hn),
      hcode item hitem⟩
  · have hmem := hstep
    rw [hsteps] at hstep
    obtain ⟨item, hitem, hstep⟩ := mem_filterMap.1 hstep
    obtain ⟨hseries, hbroadcast⟩ := plot_of_step? hstep
    rw [hseries]
    refine owned_fits (hcode item hitem) fun hkind => usable_of_used (i := .ops) ?_
    have hops : Import.ops ∈ m.steps.flatMap Import.ofStep :=
      mem_flatMap.2 ⟨.plot p, hmem, by simp [Import.ofStep, hbroadcast, hkind]⟩
    simp only [used, mem_append, hops, or_true, true_or]

theorem render_eq (m : Module) : m.render.toList = ofRows m.lines := by
  have hjoin : ∀ rows : List String, (String.join (rows.map (· ++ "\n"))).toList = ofRows rows := by
    intro rows
    induction rows with
    | nil => rfl
    | cons row rows ih =>
      rw [map_cons, String.join_cons, String.toList_append, ih]
      simp [ofRows]
  exact hjoin m.lines

/-- The rows of a module behind its import. -/
def bodyLines (m : Module) : List String :=
  "" :: m.paramsLines ++ m.structLines

theorem bodyLines_whole (hm : m.Fits) (htitles : ∀ f ∈ m.inputs, ∀ t, f.title = some t → '\n' ∉ t.toList) :
    WholeRows m.Imported m.bodyLines :=
  WholeRows.append (.cons (fixedRow_whole (by decide)) (paramsLines_whole hm htitles)) (structLines_whole hm)

/-- The text of a module is complete if the titles of its inputs have one line each. Whatever stands
in front of its import or behind it names nothing of the library that is not imported. The run names
the parameters and the series of the bars only behind the `let` that provides them. -/
theorem text_complete {s : Script} {l : LoweredScript} (hl : script s = .ok l)
    (htitles : ∀ f ∈ l.inputs, ∀ t, f.title = some t → '\n' ∉ t.toList)
    (options : GeneratorOptions) {m : Module} (hm : build s l options = .ok m) :
    (∀ g, s.generate l options = .ok g → g.text = m.render) ∧
    m.render.toList = ofRows (m.titleLines ++ m.useLine :: m.bodyLines) ∧
    (∀ w ∈ libraryNames, .word w ∈ pieces (ofRows m.titleLines) ∨
        .word w ∈ pieces (ofRows m.bodyLines) → w ∈ m.imports.map Import.name) ∧
    m.runLines <:+: m.bodyLines ∧
    ∀ before n after, pieces (ofRows m.runLines) = before ++ .word n :: after → n ∈ runNames →
      (∃ b, before = b ++ [.word "let"]) ∨ [.word "let", .word n] <:+: before := by
  have hfits := build_fits hl hm
  obtain ⟨-, hinputs, -⟩ := build_parts hm
  refine ⟨fun g hg => ?_, ?_, fun w hw hmem => ?_, ?_, fun before n after hsplit hn => ?_⟩
  · obtain ⟨m', hm', -, rfl⟩ := generate_eq_ok hg
    rw [Except.ok.inj (hm'.symm.trans hm)]
  · rw [render_eq, lines_eq]
    rfl
  · have himported : m.Imported w := hmem.elim (titleLines_whole hfits).mem_pieces
        (bodyLines_whole hfits (hinputs ▸ htitles)).mem_pieces
    obtain ⟨i, hi, hname⟩ := himported hw
    exact mem_map.2 ⟨i, hi, hname⟩
  · have hrun : m.runLines <:+: m.structLines := ⟨_, _, rfl⟩
    exact hrun.trans (suffix_append _ _).isInfix
  · exact let_before_use (restLines_whole hfits) hsplit hn

def titledSource : List Char :=
  ("//@version=5\nindicator(\"T\")\n" ++
   "n = input.int(14, \"Length\")\n" ++
   "src = input.source(close, \"Price\")\n" ++
   "plot(ta.sma(src, n) - open)\n").toList

theorem text_complete_titled : ∃ s l m, Script.parse titledSource = .ok s ∧ script s = .ok l ∧
    l.inputs.map (·.title) = [some "Length", some "Price"] ∧ build s l {} = .ok m ∧
    m.imports.map Import.name = ["ops", "ta", "Bars", "Plot", "PlotKind", "RunOutput", "Source"] ∧
    m.letNames = ["params", "open"] ∧
    (∀ w ∈ libraryNames, .word w ∈ pieces (ofRows m.bodyLines) → w ∈ m.imports.map Import.name) ∧
    ∀ before n after, pieces (ofRows m.runLines) = before ++ .word n :: after → n ∈ runNames →
      (∃ b, before = b ++ [.word "let"]) ∨ [.word "let", .word n] <:+: before := by
  have hrun : ∃ s, Script.parse titledSource = .ok s ∧ ∃ l, script s = .ok l ∧
      l.inputs.map (·.title) = [some "Length", some "Price"] ∧ ∃ m, build s l {} = .ok m ∧
        m.imports.map Import.name = ["ops", "ta", "Bars", "Plot", "PlotKind", "RunOutput", "Source"] ∧
        m.letNames = ["params", "open"] := by
    decide +kernel
  obtain ⟨s, hs, l, hl, htitles, m, hm, himports, hlets⟩ := hrun
  have hlines : ∀ f ∈ l.inputs, ∀ t, f.title = some t → '\n' ∉ t.toList := by
    intro f hf t ht
    have hmem : some t ∈ l.inputs.map (·.title) := ht ▸ mem_map_of_mem hf
    rw [htitles] at hmem
    rcases mem_pair.1 hmem with h | h
    · cases h
      decide
    · cases h
      decide
  obtain ⟨-, -, hwords, -, hprovided⟩ := text_complete hl hlines {} hm
  exact ⟨s, l, m, hs, hl, htitles, hm, himports, hlets,
    fun w hw hmem => hwords w hw (.inr hmem), hprovided⟩

def brokenTitleSource : List Char :=
  ("//@version=5\nindicator(\"F\")\n" ++
   "n = input.int(5, \"Length\\npub y: Series,\")\n" ++
   "plot(close)\n").toList

/-- The second line of a title becomes a field of a type that is not imported. -/
theorem broken_title_not_imported : ∃ s l m g, Script.parse brokenTitleSource = .ok s ∧
    script s = .ok l ∧ build s l {} = .ok m ∧ s.generate l {} = .ok g ∧ g.text = m.render ∧
    .word "Series" ∈ pieces (ofRows m.bodyLines) ∧ "Series" ∈ libraryNames ∧
    "Series" ∉ m.imports.map Import.name := by
  have hrun : ∃ s, Script.parse brokenTitleSource = .ok s ∧ ∃ l, script s = .ok l ∧ ∃ m, build s l {} = .ok m ∧
      m.isWellFormed = true ∧ .word "Series" ∈ pieces (ofRows m.bodyLines) ∧
        "Series" ∉ m.imports.map Import.name := by
    decide +kernel
  obtain ⟨s, hs, l, hl, m, hm, hform, hword, himports⟩ := hrun
  refine ⟨s, l, m, ⟨m.render, m.typeName⟩, hs, hl, hm, ?_, rfl, hword, by decide, himports⟩
  simp [Script.generate, hm, emit, hform, Except.mapError]

end ChartScript.Module
