import ChartScript.Proofs.Module.Imports
/-!
# Titles of inputs

The title of an input has no say in how a script is lowered, nor in what its module does.
-/
namespace ChartScript

open List Lowering Module Text

def InputDecl.retitled (d : InputDecl) (title : String) : InputDecl :=
  { d with title := some title }

def InputField.retitled (f : InputField) (title : String) : InputField :=
  { f with title := some title }

/-- The script with another title for one of its inputs. -/
def Script.retitled (s : Script) (i : Nat) (title : String) : Script :=
  { s with inputs := s.inputs.modify i (·.retitled title) }

/-- The rows of the text that is put together for a script, before it is checked. -/
def Script.moduleRows? (s : Script) (options : GeneratorOptions) : Option (List (List Char)) := do
  let l ← (Lowering.script s).toOption
  let m ← (build s l options).toOption
  return rows m.render.toList

/-! ## Lowering -/

variable {s : Script} {l : LoweredScript} {m : Module}

variable {scope' : Scope} {fs' : List InputField} {d : InputDecl} {i : Nat}
  {options : GeneratorOptions} {α : Type}

namespace Lowering

variable {scope : Scope} {fs : List InputField}

theorem addInput_eq_ok (h : addInput (scope, fs) d = .ok (scope', fs')) :
    ∃ f, fs' = fs ++ [f] ∧ (∀ gs, addInput (scope, gs) d = .ok (scope', gs ++ [f])) ∧
    ∀ gs title, addInput (scope, gs) (d.retitled title) = .ok (scope', gs ++ [f.retitled title]) := by
  obtain ⟨default, hdefault, h⟩ := bind_eq_ok.1 h
  cases pure_eq_ok.1 h
  refine ⟨_, rfl, ?_, ?_⟩
  · intro gs
    rw [addInput, hdefault]
    rfl
  · intro gs title
    have hsame : inputDefault (d.retitled title) = .ok default := hdefault
    rw [addInput, hsame]
    rfl

theorem foldlM_addInput {ds : List InputDecl}
    (h : ds.foldlM addInput (scope, fs) = .ok (scope', fs')) :
    ∃ new, fs' = fs ++ new ∧ ∀ gs, ds.foldlM addInput (scope, gs) = .ok (scope', gs ++ new) := by
  induction ds generalizing scope fs with
  | nil =>
    cases pure_eq_ok.1 h
    exact ⟨[], by simp, fun gs => by rw [append_nil]; rfl⟩
  | cons d ds ih =>
    obtain ⟨⟨scope₁, fs₁⟩, hd, hds⟩ := bind_eq_ok.1 h
    obtain ⟨f, rfl, hadd, -⟩ := addInput_eq_ok hd
    obtain ⟨new, rfl, hrest⟩ := ih hds
    refine ⟨f :: new, by simp, ?_⟩
    intro gs
    refine bind_eq_ok.2 ⟨_, hadd gs, ?_⟩
    simpa using hrest (gs ++ [f])

theorem inputs_retitled {ds ds' : List InputDecl}
    (h : (ds ++ d :: ds').foldlM addInput ({}, []) = .ok (scope, fs)) :
    ∃ (above : List InputField) (f : InputField) (below : List InputField), ∀ title,
    (ds ++ d.retitled title :: ds').foldlM addInput ({}, []) = .ok (scope, above ++ f.retitled title :: below) := by
  rw [foldlM_append] at h
  obtain ⟨⟨scope₁, above⟩, habove, h⟩ := bind_eq_ok.1 h
  obtain ⟨⟨scope₂, fs₂⟩, hd, hbelow⟩ := bind_eq_ok.1 h
  obtain ⟨f, rfl, -, htitle⟩ := addInput_eq_ok hd
  obtain ⟨below, rfl, hrest⟩ := foldlM_addInput hbelow
  refine ⟨above, f, below, ?_⟩
  intro title
  rw [foldlM_append]
  refine bind_eq_ok.2 ⟨_, habove, ?_⟩
  refine bind_eq_ok.2 ⟨_, htitle above title, ?_⟩
  simpa using hrest (above ++ [f.retitled title])

theorem script_retitled (h : script s = .ok l) (hi : i < s.inputs.length) :
    ∃ (above : List InputField) (f : InputField) (below : List InputField), ∀ title,
      script (s.retitled i title) = .ok { l with inputs := above ++ f.retitled title :: below } := by
  obtain ⟨⟨scope, fs⟩, hinputs, h⟩ := bind_eq_ok.1 h
  obtain ⟨r, hr, h⟩ := bind_eq_ok.1 h
  cases pure_eq_ok.1 h
  have hsplit : s.inputs = s.inputs.take i ++ s.inputs[i] :: s.inputs.drop (i + 1) := by simp
  rw [hsplit] at hinputs
  obtain ⟨above, f, below, htitle⟩ := inputs_retitled hinputs
  refine ⟨above, f, below, ?_⟩
  intro title
  have hmodify : (s.retitled i title).inputs =
      s.inputs.take i ++ s.inputs[i].retitled title :: s.inputs.drop (i + 1) :=
    modify_eq_take_cons_drop hi
  -- no statement is lowered with the title at hand
  have hwalk : (sites (s.retitled i title)).foldlM (add (s.retitled i title)) { scope := scope } = .ok r := hr
  rw [script, hmodify]
  refine bind_eq_ok.2 ⟨_, htitle title, ?_⟩
  exact bind_eq_ok.2 ⟨_, hwalk, rfl⟩

end Lowering

/-! ## Building -/

namespace Module

theorem arms_retitled (s : Script) (l : LoweredScript) (ds : List InputDecl) (fs : List InputField)
    (body : Option BodyRef → Except GenerationFault (List Action)) (last : Nat) (ks : List Nat) :
    arms { s with inputs := ds } { l with inputs := fs } body last ks = arms s l body last ks := by
  induction ks with
  | nil => rfl
  | cons k ks ih =>
    rw [arms, arms, ih]
    rfl

theorem actionsOf_retitled (s : Script) (l : LoweredScript) (ds : List InputDecl)
    (fs : List InputField) (depth : Nat) (scope : Option BodyRef) :
    actionsOf { s with inputs := ds } { l with inputs := fs } depth scope = actionsOf s l depth scope := by
  induction depth generalizing scope with
  | zero => rfl
  | succ depth ih =>
    have hbody : actionsOf { s with inputs := ds } { l with inputs := fs } depth = actionsOf s l depth := funext ih
    have hentry : entryAction { s with inputs := ds } { l with inputs := fs } depth = entryAction s l depth := by
      funext e
      cases e with
      | order i o => rfl
      | condition i c =>
        simp only [entryAction, hbody]
        rw [arms_retitled]
        rfl
    rw [actionsOf_succ, actionsOf_succ, hentry]
    rfl

theorem build_retitled (h : build s l options = .ok m)
    (ds : List InputDecl) (fs : List InputField) :
    build { s with inputs := ds } { l with inputs := fs } options = .ok { m with inputs := fs } := by
  unfold build at h ⊢
  rw [actionsOf_retitled]
  split at h
  · next hempty =>
    cases h
    exact if_pos hempty
  · next hempty =>
    obtain ⟨actions, hactions, h⟩ := bind_eq_ok.1 h
    cases pure_eq_ok.1 h
    exact (if_neg hempty).trans (bind_eq_ok.2 ⟨actions, hactions, rfl⟩)

/-! ## Rows -/

def paramsOpening (m : Module) : List String :=
  ["/// Inputs of " ++ quote m.title ++ ".", "#[derive(Debug, Clone, PartialEq)]",
   "pub struct " ++ m.paramsName ++ " \x7b"]

def paramsClosing (m : Module) : List String :=
  ["\x7d", "", "impl Default for " ++ m.paramsName ++ " \x7b", "    fn default() -> Self \x7b",
   "        Self \x7b"] ++
    m.inputs.map (fun f => "            " ++ f.field ++ ": " ++ f.default.render ++ ",") ++
    ["        \x7d", "    \x7d", "\x7d"]

theorem paramsLines_eq (h : m.inputs ≠ []) :
    m.paramsLines = m.paramsOpening ++ (m.inputs.flatMap fieldLines ++ m.paramsClosing) := by
  simp [paramsLines, paramsOpening, paramsClosing, h]

section

variable (m : Module) (above below : List InputField) (f : InputField) (title : String)

theorem map_filter_retitled {p : InputField → Bool} {g : InputField → α}
    (hp : p (f.retitled title) = p f) (hg : g (f.retitled title) = g f) :
    ((above ++ f.retitled title :: below).filter p).map g = ((above ++ f :: below).filter p).map g := by
  simp only [filter_append, filter_cons, map_append, hp]
  split
  · rw [map_cons, map_cons, hg]
  · rfl

theorem sourceInputs_retitled {g : InputField → α} (hg : g (f.retitled title) = g f) :
    { m with inputs := above ++ f.retitled title :: below }.sourceInputs.map g =
      { m with inputs := above ++ f :: below }.sourceInputs.map g :=
  map_filter_retitled above below f title rfl hg

theorem headerLines_retitled : { m with inputs := above ++ f.retitled title :: below }.headerLines =
      { m with inputs := above ++ f :: below }.headerLines := by
  have hempty : { m with inputs := above ++ f.retitled title :: below }.sourceInputs.isEmpty =
      { m with inputs := above ++ f :: below }.sourceInputs.isEmpty := by
    have hkinds := sourceInputs_retitled m above below f title (g := InputField.kind) rfl
    rw [← isEmpty_map, hkinds, isEmpty_map]
  have himports : { m with inputs := above ++ f.retitled title :: below }.imports =
      { m with inputs := above ++ f :: below }.imports := by
    unfold imports
    rw [hempty]
  unfold headerLines
  rw [himports]

theorem structLines_retitled : { m with inputs := above ++ f.retitled title :: below }.structLines =
      { m with inputs := above ++ f :: below }.structLines := by
  have hlocals : { m with inputs := above ++ f.retitled title :: below }.localLines =
      { m with inputs := above ++ f :: below }.localLines := by
    unfold localLines
    rw [sourceInputs_retitled m above below f title rfl]
    simp
  have hrun : { m with inputs := above ++ f.retitled title :: below }.runLines =
      { m with inputs := above ++ f :: below }.runLines := by
    unfold runLines
    rw [hlocals]
    rfl
  unfold structLines
  rw [hrun]
  rfl

theorem paramsClosing_retitled : { m with inputs := above ++ f.retitled title :: below }.paramsClosing =
      { m with inputs := above ++ f :: below }.paramsClosing := by
  unfold paramsClosing
  simp only [map_append, map_cons]
  rfl

end

theorem lines_retitled (m : Module) (above below : List InputField) (f : InputField) :
    ∃ before after, ∀ title, { m with inputs := above ++ f.retitled title :: below }.lines =
      before ++ ("    /// " ++ title) :: after := by
  let plain := { m with inputs := above ++ f :: below }
  refine ⟨plain.headerLines ++ (plain.paramsOpening ++ above.flatMap fieldLines),
    ("    pub " ++ f.field ++ ": " ++ f.typeName ++ ",") ::
      (below.flatMap fieldLines ++ (plain.paramsClosing ++ plain.structLines)), ?_⟩
  intro title
  have hparams := paramsLines_eq (m := { m with inputs := above ++ f.retitled title :: below }) (by simp)
  rw [paramsClosing_retitled, flatMap_append, flatMap_cons] at hparams
  rw [lines, headerLines_retitled, structLines_retitled, hparams]
  simp only [append_assoc]
  rfl

theorem rows_ofRows_append (lines : List String) (rest : List Char) :
    rows (ofRows lines ++ rest) = lines.flatMap (fun line => rows line.toList) ++ rows rest := by
  induction lines with
  | nil => rfl
  | cons line lines ih =>
    have hfirst : ofRows (line :: lines) ++ rest = line.toList ++ '\n' :: (ofRows lines ++ rest) := by simp [ofRows]
    rw [hfirst, rows_append, ih, flatMap_cons, append_assoc]

theorem rows_of_not_mem {cs : List Char} (h : '\n' ∉ cs) : rows cs = [cs] := by
  induction cs with
  | nil => rfl
  | cons c cs ih =>
    obtain ⟨hc, hcs⟩ := not_or.1 (mem_cons.not.1 h)
    rw [rows, if_neg (Ne.symm hc), ih hcs]

theorem render_retitled (m : Module) (above below : List InputField) (f : InputField) : ∃ before after, ∀ title,
      rows { m with inputs := above ++ f.retitled title :: below }.render.toList =
        before ++ (rows ("    /// " ++ title).toList ++ after) := by
  obtain ⟨before, after, hlines⟩ := lines_retitled m above below f
  refine ⟨before.flatMap fun line => rows line.toList, rows (ofRows after), ?_⟩
  intro title
  have hrest : ofRows (("    /// " ++ title) :: after) =
      ("    /// " ++ title).toList ++ '\n' :: ofRows after := by simp [ofRows]
  rw [render_eq, hlines, ofRows_append, rows_ofRows_append, hrest, rows_append]

end Module

theorem Script.moduleRows?_eq_some (hl : script s = .ok l)
    (hm : build s l options = .ok m) : s.moduleRows? options = some (rows m.render.toList) := by
  rw [moduleRows?, hl]
  simp only [Except.toOption, Option.bind_eq_bind, Option.bind_some]
  rw [hm]
  rfl

namespace Module

theorem moduleRows_retitled {source : List Char} {s : Script} {l : LoweredScript}
    (hs : Script.parse source = .ok s) (hl : script s = .ok l) (options : GeneratorOptions)
    (hi : i < s.inputs.length) : ∃ before after, ∀ title, (s.retitled i title).moduleRows? options =
      some (before ++ (rows ("    /// " ++ title).toList ++ after)) := by
  obtain ⟨above, f, below, hscript⟩ := script_retitled hl hi
  obtain ⟨m, hm, -⟩ := build_issues (Script.shaped_of_parse hs) (complete_of_script hs hl) options
  obtain ⟨before, after, hrender⟩ := render_retitled m above below f
  refine ⟨before, after, ?_⟩
  intro title
  rw [Script.moduleRows?_eq_some (hscript title) (build_retitled hm _ _), hrender]

/-- The title of an input shows in the text of the module as what it is, behind the signs of a comment,
with the same rows above it and below it whatever it is. So titles without a line feed give as many
rows, and only the row of the title differs. -/
theorem title_confined {source : List Char} {s : Script} {l : LoweredScript}
    (hs : Script.parse source = .ok s) (hl : script s = .ok l) (options : GeneratorOptions) {i : Nat}
    (hi : i < s.inputs.length) : ∃ before after : List (List Char),
      (∀ title, (s.retitled i title).moduleRows? options =
        some (before ++ (rows ("    /// " ++ title).toList ++ after))) ∧
      ∀ title title', '\n' ∉ title.toList → '\n' ∉ title'.toList →
        ∃ rows rows', (s.retitled i title).moduleRows? options = some rows ∧
          (s.retitled i title').moduleRows? options = some rows' ∧ rows.length = rows'.length ∧
          rows[before.length]? = some ("    /// " ++ title).toList ∧
          rows'[before.length]? = some ("    /// " ++ title').toList ∧
          ∀ k, k ≠ before.length → rows[k]? = rows'[k]? := by
  obtain ⟨before, after, hrows⟩ := moduleRows_retitled hs hl options hi
  refine ⟨before, after, hrows, ?_⟩
  intro title title' htitle htitle'
  have hone (title : String) (h : '\n' ∉ title.toList) : (s.retitled i title).moduleRows? options =
      some (before ++ ("    /// " ++ title).toList :: after) := by
    rw [hrows, rows_of_not_mem (by simpa using h)]
    rfl
  refine ⟨_, _, hone title htitle, hone title' htitle', by simp, by simp, by simp, ?_⟩
  intro k hk
  rcases Nat.lt_or_gt_of_ne hk with hlt | hgt
  · rw [getElem?_append_left hlt, getElem?_append_left hlt]
  · obtain ⟨j, rfl⟩ := Nat.exists_eq_add_of_lt hgt
    rw [getElem?_append_right (by omega), getElem?_append_right (by omega),
      show before.length + j + 1 - before.length = j + 1 by omega, getElem?_cons_succ,
      getElem?_cons_succ]

def twoTitlesSource : List Char :=
  ("//@version=5\nindicator(\"T\")\n" ++
   "n = input.int(14, \"Length\")\n" ++
   "k = input.int(3, \"Shift\")\n" ++
   "plot(ta.sma(close, n))\n").toList

theorem title_confined_second : ∃ s l, Script.parse twoTitlesSource = .ok s ∧ script s = .ok l ∧
    s.inputs.map (·.title) = [some "Length", some "Shift"] ∧
    ∃ rows rows', (s.retitled 1 "Shift").moduleRows? {} = some rows ∧
      (s.retitled 1 "*/ \x7d").moduleRows? {} = some rows' ∧ rows.length = rows'.length := by
  have hrun : ∃ s, Script.parse twoTitlesSource = .ok s ∧ ∃ l, script s = .ok l ∧
      s.inputs.map (·.title) = [some "Length", some "Shift"] := by
    decide +kernel
  obtain ⟨s, hs, l, hl, htitles⟩ := hrun
  have hi : 1 < s.inputs.length := by
    rw [← length_map (·.title), htitles]
    decide
  obtain ⟨before, after, -, hrows⟩ := title_confined hs hl {} hi
  obtain ⟨rows, rows', hrows, hrows', hlength, -⟩ := hrows "Shift" "*/ \x7d" (by decide) (by decide)
  exact ⟨s, l, hs, hl, htitles, rows, rows', hrows, hrows', hlength⟩

def fieldTitleSource : List Char :=
  ("//@version=5\nindicator(\"F\")\n" ++
   "n = input.int(5, \"Length\\npub y: i64,\")\n" ++
   "plot(close)\n").toList

/-- The second line of a title is a field of the parameters, and the text has a row more than with a
title of one line. -/
theorem field_title_reaches_code : ∃ s l rows rows', Script.parse fieldTitleSource = .ok s ∧
    script s = .ok l ∧ s.inputs.map (·.title) = [some "Length\npub y: i64,"] ∧
    (s.retitled 0 "Length\npub y: i64,").moduleRows? {} = some rows ∧
    (s.retitled 0 "Length").moduleRows? {} = some rows' ∧
    rows.length = rows'.length + 1 ∧ "pub y: i64,".toList ∈ rows := by
  have hrun : ∃ s, Script.parse fieldTitleSource = .ok s ∧ ∃ l, script s = .ok l ∧
      s.inputs.map (·.title) = [some "Length\npub y: i64,"] := by
    decide +kernel
  obtain ⟨s, hs, l, hl, htitles⟩ := hrun
  have hi : 0 < s.inputs.length := by
    rw [← length_map (·.title), htitles]
    decide
  obtain ⟨before, after, hrows⟩ := moduleRows_retitled hs hl {} hi
  have hbroken : rows ("    /// " ++ "Length\npub y: i64,").toList =
      ["    /// Length".toList, "pub y: i64,".toList] := by decide
  have hone : rows ("    /// " ++ "Length").toList = ["    /// Length".toList] := by decide
  refine ⟨s, l, _, _, hs, hl, htitles, hrows _, hrows _, ?_, ?_⟩
  · simp only [hbroken, hone, length_append, length_cons, length_nil]
    omega
  · rw [hbroken]
    simp

end Module

end ChartScript
