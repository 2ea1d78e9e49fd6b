import ChartScript.Proofs.Emitted.Written
import ChartScript.Proofs.Lowering.Scoping
/-!
# Lowered code records what it needs

Whatever the code of a lowered script uses without binding it, series of the bars, the parameters and
things of the library, is among the recorded needs of the script.
-/
namespace ChartScript

open List Emitted EmittedName

def Need.names : Need → List String
  | field f => [f.name]
  | average a => [a.name]
  | barIndex => ["bar_index"]
  | ops => ["ops"]
  | indicator _ => ["ta"]
  | seriesType => ["Series"]
  | direction => ["Direction"]

def Available (needs : List Need) (inputs : List InputField) (w : String) : Prop :=
  w ∈ watchedNames → w ∈ needs.flatMap Need.names ∨ (w = "params" ∧ inputs ≠ [])

variable {needs : List Need} {inputs : List InputField} {w : String}

theorem Available.mono {needs' : List Need} (hsub : needs ⊆ needs') (h : Available needs inputs w) :
    Available needs' inputs w := fun hw => by
  refine (h hw).imp_left fun hmem => ?_
  obtain ⟨n, hn, hname⟩ := mem_flatMap.1 hmem
  exact mem_flatMap.2 ⟨n, hsub hn, hname⟩

variable {n : Need} {kind : ValueKind} {p : FuncParam} {v : Lowered} {d : InputDecl}
  {pattern : Pattern}

theorem available_of_need (hn : n ∈ needs) (hw : w ∈ n.names) : Available needs inputs w :=
  fun _ => .inl (mem_flatMap.2 ⟨n, hn, hw⟩)

theorem available_of_not_watched (hw : w ∉ watchedNames) : Available needs inputs w :=
  fun h => absurd h hw

/-- The reference is there for code with the given needs: its words are available, and an indicator
is needed under its own name. -/
structure Mention.Provided (needs : List Need) (inputs : List InputField) (m : Mention) : Prop where
  fits : m.Fits (Available needs inputs)
  indicator : ∀ x, m = .path ["ta", x] → .indicator ("ta." ++ x) ∈ needs

theorem Mention.Provided.mono {needs needs' : List Need} {inputs : List InputField} {m : Mention}
    (h : m.Provided needs inputs) (hsub : needs ⊆ needs') : m.Provided needs' inputs where
  fits := h.fits.imp fun _ => Available.mono hsub
  indicator x hx := hsub (h.indicator x hx)

/-! ## Emitted names -/

namespace EmittedName.Plain

variable {e : String}

theorem isWord (h : Plain e) : isWord e = true := by
  have hall : e.toList.all isWordChar = true := all_eq_true.2 fun c hc => by
    have hc := all_eq_true.1 h.small c hc
    simp only [isSmallChar, Bool.or_eq_true] at hc
    rcases hc with (hlower | hdigit) | hunderscore
    · simp [isWordChar, Char.isAlphanum, Text.isAlpha_eq, hlower]
    · simp [isWordChar, Char.isAlphanum, hdigit]
    · simp [isWordChar, hunderscore]
  rw [Emitted.isWord, hall]
  simpa using h.nonempty

theorem not_watched (h : Plain e) : e ∉ watchedNames := fun hmem => by
  have hwatched : watchedNames.all (fun w => reservedNames.contains w ||
      !w.toList.all isSmallChar) = true := by decide
  have := all_eq_true.1 hwatched e hmem
  rw [h.small] at this
  exact h.free (by simpa using this)

theorem provided (h : Plain e) : (Mention.name e).Provided needs inputs :=
  ⟨⟨h.isWord, available_of_not_watched h.not_watched⟩, by simp⟩

end EmittedName.Plain

namespace Lowering

/-! ## Scopes -/

/-- The bindings of a scope are emitted as plain names, and what the defaults of its functions use is
available. -/
structure ScopeFits (needs : List Need) (inputs : List InputField) (scope : Scope) : Prop where
  plain : ∀ b ∈ scope.bindings, Plain b.emitted
  settings : ∀ b ∈ scope.bindings, b.role.isEmitted = false → inputs ≠ []
  defaults : ∀ b ∈ scope.bindings, ∀ sig, b.role = .function sig → ∀ p ∈ sig.params,
    ∀ c, p.default = some c → ∀ m ∈ c.mentions, m.Provided needs inputs

namespace ScopeFits

variable {needs needs' : List Need} {inputs : List InputField} {scope : Scope}

theorem mono (h : ScopeFits needs inputs scope) (hsub : needs ⊆ needs') : ScopeFits needs' inputs scope :=
  ⟨h.plain, h.settings, fun b hb sig hsig p hp c hc m hm => (h.defaults b hb sig hsig p hp c hc m hm).mono hsub⟩

theorem of_ne_nil (h : ScopeFits needs inputs scope) {inputs' : List InputField}
    (hne : inputs' ≠ []) : ScopeFits needs inputs' scope :=
  ⟨h.plain, fun _ _ _ => hne, fun b hb sig hsig p hp c hc m hm =>
    have hold := h.defaults b hb sig hsig p hp c hc m hm
    ⟨hold.fits.imp fun _ hw hwatched => (hw hwatched).imp_right fun hparams => ⟨hparams.1, hne⟩, hold.indicator⟩⟩

theorem bind (h : ScopeFits needs inputs scope) {b : Binding} (hplain : Plain b.emitted)
    (hsetting : b.role.isEmitted = false → inputs ≠ [])
    (hdefaults : ∀ sig, b.role = .function sig → ∀ p ∈ sig.params, ∀ c, p.default = some c →
      ∀ m ∈ c.mentions, m.Provided needs inputs) (taken : List String) :
    ScopeFits needs inputs ⟨scope.bindings ++ [b], taken⟩ := by
  have hforall : ∀ {P : Binding → Prop}, (∀ b ∈ scope.bindings, P b) → P b →
      ∀ b' ∈ scope.bindings ++ [b], P b' := fun hold hnew b' hb' =>
    (mem_append.1 hb').elim (hold b') fun hb' => mem_singleton.1 hb' ▸ hnew
  exact ⟨hforall h.plain hplain, hforall h.settings hsetting, hforall h.defaults hdefaults⟩

theorem value (h : ScopeFits needs inputs scope) (x : String) (kind : ValueKind) :
    ScopeFits needs inputs (scope.declare x (.value kind)).2 :=
  h.bind (unique_plain _ (ofName_plain x)) (by simp [Role.isEmitted]) (by simp) _

end ScopeFits

abbrev Supplied (before : List Need) (inputs : List InputField) (needs : List Need) (m : Mention) :
    Prop :=
  m.Provided (before ++ needs) inputs

theorem catalogue_words : Indicator.catalogue.all (fun i => isWord i.name) = true := by
  decide

theorem grants_available {scope : Scope} {locals : List LocalName} {before : List Need}
    {inputs : List InputField} (hscope : ScopeFits before inputs scope)
    (hlocals : ∀ l ∈ locals, Plain l.emitted) :
    Grants ⟨scope, locals⟩ (fun _ => True) (Supplied before inputs) where
  mono hsub h := h.mono fun n hn => mem_append.2 ((mem_append.1 hn).imp_right (@hsub n))
  bars := ⟨⟨rfl, available_of_not_watched (by decide)⟩, by simp⟩
  field {_ f} h := ⟨⟨by cases f <;> rfl, available_of_need (mem_append_right _ h) (.head _)⟩, by simp⟩
  average {_ a} h := ⟨⟨by cases a <;> rfl, available_of_need (mem_append_right _ h) (.head _)⟩, by simp⟩
  barIndex h := ⟨⟨rfl, available_of_need (mem_append_right _ h) (.head _)⟩, by simp⟩
  member h := ⟨h, by simp⟩
  ops {_ f} hf h := ⟨⟨"ops", [f], rfl, rfl,
    available_of_need (mem_append_right _ h) (.head _), by simpa using hf⟩, by simp⟩
  indicator {_ i} hi h := by
    refine ⟨⟨"ta", [i.name], rfl, rfl, available_of_need (mem_append_right _ h) (.head _),
      by simpa using all_eq_true.1 catalogue_words i hi⟩, fun x hx => ?_⟩
    obtain rfl : i.name = x := by simpa using hx
    exact mem_append_right _ h
  series {_ f} hf h := ⟨⟨"Series", [f], rfl, rfl,
    available_of_need (mem_append_right _ h) (.head _), by simpa using hf⟩, by simp⟩
  direction {_ f} hf h := ⟨⟨"Direction", [f], rfl, rfl,
    available_of_need (mem_append_right _ h) (.head _), by simpa using hf⟩, by simp⟩
  standard {_ head rest} hhead hrest := by
    rcases hhead with rfl | rfl
    · exact ⟨⟨"f64", rest, rfl, rfl, available_of_not_watched (by decide), hrest⟩, by simp⟩
    · exact ⟨⟨"std", rest, rfl, rfl, available_of_not_watched (by decide), hrest⟩, by simp⟩
  hidden hl := (hlocals _ hl).provided
  bound _ hb _ := (hscope.plain _ (Scope.lookup?_mem hb).1).provided
  setting _ hb hrole := by
    have hmem := (Scope.lookup?_mem hb).1
    exact ⟨⟨(hscope.plain _ hmem).isWord, fun _ => .inr ⟨rfl, hscope.settings _ hmem hrole⟩⟩, by simp⟩
  default _ hb hrole hp hc hm :=
    (hscope.defaults _ (Scope.lookup?_mem hb).1 _ hrole _ hp _ hc _ hm).mono (subset_append_left _ _)

variable {scope : Scope} {s : Script}

theorem grants_available_script {before : List Need} (hscope : ScopeFits before inputs scope) :
    Grants ⟨scope, []⟩ (fun _ => True) (Supplied before inputs) :=
  grants_available hscope (by simp)

/-! ## Functions -/

/-- A function that is read in part has plain names, and what it uses is available. -/
structure FunctionFits (before : List Need) (inputs : List InputField) (r : FunctionProgress) :
    Prop where
  locals : ∀ l ∈ r.locals.names, Plain l.emitted
  params : ∀ p ∈ r.params, Plain p.emitted ∧ ∀ c, p.default = some c →
    ∀ m ∈ c.mentions, Supplied before inputs r.needs m
  lets : ∀ l ∈ r.lets, Plain l.1 ∧ ∀ m ∈ l.2.mentions, Supplied before inputs r.needs m
  needs : ∀ n ∈ r.needs, n.Listed

theorem declare_plain {l : Locals} (h : ∀ n ∈ l.names, Plain n.emitted) (x : String) (kind : ValueKind) :
    Plain (l.declare x kind).1 ∧ ∀ n ∈ (l.declare x kind).2.names, Plain n.emitted := by
  have hnew := unique_plain l.taken (ofName_plain x)
  refine ⟨hnew, fun n hn => ?_⟩
  rcases mem_append.1 hn with hn | hn
  · exact h n hn
  · rw [mem_singleton.1 hn]
    exact hnew

theorem redeclare_plain {l l' : Locals} (h : ∀ n ∈ l.names, Plain n.emitted) {x e : String}
    (hr : l.redeclare? x kind = some (e, l')) : Plain e ∧ ∀ n ∈ l'.names, Plain n.emitted := by
  obtain ⟨old, hold, heq⟩ := Option.map_eq_some_iff.1 hr
  cases heq
  have hplain := h old (mem_reverse.1 (mem_of_find?_eq_some hold))
  refine ⟨hplain, fun n hn => ?_⟩
  rcases mem_append.1 hn with hn | hn
  · exact h n hn
  · rw [mem_singleton.1 hn]
    exact hplain

section

variable {scope : Scope} {before : List Need} {inputs : List InputField} (hscope : ScopeFits before inputs scope)
include hscope

theorem default_fits {default : Option Code}
    (h : parameterDefault s scope p kind = .ok (default, needs)) :
    (∀ c, default = some c → ∀ m ∈ c.mentions, Supplied before inputs needs m) ∧ ∀ n ∈ needs, n.Listed := by
  unfold parameterDefault at h
  split at h
  · cases h
    simp
  · obtain ⟨v, hv, h⟩ := bind_eq_ok.1 h
    obtain ⟨⟨c, needs'⟩, hc, h⟩ := bind_eq_ok.1 h
    cases pure_eq_ok.1 h
    obtain ⟨e, _, hv⟩ := bind_eq_ok.1 hv
    have hA := grants_available_script hscope
    have hgranted := parameterArgument_granted hA (expression_naming (fun _ _ => trivial) hv) hc
    exact ⟨by rintro _ ⟨⟩; exact hgranted.mentions, hgranted.needs⟩

theorem addParameter_fits {body : List Expr} {r r' : FunctionProgress}
    (h : addParameter s scope body r p = .ok r') (hr : FunctionFits before inputs r) :
    FunctionFits before inputs r' := by
  obtain ⟨⟨default, needs⟩, hdefault, h⟩ := bind_eq_ok.1 h
  cases pure_eq_ok.1 h
  obtain ⟨hcode, hneeds⟩ := default_fits hscope hdefault
  obtain ⟨hnew, hlocals⟩ := declare_plain hr.locals p.name (parameterKind s p body)
  have hold : ∀ {m : Mention}, Supplied before inputs r.needs m →
      Supplied before inputs (r.needs ++ needs) m := fun hm =>
    hm.mono (by simp [← append_assoc])
  refine ⟨hlocals, forall_mem_append.2 ⟨fun q hq => ?_, ?_⟩, fun l hl => ?_, forall_mem_append.2 ⟨hr.needs, hneeds⟩⟩
  · exact ⟨(hr.params q hq).1, fun c hc m hm => hold ((hr.params q hq).2 c hc m hm)⟩
  · rw [forall_mem_singleton]
    refine ⟨hnew, fun c hc m hm => (hcode c hc m hm).mono ?_⟩
    exact append_subset.2 ⟨by simp, fun n hn => by simp [hn]⟩
  · exact ⟨(hr.lets l hl).1, fun m hm => hold ((hr.lets l hl).2 m hm)⟩

theorem addAssignment_fits {line : BodyLine} {e : Expr} {r r' : FunctionProgress}
    (h : addAssignment scope r line e = .ok r') (hr : FunctionFits before inputs r) :
    FunctionFits before inputs r' := by
  rcases addAssignment_eq_ok h with ⟨_, rfl⟩ | ⟨x, emitted, v, hv, hname, hparams, hlets, hneeds⟩
  · exact hr
  have hA := grants_available hscope hr.locals
  have hv := expression_naming (R := fun _ => True) (fun _ _ => trivial) hv
  have hplain : Plain emitted ∧ ∀ n ∈ r'.locals.names, Plain n.emitted := by
    rcases hname with hagain | hnew
    · exact redeclare_plain hr.locals hagain
    · have := declare_plain hr.locals x v.kind
      rwa [hnew] at this
  have hold : ∀ {m : Mention}, Supplied before inputs r.needs m → Supplied before inputs r'.needs m := fun hm =>
    hm.mono (by simp [hneeds, ← append_assoc])
  refine ⟨hplain.2, fun q hq => ?_, ?_, ?_⟩
  · rw [hparams] at hq
    exact ⟨(hr.params q hq).1, fun c hc m hm => hold ((hr.params q hq).2 c hc m hm)⟩
  · rw [hlets]
    refine forall_mem_append.2 ⟨fun l hl => ?_, forall_mem_singleton.2 ⟨hplain.1, ?_⟩⟩
    · exact ⟨(hr.lets l hl).1, fun m hm => hold ((hr.lets l hl).2 m hm)⟩
    · refine fun m hm => ((hv.bindable_granted hA).mentions m hm).mono ?_
      rw [hneeds]
      exact append_subset.2 ⟨by simp, fun n hn => by simp [hn]⟩
  · rw [hneeds]
    exact forall_mem_append.2 ⟨hr.needs, (hv.granted hA).needs⟩

theorem function_fits {f : FuncDecl} {out : Lowered × Signature} (h : function s scope f = .ok out) :
    Granted (Supplied before inputs) out.1.code out.1.needs ∧ ∀ p ∈ out.2.params, ∀ c, p.default = some c →
    ∀ m ∈ c.mentions, Supplied before inputs out.1.needs m := by
  obtain ⟨exprs, r₀, r, e, v, _, hr₀, _, hr, _, hv, hcode, hneeds, hsig⟩ := function_eq_ok h
  have hfits₀ : FunctionFits before inputs r₀ := foldlM_keeps (p := FunctionFits before inputs)
      (fun _ _ _ hstep hr => addParameter_fits hscope hstep hr) hr₀ ⟨by simp, by simp, by simp, by simp⟩
  have hfits : FunctionFits before inputs r := foldlM_keeps (p := FunctionFits before inputs)
      (fun _ _ _ hstep hr => addAssignment_fits hscope hstep hr) hr hfits₀
  have hA := grants_available hscope hfits.locals
  have hv := expression_naming (R := fun _ => True) (fun _ _ => trivial) hv
  have hold : ∀ {m : Mention}, Supplied before inputs r.needs m → Supplied before inputs out.1.needs m := fun hm =>
    hm.mono (by simp [hneeds, ← append_assoc])
  refine ⟨⟨fun m hm => ?_, ?_⟩, fun p hp c hc m hm => ?_⟩
  · rw [hcode, Code.mentions, Code.mentionsLets_eq] at hm
    simp only [mem_append] at hm
    rcases hm with ((htype | hparam) | hlet) | hvalue
    · split at htype
      · next hseries =>
        have hneed : .seriesType ∈ before ++ out.1.needs := by
          have hseries : v.kind = .series ∨ (r.params.any (·.kind == .series)) = true := by
            simpa [any_map] using hseries
          rw [hneeds, if_pos hseries]
          simp
        rw [mem_singleton.1 htype]
        exact ⟨⟨"Series", [], rfl, rfl, available_of_need hneed (.head _), by simp⟩, by simp⟩
      · cases htype
    · obtain ⟨p, hp, rfl⟩ := mem_map.1 hparam
      obtain ⟨q, hq, rfl⟩ := mem_map.1 hp
      exact (hfits.params q hq).1.provided
    · obtain ⟨l, hl, hm⟩ := mem_flatMap.1 hlet
      rcases mem_cons.1 hm with rfl | hm
      · exact (hfits.lets l hl).1.provided
      · exact hold ((hfits.lets l hl).2 m hm)
    · refine ((hv.bindable_granted hA).mentions m hvalue).mono ?_
      rw [hneeds]
      exact append_subset.2 ⟨by simp, fun n hn => by simp [hn]⟩
  · rw [hneeds]
    refine forall_mem_append.2 ⟨forall_mem_append.2 ⟨hfits.needs, (hv.granted hA).needs⟩, ?_⟩
    split <;> simp [Need.Listed]
  · rw [hsig] at hp
    exact hold ((hfits.params p hp).2 c hc m hm)

end

/-! ## Statements -/

/-- The items so far have plain names, and what their code uses is among the needs so far. -/
structure Covered (inputs : List InputField) (r : Progress) : Prop where
  scope : ScopeFits r.needs inputs r.scope
  names : ∀ item ∈ r.items, ∀ n ∈ item.names, Plain n
  code : ∀ item ∈ r.items, ∀ m ∈ item.value.code.mentions, m.Provided r.needs inputs
  needs : ∀ n ∈ r.needs, n.Listed

theorem Covered.add {inputs : List InputField} {r : Progress} (h : Covered inputs r)
    (key : ItemKey) (position : Nat) {binding : Option Pattern} {scope : Scope}
    (hnames : ∀ n ∈ (binding.map Pattern.names).getD [], Plain n)
    (hv : Granted (Supplied r.needs inputs) v.code v.needs)
    (hscope : ScopeFits (r.needs ++ v.needs) inputs scope) :
    Covered inputs (r.add key position binding v scope) where
  scope := hscope
  names := forall_mem_append.2 ⟨h.names, forall_mem_singleton.2 hnames⟩
  code := forall_mem_append.2 ⟨fun item hitem m hm => (h.code item hitem m hm).mono
    (subset_append_left _ _), forall_mem_singleton.2 hv.mentions⟩
  needs := forall_mem_append.2 ⟨h.needs, hv.needs⟩

theorem Covered.need {inputs : List InputField} {r : Progress} (h : Covered inputs r)
    (hn : n.Listed) : Covered inputs { r with needs := r.needs ++ [n] } where
  scope := h.scope.mono (subset_append_left _ _)
  names := h.names
  code item hitem m hm := (h.code item hitem m hm).mono (subset_append_left _ _)
  needs := forall_mem_append.2 ⟨h.needs, forall_mem_singleton.2 hn⟩

theorem declareAll_fits (h : ScopeFits needs inputs scope) (names : List String) :
    (∀ n ∈ (declareAll scope names).1, Plain n) ∧ ScopeFits needs inputs (declareAll scope names).2 := by
  induction names generalizing scope with
  | nil => exact ⟨by simp [declareAll], h⟩
  | cons x rest ih =>
    obtain ⟨hnames, hrest⟩ := ih (h.value x .series)
    exact ⟨forall_mem_cons.2 ⟨unique_plain _ (ofName_plain x), hnames⟩, hrest⟩

section

variable {s : Script} {inputs : List InputField} {r r' : Progress}

theorem assigned_covered {d : VarDecl}
    (h : Assigned s r.scope d pattern v scope) (hr : Covered inputs r) (key : ItemKey)
    (position : Nat) : Covered inputs (r.add key position (some pattern) v scope) := by
  have hA := grants_available_script hr.scope
  have hscope : ∀ needs, ScopeFits (r.needs ++ needs) inputs r.scope := fun needs =>
    hr.scope.mono (subset_append_left _ _)
  cases h with
  | @declared x e v w _ _ _ hv hw =>
    have hv := expression_naming (R := fun _ => True) (fun _ _ => trivial) hv
    have hw : w.Made ⟨r.scope, []⟩ (.naming fun _ => True) := by
      rw [hw]
      split
      · exact kept_made hv
      · exact hv
    exact hr.add key position (forall_mem_singleton.2 (unique_plain _ (ofName_plain x)))
      (hw.bindable.granted hA) ((hscope _).value x _)
  | @unpacked names e v _ _ _ hv =>
    have hv := expression_naming (R := fun _ => True) (fun _ _ => trivial) hv
    obtain ⟨hnames, hdeclared⟩ := declareAll_fits (hscope v.needs) names
    exact hr.add key position hnames (hv.granted hA) hdeclared
  | @reassigned x e e' v b kind _ _ _ _ hb hrole _ hv =>
    have hv := expression_naming (R := fun _ => True) (fun _ _ => trivial) hv
    have hplain := hr.scope.plain b (Scope.lookup?_mem hb).1
    refine hr.add key position (forall_mem_singleton.2 hplain) (hv.bindable.granted hA)
      ((hscope _).bind (b := ⟨x, b.emitted, .value v.kind⟩) hplain ?_ ?_ _)
    · simp [Role.isEmitted]
    · simp

theorem hoisted_covered {span : Span} {base what : String} {allowed : ValueKind → Bool}
    (h : hoist s r.scope span base allowed what = .ok (pattern, v, scope))
    (hbase : base.toList.all isSmallChar = true) (hr : Covered inputs r) (key : ItemKey) (position : Nat) :
    Covered inputs (r.add key position (some pattern) v scope) := by
  obtain ⟨w, hw, hv, rfl, rfl⟩ := hoist_eq_ok h
  obtain ⟨e, _, hw⟩ := bind_eq_ok.1 hw
  have hA := grants_available_script hr.scope
  have hw := (expression_naming (fun _ _ => trivial) hw).granted hA
  have hgranted : Granted (Supplied r.needs inputs) v.code v.needs := by
    rw [hv]
    split
    · exact ⟨by simpa using hw.mentions, hw.needs⟩
    · exact hw
  have hscope := hr.scope.mono (subset_append_left r.needs v.needs)
  exact hr.add key position (forall_mem_singleton.2 (numbered_plain _ hbase)) hgranted
    ⟨hscope.plain, hscope.settings, hscope.defaults⟩

theorem step_covered (h : Step s r r') (hr : Covered inputs r) : Covered inputs r' := by
  cases h with
  | assignment _ hv => exact assigned_covered (assigned_of_assignment hv) hr _ _
  | @function i f out _ hout =>
    obtain ⟨hcode, hdefaults⟩ := function_fits hr.scope hout
    have hplain := unique_plain r.scope.taken (ofName_plain f.name)
    have hscope := hr.scope.mono (subset_append_left r.needs out.1.needs)
    refine hr.add _ _ (forall_mem_singleton.2 hplain) hcode (hscope.bind hplain ?_ ?_ _)
    · simp [Role.isEmitted]
    · rintro sig ⟨⟩
      exact hdefaults
  | hoisted _ hbase hv =>
    have hsmall : ∀ b ∈ ["cond", "when", "qty", "stop", "limit"], b.toList.all isSmallChar = true := by decide
    exact hoisted_covered hv (hsmall _ hbase) hr _ _
  | plotted _ hv =>
    obtain ⟨e, _, hv⟩ := bind_eq_ok.1 hv
    have hA := grants_available_script hr.scope
    have hv := expression_naming (R := fun _ => True) (fun _ _ => trivial) hv
    exact hr.add _ _ (by simp) (hv.granted hA) (hr.scope.mono (subset_append_left _ _))
  | directed => exact hr.need trivial

end

/-! ## Inputs -/

/-- A field has a plain name, and its default uses nothing but the names of prices. -/
structure FieldFits (decls : List InputDecl) (f : InputField) : Prop where
  plain : Plain f.field
  title : ∃ d ∈ decls, f.title = d.title
  default : ∀ m ∈ f.default.mentions, m.Fits fun w => w ∈ watchedNames → w = "Source" ∧ f.kind = .source

theorem inputDefault_fits {c : Code} (h : inputDefault d = .ok c) :
    ∀ m ∈ c.mentions, m.Fits fun w => w ∈ watchedNames → w = "Source" ∧ d.kind = .source := by
  unfold inputDefault at h
  split at h
  case h_1 | h_2 | h_3 | h_4 =>
    cases h
    simp
  case h_5 | h_6 | h_7 =>
    cases h
    have hmethod : isWord "to_string" = true := rfl
    simpa [Mention.Fits] using hmethod
  case h_8 p hkind _ =>
    cases h
    have hvariant : isWord (sourceVariant p) = true := by
      rcases p with f | a
      · cases f <;> decide
      · cases a <;> decide
    simp only [Code.mentions, mem_singleton, forall_eq]
    exact ⟨"Source", [sourceVariant p], rfl, rfl, fun _ => ⟨rfl, hkind⟩, by simpa using hvariant⟩
  case h_9 => cases h

/-- The scope and the fields of the inputs so far. -/
structure InputsFit (decls : List InputDecl) (r : Scope × List InputField) : Prop where
  scope : ScopeFits [] r.2 r.1
  fields : ∀ f ∈ r.2, FieldFits decls f

theorem addInput_fits {decls : List InputDecl} {r r' : Scope × List InputField} (hd : d ∈ decls)
    (h : addInput r d = .ok r') (hr : InputsFit decls r) : InputsFit decls r' := by
  obtain ⟨c, hc, rfl⟩ := bind_pure_eq_ok.1 h
  have hplain := unique_plain r.1.taken (ofName_plain d.name)
  constructor
  · exact (hr.scope.of_ne_nil (by simp)).bind hplain (by simp) (by simp) _
  · exact forall_mem_append.2 ⟨hr.fields, forall_mem_singleton.2 ⟨hplain, ⟨d, hd, rfl⟩, inputDefault_fits hc⟩⟩

/-! ## Whole scripts -/

/-- What a lowered script emits uses only what it binds and what it needs. -/
structure Supply (s : Script) (l : LoweredScript) : Prop where
  names : ∀ item ∈ l.items, ∀ n ∈ item.names, Plain n
  code : ∀ item ∈ l.items, ∀ m ∈ item.value.code.mentions, m.Provided l.needs l.inputs
  needs : ∀ n ∈ l.needs, n.Listed
  fields : ∀ f ∈ l.inputs, FieldFits s.inputs f

theorem script_supply {l : LoweredScript} (h : script s = .ok l) : Supply s l := by
  obtain ⟨⟨scope, inputs⟩, hinputs, h⟩ := bind_eq_ok.1 h
  obtain ⟨r, hr, rfl⟩ := bind_pure_eq_ok.1 h
  have hfit : InputsFit s.inputs (scope, inputs) :=
    foldlM_keeps_of_mem (p := InputsFit s.inputs) (fun _ _ hd _ => addInput_fits hd) hinputs
      ⟨⟨by simp, by simp, by simp⟩, by simp⟩
  have hcovered : Covered inputs r :=
    foldlM_keeps_of_mem (p := Covered inputs) (fun _ _ hsite _ => add_keeps step_covered hsite) hr ⟨hfit.scope, by simp, by simp, by simp⟩
  exact ⟨hcovered.names, hcovered.code, hcovered.needs, hfit.fields⟩

end Lowering

end ChartScript
