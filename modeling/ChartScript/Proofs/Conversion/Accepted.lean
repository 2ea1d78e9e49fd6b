import ChartScript.Conversion
import ChartScript.Proofs.Module.ControlFlow
/-!
# Scripts that are converted

A conversion goes through if the script can be read, nothing in it is refused, its expressions can be
lowered and the module that they make passes the syntax check. Nothing else is asked of the check.
-/
namespace ChartScript

variable {s : Script} {l : LoweredScript} {settings : ConversionSettings} {source : List Char}
  {check : SyntaxCheck}

namespace Script

theorem orElse_eq_none {α : Type} {x y : Option α} : (x <|> y) = none ↔ x = none ∧ y = none := by
  cases x <;> simp

/-- What is not in a script that is not refused. -/
structure Admitted (s : Script) : Prop where
  types : s.types = []
  callees : ∀ f ∈ s.functions, f.callees = []
  others : ∀ o ∈ s.others, o.kind.isUnsupported = false
  varDecls : ∀ v ∈ s.varDecls, v.scope = none
  plots : ∀ p ∈ s.plots, p.scope = none

theorem admitted_of_refusal {limit : Nat} (h : s.refusal? limit = none) : s.Admitted := by
  simp only [refusal?, orElse_eq_none] at h
  obtain ⟨htypes, -, hcallees, -, hothers, hvarDecls, hplots, -⟩ := h
  refine ⟨by simpa [typeRefusal?] using htypes, fun f hf => ?_, fun o ho => ?_, fun v hv => ?_, fun p hp => ?_⟩
  · simpa using List.findSome?_eq_none_iff.1 hcallees f hf
  · simpa using List.find?_eq_none.1 (Option.map_eq_none_iff.1 hothers) o ho
  · simpa using List.find?_eq_none.1 (Option.map_eq_none_iff.1 hvarDecls) v hv
  · simpa using List.find?_eq_none.1 (Option.map_eq_none_iff.1 hplots) p hp

end Script

variable {options : GeneratorOptions} {m : Module}

theorem Module.generate_eq_ok {g : GeneratedModule}
    (h : s.generate l options check = .ok g) :
    ∃ m, build s l options = .ok m ∧ check m = true ∧ g = { text := m.render, typeName := m.typeName } := by
  unfold Script.generate at h
  cases hbuild : build s l options with
  | error cause =>
    rw [hbuild] at h
    cases h
  | ok m =>
    rw [hbuild] at h
    cases hform : check m with
    | false => simp [emit, hform, Except.mapError] at h
    | true => exact ⟨m, rfl, hform, by simpa [emit, hform, Except.mapError, eq_comm] using h⟩

/-- A script that nothing is refused of, its lowered expressions and the module that they make. -/
structure Prepared (settings : ConversionSettings) (source : List Char) (s : Script)
    (l : LoweredScript) (m : Module) : Prop where
  parsed : Script.parse source = .ok s
  admitted : s.rejection? settings = none
  lowered : Lowering.script s = .ok l
  built : Module.build s l settings.generator = .ok m

/-- The module passes the syntax check. -/
structure Accepted (check : SyntaxCheck) (settings : ConversionSettings) (source : List Char)
    (s : Script) (l : LoweredScript) (m : Module) : Prop extends Prepared settings source s l m where
  passes : check m = true

/-- What is reported of a script along with its module. -/
def Script.conversion (settings : ConversionSettings) (s : Script) (m : Module) : Conversion where
  module := ⟨m.render, m.typeName⟩
  score := s.score
  factors := s.factors
  route := settings.thresholds.route s.score
  warnings := s.warnings settings.generator.emitPlots
  indicators := s.indicators

theorem convert_eq_ok {c : Conversion} : convert settings source check = .ok (.ok c) ↔
    ∃ s l m, Accepted check settings source s l m ∧ c = s.conversion settings m := by
  constructor
  · intro h
    unfold convert at h
    split at h
    · cases h
    · next s hs =>
      unfold Script.convert at h
      split at h
      · cases h
      · next hadmitted =>
        split at h
        · cases h
        · next l hl =>
          obtain ⟨g, hg, h⟩ := bind_eq_ok.1 h
          cases pure_eq_ok.1 h
          obtain ⟨m, hm, hpasses, rfl⟩ := Module.generate_eq_ok hg
          exact ⟨s, l, m, ⟨⟨hs, hadmitted, hl, hm⟩, hpasses⟩, rfl⟩
  · rintro ⟨s, l, m, ⟨⟨hs, hadmitted, hl, hm⟩, hpasses⟩, rfl⟩
    have hgenerate : s.generate l settings.generator check = .ok ⟨m.render, m.typeName⟩ := by
      rw [Script.generate, hm]
      dsimp only
      rw [Module.emit, if_pos hpasses]
      rfl
    rw [convert, hs]
    dsimp only [Script.convert]
    rw [hadmitted, hl]
    dsimp only
    rw [hgenerate]
    rfl

theorem Prepared.not_refused (h : Prepared settings source s l m) : s.Admitted := by
  have hrejection := h.admitted
  unfold Script.rejection? at hrejection
  split at hrejection
  · cases hrejection
  · exact Script.admitted_of_refusal (Option.map_eq_none_iff.1 hrejection)

theorem Prepared.broken (h : Prepared settings source s l m) (hcheck : check m = false) :
    s.generate l settings.generator check = .error ⟨s.name, .malformed⟩ ∧
      convert settings source check = .error ⟨s.name, .malformed⟩ := by
  have hgenerate : s.generate l settings.generator check = .error ⟨s.name, .malformed⟩ := by
    rw [Script.generate, h.built]
    dsimp only
    rw [Module.emit, if_neg (by simpa using hcheck)]
    rfl
  refine ⟨hgenerate, ?_⟩
  rw [convert, h.parsed]
  dsimp only [Script.convert]
  rw [h.admitted, h.lowered]
  dsimp only
  rw [hgenerate]
  rfl

/-! ## Checking that a source is converted -/

theorem exists_prepared (settings : ConversionSettings) (source : List Char) (p : Script → LoweredScript → Prop)
    (h : ∃ s, Script.parse source = .ok s ∧ s.rejection? settings = none ∧
      ∃ l, Lowering.script s = .ok l ∧ p s l) : ∃ s l m, Prepared settings source s l m ∧ p s l := by
  obtain ⟨s, hs, hadmitted, l, hl, hp⟩ := h
  obtain ⟨m, hm, -⟩ := Module.build_issues (Script.shaped_of_parse hs)
    (Module.complete_of_script hs hl) settings.generator
  exact ⟨s, l, m, ⟨hs, hadmitted, hl, hm⟩, hp⟩

namespace Module

/-- The check of the command line, made before the module is. -/
def takesInputs (options : GeneratorOptions) (inputs : List InputField) : Bool :=
  Emitted.isImportPath options.runtimePath &&
    Emitted.isFieldList (String.join ((inputs.flatMap fieldLines).map (· ++ "\n")))

theorem isWellFormed_of_build
    (h : build s l options = .ok m) : m.isWellFormed = takesInputs options l.inputs := by
  rw [(build_cases h).1]
  rfl

end Module

theorem exists_accepted (settings : ConversionSettings) (source : List Char) (p : Script → LoweredScript → Prop)
    (h : ∃ s, Script.parse source = .ok s ∧ s.rejection? settings = none ∧
      ∃ l, Lowering.script s = .ok l ∧ Module.takesInputs settings.generator l.inputs = true ∧ p s l) :
    ∃ s l m, Accepted Module.isWellFormed settings source s l m ∧
      convert settings source = .ok (.ok (s.conversion settings m)) ∧ p s l := by
  obtain ⟨s, l, m, hprepared, htakes, hp⟩ := exists_prepared _ _ _ h
  have haccepted : Accepted Module.isWellFormed settings source s l m :=
    ⟨hprepared, (Module.isWellFormed_of_build hprepared.built).trans htakes⟩
  exact ⟨s, l, m, haccepted, convert_eq_ok.2 ⟨s, l, m, haccepted, rfl⟩, hp⟩

end ChartScript
