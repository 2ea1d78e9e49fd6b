import ChartScript.Proofs.Conversion.Accepted
import ChartScript.Proofs.Conversion.Refused
import ChartScript.Proofs.Script.Failures
/-!
# Faults that are never found

Each step of a conversion checks some things that the step before it has settled already: that a line
read as an input is one, that an input has a default of its kind, that the conditions of a script have
been lowered.
-/
namespace ChartScript

/-! ## Reading -/

theorem Line.arguments_faults (ts : List Token) (start : Nat) :
    Faults (fun e => e.cause.isGuard = false) (arguments ts start) := by
  unfold arguments
  split
  · trivial
  · rfl

theorem Header.read_faults (ts : List Token) : Faults (fun e => e.cause.isGuard = false) (read ts) := by
  have hversion : Faults (fun e => e.cause.isGuard = false) (readVersion ts) := by
    unfold readVersion
    dsimp only
    split
    · rfl
    · split
      · trivial
      · rfl
  have hkind : ∀ t, Faults (fun e => e.cause.isGuard = false) (readKind t) := by
    intro t
    unfold readKind
    split
    case h_4 | h_5 => rfl
    all_goals trivial
  unfold read
  refine hversion.bind fun _ _ => ?_
  split
  · rfl
  · next declaration _ _ =>
    refine (hkind declaration).bind fun _ _ => ?_
    dsimp only
    split
    · refine (Line.arguments_faults _ 0).bind fun _ _ => ?_
      split
      · trivial
      · rfl
    · rfl

variable {source : List Char} {s : Script}

theorem Script.parse_unguarded {e : SyntaxError} (h : parse source = .error e) : e.cause.isGuard = false := by
  obtain ⟨t, -, -, rfl⟩ | hheader | ⟨_, -, hwalk⟩ := parse_eq_error h
  · unfold unknownFault
    split
    · rfl
    · rfl
  · exact (Header.read_faults _).fault hheader
  · obtain ⟨s, hfails⟩ := Statement.collectAll_eq_error_iff.1 hwalk
    obtain ⟨-, -, hblames⟩ := blames_of_fails hfails
    exact hblames.isGuard

/-! ## Building -/

/-- Faults that no script has once it could be read and lowered. -/
def GenerationFault.isGuard : GenerationFault → Bool
  | notLowered _ | noId _ | noDirection _ => true
  | malformed => false

variable {l : LoweredScript} {u : Located Refusal} {check : SyntaxCheck}

theorem Script.generate_unguarded {options : GeneratorOptions} {m : Module}
    {e : GenerationError} (hm : Module.build s l options = .ok m)
    (h : s.generate l options check = .error e) : e.cause.isGuard = false := by
  rw [generate, hm] at h
  dsimp only at h
  unfold Module.emit at h
  split at h
  · cases h
  · cases h
    rfl

/-! ## Converting -/

/-- Refusals for one of those faults. -/
def Refusal.isGuard : Refusal → Bool
  | lowering fault => fault.isGuard
  | _ => false

/-- Rejections for one of those faults. -/
def Rejection.isGuard : Rejection → Bool
  | syntaxError e => e.cause.isGuard
  | complexity .. => false
  | unsupported r => r.cause.isGuard

namespace Script

theorem reassignment?_unguarded {kept : List String} {ds : List VarDecl}
    (h : reassignment? kept ds = some u) : u.cause.isGuard = false := by
  induction ds generalizing kept with
  | nil => cases h
  | cons d rest ih =>
    unfold reassignment? at h
    split at h
    · exact ih h
    · split at h
      · cases h
        rfl
      · exact ih h

theorem refusal?_unguarded {limit : Nat} (h : s.refusal? limit = some u) :
    u.cause.isGuard = false := by
  unfold refusal? at h
  simp only [Option.orElse_eq_some] at h
  rcases h with h | ⟨-, h | ⟨-, h | ⟨-, h | ⟨-, h | ⟨-, h | ⟨-, h | ⟨-, h⟩⟩⟩⟩⟩⟩⟩
  case inr.inr.inl =>
    obtain ⟨f, -, h⟩ := List.exists_of_findSome?_eq_some h
    obtain ⟨callee, -, rfl⟩ := Option.map_eq_some_iff.1 h
    dsimp only
    split
    · rfl
    · rfl
  case inr.inr.inr.inr.inr.inr.inr => exact reassignment?_unguarded h
  all_goals
    obtain ⟨_, -, rfl⟩ := Option.map_eq_some_iff.1 h
    rfl

theorem rejection?_unguarded {settings : ConversionSettings} {r : Rejection}
    (h : s.rejection? settings = some r) : r.isGuard = false := by
  unfold rejection? at h
  split at h
  · cases h
    rfl
  · obtain ⟨u, hu, rfl⟩ := Option.map_eq_some_iff.1 h
    exact refusal?_unguarded hu

end Script

theorem Lowering.script_unguarded {e : LoweringError} (hs : Script.parse source = .ok s)
    (h : script s = .error e) : e.cause.isGuard = false :=
  ((script_arises hs).fault h).cause

theorem Module.exists_build (hs : Script.parse source = .ok s) (hl : Lowering.script s = .ok l)
    (options : GeneratorOptions) : ∃ m, build s l options = .ok m := by
  obtain ⟨m, hm, -⟩ := build_issues (Script.shaped_of_parse hs) (complete_of_script hs hl) options
  exact ⟨m, hm⟩

theorem convert_unguarded (settings : ConversionSettings) (source : List Char) (check : SyntaxCheck) :
    (∀ e, convert settings source check = .error e → e.cause.isGuard = false) ∧
    ∀ r, convert settings source check = .ok (.error r) → r.isGuard = false := by
  unfold convert
  cases hs : Script.parse source with
  | error e =>
    refine ⟨fun e' h => (by cases h), fun r h => ?_⟩
    cases h
    exact Script.parse_unguarded hs
  | ok s =>
    dsimp only [Script.convert]
    cases hrejection : s.rejection? settings with
    | some r =>
      refine ⟨fun e h => (by cases h), fun r' h => ?_⟩
      cases h
      exact Script.rejection?_unguarded hrejection
    | none =>
      cases hl : Lowering.script s with
      | error e =>
        refine ⟨fun e' h => (by cases h), fun r h => ?_⟩
        cases h
        exact Lowering.script_unguarded hs hl
      | ok l =>
        obtain ⟨m, hm⟩ := Module.exists_build hs hl settings.generator
        refine ⟨fun e h => ?_, fun r h => ?_⟩
        · rcases bind_eq_error.1 h with hgenerate | ⟨g, -, h⟩
          · exact Script.generate_unguarded hm hgenerate
          · cases h
        · obtain ⟨g, -, h⟩ := bind_eq_ok.1 h
          cases pure_eq_ok.1 h

/-- No step of a conversion fails at a check that an earlier step has settled, whatever the text, the
settings and the syntax check. A script that could be read and lowered always has its module, which can
only fail the syntax check. -/
theorem guards_never_fail (source : List Char) :
    (∀ e, Script.parse source = .error e → e.cause.isGuard = false) ∧
    (∀ s, Script.parse source = .ok s →
      (∀ e, Lowering.script s = .error e → e.cause.isGuard = false) ∧
      ∀ l, Lowering.script s = .ok l → ∀ options,
        (∃ m, Module.build s l options = .ok m) ∧
        ∀ check e, s.generate l options check = .error e → e.cause.isGuard = false) ∧
    ∀ settings check,
      (∀ e, convert settings source check = .error e → e.cause.isGuard = false) ∧
      ∀ r, convert settings source check = .ok (.error r) → r.isGuard = false := by
  refine ⟨fun e he => Script.parse_unguarded he, fun s hs => ⟨fun e he => ?_, ?_⟩,
    fun settings check => convert_unguarded settings source check⟩
  · exact Lowering.script_unguarded hs he
  · intro l hl options
    obtain ⟨m, hm⟩ := Module.exists_build hs hl options
    exact ⟨⟨m, hm⟩, fun check e he => Script.generate_unguarded hm he⟩

def checkedSource : List Char :=
  ("//@version=5\nstrategy(\"S\")\n" ++
   "n = input.float(-1.5e3)\n" ++
   "v = 0.0\n" ++
   "v += close\n" ++
   "f(x) =>\n" ++
   "    y = x * 2.\n" ++
   "    y\n" ++
   "if f(v) > n\n" ++
   "    strategy.entry(\"L\", strategy.long)\n").toList

def noRuntime : ConversionSettings where
  generator := { runtimePath := "no path" }

theorem guards_never_fail_each_step :
    (∃ e, Script.parse Script.inputWithoutLiteral = .error e ∧ e.cause.isGuard = false) ∧
    (∃ s e, Script.parse unknownNameSource = .ok s ∧ Lowering.script s = .error e ∧
      e.cause.isGuard = false) ∧
    (∃ s l m e, Script.parse checkedSource = .ok s ∧ Lowering.script s = .ok l ∧
      Module.build s l noRuntime.generator = .ok m ∧
      s.generate l noRuntime.generator = .error e ∧ e.cause.isGuard = false) ∧
    (∃ e, convert noRuntime checkedSource = .error e ∧ e.cause.isGuard = false) ∧
    ∃ r, convert {} unknownNameSource = .ok (.error r) ∧ r.isGuard = false := by
  have hread : ∃ e, Script.parse Script.inputWithoutLiteral = .error e ∧ True := by decide +kernel
  obtain ⟨e₁, he₁, -⟩ := hread
  obtain ⟨s₂, e₂, hs₂, he₂, hr, -⟩ := exists_refused {} unknownNameSource (fun _ _ => True) (by decide +kernel)
  obtain ⟨s, l, m, hprepared, htakes⟩ := exists_prepared noRuntime checkedSource
    (fun _ l => Module.takesInputs noRuntime.generator l.inputs = false) (by decide +kernel)
  have hs := hprepared.parsed
  have hl := hprepared.lowered
  obtain ⟨hchecked, -⟩ := (guards_never_fail checkedSource).2
  obtain ⟨-, hgenerated⟩ := (hchecked s hs).2 l hl noRuntime.generator
  obtain ⟨hgenerate, hconvert⟩ := hprepared.broken ((Module.isWellFormed_of_build hprepared.built).trans htakes)
  exact ⟨⟨e₁, he₁, (guards_never_fail _).1 e₁ he₁⟩,
    ⟨s₂, e₂, hs₂, he₂, ((guards_never_fail _).2.1 s₂ hs₂).1 e₂ he₂⟩,
    ⟨s, l, m, _, hs, hl, hprepared.built, hgenerate, hgenerated _ _ hgenerate⟩,
    ⟨_, hconvert, ((guards_never_fail _).2.2 noRuntime _).1 _ hconvert⟩,
    ⟨_, hr, ((guards_never_fail _).2.2 {} _).2 _ hr⟩⟩

end ChartScript
