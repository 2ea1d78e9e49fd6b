import ChartScript.Conversion
import ChartScript.Proofs.Lowering.Yields
import Mathlib.Data.Option.Basic
/-!
# Where refusals lie

A script that can be read is refused for something that its declarations show, or because lowering
finds fault with it.
-/
namespace ChartScript

open Text Lowering

/-! ## Refusals before lowering -/

namespace Script

variable {source : List Char} {s : Script} {r : Located Refusal}

theorem reassignment?_span {kept : List String} {ds : List VarDecl}
    (h : reassignment? kept ds = some r) : ∃ d ∈ ds, r.span = d.span := by
  induction ds generalizing kept with
  | nil => cases h
  | cons d rest ih =>
    have hlater : ∀ {kept}, reassignment? kept rest = some r → ∃ d' ∈ d :: rest, r.span = d'.span := by
      intro kept h
      obtain ⟨d', hd', hspan⟩ := ih h
      exact ⟨d', List.mem_cons_of_mem _ hd', hspan⟩
    unfold reassignment? at h
    split at h
    · exact hlater h
    · split at h
      · cases h
        exact ⟨d, List.mem_cons_self, rfl⟩
      · exact hlater h

theorem refusal?_span {limit : Nat} (hs : s.Exact source) (h : s.refusal? limit = some r) :
    r.span.Exact source := by
  unfold refusal? at h
  simp only [Option.orElse_eq_some] at h
  rcases h with h | ⟨-, h | ⟨-, h | ⟨-, h | ⟨-, h | ⟨-, h | ⟨-, h | ⟨-, h⟩⟩⟩⟩⟩⟩⟩
  · obtain ⟨t, ht, rfl⟩ := Option.map_eq_some_iff.1 h
    exact hs.types t (List.mem_of_head? ht)
  · obtain ⟨u, hu, rfl⟩ := Option.map_eq_some_iff.1 h
    exact hs.collectionUses u (List.mem_of_head? hu)
  · obtain ⟨f, hf, h⟩ := List.exists_of_findSome?_eq_some h
    obtain ⟨callee, _, rfl⟩ := Option.map_eq_some_iff.1 h
    exact (hs.functions f hf).1
  · obtain ⟨c, hc, rfl⟩ := Option.map_eq_some_iff.1 h
    exact hs.conditions c (List.mem_of_find?_eq_some hc)
  · obtain ⟨o, ho, rfl⟩ := Option.map_eq_some_iff.1 h
    exact hs.others o (List.mem_of_find?_eq_some ho)
  · obtain ⟨d, hd, rfl⟩ := Option.map_eq_some_iff.1 h
    exact hs.varDecls d (List.mem_of_find?_eq_some hd)
  · obtain ⟨p, hp, rfl⟩ := Option.map_eq_some_iff.1 h
    exact hs.plots p (List.mem_of_find?_eq_some hp)
  · obtain ⟨d, hd, hspan⟩ := reassignment?_span h
    exact hspan ▸ hs.varDecls d hd

end Script

/-! ## All refusals -/

variable {settings : ConversionSettings} {source : List Char} {check : SyntaxCheck}

theorem convert_eq_unsupported {s : Script} {u : Located Refusal} (hparse : Script.parse source = .ok s) :
    convert settings source check = .ok (.error (.unsupported u)) ↔
    s.rejection? settings = some (.unsupported u) ∨ s.rejection? settings = none ∧
    ∃ e, script s = .error e ∧ u = e.map .lowering := by
  rw [convert, hparse]
  dsimp only [Script.convert]
  cases hrejection : s.rejection? settings with
  | some r => simp
  | none =>
    cases hlowered : script s with
    | error e => simp [eq_comm]
    | ok l =>
      constructor
      · intro h
        obtain ⟨m, _, h⟩ := bind_eq_ok.1 h
        cases pure_eq_ok.1 h
      · rintro (h | ⟨-, e, h, -⟩)
        · cases h
        · cases h

theorem exists_refused (settings : ConversionSettings) (source : List Char) (p : Script → LoweringError → Prop)
    (h : ∃ s, Script.parse source = .ok s ∧ s.rejection? settings = none ∧ ∃ e, script s = .error e ∧ p s e) :
    ∃ s e, Script.parse source = .ok s ∧ script s = .error e ∧
      convert settings source check = .ok (.error (.unsupported (e.map .lowering))) ∧ p s e := by
  obtain ⟨s, hs, hadmitted, e, he, hp⟩ := h
  exact ⟨s, e, hs, he, (convert_eq_unsupported hs).2 (.inr ⟨hadmitted, e, he, rfl⟩), hp⟩

/-- A refusal begins at the line and column that it names and ends within the source. It ends between
two characters, unless it is about `hlc3` as the default of a call, and the script binds that name. -/
theorem refusal_places {settings : ConversionSettings} {source : List Char} {check : SyntaxCheck}
    {s : Script} {u : Located Refusal} (hparse : Script.parse source = .ok s)
    (h : convert settings source check = .ok (.error (.unsupported u))) :
    u.span.start ≤ u.span.stop ∧ u.span.stop ≤ byteSize source ∧
      (∃ pre, takeBytes u.span.start source = some pre ∧ u.span.line = 1 + pre.count '\n' ∧
        u.span.column = 1 + (leading pre).length) ∧
      ((∃ pre, takeBytes u.span.stop source = some pre) ∨
        "hlc3" ∈ s.boundNames ∧ u.span.stop = u.span.start + 4 ∧ (u.cause = .lowering (.functionAsValue "hlc3") ∨
            ∃ what kind, u.cause = .lowering (.notSeries what kind))) := by
  have hblamed : u.span.Exact source ∨ ∃ e, OfDefault source s.boundNames e ∧ u = e.map .lowering := by
    rcases (convert_eq_unsupported hparse).1 h with hrejection | ⟨-, e, he, rfl⟩
    · unfold Script.rejection? at hrejection
      split at hrejection
      · cases hrejection
      · obtain ⟨r, hr, heq⟩ := Option.map_eq_some_iff.1 hrejection
        cases heq
        exact .inl (Script.refusal?_span (Script.exact_of_parse hparse) hr)
    · exact ((script_faults hparse).fault he).imp_right fun hdefault => ⟨e, hdefault, rfl⟩
  rcases hblamed with hexact | ⟨e, hdefault, rfl⟩
  · exact ⟨hexact.start_le_stop, hexact.stop_le, hexact.begins, .inl hexact.ends⟩
  · have hstop : e.span.stop = e.span.start + 4 := hdefault.stop
    refine ⟨hstop ▸ Nat.le_add_right _ 4, hdefault.stop_le, hdefault.begins, .inr ⟨hdefault.bound, hstop, ?_⟩⟩
    rcases hdefault.cause with hcause | ⟨what, kind, hcause⟩
    · exact .inl (congrArg Refusal.lowering hcause)
    · exact .inr ⟨what, kind, congrArg Refusal.lowering hcause⟩

def unknownNameSource : List Char :=
  ("//@version=5\nindicator(\"é\")\n" ++
   "f(x) =>\n" ++
   "    // é\n" ++
   "    y = \"é\" == nope ? x : 0\n" ++
   "    y\n" ++
   "plot(f(close))\n").toList

theorem refusal_places_unknown_name : ∃ s u, Script.parse unknownNameSource = .ok s ∧
    convert {} unknownNameSource = .ok (.error (.unsupported u)) ∧ u.span.line = 5 ∧
    u.span.column = 16 ∧ u.span.start ≤ u.span.stop ∧ u.span.stop ≤ byteSize unknownNameSource ∧
    (∃ pre, takeBytes u.span.start unknownNameSource = some pre ∧
      u.span.line = 1 + pre.count '\n' ∧ u.span.column = 1 + (leading pre).length) ∧
    ((∃ pre, takeBytes u.span.stop unknownNameSource = some pre) ∨
      "hlc3" ∈ s.boundNames ∧ u.span.stop = u.span.start + 4 ∧ (u.cause = .lowering (.functionAsValue "hlc3") ∨
          ∃ what kind, u.cause = .lowering (.notSeries what kind))) := by
  obtain ⟨s, e, hparse, -, hconvert, hline, hcolumn⟩ := exists_refused {} unknownNameSource
    (fun _ e => e.span.line = 5 ∧ e.span.column = 16) (by decide +kernel)
  exact ⟨s, e.map .lowering, hparse, hconvert, hline, hcolumn, refusal_places hparse hconvert⟩

def boundAverageSource : List Char :=
  ("//@version=5\nindicator(\"F\")\n" ++
   "hlc3 = input.string(\"x\")\n" ++
   "plot((/*é*/ta.vwap))\n").toList

/-- The refusal does not end between two characters of the source. -/
theorem refusal_ends_within_character : ∃ s u, Script.parse boundAverageSource = .ok s ∧
    convert {} boundAverageSource = .ok (.error (.unsupported u)) ∧ u.span = ⟨58, 62, 4, 6⟩ ∧
    takeBytes u.span.stop boundAverageSource = none := by
  obtain ⟨s, e, hparse, -, hconvert, hspan⟩ := exists_refused {} boundAverageSource
    (fun _ e => e.span = ⟨58, 62, 4, 6⟩) (by decide +kernel)
  refine ⟨s, e.map .lowering, hparse, hconvert, hspan, ?_⟩
  show takeBytes e.span.stop boundAverageSource = none
  rw [hspan]
  decide +kernel

end ChartScript
