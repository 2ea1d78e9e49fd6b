import ChartScript.Proofs.Lowering.Assigned
import ChartScript.Proofs.Lowering.Names
/-!
# Names over any history of a scope

Whatever has been declared, declared anew and reserved before, a scope gives each new name to one
declaration or value only, and looks a name up where it was bound last.
-/
namespace ChartScript

open List EmittedName

/-! ## Identifiers -/

/-- An identifier: letters, digits and underscores, with no digit in front. -/
structure IsIdentifier (e : String) : Prop where
  first : ∃ c ∈ e.toList.head?, c.isDigit = false
  chars : e.toList.all isNameChar = true

theorem isNameChar_of_small {c : Char} (h : isSmallChar c = true) : isNameChar c = true := by
  simp only [isSmallChar, isNameChar, Text.isAlpha_eq, Bool.or_eq_true] at h ⊢
  tauto

theorem EmittedName.Plain.isIdentifier {e : String} (h : Plain e)
    (hfirst : ∃ c ∈ e.toList.head?, c.isDigit = false) : IsIdentifier e :=
  ⟨hfirst, all_eq_true.2 fun _ hc => isNameChar_of_small (all_eq_true.1 h.small _ hc)⟩

theorem first_ofName (x : String) : ∃ c ∈ (ofName x).toList.head?, c.isDigit = false := by
  have hsnake : ∃ c ∈ (snakeCase x).toList.head?, c.isDigit = false := by
    unfold snakeCase
    split
    · exact ⟨'v', rfl, rfl⟩
    · next c rest _ =>
      rw [String.toList_ofList]
      split
      · exact ⟨'v', rfl, rfl⟩
      · next hc => exact ⟨c, rfl, by simpa using hc⟩
  obtain ⟨c, hhead, hc⟩ := hsnake
  refine ⟨c, ?_, hc⟩
  unfold ofName
  dsimp only
  split
  · rw [String.toList_append, head?_append, hhead]
    rfl
  · exact hhead

theorem isIdentifier_unique (taken : List String) (x : String) : IsIdentifier (unique taken (ofName x)) := by
  refine (unique_plain taken (ofName_plain x)).isIdentifier ?_
  obtain ⟨n, hn⟩ := firstFree_eq taken fun n => if n = 0 then ofName x else s!"{ofName x}_{n + 1}"
  obtain ⟨c, hhead, hc⟩ := first_ofName x
  refine ⟨c, ?_, hc⟩
  rw [unique, hn]
  split
  · exact hhead
  · show c ∈ (ofName x ++ "_" ++ (n + 1).repr).toList.head?
    rw [String.toList_append, String.toList_append, append_assoc, head?_append, hhead]
    rfl

/-! ## Histories -/

/-- One use of a scope. -/
inductive ScopeStep where
  | declare (name : String) (role : Role)
  | redeclare (name : String) (role : Role)
  | fresh (base : String)

namespace ScopeStep

/-- The name that was to be new. -/
def newName? : ScopeStep × Option String → Option String
  | (redeclare .., _) => none
  | (_, e) => e

/-- The name that a step declares. -/
def declaredName? : ScopeStep × Option String → Option String
  | (declare .., e) => e
  | _ => none

/-- The binding that was made. -/
def binding? : ScopeStep × Option String → Option Binding
  | (declare x role, some e) | (redeclare x role, some e) => some ⟨x, e, role⟩
  | _ => none

end ScopeStep

open ScopeStep

namespace Scope

/-- What a step returns, and the scope behind it. -/
def step (s : Scope) : ScopeStep → Option String × Scope
  | .declare x role => (some (s.declare x role).1, (s.declare x role).2)
  | .redeclare x role =>
    match s.redeclare? x role with
    | some (e, t) => (some e, t)
    | none => (none, s)
  | .fresh base => (some (s.fresh base).1, (s.fresh base).2)

def record (r : Scope × List (ScopeStep × Option String)) (step : ScopeStep) :
    Scope × List (ScopeStep × Option String) :=
  ((r.1.step step).2, r.2 ++ [(step, (r.1.step step).1)])

/-- The scope behind the steps, and what they return. -/
def run (steps : List ScopeStep) : Scope × List (ScopeStep × Option String) :=
  steps.foldl record ({}, [])

/-- The binding of a name that was made last. -/
def latest? (history : List (ScopeStep × Option String)) (x : String) : Option Binding :=
  ((history.filterMap binding?).filter (·.name == x)).getLast?

/-- What a scope keeps of its history. -/
structure Keeps (r : Scope × List (ScopeStep × Option String)) : Prop where
  nodup : (r.2.filterMap newName?).Nodup
  taken : ∀ e ∈ reservedNames ++ r.2.filterMap newName?, e ∈ r.1.taken
  free : ∀ e ∈ r.2.filterMap newName?, e ∉ reservedNames
  declared : ∀ e ∈ r.2.filterMap declaredName?, IsIdentifier e
  bindings : r.1.bindings = r.2.filterMap binding?

variable {r : Scope × List (ScopeStep × Option String)}

theorem Keeps.newName (h : Keeps r) {e : String} (he : e ∉ r.1.taken) :
    (r.2.filterMap newName? ++ [e]).Nodup ∧
    (∀ x ∈ reservedNames ++ (r.2.filterMap newName? ++ [e]), x ∈ e :: r.1.taken) ∧
    ∀ x ∈ r.2.filterMap newName? ++ [e], x ∉ reservedNames := by
  have hnew : e ∉ reservedNames ++ r.2.filterMap newName? := fun hmem => he (h.taken e hmem)
  rw [mem_append, not_or] at hnew
  refine ⟨?_, ?_, forall_mem_append.2 ⟨h.free, forall_mem_singleton.2 hnew.1⟩⟩
  · rw [← concat_eq_append]
    exact h.nodup.concat hnew.2
  · rw [← append_assoc]
    exact forall_mem_append.2 ⟨fun x hx => mem_cons_of_mem _ (h.taken x hx), by simp⟩

theorem Keeps.concat (h : Keeps r) {entry : ScopeStep × Option String} (hnew : newName? entry = none)
    (hdeclared : declaredName? entry = none) {bindings : List Binding}
    (hbindings : bindings = r.1.bindings ++ (binding? entry).toList) :
    Keeps ({ r.1 with bindings := bindings }, r.2 ++ [entry]) := by
  have hsame : (r.2 ++ [entry]).filterMap newName? = r.2.filterMap newName? := by
    rw [filterMap_append, filterMap_cons_none hnew, filterMap_nil, append_nil]
  refine ⟨hsame ▸ h.nodup, hsame ▸ h.taken, hsame ▸ h.free, ?_, ?_⟩
  · rw [filterMap_append, filterMap_cons_none hdeclared, filterMap_nil, append_nil]
    exact h.declared
  · rw [filterMap_append, ← h.bindings, hbindings]
    cases hb : binding? entry <;> simp [hb]

theorem Keeps.record (h : Keeps r) (step : ScopeStep) : Keeps (record r step) := by
  unfold Scope.record
  cases step with
  | declare x role =>
    obtain ⟨hnodup, htaken, hfree⟩ := h.newName (unique_not_mem r.1.taken (ofName x))
    refine ⟨?_, ?_, ?_, ?_, ?_⟩ <;> rw [filterMap_append] <;> dsimp only [Scope.step, Scope.declare]
    · exact hnodup
    · exact htaken
    · exact hfree
    · exact forall_mem_append.2 ⟨h.declared, forall_mem_singleton.2 (isIdentifier_unique _ x)⟩
    · rw [h.bindings]
      rfl
  | redeclare x role =>
    dsimp only [Scope.step, redeclare?]
    cases r.1.lookup? x with
    | none => exact h.concat rfl rfl (append_nil _).symm
    | some b => exact h.concat rfl rfl rfl
  | fresh base =>
    obtain ⟨hnodup, htaken, hfree⟩ := h.newName (numbered_not_mem r.1.taken base)
    refine ⟨?_, ?_, ?_, ?_, ?_⟩ <;> rw [filterMap_append] <;> dsimp only [Scope.step, Scope.fresh]
    · exact hnodup
    · exact htaken
    · exact hfree
    · exact forall_mem_append.2 ⟨h.declared, by simp [declaredName?]⟩
    · rw [h.bindings]
      exact (append_nil _).symm

theorem run_keeps (steps : List ScopeStep) : Keeps (run steps) := by
  have hfold : ∀ r, Keeps r → Keeps (steps.foldl Scope.record r) := by
    induction steps with
    | nil => exact fun _ h => h
    | cons step steps ih => exact fun r h => ih _ (h.record step)
  exact hfold _ ⟨nodup_nil, fun e he => by simpa using he, by simp, by simp, rfl⟩

/-- Over any history the names that are to be new are so, and a name is looked up, and gets a new value,
where it was bound last. -/
theorem names_fresh_over_history (steps : List ScopeStep) :
    let scope := (run steps).1
    let history := (run steps).2
    ((history.filterMap newName?).Nodup ∧ ∀ e ∈ history.filterMap newName?, e ∉ reservedNames) ∧
    (∀ e ∈ history.filterMap declaredName?, IsIdentifier e) ∧
    (∀ x, scope.lookup? x = latest? history x) ∧
    ∀ x role, (scope.step (.redeclare x role)).1 = (latest? history x).map (·.emitted) ∧
      (latest? history x = none → (scope.step (.redeclare x role)).2 = scope) := by
  intro scope history
  obtain ⟨hnodup, -, hfree, hdeclared, hbindings⟩ := run_keeps steps
  have hlookup : ∀ x, scope.lookup? x = latest? history x := fun x => by
    rw [lookup?, latest?, getLast?_filter, hbindings]
  refine ⟨⟨hnodup, hfree⟩, hdeclared, hlookup, fun x role => ?_⟩
  rw [← hlookup]
  dsimp only [Scope.step, redeclare?]
  cases scope.lookup? x with
  | none => exact ⟨rfl, fun _ => rfl⟩
  | some b => exact ⟨rfl, fun h => by cases h⟩

end Scope

end ChartScript
