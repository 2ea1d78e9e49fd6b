import Mathlib.Data.List.Forall2
/-!
# Computations that can fail

What the success or the failure of a chain of steps says about each of them.
-/
namespace ChartScript

open List

variable {ε α β : Type} {x : Except ε α} {f : α → Except ε β} {b : β} {xs : List α} {ys : List β}

theorem bind_eq_ok : (x >>= f) = .ok b ↔ ∃ a, x = .ok a ∧ f a = .ok b := by
  cases x with
  | error e => exact ⟨fun h => (by cases h), fun ⟨_, h, _⟩ => (by cases h)⟩
  | ok a => exact ⟨fun h => ⟨a, rfl, h⟩, fun ⟨_, rfl, h⟩ => h⟩

variable {e : ε} {a : α} {c : Prop} {y : Except ε β} {p : β → Prop} {b' : β}

theorem bind_eq_error : (x >>= f) = .error e ↔ x = .error e ∨ ∃ a, x = .ok a ∧ f a = .error e := by
  cases x with
  | error e' => simp [bind, Except.bind]
  | ok a => simp [bind, Except.bind]

theorem pure_eq_ok {b : α} : (pure a : Except ε α) = .ok b ↔ a = b := by
  simp [pure, Except.pure]

theorem bind_pure_eq_ok {g : α → β} : (x >>= fun a => pure (g a)) = .ok b ↔ ∃ a, x = .ok a ∧ g a = b := by
  simp only [bind_eq_ok, pure_eq_ok]

theorem failWhen_eq_ok [Decidable c] :
    (if c then (Except.error e : Except ε α) >>= f else y) = .ok b ↔ ¬c ∧ y = .ok b := by
  by_cases h : c <;> simp [h, bind, Except.bind]

theorem failUnless_eq_ok [Decidable c] :
    (if c then y else (Except.error e : Except ε α) >>= f) = .ok b ↔ c ∧ y = .ok b := by
  by_cases h : c <;> simp [h, bind, Except.bind]

theorem else_of_ite {a b a' : α} [Decidable c] (h : (if c then a else b) = a') (hne : a ≠ a') : b = a' :=
  ((ite_eq_iff.1 h).resolve_left fun h => hne h.2).2

theorem map_eq_ok {f : α → β} : f <$> x = .ok b ↔ ∃ a, x = .ok a ∧ f a = b := by
  cases x with
  | error e => exact ⟨fun h => (by cases h), fun ⟨_, h, _⟩ => (by cases h)⟩
  | ok a => simp [Functor.map, Except.map]

theorem forall₂_of_mapM (h : xs.mapM f = .ok ys) : List.Forall₂ (fun x y => f x = .ok y) xs ys := by
  induction xs generalizing ys with
  | nil =>
    cases h
    exact .nil
  | cons x xs ih =>
    rw [mapM_cons] at h
    obtain ⟨y, hy, h⟩ := bind_eq_ok.1 h
    obtain ⟨rest, hrest, h⟩ := bind_eq_ok.1 h
    rw [← pure_eq_ok.1 h]
    exact .cons hy (ih hrest)

theorem map_eq_of_forall₂ {γ : Type} {r : α → β → Prop} {f : α → γ} {g : β → γ}
    (hfg : ∀ x y, r x y → f x = g y) (h : List.Forall₂ r xs ys) : xs.map f = ys.map g := by
  have := rel_map (P := Eq) (fun x y => hfg x y) h
  rwa [forall₂_eq_eq_eq] at this

theorem exists_of_mem_mapM (h : xs.mapM f = .ok ys) {y : β} (hy : y ∈ ys) : ∃ x ∈ xs, f x = .ok y := by
  have hall := forall₂_of_mapM h
  obtain ⟨i, hi, rfl⟩ := getElem_of_mem hy
  have hi' : i < xs.length := hall.length_eq ▸ hi
  exact ⟨_, getElem_mem hi', hall.get hi' hi⟩

theorem foldlM_keeps_of_mem {f : β → α → Except ε β}
    (hstep : ∀ b, ∀ x ∈ xs, ∀ b', f b x = .ok b' → p b → p b') (h : xs.foldlM f b = .ok b')
    (hb : p b) : p b' := by
  induction xs generalizing b with
  | nil =>
    cases h
    exact hb
  | cons x xs ih =>
    rw [foldlM_cons] at h
    obtain ⟨c, hc, h⟩ := bind_eq_ok.1 h
    exact ih (fun b y hy => hstep b y (mem_cons_of_mem _ hy)) h (hstep b x mem_cons_self c hc hb)

theorem foldlM_keeps {f : β → α → Except ε β} (hstep : ∀ b x b', f b x = .ok b' → p b → p b')
    (h : xs.foldlM f b = .ok b') (hb : p b) : p b' :=
  foldlM_keeps_of_mem (fun b x _ => hstep b x) h hb

theorem foldlM_take {f : β → α → Except ε β} (h : xs.foldlM f b = .ok b') (k : Nat) :
    ∃ c, (xs.take k).foldlM f b = .ok c ∧ (xs.drop k).foldlM f c = .ok b' := by
  rw [← take_append_drop k xs, foldlM_append] at h
  exact bind_eq_ok.1 h

/-! ## Outcomes that can be evaluated -/

instance decidableExistsOk (x : Except ε α) (p : α → Prop) [DecidablePred p] : Decidable (∃ a, x = .ok a ∧ p a) :=
  match x with
  | .ok a => decidable_of_iff (p a) (by simp)
  | .error _ => isFalse (by simp)

instance decidableExistsError (x : Except ε α) (p : ε → Prop) [DecidablePred p] :
    Decidable (∃ e, x = .error e ∧ p e) :=
  match x with
  | .ok _ => isFalse (by simp)
  | .error e => decidable_of_iff (p e) (by simp)

/-! ## Values and faults -/

/-- If the computation succeeds, its value has the one property; if it fails, its fault the other.
-/
def Yields (good : α → Prop) (bad : ε → Prop) : Except ε α → Prop
  | .ok a => good a
  | .error e => bad e

/-- If the computation fails, its fault has the property. -/
abbrev Faults (bad : ε → Prop) (x : Except ε α) : Prop :=
  Yields (fun _ => True) bad x

namespace Yields

variable {good : α → Prop} {good' : β → Prop} {bad : ε → Prop} {x : Except ε α}

theorem of_faults (h : Faults bad x) (hgood : ∀ a, x = .ok a → good a) : Yields good bad x := by
  cases x with
  | ok a => exact hgood a rfl
  | error e => exact h

theorem of_value (hgood : ∀ a, x = .ok a → good a) : Yields good (fun _ => True) x := by
  cases x with
  | ok a => exact hgood a rfl
  | error e => trivial

theorem value (h : Yields good bad x) (hx : x = .ok a) : good a := by
  subst hx
  exact h

theorem fault (h : Yields good bad x) (hx : x = .error e) : bad e := by
  subst hx
  exact h

theorem mono {good₁ : α → Prop} {bad₁ : ε → Prop} (h : Yields good bad x)
    (hgood : ∀ a, good a → good₁ a) (hbad : ∀ e, bad e → bad₁ e) : Yields good₁ bad₁ x := by
  cases x with
  | ok a => exact hgood a h
  | error e => exact hbad e h

theorem and {good₁ : α → Prop} {bad₁ : ε → Prop} (h : Yields good bad x)
    (h₁ : Yields good₁ bad₁ x) : Yields (fun a => good₁ a ∧ good a) bad x := by
  cases x with
  | ok a => exact ⟨h₁, h⟩
  | error e => exact h

theorem with_eq (h : Yields good bad x) : Yields (fun a => good a ∧ x = .ok a) bad x := by
  cases x with
  | ok a => exact ⟨h, rfl⟩
  | error e => exact h

theorem mapError {ε' : Type} {bad' : ε' → Prop} {f : ε → ε'} (h : Yields good bad x)
    (hf : ∀ e, bad e → bad' (f e)) : Yields good bad' (x.mapError f) := by
  cases x with
  | ok a => exact h
  | error e => exact hf e h

theorem bind (h : Yields good bad x) (hf : ∀ a, good a → Yields good' bad (f a)) : Yields good' bad (x >>= f) := by
  cases x with
  | ok a => exact hf a h
  | error e => exact h

theorem mapM {f : β → Except ε α} {xs : List β} (h : ∀ x ∈ xs, Yields good bad (f x)) :
    Yields (fun ys => ∀ y ∈ ys, good y) bad (xs.mapM f) := by
  induction xs with
  | nil => exact fun y hy => (by cases hy)
  | cons x xs ih =>
    rw [mapM_cons]
    refine (h x mem_cons_self).bind fun y hy => ?_
    refine (ih fun x' hx' => h x' (mem_cons_of_mem _ hx')).bind fun ys hys => ?_
    exact forall_mem_cons.2 ⟨hy, hys⟩

theorem foldlM {f : α → β → Except ε α} {xs : List β} (hstep : ∀ a, ∀ x ∈ xs, good a → Yields good bad (f a x))
    (ha : good a) : Yields good bad (xs.foldlM f a) := by
  induction xs generalizing a with
  | nil => exact ha
  | cons x xs ih =>
    rw [foldlM_cons]
    exact (hstep a x mem_cons_self ha).bind fun a' ha' => ih (fun b y hy => hstep b y (mem_cons_of_mem _ hy)) ha'

end Yields

end ChartScript
