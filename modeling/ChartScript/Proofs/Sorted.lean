import ChartScript.Text.Sorted
import Mathlib.Data.List.Forall2
import Mathlib.Data.List.Nodup
/-!
# Lists in order

What holds of lists that are put in the order of a number, of sorted lists of texts, and of lists whose
members go together.
-/
namespace ChartScript

open List

variable {α β γ : Type} {r : α → β → Prop} {f : α → Nat} {g : β → Nat}

theorem pairwise_mergeSort (f : α → Nat) (xs : List α) : (xs.mergeSort (f · ≤ f ·)).Pairwise (f · ≤ f ·) := by
  refine (List.pairwise_mergeSort ?_ ?_ _).imp fun h => of_decide_eq_true h
  · intro a b c hab hbc
    simp only [decide_eq_true_eq] at hab hbc ⊢
    exact Nat.le_trans hab hbc
  · intro a b
    simpa using Nat.le_total (f a) (f b)

variable {xs : List α} {ys : List β}

variable {zs : List α} {r' : α → γ → Prop}

/-- There is one way to put a list in order if no two members have the same number. -/
theorem mergeSort_eq_of_perm (hperm : xs.Perm zs) (hz : zs.Pairwise (f · < f ·)) :
    xs.mergeSort (f · ≤ f ·) = zs := by
  have hnodup : (zs.map f).Nodup := pairwise_map.2 (hz.imp Nat.ne_of_lt)
  have hsorted := (mergeSort_perm xs (f · ≤ f ·)).trans hperm
  refine List.Perm.eq_of_pairwise (fun a b ha hb hab hba => ?_) (pairwise_mergeSort f xs)
    (hz.imp Nat.le_of_lt) hsorted
  exact inj_on_of_nodup_map hnodup (hsorted.mem_iff.1 ha) hb (Nat.le_antisymm hab hba)

theorem forall₂_mergeSort (h : List.Forall₂ r xs ys) (hkey : ∀ x y, r x y → f x = g y)
    (hperm : xs.Perm zs) (hz : zs.Pairwise (f · < f ·)) : List.Forall₂ r zs (ys.mergeSort (g · ≤ g ·)) := by
  obtain ⟨hlen, hr⟩ := forall₂_iff_zip.1 h
  have hfst : (xs.zip ys).map Prod.fst = xs := map_fst_zip (Nat.le_of_eq hlen)
  have hsnd : (xs.zip ys).map Prod.snd = ys := map_snd_zip (Nat.le_of_eq hlen.symm)
  have hxs : ((xs.zip ys).mergeSort (f ·.1 ≤ f ·.1)).map Prod.fst = zs := by
    rw [map_mergeSort (s := (f · ≤ f ·)) (fun _ _ _ _ => rfl), hfst]
    exact mergeSort_eq_of_perm hperm hz
  have hys : ((xs.zip ys).mergeSort (f ·.1 ≤ f ·.1)).map Prod.snd = ys.mergeSort (g · ≤ g ·) := by
    rw [map_mergeSort (s := (g · ≤ g ·)), hsnd]
    intro a ha b hb
    rw [hkey _ _ (hr ha), hkey _ _ (hr hb)]
  rw [← hxs, ← hys, forall₂_map_left_iff, forall₂_map_right_iff, forall₂_same]
  intro x hx
  exact hr ((mergeSort_perm _ _).mem_iff.1 hx)

theorem filter_or_perm {p q : α → Bool} (h : ∀ x ∈ xs, p x = true → q x = false) :
    (xs.filter p ++ xs.filter q).Perm (xs.filter fun x => p x || q x) := by
  have hsplit := filter_append_perm p (xs.filter fun x => p x || q x)
  rw [filter_filter, filter_filter] at hsplit
  have hp : xs.filter (fun x => p x && (p x || q x)) = xs.filter p := filter_congr fun x _ => by cases p x <;> simp
  have hq : xs.filter (fun x => !p x && (p x || q x)) = xs.filter q := filter_congr fun x hx => by
      cases hpx : p x with
      | true => simp [h x hx hpx]
      | false => simp
  rwa [hp, hq] at hsplit

theorem forall₂_mapIdx {k : Nat → β → γ} (h : List.Forall₂ r xs ys)
    (hr : ∀ i x y, r x y → r' x (k i y)) : List.Forall₂ r' xs (ys.mapIdx k) := by
  induction h generalizing k with
  | nil => exact .nil
  | cons hx _ ih =>
    rw [mapIdx_cons]
    exact .cons (hr 0 _ _ hx) (ih fun i => hr (i + 1))

theorem exists_of_forall₂ (h : List.Forall₂ r xs ys) {x : α} (hx : x ∈ xs) : ∃ y ∈ ys, r x y := by
  induction h with
  | nil => cases hx
  | cons hr _ ih =>
    rcases mem_cons.1 hx with rfl | hx
    · exact ⟨_, mem_cons_self, hr⟩
    · obtain ⟨y, hy, hr'⟩ := ih hx
      exact ⟨y, mem_cons_of_mem _ hy, hr'⟩

theorem forall₂_and_right {p : β → Prop} (h : List.Forall₂ r xs ys) (hp : ∀ y ∈ ys, p y) :
    List.Forall₂ (fun x y => r x y ∧ p y) xs ys := by
  induction h with
  | nil => exact .nil
  | cons hr _ ih => exact .cons ⟨hr, hp _ mem_cons_self⟩ (ih fun y hy => hp y (mem_cons_of_mem _ hy))

theorem forall₂_comp {r' : β → γ → Prop} {zs : List γ} (h : List.Forall₂ r xs ys)
    (h' : List.Forall₂ r' ys zs) : List.Forall₂ (fun x z => ∃ y, r x y ∧ r' y z) xs zs := by
  induction h generalizing zs with
  | nil =>
    cases h'
    exact .nil
  | cons hr _ ih =>
    cases h' with
    | cons hr' hrest => exact .cons ⟨_, hr, hr'⟩ (ih hrest)

theorem forall₂_filterMap {p : α → Bool} {k : β → Option γ} (h : List.Forall₂ r xs ys)
    (hkeep : ∀ x y, r x y → p x = true → ∃ z, k y = some z ∧ r' x z)
    (hdrop : ∀ x y, r x y → p x = false → k y = none) : List.Forall₂ r' (xs.filter p) (ys.filterMap k) := by
  induction h with
  | nil => exact .nil
  | @cons x y xs ys hr _ ih =>
    cases hp : p x with
    | true =>
      obtain ⟨z, hz, hr'⟩ := hkeep x y hr hp
      rw [filter_cons_of_pos hp, filterMap_cons_some hz]
      exact .cons hr' ih
    | false =>
      rw [filter_cons_of_neg (by simp [hp]), filterMap_cons_none (hdrop x y hr hp)]
      exact ih

/-! ## Sorted texts -/

theorem Text.mem_insertSorted {x y : String} {xs : List String} : y ∈ insertSorted x xs ↔ y = x ∨ y ∈ xs := by
  fun_induction insertSorted x xs with
  | case1 => simp
  | case2 => simp
  | case3 => simp
  | case4 z rest _ _ ih =>
    rw [mem_cons, ih, mem_cons]
    exact or_left_comm

@[simp] theorem Text.mem_sortedOnce {x : String} {xs : List String} : x ∈ sortedOnce xs ↔ x ∈ xs := by
  have hfold : ∀ (xs sorted : List String),
      x ∈ xs.foldl (fun sorted x => insertSorted x sorted) sorted ↔ x ∈ xs ∨ x ∈ sorted := by
    intro xs
    induction xs with
    | nil => simp
    | cons y xs ih =>
      intro sorted
      rw [foldl_cons, ih, mem_insertSorted, mem_cons, or_left_comm, or_assoc]
  rw [sortedOnce, hfold]
  simp

end ChartScript
