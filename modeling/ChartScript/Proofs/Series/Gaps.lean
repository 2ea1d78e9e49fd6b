import ChartScript.Proofs.Series.Aligned
/-!
# Smoothing passes over gaps

A smoother has no value on a bar without one, and such a bar changes nothing for the bars behind it:
the values on the other bars are those that it has for a series without gaps.
-/
namespace ChartScript

open List

namespace Series

/-- The series without its gaps. -/
def dense (s : Series) : Series where
  values := s.values.filter (·.isSome)
  finite x hx := s.finite x (mem_filter.1 hx).1

/-- The first series on the bars on which the second has a value. -/
def on (t s : Series) : Series where
  values := ((s.values.zip t.values).filter (·.1.isSome)).map (·.2)
  finite x hx := by
    obtain ⟨bar, hbar, hvalue⟩ := mem_map.1 hx
    have hboth : (bar.1, some x) ∈ s.values.zip t.values := hvalue ▸ (mem_filter.1 hbar).1
    exact t.finite x (of_mem_zip hboth).2

/-- A function that has no value at a gap and goes on behind it as if there were none. -/
structure SkipsGaps (f : Series → Series) : Prop where
  size : ∀ s, (f s).size = s.size
  gap : ∀ s bar, s.get? bar = none → (f s).get? bar = none
  rest : ∀ s, (f s).on s = f s.dense

section Steps

variable {σ : Type} {step : σ → Option Float → σ × Option Float}
  (hgap : ∀ state, step state none = (state, none))
include hgap

theorem scan_gap (state : σ) {values : List (Option Float)} {bar : Nat}
    (h : (values[bar]?).join = none) : ((scan step state values)[bar]?).join = none := by
  induction values generalizing state bar with
  | nil => rfl
  | cons value rest ih =>
    cases bar with
    | zero =>
      rw [getElem?_cons_zero, Option.join_some] at h
      rw [h, scan, hgap]
      rfl
    | succ bar => exact ih _ h

theorem scan_dense (state : σ) (values : List (Option Float)) :
    ((values.zip (scan step state values)).filter (·.1.isSome)).map (·.2) =
      scan step state (values.filter (·.isSome)) := by
  induction values generalizing state with
  | nil => rfl
  | cons value rest ih =>
    rw [scan, zip_cons_cons]
    cases value with
    | none =>
      rw [hgap, filter_cons_of_neg (by simp), filter_cons_of_neg (by simp)]
      exact ih state
    | some x =>
      rw [filter_cons_of_pos rfl, filter_cons_of_pos rfl, map_cons, ih]
      rfl

theorem skipsGaps_scan (state : σ) : SkipsGaps fun s => ofValues (scan step state s.values) where
  size s := by rw [size_ofValues, length_scan, Series.size]
  gap s bar h := by
    rw [get?, ofValues, getElem?_map]
    have hnone := scan_gap hgap state h
    cases hentry : (scan step state s.values)[bar]? with
    | none => rfl
    | some entry =>
      rw [hentry, Option.join_some] at hnone
      rw [hnone]
      rfl
  rest s := by
    apply Series.ext
    simp only [on, ofValues, dense]
    rw [← scan_dense hgap, zip_map_right, filter_map, map_map, map_map]
    rfl

end Steps

/-- A smoother, and with it the exponential and the running average, passes over gaps. -/
theorem smoothing_skips_gaps (length : Nat) (alpha : Float) :
    SkipsGaps (·.smooth length alpha) ∧ SkipsGaps (·.ema length) ∧ SkipsGaps (·.rma length) := by
  have hsmooth : ∀ alpha, SkipsGaps (·.smooth length alpha) := by
    intro alpha
    unfold smooth
    exact skipsGaps_scan (by intro state; rfl) _
  exact ⟨hsmooth alpha, hsmooth _, hsmooth _⟩

end Series

end ChartScript
