import ChartScript.Proofs.Series.Aligned
import ChartScript.Proofs.Series.LookAhead
/-!
# Studies of delayed series

A study that reads no bars does not know the time: applied to a series as it was some bars ago, it
yields its result as it was some bars ago. A delayed series begins with bars that have no value. A
window that reaches into them is not full, a smoother or a sum has not begun, and a pivot has not all
its neighbours, just as before the first bar. Results that are put together from such results inherit
the property, so it is carried along as a relation between two series.
-/
namespace ChartScript

open List

/-! ## Gaps in front -/

def lag {α : Type} (gap : α) (k : Nat) (items : List α) : List α :=
  (List.replicate k gap ++ items).take items.length

variable {α β : Type}

@[simp] theorem length_lag (gap : α) (k : Nat) (items : List α) : (lag gap k items).length = items.length := by
  simp [lag]

theorem map_lag (f : α → β) (gap : α) (k : Nat) (items : List α) :
    (lag gap k items).map f = lag (f gap) k (items.map f) := by
  simp [lag, map_take]

variable {xs history : List α} {ys : List β} {gap : α} {f : List α → Option β} {length : Nat}
  {values : List (Option Float)}

theorem zipWith_lag {γ : Type} (f : α → β → γ) (gap : α) (gap' : β) (k : Nat)
    (h : xs.length = ys.length) :
    List.zipWith f (lag gap k xs) (lag gap' k ys) = lag (f gap gap') k (List.zipWith f xs ys) := by
  have hfront : List.zipWith f (List.replicate k gap ++ xs) (List.replicate k gap' ++ ys) =
      List.replicate k (f gap gap') ++ List.zipWith f xs ys := by
    rw [zipWith_append (by simp)]
    simp
  rw [lag, lag, ← h, ← take_zipWith, hfront, lag, length_zipWith, ← h, Nat.min_self]

theorem zip_lag (gap : α) (gap' : β) (k : Nat) (h : xs.length = ys.length) :
    (lag gap k xs).zip (lag gap' k ys) = lag (gap, gap') k (xs.zip ys) :=
  zipWith_lag Prod.mk gap gap' k h

theorem lag_replicate (x : α) (k count : Nat) : lag x k (List.replicate count x) = List.replicate count x := by
  rw [lag, ← replicate_add, take_replicate, length_replicate]
  congr 1
  omega

theorem scan_lag {σ : Type} {step : σ → α → σ × Option β} {state : σ} (h : step state gap = (state, none))
    (k : Nat) (items : List α) : scan step state (lag gap k items) = lag none k (scan step state items) := by
  have hfront : scan step state (List.replicate k gap ++ items) =
      List.replicate k none ++ scan step state items := by
    induction k with
    | zero => rfl
    | succ k ih => simp [replicate_succ, scan, h, ih]
  rw [lag, ← scan_take, hfront, lag, length_scan]

/-! ## Functions of a history -/

theorem getElem?_scanHistory (f : List α → β) (items : List α) (i : Nat) :
    (scanHistory f items)[i]? = (items[i]?).map fun _ => f (items.take (i + 1)).reverse := by
  -- the history before the items is carried along
  have hpast : ∀ past : List α, (scan (fun past a => (a :: past, f (a :: past))) past items)[i]? =
      (items[i]?).map fun _ => f ((items.take (i + 1)).reverse ++ past) := by
    induction items generalizing i with
    | nil => simp [scan]
    | cons a rest ih =>
      intro past
      cases i with
      | zero => simp [scan]
      | succ i => simp [scan, ih]
  rw [scanHistory, hpast, append_nil]

/-- A function of a history that does not notice gaps before the first item. -/
structure IgnoresOldGaps {α β : Type} (gap : α) (f : List α → Option β) : Prop where
  empty : f [] = none
  old : ∀ history, f (history ++ [gap]) = f history

theorem IgnoresOldGaps.replicate (hf : IgnoresOldGaps gap f)
    (history : List α) (k : Nat) : f (history ++ List.replicate k gap) = f history := by
  induction k with
  | zero => simp
  | succ k ih => rw [replicate_succ', ← append_assoc, hf.old, ih]

theorem scanHistory_lag (hf : IgnoresOldGaps gap f) (k : Nat)
    (items : List α) : scanHistory f (lag gap k items) = lag none k (scanHistory f items) := by
  have hfront : scanHistory f (List.replicate k gap ++ items) = List.replicate k none ++ scanHistory f items := by
    apply ext_getElem?
    intro i
    rw [getElem?_scanHistory]
    by_cases hi : i < k
    · -- all bars so far are gaps
      have hgaps := hf.replicate [] (i + 1)
      rw [nil_append, hf.empty] at hgaps
      have hseen : (List.replicate k gap ++ items).take (i + 1) = List.replicate (i + 1) gap := by
        rw [take_append_of_le_length (by simp; omega), take_replicate, Nat.min_eq_left hi]
      rw [hseen, reverse_replicate, hgaps, getElem?_append_left (by simpa using hi),
        getElem?_append_left (by simpa using hi), getElem?_replicate_of_lt hi,
        getElem?_replicate_of_lt hi, Option.map_some]
    · obtain ⟨j, rfl⟩ := Nat.exists_eq_add_of_le (Nat.le_of_not_lt hi)
      have htake : (List.replicate k gap ++ items).take (k + j + 1) =
          List.replicate k gap ++ items.take (j + 1) := by
        rw [take_append, take_of_length_le (by simp; omega), length_replicate]
        congr 2
        omega
      rw [htake, reverse_append, reverse_replicate, hf.replicate]
      simp [getElem?_append_right, getElem?_scanHistory]
  rw [lag, ← scanHistory_take, hfront, lag, length_scanHistory]

theorem ignoresOldGaps_get (back : Nat) :
    IgnoresOldGaps none (fun history : List (Option Float) => (history[back]?).join) where
  empty := rfl
  old history := by
    by_cases h : back < history.length
    · simp [getElem?_append_left h]
    · have hnone : history[back]? = none := getElem?_eq_none (Nat.le_of_not_lt h)
      rw [hnone, getElem?_append_right (Nat.le_of_not_lt h), getElem?_singleton]
      split <;> rfl

theorem window?_append (x : α) (h : length ≤ history.length) :
    window? length (history ++ [x]) = window? length history := by
  rw [window?, window?, take_append_of_le_length h]

theorem window?_gap (read : α → Option β)
    (hgap : read gap = none) (h : history.length < length) :
    ((window? length (history ++ [gap])).bind fun items => items.mapM read) = none := by
  by_cases hfull : length = history.length + 1
  · subst hfull
    have hlast : ((history ++ [gap]).take (history.length + 1)).reverse = gap :: history.reverse := by
      rw [take_of_length_le (by simp)]
      simp
    rw [window?]
    simp [hlast, hgap]
  · have hshort : ((history ++ [gap]).take length).length < length := by
      simp
      omega
    simp only [window?, hshort, or_true, if_true, Option.bind_none]

theorem ignoresOldGaps_window {α β γ : Type} {gap : α} {read : α → Option β}
    (hgap : read gap = none) (length : Nat) (f : List β → Option γ) :
    IgnoresOldGaps gap (fun history => (window? length history).bind fun items => (items.mapM read).bind f) where
  empty := by
    have hnone : window? length ([] : List α) = none := by
      simp only [window?, take_nil, length_nil]
      rw [if_pos (Nat.eq_zero_or_pos length)]
    rw [hnone, Option.bind_none]
  old history := by
    by_cases h : length ≤ history.length
    · rw [window?_append gap h]
    · have hlt : history.length < length := Nat.lt_of_not_le h
      have hnone : window? length history = none := by
        rw [window?, if_pos]
        right
        simp
        omega
      rw [hnone, ← Option.bind_assoc, window?_gap read hgap hlt]
      rfl

theorem ignoresOldGaps_pivot (beats : Float → Float → Bool) (left right : Nat) :
    IgnoresOldGaps none (Series.pivot? beats left right) where
  empty := by simp [Series.pivot?]
  old history := by
    by_cases h : left + right + 1 ≤ history.length
    · rw [Series.pivot?, Series.pivot?, take_append_of_le_length h]
    · have hnone : Series.pivot? beats left right history = none := by
        rw [Series.pivot?, if_pos]
        simp
        omega
      rw [hnone]
      by_cases hfull : left + right + 1 = history.length + 1
      · -- the gap is the oldest of the neighbours, or the candidate itself
        have hitems : (history ++ [none]).take (left + right + 1) = history ++ [none] :=
          take_of_length_le (by simp; omega)
        rw [Series.pivot?]
        simp only [hitems]
        rw [if_neg (by simp; omega)]
        split
        · next candidate hcandidate =>
          have hright : right < history.length := by
            apply Nat.lt_of_not_le
            intro hle
            rw [getElem?_append_right hle, getElem?_singleton] at hcandidate
            split at hcandidate <;> cases hcandidate
          rw [drop_append_of_le_length (by omega)]
          simp
        · rfl
      · rw [Series.pivot?, if_pos]
        simp
        omega

theorem ignoresOldGaps_crossing (test : Float × Float → Float × Float → Bool) :
    IgnoresOldGaps (none, none) (fun history : List (Option Float × Option Float) =>
      match history with
      | (some x, some y) :: (some x₀, some y₀) :: _ => some (flagNumber (test (x₀, y₀) (x, y)))
      | _ => none) where
  empty := rfl
  old history := by
    match history with
    | [] => rfl
    | [(x, y)] => cases x <;> cases y <;> rfl
    | (x, y) :: (x₀, y₀) :: _ => cases x <;> cases y <;> cases x₀ <;> cases y₀ <;> rfl

/-! ## Delayed series -/

namespace Series

variable {k n : Nat} {s s' t t' : Series}

/-- Over the same `n` bars, the second series is the first `k` bars later. -/
structure Delays (k n : Nat) (s t : Series) : Prop where
  size : s.size = n
  values : t.values = lag none k s.values

theorem map_finite?_values (s : Series) : s.values.map finite? = s.values := by
  rw [map_congr_left (g := id), map_id]
  intro value hvalue
  cases value with
  | none => rfl
  | some x => simp [finite?, Option.filter, s.finite x hvalue]

theorem values_shift (s : Series) (k : Nat) : (s.shift k).values = lag none k s.values := by
  have hscan : scanHistory (fun history => (history[k]?).join) s.values = lag none k s.values := by
    apply ext_getElem?
    intro i
    rw [getElem?_scanHistory, lag, getElem?_take]
    split
    · next hi =>
      rw [getElem?_eq_getElem hi, Option.map_some]
      by_cases hk : k ≤ i
      · have hlen : k < (s.values.take (i + 1)).length := by
          simp
          omega
        have hplace : (s.values.take (i + 1)).length - 1 - k = i - k := by
          simp
          omega
        have hsome : i - k < s.values.length := by omega
        rw [getElem?_reverse hlen, hplace, getElem?_take_of_lt (by omega),
          getElem?_append_right (by simpa using hk), length_replicate, getElem?_eq_getElem hsome]
        rfl
      · rw [getElem?_eq_none (by simp; omega), getElem?_append_left (by simp; omega),
          getElem?_replicate_of_lt (by omega)]
        rfl
    · next hi => rw [getElem?_eq_none (Nat.le_of_not_lt hi), Option.map_none]
  calc (s.shift k).values = (lag none k s.values).map finite? := by rw [shift, hscan, ofValues]
    _ = lag none k (s.values.map finite?) := map_lag finite? none k s.values
    _ = lag none k s.values := by rw [map_finite?_values]

theorem Delays.shift_eq (h : Delays k n s t) : s.shift k = t :=
  Series.ext ((s.values_shift k).trans h.values.symm)

theorem delays_ofValues (h : values.length = n) :
    Delays k n (ofValues values) (ofValues (lag none k values)) where
  size := (size_ofValues values).trans h
  values := map_lag finite? none k values

namespace Delays

theorem rolling (h : Delays k n s t) (length : Nat) (f : List Float → Option Float) :
    Delays k n (s.rolling length f) (t.rolling length f) := by
  rw [Series.rolling, Series.rolling, h.values, scanHistory_lag (ignoresOldGaps_window rfl length f)]
  exact delays_ofValues ((length_scanHistory _ _).trans h.size)

theorem rollingPair (h : Delays k n s t) (h' : Delays k n s' t') (length : Nat)
    (f : List (Float × Float) → Option Float) :
    Delays k n (s.rollingPair s' length f) (t.rollingPair t' length f) := by
  have hlength : s.values.length = s'.values.length := h.size.trans h'.size.symm
  rw [Series.rollingPair, Series.rollingPair, h.values, h'.values,
    zip_lag _ _ _ hlength, scanHistory_lag (ignoresOldGaps_window rfl length f)]
  apply delays_ofValues
  rw [length_scanHistory, length_zip, ← hlength, Nat.min_self]
  exact h.size

theorem smooth (h : Delays k n s t) (length : Nat) (alpha : Float) :
    Delays k n (s.smooth length alpha) (t.smooth length alpha) := by
  rw [Series.smooth, Series.smooth, h.values, scan_lag]
  · exact delays_ofValues ((length_scan _ _ _).trans h.size)
  · rfl

theorem cum (h : Delays k n s t) : Delays k n s.cum t.cum := by
  rw [Series.cum, Series.cum, h.values, scan_lag]
  · exact delays_ofValues ((length_scan _ _ _).trans h.size)
  · rfl

theorem shift (h : Delays k n s t) (back : Nat) : Delays k n (s.shift back) (t.shift back) := by
  rw [Series.shift, Series.shift, h.values, scanHistory_lag (ignoresOldGaps_get back)]
  exact delays_ofValues ((length_scanHistory _ _).trans h.size)

theorem pivots (h : Delays k n s t) (beats : Float → Float → Bool) (left right : Nat) :
    Delays k n (ofValues (scanHistory (pivot? beats left right) s.values))
      (ofValues (scanHistory (pivot? beats left right) t.values)) := by
  rw [h.values, scanHistory_lag (ignoresOldGaps_pivot beats left right)]
  exact delays_ofValues ((length_scanHistory _ _).trans h.size)

/-! ### Bar by bar -/

theorem size_delayed (h : Delays k n s t) : t.size = n := by
  rw [Series.size, h.values, length_lag]
  exact h.size

theorem padded_size (hsize : s.size = n) : s.padded n = s.values := by
  rw [padded, hsize, Nat.sub_self, replicate_zero, append_nil]
  exact take_of_length_le (Nat.le_of_eq hsize)

theorem padded (h : Delays k n s t) : t.padded n = lag none k (s.padded n) := by
  rw [padded_size h.size, padded_size h.size_delayed, h.values]

theorem crossing (h : Delays k n s t) (h' : Delays k n s' t') (test : Float × Float → Float × Float → Bool) :
    Delays k n (Series.crossing test s s') (Series.crossing test t t') := by
  rw [Series.crossing, Series.crossing, h.size, h'.size, h.size_delayed, h'.size_delayed,
    Nat.max_self, h.padded, h'.padded]
  rw [zip_lag _ _ _ (by simp), scanHistory_lag]
  · exact delays_ofValues (by simp)
  · exact ignoresOldGaps_crossing test

theorem apply (h : Delays k n s t) (f : Float → Float) : Delays k n (Operand.apply f s) (Operand.apply f t) := by
  rw [Operand.apply, Operand.apply, Operand.mapValues, Operand.mapValues, Operand.size_series,
    Operand.size_series, h.size, h.size_delayed, Operand.values, Operand.values, h.padded, map_lag]
  exact delays_ofValues (by simp)

theorem binary (h : Delays k n s t) (h' : Delays k n s' t') (f : Float → Float → Option Float) :
    Delays k n (Operand.binary f s s') (Operand.binary f t t') := by
  rw [Operand.binary, Operand.binary, Operand.zipValues, Operand.zipValues]
  simp only [Operand.size_series, h.size, h'.size, h.size_delayed, h'.size_delayed, Nat.max_self,
    Operand.values, h.padded, h'.padded]
  rw [zipWith_lag _ _ _ _ (by simp)]
  exact delays_ofValues (by simp)

theorem binaryNumber (h : Delays k n s t) (x : Float) (f : Float → Float → Option Float) :
    Delays k n (Operand.binary f s x) (Operand.binary f t x) := by
  rw [Operand.binary, Operand.binary, Operand.zipValues, Operand.zipValues]
  simp only [Operand.size_series, Operand.size_number, h.size, h.size_delayed, Nat.max_zero,
    Operand.values, h.padded]
  nth_rewrite 2 [← lag_replicate _ k]
  rw [zipWith_lag _ _ _ _ (by simp)]
  exact delays_ofValues (by simp)

end Delays

theorem respected_delays (k n : Nat) : Respected (Delays k n) where
  rolling := .rolling
  rollingPair := .rollingPair
  pivots := .pivots
  smooth := .smooth
  cum := .cum
  shift := .shift
  crossing := .crossing
  apply := .apply
  binary := .binary
  binaryNumber := .binaryNumber

end Series

/-- The study of its series as they were `k` bars ago. -/
def Study.shift (k : Nat) : Study → Study :=
  mapSeries (·.shift k)

/-- A study that reads no bars commutes with delay: applied to its series as they were `k` bars ago,
it yields each of its results as it was `k` bars ago. Several series must be equally long. -/
theorem delay_commutes (b : Bars) (study : Study) (k : Nat) (hbars : study.readsBars = false)
    (hsizes : ∀ s ∈ study.arguments, ∀ t ∈ study.arguments, s.size = t.size) :
    (study.run b).length = study.resultCount ∧ (study.shift k).run b = (study.run b).map (·.shift k) := by
  obtain ⟨n, hn⟩ : ∃ n, ∀ s ∈ study.arguments, s.size = n := by
    cases harguments : study.arguments with
    | nil =>
      refine ⟨0, ?_⟩
      intro s hs
      cases hs
    | cons t rest =>
      refine ⟨t.size, ?_⟩
      intro s hs
      rw [← harguments] at hs
      exact hsizes s hs t (harguments ▸ mem_cons_self)
  have hrun : Forall₂ (Series.Delays k n) (study.run b) ((study.shift k).run b) := by
    apply study.run_related (Series.respected_delays k n)
    · intro s hs
      exact ⟨hn s hs, s.values_shift k⟩
    · simp [hbars]
  exact ⟨study.length_run b, (Study.map_eq_of_forall₂ (hrun.imp fun _ _ h => h.shift_eq)).symm⟩

def gappedSeries : Series :=
  .ofValues [some 3.0, none, some 2.0]

def risingSeries : Series :=
  .ofNumbers [1.0, 2.0, 4.0]

/-- A delay by one bar, and one by more bars than there are. -/
theorem delay_commutes_gap : ((Study.stoch gappedSeries risingSeries risingSeries 2 1).shift 1).run wildBars =
      ((Study.stoch gappedSeries risingSeries risingSeries 2 1).run wildBars).map (·.shift 1) ∧
    ((Study.rsi gappedSeries 2).shift 5).run wildBars =
      ((Study.rsi gappedSeries 2).run wildBars).map (·.shift 5) := by
  constructor
  · have hsize : gappedSeries.size = 3 := rfl
    have hsize' : risingSeries.size = 3 := rfl
    exact (delay_commutes wildBars _ 1 rfl (by simp [Study.arguments, hsize, hsize'])).2
  · exact (delay_commutes wildBars _ 5 rfl (by simp [Study.arguments])).2

end ChartScript
